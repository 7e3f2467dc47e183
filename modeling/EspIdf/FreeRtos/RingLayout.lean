import EspIdf.FreeRtos.Ringbuf

/-! The blocks of a ring buffer.  A place is an offset with the number of times the buffer was gone
around, so that the blocks lie one after the other from the free pointer over the read pointer to
the write pointer. -/

namespace EspIdf.FreeRtos

open EspIdf.Device

/-! ### Places -/

/-- An offset, with how often the end of the buffer was passed before it. -/
structure Place where
  lap : Nat
  off : Nat
  deriving DecidableEq, Repr

namespace Place

def Upto (p q : Place) : Prop := p.lap < q.lap ∨ p.lap = q.lap ∧ p.off ≤ q.off

def Before (p q : Place) : Prop := p.lap < q.lap ∨ p.lap = q.lap ∧ p.off < q.off

def later (p : Place) : Place := ⟨p.lap + 1, p.off⟩

def Aligned (size : Nat) (p : Place) : Prop := p.off % 4 = 0 ∧ (p.off + hdrSize ≤ size ∨ p.off = 0)

variable {p q r : Place}

theorem Upto.refl (p : Place) : p.Upto p := .inr ⟨rfl, Nat.le_refl _⟩

theorem Upto.trans (h : p.Upto q) (h' : q.Upto r) : p.Upto r := by
  unfold Upto at *
  omega

theorem Upto.trans_before (h : p.Upto q) (h' : q.Before r) : p.Before r := by
  unfold Upto Before at *
  omega

theorem Before.trans_upto (h : p.Before q) (h' : q.Upto r) : p.Before r := by
  unfold Upto Before at *
  omega

theorem Before.upto (h : p.Before q) : p.Upto q := by
  unfold Upto Before at *
  omega

theorem Upto.later (h : p.Upto q) : p.later.Upto q.later := by
  unfold Upto Place.later at *
  dsimp only
  omega

theorem upto_lap (h : a ≤ b) : Upto ⟨l, a⟩ ⟨l, b⟩ := .inr ⟨rfl, h⟩

theorem lap_unique (hl : p.Upto ⟨l, x⟩) (hk : p.Upto ⟨k, x⟩) (hl' : Before ⟨l, x⟩ p.later)
    (hk' : Before ⟨k, x⟩ p.later) : l = k := by
  simp only [Upto, Before, later] at *
  omega

end Place

/-! ### Blocks -/

def pad (n : Nat) : Nat := (n + 3) / 4 * 4

theorem le_pad (n : Nat) : n ≤ pad n := by
  unfold pad
  omega

theorem pad_mod (n : Nat) : pad n % 4 = 0 := by
  unfold pad
  omega

theorem round4_eq (h : n < 2 ^ 31) : round4 n = pad n := by
  unfold round4 pad
  rw [Nat.mod_eq_of_lt (by omega)]

inductive Block where
  | item (bytes : List UInt8) (free : Bool)
  | dummy

namespace Block

def next (size : Nat) (p : Place) : Block → Place
  | item bytes _ =>
    if size < p.off + hdrSize + pad bytes.length + hdrSize then ⟨p.lap + 1, 0⟩
    else ⟨p.lap, p.off + hdrSize + pad bytes.length⟩
  | dummy => ⟨p.lap + 1, 0⟩

def Stored (m : Bytes) (size a : Nat) : Block → Prop
  | item bytes free => a + hdrSize < size ∧ a + hdrSize + pad bytes.length ≤ size ∧
      m.load32 a = bytes.length ∧ m.load32 (a + 4) = (if free then iflagFree else 0) ∧
      m.read (a + hdrSize) bytes.length = bytes
  | dummy => a + hdrSize ≤ size ∧ m.load32 (a + 4) = iflagDummydata

def extent : Block → Nat
  | item bytes _ => hdrSize + pad bytes.length
  | dummy => hdrSize

variable {m m' : Bytes} {size a : Nat} {b : Block} {p : Place}

theorem Stored.header_le (h : b.Stored m size a) : a + hdrSize ≤ size := by
  cases b with
  | item bytes free => exact Nat.le_of_lt h.1
  | dummy => exact h.1

theorem Stored.congr (h : b.Stored m size a) (hm : ∀ x, a ≤ x → x < a + b.extent → m x = m' x) :
    b.Stored m' size a := by
  cases b with
  | item bytes free =>
    obtain ⟨hin, hle, hlen, hflags, hread⟩ := h
    have hpad := le_pad bytes.length
    simp only [extent, hdrSize] at hm
    refine ⟨hin, hle, ?_, ?_, ?_⟩
    · rw [← hlen]
      exact (Bytes.load32_congr fun x h1 h2 => hm x h1 (by omega)).symm
    · rw [← hflags]
      exact (Bytes.load32_congr fun x h1 h2 => hm x (by omega) (by omega)).symm
    · refine Eq.trans ?_ hread
      exact (Bytes.read_congr fun x h1 h2 => hm x (by omega) (by rw [hdrSize] at h2; omega)).symm
  | dummy =>
    simp only [extent, hdrSize] at hm
    refine ⟨h.1, ?_⟩
    rw [← h.2]
    exact (Bytes.load32_congr fun x h1 h2 => hm x (by omega) (by omega)).symm

theorem Stored.before_next (h : b.Stored m size p.off) (hx : x < p.off + b.extent) :
    Place.Before ⟨p.lap, x⟩ (b.next size p) := by
  cases b with
  | item bytes free =>
    simp only [extent] at hx
    simp only [next]
    split
    · exact .inl (Nat.lt_succ_self _)
    · exact .inr ⟨rfl, by dsimp only; omega⟩
  | dummy => exact .inl (Nat.lt_succ_self _)

theorem extent_pos (b : Block) : 0 < b.extent := by
  cases b with
  | item bytes free => exact Nat.lt_of_lt_of_le (by decide) (Nat.le_add_right hdrSize _)
  | dummy => exact (by decide : 0 < hdrSize)

theorem Stored.before (h : b.Stored m size p.off) : p.Before (b.next size p) :=
  h.before_next (by have := b.extent_pos; omega)

theorem next_aligned (hp : p.off % 4 = 0) : (b.next size p).Aligned size := by
  cases b with
  | item bytes free =>
    have := pad_mod bytes.length
    have hhdr : hdrSize = 8 := rfl
    simp only [next]
    split
    · exact ⟨rfl, .inr rfl⟩
    · exact ⟨by dsimp only; omega, .inl (by dsimp only; omega)⟩
  | dummy => exact ⟨rfl, .inr rfl⟩

end Block

/-! ### Walks -/

/-- The blocks follow one another from the first place to the last. -/
def Walk (m : Bytes) (size : Nat) : Place → List Block → Place → Prop
  | p, [], q => p = q
  | p, b :: bs, q => p.off % 4 = 0 ∧ b.Stored m size p.off ∧ Walk m size (b.next size p) bs q

/-- The pointers and bytes of the items that were not freed. -/
def outs (size : Nat) : Place → List Block → List (Nat × List UInt8)
  | _, [] => []
  | p, .item bytes false :: bs =>
    (p.off + hdrSize, bytes) :: outs size ((Block.item bytes false).next size p) bs
  | p, .item bytes true :: bs => outs size ((Block.item bytes true).next size p) bs
  | p, .dummy :: bs => outs size (Block.dummy.next size p) bs

theorem Block.Stored.flags_of_not_out {size : Nat} (h : b.Stored m size p.off)
    (hout : outs size p (b :: bs) = []) :
    m.load32 (p.off + 4) &&& iflagFree ≠ 0 ∨ m.load32 (p.off + 4) &&& iflagDummydata ≠ 0 := by
  cases b with
  | item bytes free =>
    cases free with
    | false => cases hout
    | true =>
      left
      rw [h.2.2.2.1]
      decide
  | dummy =>
    right
    rw [h.2]
    decide

section Walk

theorem Walk.upto (h : Walk m size p bs q) : p.Upto q := by
  induction bs generalizing p with
  | nil =>
    cases h
    exact .refl _
  | cons b bs ih => exact h.2.1.before.upto.trans (ih h.2.2)

theorem Walk.before (h : Walk m size p (b :: bs) q) : p.Before q :=
  h.2.1.before.trans_upto h.2.2.upto

theorem Walk.aligned (h : Walk m size p bs q) (hq : q.Aligned size) : p.Aligned size := by
  cases bs with
  | nil =>
    cases h
    exact hq
  | cons b bs => exact ⟨h.1, .inl h.2.1.header_le⟩

theorem Walk.frame (h : Walk m size p bs q)
    (hm : ∀ l x, p.Upto ⟨l, x⟩ → Place.Before ⟨l, x⟩ q → m x = m' x) : Walk m' size p bs q := by
  induction bs generalizing p with
  | nil => exact h
  | cons b bs ih =>
    obtain ⟨hp, hb, hrest⟩ := h
    refine ⟨hp, hb.congr fun x h1 h2 => ?_, ih hrest fun l x h1 h2 => hm l x ?_ h2⟩
    · exact hm p.lap x (Place.upto_lap h1) ((hb.before_next h2).trans_upto hrest.upto)
    · exact hb.before.upto.trans h1

theorem walk_append : Walk m size p (as ++ bs) q ↔ ∃ r, Walk m size p as r ∧
    Walk m size r bs q := by
  induction as generalizing p with
  | nil => exact ⟨fun h => ⟨p, rfl, h⟩, fun ⟨r, h1, h2⟩ => by cases h1; exact h2⟩
  | cons a as ih =>
    constructor
    · rintro ⟨hp, ha, hrest⟩
      obtain ⟨r, h1, h2⟩ := ih.mp hrest
      exact ⟨r, ⟨hp, ha, h1⟩, h2⟩
    · rintro ⟨r, ⟨hp, ha, h1⟩, h2⟩
      exact ⟨hp, ha, ih.mpr ⟨r, h1, h2⟩⟩

theorem Walk.outs_append (h : Walk m size p as q) :
    outs size p (as ++ bs) = outs size p as ++ outs size q bs := by
  induction as generalizing p with
  | nil =>
    cases h
    rfl
  | cons a as ih =>
    have hrest := ih h.2.2
    cases a with
    | item bytes free => cases free <;> simp [outs, hrest]
    | dummy => simp [outs, hrest]

theorem Walk.length_le (h : Walk m size p bs q) : bs.length + p.off ≤
    q.off + (q.lap - p.lap) * size := by
  induction bs generalizing p with
  | nil =>
    cases h
    simp
  | cons b bs ih =>
    obtain ⟨-, hb, hrest⟩ := h
    have hlen := ih hrest
    have hle := hb.header_le
    have hup := hrest.upto
    have hnext := hb.before
    rw [List.length_cons]
    simp only [Place.Upto, Place.Before, hdrSize] at hup hnext hle
    by_cases hlap : (b.next size p).lap = p.lap
    · rw [hlap] at hlen
      omega
    · have hone : (b.next size p).lap = p.lap + 1 := by
        cases b with
        | item bytes free =>
          simp only [Block.next] at hlap ⊢
          split
          · rfl
          · rename_i hfit
            rw [if_neg hfit] at hlap
            exact absurd rfl hlap
        | dummy => rfl
      have hmul : (q.lap - p.lap) * size = (q.lap - (p.lap + 1)) * size + size := by
        rw [← Nat.succ_mul]
        congr 1
        omega
      rw [hone] at hlen
      omega

theorem mem_outs {bytes : List UInt8} (h : Walk m size p bs q)
    (hmem : (ptr, bytes) ∈ outs size p bs) :
    ∃ pre post r bytes', bs = pre ++ .item bytes' false :: post ∧ Walk m size p pre r ∧
      ptr = r.off + hdrSize ∧ Walk m size r (.item bytes' false :: post) q ∧
      (∀ i ∈ outs size p pre, i.1 ≠ ptr) := by
  induction bs generalizing p with
  | nil => cases hmem
  | cons b bs ih =>
    have hcons : b :: bs = [] ++ b :: bs := rfl
    -- a block that is not the item is the first of the blocks before it
    have hstep : ∀ hrest : (ptr, bytes) ∈ outs size (b.next size p) bs,
        (∀ i ∈ outs size p [b], i.1 ≠ ptr) → ∃ pre post r bytes', b :: bs =
          pre ++ .item bytes' false :: post ∧ Walk m size p pre r ∧ ptr = r.off + hdrSize ∧
          Walk m size r (.item bytes' false :: post) q ∧ (∀ i ∈ outs size p pre, i.1 ≠ ptr) := by
      intro hrest hfirst
      obtain ⟨pre, post, r, bytes', heq, hpre, hptr, hpost, hnone⟩ := ih h.2.2 hrest
      refine ⟨b :: pre, post, r, bytes', by rw [heq]; rfl, ⟨h.1, h.2.1, hpre⟩, hptr, hpost, ?_⟩
      have hwalk : Walk m size p [b] (b.next size p) := ⟨h.1, h.2.1, rfl⟩
      rw [show b :: pre = [b] ++ pre from rfl, hwalk.outs_append]
      intro i hi
      rcases List.mem_append.mp hi with hi | hi
      · exact hfirst i hi
      · exact hnone i hi
    cases b with
    | item bs' free =>
      cases free with
      | true => exact hstep hmem (by simp [outs])
      | false =>
        by_cases hptr : ptr = p.off + hdrSize
        · exact ⟨[], bs, p, bs', hcons, rfl, hptr, h, by simp [outs]⟩
        · refine hstep ?_ (by simpa [outs] using fun he => hptr he.symm)
          rcases List.mem_cons.mp hmem with he | hmem
          · exact absurd (congrArg Prod.fst he) hptr
          · exact hmem
    | dummy => exact hstep hmem (by simp [outs])

theorem Walk.read_outs (h : Walk m size p bs q) : ∀ i ∈ outs size p bs, m.read i.1 i.2.length =
    i.2 := by
  induction bs generalizing p with
  | nil => simp [outs]
  | cons b bs ih =>
    intro i hi
    cases b with
    | item bytes free =>
      cases free with
      | true => exact ih h.2.2 i hi
      | false =>
        rcases List.mem_cons.mp hi with rfl | hi
        · exact h.2.1.2.2.2.2
        · exact ih h.2.2 i hi
    | dummy => exact ih h.2.2 i hi

end Walk

end EspIdf.FreeRtos
