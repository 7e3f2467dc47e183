import EspIdf.FreeRtos.RingLayout

/-! What a send, a receive and a return do to the blocks of a ring buffer. -/

namespace EspIdf.FreeRtos

open EspIdf.Device
open Bytes (load32_congr load32_store32 store32_out store_out)

structure Entry where
  skip : Bool
  bytes : List UInt8
  deriving DecidableEq, Repr

def Entry.blocks (e : Entry) : List Block :=
  if e.skip then [.dummy, .item e.bytes false] else [.item e.bytes false]

/-- The blocks `done` were received, and the entries `todo` were not.  The write pointer is less
than a lap ahead of the free pointer. -/
structure Ring (rb : Ringbuf) (F R W : Place) (done : List Block) (todo : List Entry) : Prop where
  size : rb.size < 2 ^ 31
  pos : 0 < rb.size
  free : rb.freePtr = F.off
  read : rb.readPtr = R.off
  write : rb.writePtr = W.off
  old : Walk rb.data rb.size F done R
  new : Walk rb.data rb.size R (todo.flatMap Entry.blocks) W
  room : W.Before F.later
  aligned : W.Aligned rb.size

section Ring

variable {rb : Ringbuf} {F R W : Place} {done : List Block} {todo : List Entry}

theorem configAssert_bind [Decidable p] (h : p) (f : Unit → Option α) : (configAssert p >>= f) =
    f () := by
  rw [configAssert, if_pos h]
  rfl

theorem noHeader_iff (h : rb.size < 2 ^ 31) (ha : a ≤ rb.size) : rb.noHeader a ↔
    rb.size < a + hdrSize := by
  unfold Ringbuf.noHeader toSize
  omega

theorem next_off {bytes : List UInt8} {free : Bool} (h : rb.size < 2 ^ 31)
    (hle : p.off + hdrSize + pad bytes.length ≤ rb.size) :
    (if rb.noHeader (p.off + hdrSize + pad bytes.length) then 0
      else p.off + hdrSize + pad bytes.length) = ((Block.item bytes free).next rb.size p).off := by
  simp only [Block.next, noHeader_iff h hle]
  split <;> rfl

namespace Ring

theorem fresh {type : RingbufType} {size : Nat} {data : Bytes} (hsize : size < 2 ^ 31)
    (hpos : 0 < size) : Ring (xRingbufferCreate size type data) ⟨0, 0⟩ ⟨0, 0⟩ ⟨0, 0⟩ [] [] where
  size := hsize
  pos := hpos
  free := rfl
  read := rfl
  write := rfl
  old := rfl
  new := rfl
  room := .inl Nat.one_pos
  aligned := ⟨rfl, .inr rfl⟩

section

variable (h : Ring rb F R W done todo)
include h

theorem walk : Walk rb.data rb.size F (done ++ todo.flatMap Entry.blocks) W :=
  walk_append.mpr ⟨R, h.old, h.new⟩

theorem free_aligned : F.Aligned rb.size := h.walk.aligned h.aligned

theorem read_aligned : R.Aligned rb.size := h.new.aligned h.aligned

end

/-! ### Receiving -/

theorem read_eq_write_iff (h : Ring rb F R W done todo) : rb.readPtr = rb.writePtr ↔ todo = [] := by
  rw [h.read, h.write]
  constructor
  · intro heq
    cases todo with
    | nil => rfl
    | cons e es =>
      have hbefore : R.Before W := by
        have hnew := h.new
        rw [List.flatMap_cons] at hnew
        unfold Entry.blocks at hnew
        split at hnew <;> exact hnew.before
      have hFR := h.old.upto
      have hroom := h.room
      simp only [Place.Before, Place.Upto, Place.later] at hbefore hFR hroom
      omega
  · rintro rfl
    have hnew : R = W := h.new
    rw [hnew]

theorem receive_none (h : Ring rb F R W done []) : xRingbufferReceiveFromISR rb =
    some (none, rb) := by
  have hread : rb.readPtr % 4 = 0 := by
    rw [h.read]
    exact h.read_aligned.1
  unfold xRingbufferReceiveFromISR getItemFromRingbufDefault
  rw [configAssert_bind hread, if_pos (h.read_eq_write_iff.mpr rfl)]
  rfl

theorem passItem_eq {p : Place} {bytes : List UInt8} {free : Bool} (hsize : rb.size < 2 ^ 31)
    (hread : rb.readPtr = p.off) (hstored : (Block.item bytes free).Stored rb.data rb.size p.off) :
    passItem rb = (some (p.off + hdrSize, bytes.length),
      { rb with readPtr := ((Block.item bytes free).next rb.size p).off }) := by
  obtain ⟨hin, hle, hlen, -, -⟩ := hstored
  have hpad := le_pad bytes.length
  rw [← next_off hsize hle]
  have hln : rb.hdrLen p.off = bytes.length := hlen
  simp only [passItem, hln, hread, round4_eq (show bytes.length < 2 ^ 31 by omega)]

theorem receive_some (h : Ring rb F R W done (e :: es)) : ∃ p R', xRingbufferReceiveFromISR rb =
        some (some (p, e.bytes.length), { rb with readPtr := R'.off }) ∧
      Ring { rb with readPtr := R'.off } F R' W (done ++ e.blocks) es ∧
      outs rb.size F (done ++ e.blocks) = outs rb.size F done ++ [(p, e.bytes)] ∧
      rb.data.read p e.bytes.length = e.bytes := by
  have hread : rb.readPtr % 4 = 0 := by
    rw [h.read]
    exact h.read_aligned.1
  have hne : ¬ rb.readPtr = rb.writePtr := fun heq => by cases h.read_eq_write_iff.mp heq
  have hnew := h.new
  rw [List.flatMap_cons, walk_append] at hnew
  obtain ⟨R', hfirst, hrest⟩ := hnew
  have hring : Ring { rb with readPtr := R'.off } F R' W (done ++ e.blocks) es := { h with
      read := rfl
      old := walk_append.mpr ⟨R, h.old, hfirst⟩
      new := hrest }
  have houts : outs rb.size F (done ++ e.blocks) = outs rb.size F done ++ outs rb.size R e.blocks :=
    h.old.outs_append
  unfold xRingbufferReceiveFromISR getItemFromRingbufDefault
  rw [configAssert_bind hread, if_neg hne]
  cases hskip : e.skip with
  | false =>
    have hblocks : e.blocks = [.item e.bytes false] := by simp [Entry.blocks, hskip]
    rw [hblocks] at hfirst
    obtain ⟨-, hstored, hR'⟩ := hfirst
    have hflags : rb.hdrFlags rb.readPtr = 0 := by rw [h.read]; exact hstored.2.2.2.1
    have hlen : rb.hdrLen rb.readPtr < rb.size := by
      have hl : rb.hdrLen rb.readPtr = e.bytes.length := by rw [h.read]; exact hstored.2.2.1
      have := hstored.2.1
      have := le_pad e.bytes.length
      have hhdr : hdrSize = 8 := rfl
      omega
    refine ⟨R.off + hdrSize, R', ?_, hring, ?_, hstored.2.2.2.2⟩
    · rw [configAssert_bind (.inl hlen), if_neg (by rw [hflags]; decide),
        passItem_eq h.size h.read hstored, hR']
      rfl
    · rw [houts, hblocks]
      rfl
  | true =>
    have hblocks : e.blocks = [.dummy, .item e.bytes false] := by simp [Entry.blocks, hskip]
    rw [hblocks] at hfirst
    obtain ⟨-, hdummy, -, hstored, hR'⟩ := hfirst
    have hflags : rb.hdrFlags rb.readPtr = iflagDummydata := by rw [h.read]; exact hdummy.2
    have hlen : rb.hdrLen 0 < rb.size := by
      have hl : rb.hdrLen 0 = e.bytes.length := hstored.2.2.1
      have := hstored.2.1
      have := le_pad e.bytes.length
      have hhdr : hdrSize = 8 := rfl
      omega
    refine ⟨0 + hdrSize, R', ?_, hring, ?_, hstored.2.2.2.2⟩
    · have hd : rb.hdrFlags rb.readPtr &&& iflagDummydata ≠ 0 := by rw [hflags]; decide
      have hpass :=
        @passItem_eq { rb with readPtr := 0 } ⟨R.lap + 1, 0⟩ e.bytes false h.size rfl hstored
      rw [configAssert_bind (.inr hd), if_pos hd, configAssert_bind hlen, ← hR', hpass]
      rfl
    · rw [houts, hblocks]
      rfl

/-! ### Returning -/

theorem skipBlock_eq (h : Ring rb F R W (b :: bs) todo) (hb : ∀ bytes, b ≠ .item bytes false) :
    skipBlock rb = some { rb with freePtr := (b.next rb.size F).off } ∧
      Ring { rb with freePtr := (b.next rb.size F).off } (b.next rb.size F) R W bs todo ∧
      outs rb.size (b.next rb.size F) bs = outs rb.size F (b :: bs) := by
  obtain ⟨hF, hstored, hrest⟩ := h.old
  refine ⟨?_, ?_, ?_⟩
  · unfold skipBlock
    rw [h.free]
    cases b with
    | item bytes free =>
      cases free with
      | false => exact absurd rfl (hb bytes)
      | true =>
        obtain ⟨hin, hle, hlen, hflags, -⟩ := hstored
        have hpad := le_pad bytes.length
        have hfl : rb.hdrFlags F.off = iflagFree := hflags
        have hln : rb.hdrLen F.off = bytes.length := hlen
        have hsum : F.off + (pad bytes.length + hdrSize) = F.off + hdrSize + pad bytes.length := by
          omega
        rw [hfl, hln, round4_eq (by have := h.size; omega), if_neg (by decide), hsum,
          configAssert_bind hle, ← next_off h.size hle]
        rfl
    | dummy =>
      have hfl : rb.hdrFlags F.off = iflagDummydata := hstored.2
      rw [hfl, if_pos (by decide), configAssert_bind (Nat.zero_le _), ite_self]
      rfl
  · exact
      { h with
        free := rfl
        old := hrest
        room := h.room.trans_upto hstored.before.upto.later }
  · cases b with
    | item bytes free =>
      cases free with
      | false => exact absurd rfl (hb bytes)
      | true => rfl
    | dummy => rfl

theorem free_ne (h : Ring rb F R W (b :: bs) todo) : rb.freePtr ≠ rb.readPtr ∧
    rb.freePtr ≠ rb.writePtr := by
  have hold := h.old.before
  have hnew := h.new.upto
  have hroom := h.room
  rw [h.free, h.read, h.write]
  simp only [Place.Before, Place.Upto, Place.later] at hold hnew hroom
  omega

section

variable (h : Ring rb F R W done todo)
include h

theorem freeLoop_some (hne : done ≠ []) (hn : done.length ≤ n) :
    ∃ F' done', freeLoop n rb = some { rb with freePtr := F'.off } ∧
      Ring { rb with freePtr := F'.off } F' R W done' todo ∧
      outs rb.size F' done' = outs rb.size F done ∧ (outs rb.size F' done' = [] → done' = []) := by
  -- the rounds follow the blocks that were received
  induction n generalizing rb F done with
  | zero => exact absurd (List.length_eq_zero_iff.mp (Nat.le_zero.mp hn)) hne
  | succ n ih =>
    cases done with
    | nil => exact absurd rfl hne
    | cons b bs =>
      have hstay : { rb with freePtr := F.off } = rb := by rw [← h.free]
      unfold freeLoop
      dsimp only
      split
      · rename_i hcond
        have hb : ∀ bytes, b ≠ .item bytes false := by
          rintro bytes rfl
          have hflags : rb.hdrFlags rb.freePtr = 0 := by rw [h.free]; exact h.old.2.1.2.2.2.1
          rw [hflags] at hcond
          exact absurd hcond.1 (by decide)
        obtain ⟨hskip, hring, houts⟩ := h.skipBlock_eq hb
        rw [hskip]
        simp only [Option.bind_eq_bind, Option.bind_some]
        split
        · rename_i hread
          refine ⟨_, bs, rfl, hring, houts, fun _ => ?_⟩
          cases bs with
          | nil => rfl
          | cons b' bs' => exact absurd hread hring.free_ne.1
        · rename_i hread
          have hbs : bs ≠ [] := by
            rintro rfl
            have hR : b.next rb.size F = R := h.old.2.2
            rw [hR] at hread
            exact hread h.read.symm
          obtain ⟨F', done', hloop, hring', houts', hclear⟩ := ih hring hbs (by simpa using hn)
          exact ⟨F', done', hloop, hring', houts'.trans houts, hclear⟩
      · rename_i hcond
        refine ⟨F, b :: bs, by rw [hstay], by rw [hstay]; exact h, rfl, fun hnil => ?_⟩
        refine absurd ⟨?_, h.free_ne.2⟩ hcond
        rw [h.free]
        exact h.old.2.1.flags_of_not_out hnil

theorem write_le : W.off + hdrSize ≤ rb.size ∨ W.off = 0 := h.aligned.2

theorem read_upto_write : R.Upto W := h.new.upto

theorem length_done : done.length ≤ rb.size := by
  have hlen := h.old.length_le
  have hup := h.old.upto
  have hroom := h.read_upto_write.trans_before h.room
  have hR := h.read_aligned.2
  simp only [Place.Upto, Place.Before, Place.later] at hup hroom
  rcases hup with hlap | ⟨hlap, -⟩
  · rw [show R.lap - F.lap = 1 by omega] at hlen
    omega
  · rw [hlap, Nat.sub_self] at hlen
    omega

end

theorem mark {post : List Block} {bytes : List UInt8}
    (h : Ring rb F R W (pre ++ .item bytes false :: post) todo)
    (hpre : Walk rb.data rb.size F pre P)
    (hpost : Walk rb.data rb.size P (.item bytes false :: post) R) :
    Ring (rb.setFlags P.off iflagFree) F R W (pre ++ .item bytes true :: post) todo := by
  obtain ⟨hP, hstored, hrest⟩ := hpost
  have hhdr : hdrSize = 8 := rfl
  have hext : (Block.item bytes false).extent = hdrSize + pad bytes.length := rfl
  have hnextW := hrest.upto.trans h.read_upto_write
  -- the flags word occurs once between the free and the write pointer
  have hlap : ∀ l x, F.Upto ⟨l, x⟩ → Place.Before ⟨l, x⟩ W → P.off + 4 ≤ x → x < P.off + 8 →
      l = P.lap := by
    intro l x hl hl' h1 h2
    refine Place.lap_unique hl (hpre.upto.trans (Place.upto_lap (by omega)))
      (hl'.trans_upto h.room.upto) ?_
    exact ((hstored.before_next (show x < P.off + _ by omega)).trans_upto hnextW).trans_upto
      h.room.upto
  have hout : ∀ x, ¬ (P.off + 4 ≤ x ∧ x < P.off + 8) →
      rb.data x = (rb.setFlags P.off iflagFree).data x :=
    fun x hx => (store32_out (by omega)).symm
  have hnew : (Block.item bytes true).Stored (rb.setFlags P.off iflagFree).data rb.size P.off := by
    obtain ⟨hin, hle, hlen, -, hread⟩ := hstored
    refine ⟨hin, hle, ?_, load32_store32 (by decide), ?_⟩
    · rw [← hlen]
      exact (load32_congr fun x h1 h2 => hout x (by omega)).symm
    · refine Eq.trans ?_ hread
      exact (Bytes.read_congr fun x h1 h2 => hout x (by omega)).symm
  have hafter : ∀ l x, ((Block.item bytes false).next rb.size P).Upto ⟨l, x⟩ →
    Place.Before ⟨l, x⟩ W →
      rb.data x = (rb.setFlags P.off iflagFree).data x := by
    intro l x hl hl'
    refine hout x fun hx => ?_
    have heq := hlap l x (hpre.upto.trans (hstored.before.upto.trans hl)) hl' hx.1 hx.2
    have hbefore := hstored.before_next (show x < P.off + _ by omega)
    subst heq
    exact absurd (hl.trans_before hbefore) (by simp [Place.Before])
  exact { h with
      old := walk_append.mpr ⟨P, hpre.frame fun l x hl hl' => hout x fun hx => by
        have heq := hlap l x hl (hl'.trans_upto (hstored.before.upto.trans hnextW)) hx.1 hx.2
        simp only [Place.Before] at hl'
        omega, hP, hnew, hrest.frame fun l x hl hl' =>
          hafter l x hl (hl'.trans_upto h.read_upto_write)⟩
      new := h.new.frame fun l x hl hl' => hafter l x (hrest.upto.trans hl) hl' }

theorem return_some {bytes : List UInt8} (h : Ring rb F R W done todo)
    (hmem : (ptr, bytes) ∈ outs rb.size F done) :
    ∃ rb' F' done', vRingbufferReturnItem rb ptr = some rb' ∧ rb'.size = rb.size ∧
      rb'.type = rb.type ∧ Ring rb' F' R W done' todo ∧
      outs rb.size F' done' = (outs rb.size F done).eraseP (·.1 = ptr) ∧
      (outs rb.size F' done' = [] → done' = []) := by
  obtain ⟨pre, post, P, bytes', hdone, hpre, hptr, hpost, hnone⟩ := mem_outs h.old hmem
  subst hdone
  have hring := h.mark hpre hpost
  obtain ⟨hin, hle, hlen, hflags, -⟩ := hpost.2.1
  have hhdr : hdrSize = 8 := rfl
  have hpad := le_pad bytes'.length
  have hsub : ptr - hdrSize = P.off := by omega
  have hF : rb.freePtr % 4 = 0 := by
    rw [h.free]
    exact h.free_aligned.1
  have hln : rb.hdrLen P.off = bytes'.length := hlen
  have hfl : rb.hdrFlags P.off = 0 := hflags
  have hrounds := Nat.le_trans hring.length_done (Nat.le_add_right rb.size 2)
  obtain ⟨F', done', hloop, hring', houts, hclear⟩ := hring.freeLoop_some (by simp) hrounds
  refine ⟨{ rb.setFlags P.off iflagFree with freePtr := F'.off }, F', done', ?_, rfl, rfl, hring',
    houts.trans ?_, hclear⟩
  · unfold vRingbufferReturnItem returnItemToRingbufDefault
    rw [configAssert_bind hF, configAssert_bind (show ptr < rb.size by omega), hsub,
      configAssert_bind (show rb.hdrLen P.off < rb.size by omega), hfl,
      configAssert_bind (by decide), configAssert_bind (by decide)]
    exact hloop
  · have hfirst : ∀ i ∈ outs rb.size F pre, ¬ (decide (i.1 = ptr)) = true := by simpa using hnone
    rw [show (rb.setFlags P.off iflagFree).size = rb.size from rfl, hpre.outs_append,
      hpre.outs_append,
      List.eraseP_append_right _ hfirst]
    simp [outs, hptr, Block.next]

/-! ### Sending -/

section

variable (h : Ring rb F R W done todo)
include h

theorem push (hsame : ∀ l x, F.Upto ⟨l, x⟩ → Place.Before ⟨l, x⟩ W → rb.data x = m x)
    (hwalk : Walk m rb.size W (es.flatMap Entry.blocks) W') (hroom : W'.Before F.later)
    (haligned : W'.Aligned rb.size) :
    Ring { rb with data := m, writePtr := W'.off } F R W' done (todo ++ es) :=
  { h with
    write := rfl
    old := h.old.frame fun l x hl hl' => hsame l x hl (hl'.trans_upto h.read_upto_write)
    new := by
      rw [List.flatMap_append]
      exact walk_append.mpr ⟨W, h.new.frame fun l x hl hl' => hsame l x (h.old.upto.trans hl) hl',
        hwalk⟩
    room := hroom
    aligned := haligned }

theorem outside (hk : W.Upto ⟨k, x⟩) (hk' : Place.Before ⟨k, x⟩ F.later)
    (hl : F.Upto ⟨l, x⟩) : ¬ Place.Before ⟨l, x⟩ W := by
  intro hl'
  have heq := Place.lap_unique hl (h.walk.upto.trans hk) (hl'.trans_upto h.room.upto) hk'
  subst heq
  exact absurd (hk.trans_before hl') (by simp [Place.Before])

theorem lap_cases :
    (W.lap = F.lap ∧ F.off ≤ W.off) ∨ (W.lap = F.lap + 1 ∧ W.off < F.off) := by
  have hup := h.walk.upto
  have hroom := h.room
  simp only [Place.Upto, Place.Before, Place.later] at hup hroom
  omega

theorem freeMem_eq : ((toSize (ringbufferFreeMem rb) : Nat) : Int) =
      (if W.off < F.off then (F.off : Int) - W.off else F.off - W.off + rb.size) - 1 := by
  have hF := h.free_aligned.2
  have hW := h.aligned.2
  have hsize := h.size
  have hpos := h.pos
  have hhdr : hdrSize = 8 := rfl
  unfold toSize ringbufferFreeMem
  rw [h.free, h.write]
  dsimp only
  split_ifs <;> omega

end

end Ring

theorem writeItem_eq {p : Place} {bytes : List UInt8} (hsize : rb.size < 2 ^ 31)
    (hp : rb.writePtr = p.off) (hin : p.off + hdrSize < rb.size)
    (hle : p.off + hdrSize + pad bytes.length ≤ rb.size) :
    ∃ m, writeItem rb bytes (pad bytes.length) =
        { rb with data := m, writePtr := ((Block.item bytes false).next rb.size p).off } ∧
      (Block.item bytes false).Stored m rb.size p.off ∧
      ∀ x, ¬ (p.off ≤ x ∧ x < p.off + hdrSize + pad bytes.length) → rb.data x = m x := by
  have hpad := le_pad bytes.length
  have hhdr : hdrSize = 8 := rfl
  refine ⟨((rb.data.store32 p.off bytes.length).store32 (p.off + 4) 0).store
    (p.off + hdrSize) bytes,
    ?_, ⟨hin, hle, ?_, ?_, Bytes.read_store⟩, fun x hx => ?_⟩
  · rw [← next_off hsize hle]
    simp only [writeItem, Ringbuf.setLen, Ringbuf.setFlags, hp]
  · refine Eq.trans ?_ (load32_store32 (m := rb.data) (a := p.off) (by omega))
    refine load32_congr fun x h1 h2 => ?_
    rw [store_out (by omega), store32_out (by omega)]
  · refine Eq.trans (load32_congr fun x h1 h2 => store_out (by omega)) ?_
    exact load32_store32 (by decide)
  · rw [store_out (by omega), store32_out (by omega), store32_out (by omega)]

def PartsOf (type : RingbufType) (bytes : List UInt8) (parts : List (List UInt8)) : Prop :=
  parts = [bytes] ∨
    type = .allowsplit ∧ ∃ a b, a ≠ [] ∧ b ≠ [] ∧ parts = [a, b] ∧ bytes = a ++ b

/-- The condition for sending `n` bytes.  The end of the item must not make the write pointer wrap
around to a free pointer at the start of the buffer, an empty item must not take the last header of
the buffer, and an item is split only in a buffer of whole words. -/
structure SendOk (rb : Ringbuf) (n : Nat) : Prop where
  short : n < 2 ^ 31
  gap : ¬ (rb.freePtr = 0 ∧ rb.writePtr + hdrSize + pad n < rb.size ∧
    rb.size < rb.writePtr + hdrSize + pad n + hdrSize)
  inside : ¬ (n = 0 ∧ rb.writePtr + hdrSize = rb.size ∧ rb.freePtr ≠ 0)
  words : rb.type = .allowsplit → rb.size < rb.writePtr + hdrSize + pad n → rb.size % 4 = 0

namespace Ring

def Sent (rb : Ringbuf) (F R : Place) (done : List Block) (todo : List Entry) (bytes : List UInt8)
    (res : Option (Bool × Ringbuf)) : Prop :=
  res = some (false, rb) ∨
    ∃ rb' W' es, res = some (true, rb') ∧ rb'.size = rb.size ∧ rb'.type = rb.type ∧
      Ring rb' F R W' done (todo ++ es) ∧ PartsOf rb.type bytes (es.map Entry.bytes)

section

variable (h : Ring rb F R W done todo)
include h

theorem sent_whole {bytes : List UInt8} (hok : SendOk rb bytes.length)
    (hfit : W.off + hdrSize + pad bytes.length ≤ rb.size)
    (hfree : hdrSize + pad bytes.length ≤ toSize (ringbufferFreeMem rb)) :
    Sent rb F R done todo bytes (some (true, writeItem rb bytes (pad bytes.length))) := by
  have hmem := h.freeMem_eq
  have hlap := h.lap_cases
  have hF := h.free_aligned.2
  have hgap := hok.gap
  have hinside := hok.inside
  have hpad := le_pad bytes.length
  rw [h.free, h.write] at hgap hinside
  have hin : W.off + hdrSize < rb.size := by
    split_ifs at hmem <;> omega
  obtain ⟨m, hwrite, hstored, hout⟩ := writeItem_eq h.size h.write hin hfit
  have hroom : ((Block.item bytes false).next rb.size W).Before F.later := by
    simp only [Block.next, Place.Before, Place.later]
    split_ifs at hmem ⊢ <;> dsimp only <;> omega
  refine .inr ⟨_, (Block.item bytes false).next rb.size W, [⟨false, bytes⟩], rfl, ?_, ?_, ?_,
    .inl rfl⟩
  · rw [hwrite]
  · rw [hwrite]
  · rw [hwrite]
    refine h.push (fun l x hl hl' => hout x fun hx => ?_) ⟨h.aligned.1, hstored, rfl⟩ hroom
      (Block.next_aligned h.aligned.1)
    refine h.outside (Place.upto_lap hx.1) ?_ hl hl'
    have hext : (Block.item bytes false).extent = hdrSize + pad bytes.length := rfl
    exact (hstored.before_next (show x < W.off + _ by omega)).trans_upto hroom.upto

theorem sent_wrapped {bytes rest : List UInt8} {b : Block} {es : List Entry} {m₁ : Bytes}
    (hbelow : hdrSize + pad rest.length < F.off) (hFW : F.off ≤ W.off)
    (hb : b.Stored m₁ rb.size W.off) (hnext : b.next rb.size W = ⟨W.lap + 1, 0⟩)
    (hout : ∀ x, ¬ (W.off ≤ x ∧ x < rb.size) → rb.data x = m₁ x)
    (hes : es.flatMap Entry.blocks = [b, .item rest false])
    (hparts : PartsOf rb.type bytes (es.map Entry.bytes)) (hext : W.off + b.extent ≤ rb.size) :
    Sent rb F R done todo bytes
      (some (true, writeItem { rb with data := m₁, writePtr := 0 } rest (pad rest.length))) := by
  have hlap := h.lap_cases
  have hF := h.free_aligned.2
  have hhdr : hdrSize = 8 := rfl
  have hpos := pad_mod rest.length
  obtain ⟨m, hwrite, hstored, hout'⟩ :=
    @writeItem_eq { rb with data := m₁, writePtr := 0 } ⟨W.lap + 1, 0⟩ rest h.size rfl
      (by dsimp only; omega) (by dsimp only; omega)
  dsimp only at hwrite hstored hout'
  have hend : (Block.item rest false).next rb.size ⟨W.lap + 1, 0⟩ =
      ⟨W.lap + 1, 0 + hdrSize + pad rest.length⟩ := if_neg (by dsimp only; omega)
  rw [hend] at hwrite
  have hroom : Place.Before ⟨W.lap + 1, 0 + hdrSize + pad rest.length⟩ F.later := by
    simp only [Place.Before, Place.later]
    omega
  refine .inr ⟨_, ⟨W.lap + 1, 0 + hdrSize + pad rest.length⟩, es, rfl, ?_, ?_, ?_, hparts⟩
  · rw [hwrite]
  · rw [hwrite]
  · rw [hwrite]
    have hb' : b.Stored m rb.size W.off := hb.congr fun x h1 h2 => hout' x (by omega)
    refine h.push (fun l x hl hl' => ?_) ?_ hroom
      ⟨by dsimp only; omega, .inl (by dsimp only; omega)⟩
    · refine (hout x fun hx => ?_).trans (hout' x fun hx => ?_)
      · refine h.outside (Place.upto_lap hx.1) ?_ hl hl'
        exact .inl (by dsimp only [Place.later]; omega)
      · refine h.outside (k := W.lap + 1) (.inl (Nat.lt_succ_self _)) ?_ hl hl'
        simp only [Place.Before, Place.later]
        omega
    · rw [hes]
      refine ⟨h.aligned.1, hb', ?_⟩
      rw [hnext]
      exact ⟨rfl, hstored, hend⟩

theorem sent_dummy {bytes : List UInt8} {m₁ : Bytes}
    (hbelow : hdrSize + pad bytes.length < F.off) (hFW : F.off ≤ W.off)
    (hflags : m₁.load32 (W.off + 4) = iflagDummydata)
    (hout : ∀ x, ¬ (W.off ≤ x ∧ x < W.off + hdrSize) → rb.data x = m₁ x) :
    Sent rb F R done todo bytes
      (some (true, writeItem { rb with data := m₁, writePtr := 0 } bytes (pad bytes.length))) := by
  have hW : W.off + hdrSize ≤ rb.size := h.write_le.resolve_right (by omega)
  have hes : [Entry.mk true bytes].flatMap Entry.blocks = [.dummy, .item bytes false] := rfl
  have hstored : Block.dummy.Stored m₁ rb.size W.off := ⟨hW, hflags⟩
  exact h.sent_wrapped hbelow hFW hstored rfl (fun x hx => hout x (by omega)) hes (.inl rfl) hW

theorem sent_split {bytes : List UInt8} {m₁ : Bytes} {n : Nat}
    (htype : rb.type = .allowsplit) (hn : n ≠ 0) (hlt : n < bytes.length) (hn4 : n % 4 = 0)
    (hend : W.off + hdrSize + n = rb.size) (hbelow : hdrSize + pad (bytes.length - n) < F.off)
    (hFW : F.off ≤ W.off) (hlen : m₁.load32 W.off = n) (hflags : m₁.load32 (W.off + 4) = 0)
    (hread : m₁.read (W.off + hdrSize) n = bytes.take n)
    (hout : ∀ x, ¬ (W.off ≤ x ∧ x < rb.size) → rb.data x = m₁ x) :
    Sent rb F R done todo bytes (some (true, writeItem { rb with data := m₁, writePtr := 0 }
      (bytes.drop n) (pad (bytes.drop n).length))) := by
  have hhdr : hdrSize = 8 := rfl
  have htake : (bytes.take n).length = n := by
    rw [List.length_take]
    omega
  have hpad : pad n = n := by
    unfold pad
    omega
  have hstored : (Block.item (bytes.take n) false).Stored m₁ rb.size W.off := by
    refine ⟨by omega, by rw [htake]; omega, hlen.trans htake.symm, hflags, ?_⟩
    rw [htake]
    exact hread
  have hparts : PartsOf rb.type bytes [bytes.take n, bytes.drop n] := by
    refine .inr ⟨htype, bytes.take n, bytes.drop n, ?_, ?_, rfl,
      (List.take_append_drop n bytes).symm⟩
    · exact fun he => hn (by rw [← htake, he]; rfl)
    · exact fun he => absurd (congrArg List.length he) (by simp; omega)
  have hnext : (Block.item (bytes.take n) false).next rb.size W = ⟨W.lap + 1, 0⟩ :=
    if_pos (by rw [htake]; omega)
  have hes : [Entry.mk false (bytes.take n), ⟨false, bytes.drop n⟩].flatMap Entry.blocks =
      [.item (bytes.take n) false, .item (bytes.drop n) false] := rfl
  refine h.sent_wrapped (by rw [List.length_drop]; exact hbelow) hFW hstored hnext hout hes
    hparts ?_
  simp only [Block.extent, htake, hpad]
  omega

theorem copy_asserts : rb.writePtr % 4 = 0 ∧
    toSize (rb.writePtr - rb.size) ≥ hdrSize := by
  have hW := h.aligned
  have hsize := h.size
  have hpos := h.pos
  have hhdr : hdrSize = 8 := rfl
  unfold Place.Aligned at hW
  rw [h.write]
  unfold toSize
  omega

theorem remLen_eq : toSize (rb.size - rb.writePtr) = rb.size - W.off := by
  have hW := h.aligned.2
  have hsize := h.size
  rw [h.write]
  unfold toSize
  omega

theorem noSplit_sent {bytes : List UInt8} (hok : SendOk rb bytes.length) :
    Sent rb F R done todo bytes (copyItemToRingbufNoSplit rb bytes) := by
  have hshort := hok.short
  have hhdr : hdrSize = 8 := rfl
  have hpad : pad bytes.length ≤ bytes.length + 3 := by unfold pad; omega
  unfold copyItemToRingbufNoSplit
  simp only [configAssert_bind h.copy_asserts.1, configAssert_bind h.copy_asserts.2, h.remLen_eq,
    round4_eq hshort]
  have h1 : toSize (pad bytes.length + hdrSize) = pad bytes.length + hdrSize := by
    unfold toSize; omega
  have h2 : toSize (pad bytes.length + hdrSize + 4) = pad bytes.length + hdrSize + 4 := by
    unfold toSize; omega
  have h3 : toSize (hdrSize + pad bytes.length) = hdrSize + pad bytes.length := by
    unfold toSize; omega
  split
  · split
    · exact .inl rfl
    · split
      · exact .inl rfl
      · rw [h.free, h.write] at *
        refine h.sent_dummy (by omega) (by omega) (load32_store32 (by decide)) fun x hx => ?_
        exact (store32_out (by omega)).symm
  · split
    · exact .inl rfl
    · exact h.sent_whole hok (by omega) (by omega)

theorem allowSplit_sent {bytes : List UInt8}
    (hok : SendOk rb bytes.length) (htype : rb.type = .allowsplit) :
    Sent rb F R done todo bytes (copyItemToRingbufAllowSplit rb bytes) := by
  have hshort := hok.short
  have hwords := hok.words htype
  have hW := h.aligned
  have hF := h.free_aligned.2
  have hmem := h.freeMem_eq
  have hhdr : hdrSize = 8 := rfl
  have hpad : pad bytes.length ≤ bytes.length + 3 := by unfold pad; omega
  have hpad4 := pad_mod bytes.length
  unfold Place.Aligned at hW
  rw [h.write] at hwords
  unfold copyItemToRingbufAllowSplit
  simp only [configAssert_bind h.copy_asserts.1, configAssert_bind h.copy_asserts.2, h.remLen_eq,
    round4_eq hshort]
  have h1 : toSize (pad bytes.length + hdrSize) = pad bytes.length + hdrSize := by
    unfold toSize; omega
  have h2 : toSize (hdrSize * 2 + pad bytes.length) = hdrSize * 2 + pad bytes.length := by
    unfold toSize; omega
  have h3 : toSize (hdrSize + pad bytes.length) = hdrSize + pad bytes.length := by
    unfold toSize; omega
  split
  · split
    · exact .inl rfl
    · have hFW : F.off ≤ W.off := by
        split_ifs at hmem <;> omega
      rw [configAssert_bind (show rb.size - W.off ≥ hdrSize by omega)]
      simp only [Ringbuf.setFlags, Ringbuf.setLen, h.write]
      split
      · rename_i hne
        -- the rest of the lap holds the first part
        have hn : (rb.size - W.off - hdrSize) % 4 = 0 := by omega
        have hlt : rb.size - W.off - hdrSize < bytes.length := by omega
        have hrest : pad (bytes.length - (rb.size - W.off - hdrSize)) =
            pad bytes.length - (rb.size - W.off - hdrSize) := by
          unfold pad
          omega
        have hround : toSize (pad bytes.length - (rb.size - W.off - hdrSize : Nat)) =
            pad (bytes.drop (rb.size - W.off - hdrSize)).length := by
          rw [List.length_drop]
          unfold toSize
          omega
        have htake : (bytes.take (rb.size - W.off - hdrSize)).length =
            rb.size - W.off - hdrSize := by
          rw [List.length_take]
          omega
        rw [hround]
        refine h.sent_split htype hne hlt hn (by omega) (by omega) hFW ?_ ?_ ?_ fun x hx => ?_
        · refine Eq.trans (load32_congr fun x h1 h2 => store_out (by omega)) ?_
          exact load32_store32 (by omega)
        · refine Eq.trans (load32_congr fun x h1 h2 => ?_)
            (load32_store32 (m := rb.data) (a := W.off + 4) (v := 0) (by decide))
          rw [store_out (by omega)]
          exact store32_out (by omega)
        · have hstore := @Bytes.read_store
            ((rb.data.store32 (W.off + 4) 0).store32 W.off (rb.size - W.off - hdrSize))
            (W.off + hdrSize) (bytes.take (rb.size - W.off - hdrSize))
          rw [htake] at hstore
          exact hstore
        · rw [store_out (by omega), store32_out (by omega), store32_out (by omega)]
      · refine h.sent_dummy (by omega) hFW (load32_store32 (by decide)) fun x hx => ?_
        rw [store32_out (by omega), store32_out (by omega), store32_out (by omega)]
  · split
    · exact .inl rfl
    · exact h.sent_whole hok (by omega) (by omega)

theorem send_sent {bytes : List UInt8} (hok : SendOk rb bytes.length) :
    Sent rb F R done todo bytes (xRingbufferSendFromISR rb bytes) := by
  unfold xRingbufferSendFromISR
  dsimp only
  split
  · exact .inl rfl
  · unfold copyItemToRingbuf
    split
    · exact h.noSplit_sent hok
    · rename_i htype
      exact h.allowSplit_sent hok htype

end

end Ring

end Ring

end EspIdf.FreeRtos
