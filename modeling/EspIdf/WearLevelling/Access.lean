import EspIdf.WearLevelling.PowerLoss

/-! Reads and writes of any extent.  `WL_Flash::write` and `WL_Flash::read` pass the whole `size` to
the driver for every page but the last, so an access past its first page is right only where the
pages happen to lie suitably. -/

namespace EspIdf.WearLevelling

open EspIdf.Device
open WlConfig (pages_fit pages_pos place)
open Bytes (getD_read length_read program_in program_out read_eq_iff)
open Prog (assert_true bind_eq pure_eq ret_bind run run_ret)

variable {c : WlConfig} {w : WlFlash} {m m' : Bytes} {turn pos a n x : Nat}

/-! ### The driver calls of an access -/

theorem run_read (k : EspErr × List UInt8 → Drv β) :
    run (flash size) ((Drv.read addr n).bind k) m' =
    run (flash size) (k (.ok, m'.read addr n)) m' := rfl

section Calls

variable (hc : c.Valid) (h : Online c w m turn pos)
include hc h

theorem write_two (hbound : a + src.length ≤ c.pages * c.pageSize) (h1 : c.pageSize < src.length)
    (h2 : src.length ≤ 2 * c.pageSize) :
    w.write a src src.length = (Drv.write (c.startAddr + c.place turn pos a) src).bind fun result =>
        if result ≠ .ok then .ret result
        else Drv.write (c.startAddr + c.place turn pos (a + c.pageSize)) (src.drop c.pageSize) := by
  have hpage := hc.pagePos
  have hfit := pages_fit hc
  have hmem := hc.bound
  rw [Nat.succ_mul] at hfit
  have hcount : sub32 src.length 1 / c.pageSize = 1 := by
    rw [sub32_eq (by omega) (by omega), Nat.div_eq_iff hpage]
    omega
  have hzero : u32 0 = 0 := rfl
  have hone : u32 c.pageSize = c.pageSize := u32_eq (by omega)
  have hrest : sub32 src.length c.pageSize = src.length - c.pageSize :=
    sub32_eq (by omega) (by omega)
  have hsum : c.pageSize + (src.length - c.pageSize) ≤ src.length := by omega
  have hphys := h.physAddr hc (a := a) (by omega)
  have hphys' := h.physAddr hc (a := a + c.pageSize) (by omega)
  have htake : (src.drop c.pageSize).take (src.length - c.pageSize) = src.drop c.pageSize :=
    List.take_of_length_le (by rw [List.length_drop])
  simp only [WlFlash.write, h.initialized, h.cfg, Bool.true_eq_false, if_false, hcount,
    WlFlash.writeLoop, Nat.zero_mul, Nat.one_mul, hzero, hone, Nat.add_zero, hphys, hphys', hrest,
    bind_eq, pure_eq, ret_bind, Prog.bind_assoc, Prog.ite_bind, ne_eq,
    not_true_eq_false, WlFlash.slice, Nat.zero_add, Nat.le_refl, decide_true, assert_true,
    List.drop_zero, List.take_length, hsum, htake]
  congr 1
  funext result
  split_ifs <;> rfl

theorem write_many (hbound : a + src.length ≤ c.pages * c.pageSize)
    (h2 : 2 * c.pageSize < src.length) :
    run (flash c.sectorSize) (w.write a src src.length) m = none := by
  have hpage := hc.pagePos
  have hfit := pages_fit hc
  have hmem := hc.bound
  rw [Nat.succ_mul] at hfit
  obtain ⟨k, hcount⟩ : ∃ k, sub32 src.length 1 / c.pageSize = k + 2 := by
    have : 2 ≤ sub32 src.length 1 / c.pageSize := by
      rw [sub32_eq (by omega) (by omega), Nat.le_div_iff_mul_le hpage]
      omega
    exact ⟨_, (Nat.sub_add_cancel this).symm⟩
  have hzero : u32 0 = 0 := rfl
  have hone : u32 c.pageSize = c.pageSize := u32_eq (by omega)
  have hover : ¬c.pageSize + src.length ≤ src.length := by omega
  simp only [WlFlash.write, h.initialized, h.cfg, Bool.true_eq_false, if_false, hcount,
    WlFlash.writeLoop, Nat.zero_mul, Nat.one_mul, hzero, hone, Nat.add_zero,
    bind_eq, pure_eq, ret_bind, ne_eq, WlFlash.slice, Nat.zero_add, Nat.le_refl,
    decide_true, assert_true, hover, decide_false, Prog.assert_false, Prog.halt_bind]
  rfl

theorem read_two (hbound : a + dest.length ≤ c.pages * c.pageSize) (h1 : c.pageSize < dest.length)
    (h2 : dest.length ≤ 2 * c.pageSize) (m' : Bytes) :
    run (flash c.sectorSize) (w.read a dest dest.length) m' =
      some ((.ok, (m'.read (c.startAddr + c.place turn pos a) dest.length).take c.pageSize ++
        m'.read (c.startAddr + c.place turn pos (a + c.pageSize)) (dest.length - c.pageSize)),
          m') := by
  have hpage := hc.pagePos
  have hfit := pages_fit hc
  have hmem := hc.bound
  rw [Nat.succ_mul] at hfit
  have hcount : sub32 dest.length 1 / c.pageSize = 1 := by
    rw [sub32_eq (by omega) (by omega), Nat.div_eq_iff hpage]
    omega
  have hzero : u32 0 = 0 := rfl
  have hone : u32 c.pageSize = c.pageSize := u32_eq (by omega)
  have hrest : sub32 dest.length c.pageSize = dest.length - c.pageSize :=
    sub32_eq (by omega) (by omega)
  have hsum : c.pageSize + (dest.length - c.pageSize) = dest.length := by omega
  have hphys := h.physAddr hc (a := a) (by omega)
  have hphys' := h.physAddr hc (a := a + c.pageSize) (by omega)
  have hdrop : (m'.read (c.startAddr + c.place turn pos a) dest.length).drop dest.length = [] :=
    List.drop_eq_nil_of_le (by rw [length_read])
  simp only [WlFlash.read, h.initialized, h.cfg, Bool.true_eq_false, if_false, hcount,
    WlFlash.readLoop, Nat.zero_mul, Nat.one_mul, hzero, hone, Nat.add_zero, hphys, hphys', hrest,
    bind_eq, pure_eq, ret_bind, Prog.bind_assoc, run_read, ne_eq, not_true_eq_false,
    WlFlash.store, Nat.zero_add, length_read, Nat.le_refl, decide_true, assert_true,
    List.take_zero, List.nil_append, List.drop_length, List.append_nil, hsum, hdrop, run_ret]

theorem read_one (hbound : a + dest.length ≤ c.pages * c.pageSize) (hpos : 0 < dest.length)
    (h1 : dest.length ≤ c.pageSize) (m' : Bytes) :
    run (flash c.sectorSize) (w.read a dest dest.length) m' =
      some ((.ok, m'.read (c.startAddr + c.place turn pos a) dest.length), m') := by
  rw [read_run hc h hpos hbound h1]
  simp only [run_read, ne_eq, not_true_eq_false, if_false, WlFlash.store, Nat.zero_add,
    length_read, Nat.le_refl, decide_true, assert_true, bind_eq, pure_eq,
    ret_bind, List.take_zero, List.nil_append, List.drop_length, List.append_nil, run_ret]

end Calls

/-! ### Which accesses are right -/

/-- When an access of `n` bytes from `a` is right: at most two driver calls, and at every page
boundary inside the range either the next virtual page is the next page of the flash, or the range
starts at a page and the first driver call, which writes the rest behind that page, meets no byte of
the state area that it could change. -/
structure AccessOk (c : WlConfig) (turn pos a n : Nat) : Prop where
  size : n ≤ 2 * c.pageSize
  boundary : ∀ v, a / c.pageSize ≤ v → (v + 1) * c.pageSize < a + n →
    slot c.pages turn pos (v + 1) = slot c.pages turn pos v + 1 ∨
    (a % c.pageSize = 0 ∧ c.pageSize < n ∧
      ∀ i, c.state1 + i < c.startAddr + (slot c.pages turn pos v + 1) * c.pageSize +
        (n - c.pageSize) → (c.header turn).bytes.getD i 0xff = 0)

/-- What a write of `src` at `a` should do: it returns, having read `src` only, a read of the range
returns `src`, and no other virtual byte and no byte of the state and configuration areas
changes. -/
def AccessRight (c : WlConfig) (w : WlFlash) (m : Bytes) (a : Nat) (src : List UInt8) : Prop :=
  ∃ m', Prog.run (flash c.sectorSize) (w.write a src src.length) m = some (.ok, m') ∧
    (∀ dest : List UInt8, dest.length = src.length →
      Prog.run (flash c.sectorSize) (w.read a dest src.length) m' = some ((.ok, src), m')) ∧
    (∀ x < w.chipSize, (x < a ∨ a + src.length ≤ x) → w.contents m' x = w.contents m x) ∧
    (∀ x, c.state1 ≤ x → m' x = m x)

theorem place_add (hpage : 0 < c.pageSize) (hk : a % c.pageSize + k < c.pageSize) :
    c.place turn pos (a + k) = c.place turn pos a + k := by
  have hda := Nat.div_add_mod' a c.pageSize
  have hdiv : (a + k) / c.pageSize = a / c.pageSize := by
    rw [Nat.div_eq_iff hpage]
    omega
  have hdk := Nat.div_add_mod' (a + k) c.pageSize
  unfold place
  rw [hdiv] at hdk ⊢
  omega

theorem place_inj (hc : c.Valid) (hx : x < c.pages * c.pageSize) (hy : y < c.pages * c.pageSize)
    (heq : c.place turn pos x = c.place turn pos y) : x = y := by
  have hwin : c.InPage y 1 := ⟨Nat.one_pos, hy, rfl⟩
  rcases place_window hc turn pos hwin hx with hin | hout
  · omega
  · omega

theorem place_contiguous (hnext : ∀ v, a / c.pageSize ≤ v → (v + 1) * c.pageSize < a + n →
    slot c.pages turn pos (v + 1) = slot c.pages turn pos v + 1)
    (hk : k < n) :
    c.place turn pos (a + k) = c.place turn pos a + k := by
  have hda := Nat.div_add_mod' a c.pageSize
  have hslot : ∀ j, (a / c.pageSize + j) * c.pageSize < a + n →
      slot c.pages turn pos (a / c.pageSize + j) = slot c.pages turn pos (a / c.pageSize) + j := by
    intro j
    induction j with
    | zero => exact fun _ => rfl
    | succ j ih =>
      intro hj
      have hle : (a / c.pageSize + j) * c.pageSize ≤ (a / c.pageSize + (j + 1)) * c.pageSize :=
        Nat.mul_le_mul_right _ (by omega)
      have hstep := hnext (a / c.pageSize + j) (Nat.le_add_right _ _) hj
      rw [← Nat.add_assoc, hstep, ih (by omega), Nat.add_assoc]
  obtain ⟨j, hj⟩ := Nat.exists_eq_add_of_le
    (Nat.div_le_div_right (c := c.pageSize) (Nat.le_add_right a k))
  have hdk := Nat.div_add_mod' (a + k) c.pageSize
  rw [hj] at hdk
  have hs := hslot j (by omega)
  rw [Nat.add_mul] at hdk
  unfold place
  rw [hj, hs, Nat.add_mul]
  omega

def written (c : WlConfig) (turn pos a : Nat) (src : List UInt8) (m : Bytes) : Bytes :=
  if src.length ≤ c.pageSize then m.program (c.startAddr + c.place turn pos a) src
  else (m.program (c.startAddr + c.place turn pos a) src).program
    (c.startAddr + c.place turn pos (a + c.pageSize)) (src.drop c.pageSize)

def fetched (c : WlConfig) (turn pos a n : Nat) (m : Bytes) : List UInt8 :=
  if n ≤ c.pageSize then m.read (c.startAddr + c.place turn pos a) n
  else (m.read (c.startAddr + c.place turn pos a) n).take c.pageSize ++
    m.read (c.startAddr + c.place turn pos (a + c.pageSize)) (n - c.pageSize)

section Iff

variable (hc : c.Valid) (h : Online c w m turn pos)
include hc h

theorem write_written (hpos : 0 < src.length) (hbound : a + src.length ≤ c.pages * c.pageSize)
    (hsize : src.length ≤ 2 * c.pageSize) :
    run (flash c.sectorSize) (w.write a src src.length) m =
      some (.ok, written c turn pos a src m) := by
  unfold written
  split
  · rename_i hone
    rw [write_run hc h hpos hbound hone]
    rfl
  · rw [write_two hc h hbound (by omega) hsize]
    rfl

theorem read_fetched (hpos : 0 < dest.length) (hbound : a + dest.length ≤ c.pages * c.pageSize)
    (hsize : dest.length ≤ 2 * c.pageSize) (m' : Bytes) :
    run (flash c.sectorSize) (w.read a dest dest.length) m' =
      some ((.ok, fetched c turn pos a dest.length m'), m') := by
  unfold fetched
  split
  · rename_i hone
    exact read_one hc h hbound hpos hone m'
  · exact read_two hc h hbound (by omega) hsize m'

theorem accessRight_iff (hpos : 0 < src.length) (hbound : a + src.length ≤ c.pages * c.pageSize)
    (hsize : src.length ≤ 2 * c.pageSize) :
    AccessRight c w m a src ↔ fetched c turn pos a src.length (written c turn pos a src m) = src ∧
      (∀ x < c.pages * c.pageSize, (x < a ∨ a + src.length ≤ x) →
        view c turn pos (written c turn pos a src m) x = view c turn pos m x) ∧
      ∀ x, c.state1 ≤ x → written c turn pos a src m x = m x := by
  have hcontents : ∀ m', ∀ x < c.pages * c.pageSize, w.contents m' x = view c turn pos m' x := by
    intro m' x hx
    rw [WlFlash.contents, h.calcAddr hc hx, h.cfg]
    rfl
  unfold AccessRight
  rw [h.chipSize, write_written hc h hpos hbound hsize]
  constructor
  · rintro ⟨m', hm', hread, hother, hstate⟩
    cases hm'
    have := hread src rfl
    rw [read_fetched hc h hpos hbound hsize] at this
    refine ⟨by injection this with h1; injection h1 with h1 _; injection h1, ?_, hstate⟩
    intro x hx hout
    have := hother x hx hout
    rwa [hcontents _ x hx, hcontents _ x hx] at this
  · rintro ⟨hread, hother, hstate⟩
    refine ⟨_, rfl, ?_, ?_, hstate⟩
    · intro dest hlen
      rw [← hlen] at hpos hbound hsize hread ⊢
      rw [read_fetched hc h hpos hbound hsize, hread]
    · intro x hx hout
      rw [hcontents _ x hx, hcontents _ x hx]
      exact hother x hx hout

end Iff

/-! ### Accesses that are right -/

theorem written_contiguous (hplace : ∀ k < src.length, c.place turn pos (a + k) =
    c.place turn pos a + k)
    (herased : ∀ k < src.length, m (c.startAddr + c.place turn pos a + k) = 0xff) :
    (∀ k < src.length, written c turn pos a src m (c.startAddr + c.place turn pos a + k) =
      src.getD k 0xff) ∧
    ∀ x, (x < c.startAddr + c.place turn pos a ∨ c.startAddr + c.place turn pos a + src.length ≤
      x) →
      written c turn pos a src m x = m x := by
  have hfirst : ∀ k < src.length, m.program (c.startAddr + c.place turn pos a) src
      (c.startAddr + c.place turn pos a + k) = src.getD k 0xff := by
    intro k hk
    rw [Bytes.program_erased (Nat.le_add_right _ _) (herased k hk), Nat.add_sub_cancel_left]
  unfold written
  split
  · exact ⟨hfirst, fun x hx => program_out hx⟩
  · rw [hplace c.pageSize (by omega), ← Nat.add_assoc]
    constructor
    · intro k hk
      by_cases hlt : k < c.pageSize
      · rw [program_out (.inl (by omega)), hfirst k hk]
      · rw [program_in (by omega), hfirst k hk]
        have hsame : (src.drop c.pageSize).getD
            (c.startAddr + c.place turn pos a + k - (c.startAddr + c.place turn pos a + c.pageSize))
            0xff = src.getD k 0xff := by
          rw [List.getD_eq_getElem?_getD, List.getElem?_drop]
          congr 2
          omega
        rw [hsame]
        exact UInt8.and_self
    · intro x hx
      rw [program_out (by rw [List.length_drop]; omega), program_out hx]

/-- An access of one to two page sizes from the start of a page on, whose second page does not
follow the first in the flash. -/
structure Spill (c : WlConfig) (turn pos a n : Nat) : Prop where
  align : a % c.pageSize = 0
  long : c.pageSize < n
  size : n ≤ 2 * c.pageSize
  bound : a + n ≤ c.pages * c.pageSize
  posLe : pos ≤ c.pages
  apart : slot c.pages turn pos (a / c.pageSize + 1) ≠ slot c.pages turn pos (a / c.pageSize) + 1

theorem page_mul_le (c : WlConfig) (hij : i < j) : i * c.pageSize + c.pageSize ≤
    j * c.pageSize := by
  rw [← Nat.succ_mul]
  exact Nat.mul_le_mul_right _ hij

namespace Spill

theorem place_page (h : Spill c turn pos a n) :
    c.place turn pos a = slot c.pages turn pos (a / c.pageSize) * c.pageSize := by
  unfold place
  rw [h.align, Nat.add_zero]

theorem written_eq (h : Spill c turn pos a src.length) : written c turn pos a src m =
      (m.program (c.startAddr + c.place turn pos a) src).program
        (c.startAddr + c.place turn pos (a + c.pageSize)) (src.drop c.pageSize) := by
  have hlong := h.long
  rw [written, if_neg (by omega)]

section Valid

variable (hc : c.Valid)
include hc

theorem next_div (a : Nat) : (a + c.pageSize) / c.pageSize = a / c.pageSize + 1 :=
  Nat.add_div_right a hc.pagePos

section

variable (h : Spill c turn pos a n)
include h

theorem place_next : c.place turn pos (a + c.pageSize) =
    slot c.pages turn pos (a / c.pageSize + 1) * c.pageSize := by
  unfold place
  rw [next_div hc, Nat.add_mod_right, h.align, Nat.add_zero]

theorem page_lt : a / c.pageSize + 1 < c.pages := by
  rw [← next_div hc]
  have hlong := h.long
  have hbound := h.bound
  exact page_lt_pages (by omega)

theorem free (u : Nat) :
    slot c.pages turn pos u ≠ slot c.pages turn pos (a / c.pageSize) + 1 := by
  rcases slot_next (pages_pos hc) turn (a / c.pageSize) h.posLe with hcase | hcase | hcase
  · exact absurd hcase h.apart
  · rw [hcase]
    exact slot_ne _ _ _ _
  · have := slot_le (pages_pos hc) turn pos u
    omega

theorem places_apart :
    c.place turn pos (a + c.pageSize) + c.pageSize ≤ c.place turn pos a ∨
      c.place turn pos a + 2 * c.pageSize ≤ c.place turn pos (a + c.pageSize) := by
  have hlt := h.page_lt hc
  have hfree := h.free hc (a / c.pageSize + 1)
  rw [h.place_page, h.place_next hc]
  rcases Nat.lt_trichotomy (slot c.pages turn pos (a / c.pageSize + 1))
    (slot c.pages turn pos (a / c.pageSize)) with hcase | hcase | hcase
  · exact .inl (page_mul_le c hcase)
  · have := slot_inj (by omega) (by omega) hcase
    omega
  · have hnext := page_mul_le c (show slot c.pages turn pos (a / c.pageSize) + 1 <
      slot c.pages turn pos (a / c.pageSize + 1) by omega)
    rw [Nat.succ_mul] at hnext
    omega

theorem out_first (hx : x < c.pages * c.pageSize) (hrange : x < a ∨ a + n ≤ x) :
    c.place turn pos x < c.place turn pos a ∨ c.place turn pos a + n ≤ c.place turn pos x := by
  have hda := Nat.div_add_mod' a c.pageSize
  have hdx := Nat.div_add_mod' x c.pageSize
  have hmx := Nat.mod_lt x hc.pagePos
  have halign := h.align
  have hlong := h.long
  have hsize := h.size
  have hlt := h.page_lt hc
  have hslot : slot c.pages turn pos (x / c.pageSize) ≠ slot c.pages turn pos (a / c.pageSize) := by
    intro heq
    rw [slot_inj (page_lt_pages hx) (by omega) heq] at hdx
    omega
  have hplace : c.place turn pos x =
      slot c.pages turn pos (x / c.pageSize) * c.pageSize + x % c.pageSize := rfl
  rw [h.place_page]
  rcases Nat.lt_trichotomy (slot c.pages turn pos (x / c.pageSize))
    (slot c.pages turn pos (a / c.pageSize) + 1) with hcase | hcase | hcase
  · have := page_mul_le c (show slot c.pages turn pos (x / c.pageSize) <
      slot c.pages turn pos (a / c.pageSize) by omega)
    omega
  · exact absurd hcase (h.free hc _)
  · have hnext := page_mul_le c hcase
    rw [Nat.succ_mul] at hnext
    omega

theorem out_second (hx : x < c.pages * c.pageSize)
    (hrange : x < a ∨ a + n ≤ x) : c.place turn pos x < c.place turn pos (a + c.pageSize) ∨
      c.place turn pos (a + c.pageSize) + (n - c.pageSize) ≤ c.place turn pos x := by
  have hda := Nat.div_add_mod' a c.pageSize
  have hdx := Nat.div_add_mod' x c.pageSize
  have hmx := Nat.mod_lt x hc.pagePos
  have halign := h.align
  have hsize := h.size
  have hlt := h.page_lt hc
  have hplace : c.place turn pos x =
      slot c.pages turn pos (x / c.pageSize) * c.pageSize + x % c.pageSize := rfl
  rw [h.place_next hc]
  rcases Nat.lt_trichotomy (slot c.pages turn pos (x / c.pageSize))
    (slot c.pages turn pos (a / c.pageSize + 1)) with hcase | hcase | hcase
  · have := page_mul_le c hcase
    omega
  · rw [slot_inj (page_lt_pages hx) hlt hcase, Nat.succ_mul] at hdx
    rw [hcase] at hplace
    omega
  · have := page_mul_le c hcase
    omega

end

theorem fetched_eq (h : Spill c turn pos a src.length)
    (herased : ∀ x, a ≤ x → x < a + src.length → view c turn pos m x = 0xff) :
    fetched c turn pos a src.length (written c turn pos a src m) = src := by
  have hpage := hc.pagePos
  have halign := h.align
  have hlong := h.long
  have hsize := h.size
  have hapart := h.places_apart hc
  have hdrop : (src.drop c.pageSize).length = src.length - c.pageSize := List.length_drop
  rw [h.written_eq, fetched, if_neg (by omega)]
  have hfirst : ((((m.program (c.startAddr + c.place turn pos a) src).program
      (c.startAddr + c.place turn pos (a + c.pageSize)) (src.drop c.pageSize)).read
      (c.startAddr + c.place turn pos a) src.length)).take c.pageSize = src.take c.pageSize := by
    apply List.ext_getElem (by simp)
    intro k h1 h2
    have hk : k < c.pageSize := by simp at h1; omega
    have hget : src.getD k 0xff = src[k] := List.getD_eq_getElem _ _ _
    have hones := herased (a + k) (by omega) (by omega)
    rw [view, place_add hpage (by omega), ← Nat.add_assoc] at hones
    simp only [List.getElem_take, Bytes.read, List.getElem_map, List.getElem_range]
    rw [program_out (by omega), Bytes.program_erased (by omega) hones,
      Nat.add_sub_cancel_left, hget]
  have hsecond : ((m.program (c.startAddr + c.place turn pos a) src).program
      (c.startAddr + c.place turn pos (a + c.pageSize)) (src.drop c.pageSize)).read
      (c.startAddr + c.place turn pos (a + c.pageSize)) (src.length - c.pageSize) =
      src.drop c.pageSize := by
    rw [← hdrop]
    apply Bytes.read_program_erased
    intro x h1 h2
    obtain ⟨k, rfl⟩ := Nat.exists_eq_add_of_le h1
    have hones := herased (a + c.pageSize + k) (by omega) (by omega)
    rw [view, place_add hpage (by rw [Nat.add_mod_right]; omega), ← Nat.add_assoc] at hones
    rw [program_out (by omega), hones]
  rw [hfirst, hsecond, List.take_append_drop]

theorem view_out (h : Spill c turn pos a src.length) (hx : x < c.pages * c.pageSize)
    (hrange : x < a ∨ a + src.length ≤ x) :
    view c turn pos (written c turn pos a src m) x = view c turn pos m x := by
  have hfirst := h.out_first hc hx hrange
  have hsecond := h.out_second hc hx hrange
  have hdrop : (src.drop c.pageSize).length = src.length - c.pageSize := List.length_drop
  rw [h.written_eq, view, program_out (by omega), program_out (by omega)]
  rfl

theorem state_out (h : Spill c turn pos a src.length) (honline : Online c w m turn pos)
    (hzero : ∀ i, c.state1 + i <
        c.startAddr + (slot c.pages turn pos (a / c.pageSize) + 1) * c.pageSize +
          (src.length - c.pageSize) → (c.header turn).bytes.getD i 0xff = 0)
    (hx : c.state1 ≤ x) :
    written c turn pos a src m x = m x := by
  have hsize := h.size
  have hend := hc.data_end
  have hfirst := WlConfig.Valid.page_le (slot_le (pages_pos hc) turn pos (a / c.pageSize))
  have hsecond := WlConfig.Valid.page_le (slot_le (pages_pos hc) turn pos (a / c.pageSize + 1))
  have hdrop : (src.drop c.pageSize).length = src.length - c.pageSize := List.length_drop
  rw [Nat.succ_mul] at hzero
  rw [← h.place_page] at hzero hfirst
  rw [← h.place_next hc] at hsecond
  rw [h.written_eq, program_out (.inr (by omega))]
  by_cases hspill : x < c.startAddr + c.place turn pos a + src.length
  · have hz := hzero (x - c.state1) (by omega)
    have hlt : x - c.state1 < sizeofState := by
      by_contra hge
      rw [List.getD_eq_default _ _ (by rw [WlState.length_bytes]; omega)] at hz
      exact absurd hz (by decide)
    have hmx : m x = 0 := by
      have := ((read_eq_iff).mp honline.header1).2 (x - c.state1) hlt
      rw [Nat.add_sub_cancel' hx] at this
      rw [this, hz]
    rw [program_in (by omega), hmx]
    exact UInt8.zero_and
  · exact program_out (.inr (by omega))

end Valid

end Spill

section Right

variable (hc : c.Valid) (h : Online c w m turn pos)
include hc h

theorem contiguous_right (hpos : 0 < src.length) (hbound : a + src.length ≤ c.pages * c.pageSize)
    (hsize : src.length ≤ 2 * c.pageSize)
    (hnext : ∀ v, a / c.pageSize ≤ v → (v + 1) * c.pageSize < a + src.length →
    slot c.pages turn pos (v + 1) = slot c.pages turn pos v + 1)
    (herased : ∀ x, a ≤ x → x < a + src.length → view c turn pos m x = 0xff) :
    AccessRight c w m a src := by
  have hplace : ∀ k < src.length, c.place turn pos (a + k) = c.place turn pos a + k :=
    fun k hk => place_contiguous hnext hk
  have herased' : ∀ k < src.length, m (c.startAddr + c.place turn pos a + k) = 0xff := by
    intro k hk
    have := herased (a + k) (by omega) (by omega)
    rwa [view, hplace k hk, ← Nat.add_assoc] at this
  obtain ⟨hin, hout⟩ := written_contiguous hplace herased'
  have hread : (written c turn pos a src m).read (c.startAddr + c.place turn pos a) src.length =
      src := by
    rw [read_eq_iff]
    exact ⟨rfl, hin⟩
  rw [accessRight_iff hc h hpos hbound hsize]
  refine ⟨?_, ?_, ?_⟩
  · unfold fetched
    split
    · exact hread
    · rw [hplace c.pageSize (by omega), ← Nat.add_assoc, ← Bytes.read_drop, hread,
        List.take_append_drop]
  · intro x hx hrange
    refine hout _ ?_
    by_contra hcon
    obtain ⟨k, hk⟩ : ∃ k, c.place turn pos x = c.place turn pos a + k :=
      ⟨c.place turn pos x - c.place turn pos a, by omega⟩
    have hlt : k < src.length := by omega
    have := place_inj hc hx (by omega) (hk.trans (hplace k hlt).symm)
    omega
  · intro x hx
    refine hout x (.inr ?_)
    have hlast := place_lt_state1 hc turn pos (a + (src.length - 1))
    rw [hplace _ (by omega)] at hlast
    omega

theorem spill_right (hbound : a + src.length ≤ c.pages * c.pageSize)
    (hsize : src.length ≤ 2 * c.pageSize)
    (halign : a % c.pageSize = 0) (hlong : c.pageSize < src.length)
    (hne : slot c.pages turn pos (a / c.pageSize + 1) ≠ slot c.pages turn pos (a / c.pageSize) + 1)
    (hzero : ∀ i, c.state1 + i <
        c.startAddr + (slot c.pages turn pos (a / c.pageSize) + 1) * c.pageSize +
          (src.length - c.pageSize) → (c.header turn).bytes.getD i 0xff = 0)
    (herased : ∀ x, a ≤ x → x < a + src.length → view c turn pos m x = 0xff) :
    AccessRight c w m a src := by
  have hspill : Spill c turn pos a src.length := ⟨halign, hlong, hsize, hbound, h.posLe, hne⟩
  rw [accessRight_iff hc h (by omega) hbound hsize]
  exact ⟨hspill.fetched_eq hc herased, fun x hx hrange => hspill.view_out hc hx hrange,
    fun x hx => hspill.state_out hc h hzero hx⟩

theorem access_right (hpos : 0 < src.length) (hbound : a + src.length ≤ c.pages * c.pageSize)
    (hok : AccessOk c turn pos a src.length)
    (herased : ∀ x, a ≤ x → x < a + src.length → view c turn pos m x = 0xff) :
    AccessRight c w m a src := by
  by_cases hnext : ∀ v, a / c.pageSize ≤ v → (v + 1) * c.pageSize < a + src.length →
      slot c.pages turn pos (v + 1) = slot c.pages turn pos v + 1
  · exact contiguous_right hc h hpos hbound hok.size hnext herased
  · push Not at hnext
    obtain ⟨v, hv1, hv2, hne⟩ := hnext
    rcases hok.boundary v hv1 hv2 with hcase | ⟨halign, hlong, hzero⟩
    · exact absurd hcase hne
    · have hda := Nat.div_add_mod' a c.pageSize
      have hsize := hok.size
      -- a range of two pages has one boundary
      obtain rfl : v = a / c.pageSize := by
        by_contra hcon
        have : (a / c.pageSize + 2) * c.pageSize ≤ (v + 1) * c.pageSize :=
          Nat.mul_le_mul_right _ (by omega)
        rw [Nat.add_mul] at this
        omega
      exact spill_right hc h hbound hsize halign hlong hne hzero herased

end Right

/-! ### Accesses that are wrong -/

def probe (c : WlConfig) (turn : Nat) (f : Bytes) : Bytes := fun x =>
  if x < c.state1 then f x
  else if x < c.state2 then (c.header turn).bytes.getD (x - c.state1) 0xff
  else (c.header turn).bytes.getD (x - c.state2) 0xff

theorem probe_online (hc : c.Valid) (h : Online c w m turn pos) (f : Bytes) :
    Online c w (probe c turn f) turn pos := by
  have hstate2 := c.state2_eq
  have hmarks := hc.marks_le
  refine ⟨h.object, h.turnLt, h.posLe, ?_, ?_⟩
  · rw [HeaderAt, read_eq_iff]
    refine ⟨rfl, fun k hk => ?_⟩
    rw [probe, if_neg (by omega), if_pos (by omega), Nat.add_sub_cancel_left]
  · rw [HeaderAt, read_eq_iff]
    refine ⟨rfl, fun k hk => ?_⟩
    rw [probe, if_neg (by omega), if_neg (by omega), Nat.add_sub_cancel_left]

def onesIn (c : WlConfig) (turn pos a n : Nat) : Bytes := fun x =>
  if ∃ k < n, x = c.startAddr + c.place turn pos (a + k) then 0xff else 0

theorem probe_behind (hc : c.Valid) (hpos : pos ≤ c.pages)
    (hne : slot c.pages turn pos (v + 1) ≠ slot c.pages turn pos v + 1) :
    probe c turn (onesIn c turn pos a n)
      (c.startAddr + (slot c.pages turn pos v + 1) * c.pageSize) = 0 := by
  have hpage := hc.pagePos
  have hend := hc.data_end
  have hlen := WlConfig.sector_le_stateLen hc
  have hsector := hc.sectorPos
  have hstate2 := c.state2_eq
  have hle := slot_le (pages_pos hc) turn pos v
  have hmul := Nat.mul_le_mul_right c.pageSize (Nat.succ_le_succ hle)
  unfold probe
  split
  · unfold onesIn
    rw [if_neg]
    rintro ⟨k, -, heq⟩
    have hplace : (slot c.pages turn pos v + 1) * c.pageSize = c.place turn pos (a + k) := by omega
    have hmod := Nat.mod_lt (a + k) hpage
    have hslot : slot c.pages turn pos ((a + k) / c.pageSize) = slot c.pages turn pos v + 1 := by
      have := congrArg (· / c.pageSize) hplace
      simp only [place] at this
      rw [Nat.mul_div_cancel _ hpage, Nat.mul_comm _ c.pageSize, Nat.mul_add_div hpage,
        Nat.div_eq_of_lt hmod] at this
      omega
    rcases slot_next (pages_pos hc) turn v hpos with hcase | hcase | hcase
    · exact hne hcase
    · exact slot_ne _ _ _ _ (hslot.trans hcase)
    · have := slot_le (pages_pos hc) turn pos ((a + k) / c.pageSize)
      omega
  · have heq : c.startAddr + (slot c.pages turn pos v + 1) * c.pageSize = c.state1 := by
      change (slot c.pages turn pos v + 1) * c.pageSize ≤ (c.pages + 1) * c.pageSize at hmul
      omega
    rw [heq, if_pos (by omega), Nat.sub_self]
    rfl

theorem header_byte_ne (hc : c.Valid) (hturn : turn < c.pages) :
    ∃ i < sizeofState, (c.header turn).bytes.getD i 0xff ≠ 0 := by
  by_contra hall
  push Not at hall
  have hmax := congrArg WlState.maxPos (ofBytes_header hc hturn)
  have hzero : ∀ i < sizeofState, ((c.header turn).bytes.getD i 0).toNat = 0 := by
    intro i hi
    have := hall i hi
    rw [List.getD_eq_getElem _ _ (by rw [WlState.length_bytes]; omega)] at this ⊢
    rw [this]
    rfl
  change word32 (c.header turn).bytes 4 = c.pages + 1 at hmax
  rw [word32, hzero 4 (by decide), hzero 5 (by decide), hzero 6 (by decide),
    hzero 7 (by decide)] at hmax
  omega

section Wrong

variable (hc : c.Valid) (h : Online c w m turn pos)
include hc h

theorem readback_wrong (hpos : 0 < n) (hbound : a + n ≤ c.pages * c.pageSize)
    (hsize : n ≤ 2 * c.pageSize)
    (hv1 : a / c.pageSize ≤ v) (hv2 : (v + 1) * c.pageSize < a + n)
    (hne : slot c.pages turn pos (v + 1) ≠ slot c.pages turn pos v + 1)
    (hcross : ¬(a % c.pageSize = 0 ∧ c.pageSize < n)) :
    ¬AccessRight c w (probe c turn (onesIn c turn pos a n)) a (List.replicate n 0xff) := by
  have hpage := hc.pagePos
  have hda := Nat.div_add_mod' a c.pageSize
  have hmod := Nat.mod_lt a hpage
  have hsucc : (v + 1) * c.pageSize = v * c.pageSize + c.pageSize := Nat.succ_mul _ _
  have hslotSucc : (slot c.pages turn pos v + 1) * c.pageSize =
      slot c.pages turn pos v * c.pageSize + c.pageSize := Nat.succ_mul _ _
  have hzero := probe_behind (a := a) (n := n) hc h.posLe hne
  set m₀ := probe c turn (onesIn c turn pos a n) with hm₀
  have honline := probe_online hc h (onesIn c turn pos a n)
  have hlen : (List.replicate n (0xff : UInt8)).length = n := List.length_replicate
  rw [accessRight_iff hc honline (by omega) (by omega) (by omega), hlen]
  rintro ⟨hread, -, -⟩
  have hsame : written c turn pos a (List.replicate n 0xff) m₀ = m₀ := by
    unfold written
    rw [List.drop_replicate, Bytes.program_ones, Bytes.program_ones, ite_self]
  rw [hsame] at hread
  have hbyte : ∀ k < n, (fetched c turn pos a n m₀).getD k 0 = 0xff := by
    intro k hk
    rw [hread]
    exact List.getD_replicate _ hk
  rcases Nat.lt_or_eq_of_le hv1 with hlt | heq
  · -- the boundary after the second page: the second driver call reads past that page
    have hle := Nat.mul_le_mul_right c.pageSize (Nat.succ_le_of_lt hlt)
    rw [Nat.succ_mul] at hle
    obtain rfl : v = a / c.pageSize + 1 := by
      by_contra hcon
      have := Nat.mul_le_mul_right c.pageSize (show a / c.pageSize + 2 ≤ v by omega)
      rw [Nat.add_mul] at this
      omega
    have hk := hbyte (2 * c.pageSize - a % c.pageSize) (by omega)
    have hplace : c.place turn pos (a + c.pageSize) =
        slot c.pages turn pos (a / c.pageSize + 1) * c.pageSize + a % c.pageSize := by
      rw [place, Nat.add_div_right a hpage, Nat.add_mod_right]
    have htake : ((m₀.read (c.startAddr + c.place turn pos a) n).take c.pageSize).length =
        c.pageSize := by
      rw [List.length_take, length_read]
      omega
    rw [fetched, if_neg (by omega), List.getD_append_right _ _ _ _ (by omega), htake,
      getD_read (by omega), hplace] at hk
    rw [show c.startAddr + (slot c.pages turn pos (a / c.pageSize + 1) * c.pageSize +
        a % c.pageSize) + (2 * c.pageSize - a % c.pageSize - c.pageSize) =
        c.startAddr + (slot c.pages turn pos (a / c.pageSize + 1) + 1) * c.pageSize by omega,
      hzero] at hk
    exact absurd hk (by decide)
  · -- the boundary after the first page: the first driver call reads past that page
    subst heq
    have hk := hbyte (c.pageSize - a % c.pageSize) (by omega)
    have hplace : c.place turn pos a =
        slot c.pages turn pos (a / c.pageSize) * c.pageSize + a % c.pageSize := rfl
    have haddr : c.startAddr + c.place turn pos a + (c.pageSize - a % c.pageSize) =
        c.startAddr + (slot c.pages turn pos (a / c.pageSize) + 1) * c.pageSize := by omega
    unfold fetched at hk
    split at hk
    · rw [getD_read (by omega), haddr, hzero] at hk
      exact absurd hk (by decide)
    · have hin : c.pageSize - a % c.pageSize < c.pageSize := by
        omega
      rw [List.getD_append _ _ _ _ (by rw [List.length_take, length_read]; omega),
        List.getD_eq_getElem?_getD, List.getElem?_take, if_pos hin, ← List.getD_eq_getElem?_getD,
        getD_read (by omega), haddr, hzero] at hk
      exact absurd hk (by decide)

theorem spill_wrong (hbound : a + n ≤ c.pages * c.pageSize) (hsize : n ≤ 2 * c.pageSize)
    (halign : a % c.pageSize = 0) (hlong : c.pageSize < n)
    (hi : c.state1 + i <
      c.startAddr + (slot c.pages turn pos (a / c.pageSize) + 1) * c.pageSize + (n - c.pageSize))
    (hbyte : (c.header turn).bytes.getD i 0xff ≠ 0) :
    ¬AccessRight c w (probe c turn fun _ => 0xff) a (List.replicate n 0) := by
  have hpage := hc.pagePos
  have hend := hc.data_end
  have hstate2 := c.state2_eq
  have hmarks := hc.marks_le
  have honline := probe_online hc h fun _ => 0xff
  obtain ⟨i, hlt, hi, hbyte⟩ : ∃ i < sizeofState, c.state1 + i < c.startAddr +
      (slot c.pages turn pos (a / c.pageSize) + 1) * c.pageSize + (n - c.pageSize) ∧
      (c.header turn).bytes.getD i 0xff ≠ 0 := by
    by_cases hlt : i < sizeofState
    · exact ⟨i, hlt, hi, hbyte⟩
    · obtain ⟨j, hj, hne⟩ := header_byte_ne hc h.turnLt
      exact ⟨j, hj, by omega, hne⟩
  have hlen : (List.replicate n (0 : UInt8)).length = n := List.length_replicate
  have hqle := WlConfig.Valid.page_le (slot_le (pages_pos hc) turn pos (a / c.pageSize))
  have hrle := WlConfig.Valid.page_le (slot_le (pages_pos hc) turn pos (a / c.pageSize + 1))
  have hsucc : (slot c.pages turn pos (a / c.pageSize) + 1) * c.pageSize =
      slot c.pages turn pos (a / c.pageSize) * c.pageSize + c.pageSize := Nat.succ_mul _ _
  have hplace : c.place turn pos a = slot c.pages turn pos (a / c.pageSize) * c.pageSize := by
    rw [place, halign, Nat.add_zero]
  have hplaceB : c.place turn pos (a + c.pageSize) =
      slot c.pages turn pos (a / c.pageSize + 1) * c.pageSize := by
    rw [place, Nat.add_div_right a hpage, Nat.add_mod_right, halign, Nat.add_zero]
  rw [accessRight_iff hc honline (by omega) (by omega) (by omega)]
  rintro ⟨-, -, hstate⟩
  have := hstate (c.state1 + i) (by omega)
  rw [written, if_neg (by omega), program_out
    (.inr (by rw [List.drop_replicate, List.length_replicate]; omega)),
    program_in (by omega), List.getD_replicate _ (by omega), UInt8.and_zero] at this
  rw [probe, if_neg (by omega), if_pos (by omega), Nat.add_sub_cancel_left] at this
  exact hbyte this.symm

end Wrong

/-- Writes and reads of any extent on an initialised device, with any contents: they are right for
every contents of the flash and every data exactly if the extent is at most two pages and lies
suitably at each page boundary. -/
theorem access_iff (hc : c.Valid) (h : Online c w m turn pos) (hpos : 0 < n)
    (hbound : a + n ≤ w.chipSize) :
    (∀ m src, Online c w m turn pos → src.length = n →
      (∀ x, a ≤ x → x < a + n → w.contents m x = 0xff) → AccessRight c w m a src) ↔
    AccessOk c turn pos a n := by
  rw [h.chipSize] at hbound
  have honline := fun f => probe_online hc h f
  constructor
  · intro hall
    -- the range is erased in both probes
    have hview : ∀ f : Bytes, (∀ k < n, f (c.startAddr + c.place turn pos (a + k)) = 0xff) →
        ∀ x, a ≤ x → x < a + n → w.contents (probe c turn f) x = 0xff := by
      intro f hf x h1 h2
      have := place_lt_state1 hc turn pos x
      rw [(honline f).contents hc (by omega), view, probe, if_pos this]
      have := hf (x - a) (by omega)
      rwa [Nat.add_sub_cancel' h1] at this
    have hones := hview (onesIn c turn pos a n) fun k hk => if_pos ⟨k, hk, rfl⟩
    have hblank := hview (fun _ => 0xff) fun _ _ => rfl
    by_contra hok
    by_cases hsize : n ≤ 2 * c.pageSize
    · have hboundary : ∃ v, a / c.pageSize ≤ v ∧ (v + 1) * c.pageSize < a + n ∧
          slot c.pages turn pos (v + 1) ≠ slot c.pages turn pos v + 1 ∧
          (a % c.pageSize = 0 ∧ c.pageSize < n →
            ∃ i, c.state1 + i < c.startAddr + (slot c.pages turn pos v + 1) * c.pageSize +
              (n - c.pageSize) ∧ (c.header turn).bytes.getD i 0xff ≠ 0) := by
        by_contra hnone
        push Not at hnone
        refine hok ⟨hsize, fun v h1 h2 => ?_⟩
        by_cases hcase : slot c.pages turn pos (v + 1) = slot c.pages turn pos v + 1
        · exact .inl hcase
        · obtain ⟨hstart, hzero⟩ := hnone v h1 h2 hcase
          exact .inr ⟨hstart.1, hstart.2, hzero⟩
      obtain ⟨v, hv1, hv2, hne, hspill⟩ := hboundary
      by_cases hcross : a % c.pageSize = 0 ∧ c.pageSize < n
      · obtain ⟨i, hi, hbyte⟩ := hspill hcross
        have hda := Nat.div_add_mod' a c.pageSize
        obtain rfl : v = a / c.pageSize := by
          by_contra hcon
          have := Nat.mul_le_mul_right c.pageSize (show a / c.pageSize + 2 ≤ v + 1 by omega)
          rw [Nat.add_mul] at this
          omega
        exact spill_wrong hc h hbound hsize hcross.1 hcross.2 hi hbyte
          (hall _ _ (honline _) List.length_replicate hblank)
      · exact readback_wrong hc h hpos hbound hsize hv1 hv2 hne hcross
          (hall _ _ (honline _) List.length_replicate hones)
    · obtain ⟨m', hrun, -⟩ := hall _ (List.replicate n 0) (honline _) List.length_replicate hblank
      have hlen : (List.replicate n (0 : UInt8)).length = n := List.length_replicate
      rw [write_many hc (honline _) (by omega) (by omega)] at hrun
      cases hrun
  · rintro hok m src hm rfl herased
    refine access_right hc hm hpos hbound hok fun x h1 h2 => ?_
    rw [← hm.contents hc (by omega)]
    exact herased x h1 h2

theorem access_iff_small : ∃ w m, Online small.sealed w m 0 0 ∧ 60 + 8 ≤ w.chipSize ∧
    ((∀ m src, Online small.sealed w m 0 0 → src.length = 8 →
      (∀ x, 60 ≤ x → x < 60 + 8 → w.contents m x = 0xff) →
      AccessRight small.sealed w m 60 src) ↔ AccessOk small.sealed 0 0 60 8) := by
  obtain ⟨wc, w, m, -, -, honline, -⟩ :=
    boot_fresh zeroed small_valid (blank_not_intact small.state1) (blank_not_intact small.state2)
  have hchip : 60 + 8 ≤ w.chipSize := by
    rw [honline.chipSize]
    decide
  exact ⟨w, m, honline, hchip, access_iff small_valid.sealed honline (by decide) hchip⟩

/-- Three moves on an erased flash bring page `0` to the end of the data area.  What an erased range
across the end of page `0` holds, and the byte of the state area that a write of zeros to it meets,
before and after. -/
def spillRun : Option (List UInt8 × UInt8 × EspErr × UInt8) := do
  let ((_, w), m) ← Prog.run (flash small.sectorSize) smallObject.init blank
  let ((_, _, w), m) ← Prog.run (flash small.sectorSize) (Call.flush.prog w) m
  let ((_, _, w), m) ← Prog.run (flash small.sectorSize) (Call.flush.prog w) m
  let ((_, _, w), m) ← Prog.run (flash small.sectorSize) (Call.flush.prog w) m
  let (result, m') ← Prog.run (flash small.sectorSize) (w.write 60 (List.replicate 12 0) 12) m
  return ((w.contents m).read 60 12, m (small.state1 + 4), result, m' (small.state1 + 4))

theorem write_spills : ∃ w m, Reach small (fun _ => True) (some w) m ∧
    (w.contents m).read 60 12 = List.replicate 12 0xff ∧
    ∃ m', Prog.run (flash small.sectorSize) (w.write 60 (List.replicate 12 0) 12) m =
      some (.ok, m') ∧
      m (small.state1 + 4) = 3 ∧ m' (small.state1 + 4) = 0 := by
  have hrun : spillRun = some (List.replicate 12 0xff, 3, .ok, 0) := by decide +kernel
  simp only [spillRun, Option.bind_eq_bind, Option.bind_eq_some_iff, Option.pure_def,
    Option.some.injEq, Prod.mk.injEq, Prod.exists] at hrun
  obtain ⟨_, w₁, m₁, h₁, _, _, w₂, m₂, h₂, _, _, w₃, m₃, h₃, _, _, w₄, m₄, h₄, _, m₅, h₅, herased,
    hbefore, rfl, hafter⟩ := hrun
  have r₁ : Reach small (fun _ => True) (some w₁) m₁ :=
    .boot (blank_reach _) trivial smallObject_config h₁
  have r₂ : Reach small (fun _ => True) (some w₂) m₂ := .call .flush r₁ trivial h₂
  have r₃ : Reach small (fun _ => True) (some w₃) m₃ := .call .flush r₂ trivial h₃
  have r₄ : Reach small (fun _ => True) (some w₄) m₄ := .call .flush r₃ trivial h₄
  exact ⟨w₄, m₄, r₄, herased, m₅, h₅, hbefore, hafter⟩

end EspIdf.WearLevelling
