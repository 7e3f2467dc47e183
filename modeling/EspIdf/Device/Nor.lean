import Mathlib.Algebra.Group.Nat.Defs
import Mathlib.Data.List.Basic
import Mathlib.Data.List.GetD

/-! NOR flash as bytes: erasing sets bytes to `0xff`, programming only clears bits.  Little-endian
words in such a memory. -/

namespace EspIdf.Device

abbrev Bytes := Nat → UInt8

namespace Bytes

def read (m : Bytes) (a n : Nat) : List UInt8 := (List.range n).map fun i => m (a + i)

/-- Program `bs` at `a`: bits are cleared, never set. -/
def program (m : Bytes) (a : Nat) (bs : List UInt8) : Bytes :=
  fun x => if a ≤ x then m x &&& bs.getD (x - a) 0xff else m x

def erase (m : Bytes) (a n : Nat) : Bytes :=
  fun x => if a ≤ x ∧ x < a + n then 0xff else m x

variable {m m' : Bytes} {a b n k x : Nat} {bs : List UInt8}

@[simp] theorem length_read : (m.read a n).length = n := by simp [read]

theorem getElem?_read (h : k < n) : (m.read a n)[k]? = some (m (a + k)) := by
  simp [read, h]

theorem getD_read (h : k < n) (d : UInt8) : (m.read a n).getD k d = m (a + k) := by
  simp [List.getD_eq_getElem?_getD, getElem?_read h]

theorem read_congr (h : ∀ x, a ≤ x → x < a + n → m x = m' x) : m.read a n = m'.read a n := by
  apply List.map_congr_left
  intro i hi
  exact h _ (by omega) (by have := List.mem_range.mp hi; omega)

theorem read_eq_iff : m.read a n = bs ↔
    bs.length = n ∧ ∀ k < n, m (a + k) = bs.getD k 0xff := by
  constructor
  · rintro rfl
    exact ⟨length_read, fun k hk => (getD_read hk _).symm⟩
  · rintro ⟨hlen, h⟩
    apply List.ext_getElem (by simp [hlen])
    intro i h1 h2
    have hi : i < n := by simpa using h1
    have := h i hi
    rw [List.getD_eq_getElem _ _ h2] at this
    simpa [read] using this

theorem program_out (h : x < a ∨ a + bs.length ≤ x) : m.program a bs x = m x := by
  unfold program
  split_ifs with hx
  · rw [List.getD_eq_default _ _ (by omega)]
    exact UInt8.and_neg_one
  · rfl

theorem program_in (h : a ≤ x) : m.program a bs x = m x &&& bs.getD (x - a) 0xff := if_pos h

theorem program_erased (h : a ≤ x) (hx : m x = 0xff) : m.program a bs x = bs.getD (x - a) 0xff := by
  rw [program_in h, hx]
  exact UInt8.neg_one_and

theorem erase_out (h : x < a ∨ a + n ≤ x) : m.erase a n x = m x := if_neg (by omega)

theorem erase_in (h1 : a ≤ x) (h2 : x < a + n) : m.erase a n x = 0xff := if_pos ⟨h1, h2⟩

theorem erase_erase : (m.erase a n).erase (a + n) k = m.erase a (n + k) := by
  funext x
  simp only [erase]
  split_ifs <;> first | rfl | omega

theorem erase_zero : m.erase a 0 = m := by
  funext x
  exact erase_out (by omega)

theorem read_erase_out (h : b + n ≤ a ∨ a + k ≤ b) : (m.erase a k).read b n = m.read b n :=
  read_congr fun x _ _ => erase_out (by omega)

theorem read_program_erased (h : ∀ x, a ≤ x → x < a + bs.length → m x = 0xff) :
    (m.program a bs).read a bs.length = bs := by
  rw [read_eq_iff]
  refine ⟨rfl, fun k hk => ?_⟩
  rw [program_erased (by omega) (h _ (by omega) (by omega)), Nat.add_sub_cancel_left]

theorem read_take : (m.read a n).take k = m.read a (min k n) := by
  simp only [read, ← List.map_take, List.take_range]

theorem read_add : m.read a (n + k) = m.read a n ++ m.read (a + n) k := by
  simp [read, List.range_add, Nat.add_assoc, Function.comp_def]

theorem read_drop : (m.read a n).drop k = m.read (a + k) (n - k) := by
  apply List.ext_getElem (by simp)
  intro i h1 h2
  simp [read, Nat.add_assoc]

theorem program_ones : m.program a (List.replicate n 0xff) = m := by
  funext x
  unfold program
  split
  · have : (List.replicate n (0xff : UInt8)).getD (x - a) 0xff = 0xff := by
      rcases Nat.lt_or_ge (x - a) n with h | h
      · exact List.getD_replicate _ h
      · exact List.getD_eq_default _ _ (by simpa using h)
    rw [this]
    exact UInt8.and_neg_one
  · rfl

theorem program_append : m.program a (bs ++ cs) = (m.program a bs).program (a + bs.length) cs := by
  funext x
  by_cases h1 : x < a
  · rw [program_out (.inl h1), program_out (.inl (by omega)), program_out (.inl h1)]
  · rw [program_in (by omega)]
    by_cases h2 : x < a + bs.length
    · rw [program_out (.inl h2), program_in (by omega), List.getD_append _ _ _ _ (by omega)]
    · rw [program_in (by omega), program_out (.inr (by omega)),
        List.getD_append_right _ _ _ _ (by omega), Nat.sub_sub]

end Bytes

def le32 (n : Nat) : List UInt8 :=
  [UInt8.ofNat n, UInt8.ofNat (n / 256), UInt8.ofNat (n / 65536), UInt8.ofNat (n / 16777216)]

def word32 (bs : List UInt8) (k : Nat) : Nat :=
  (bs.getD k 0).toNat + (bs.getD (k + 1) 0).toNat * 256 + (bs.getD (k + 2) 0).toNat * 65536 +
    (bs.getD (k + 3) 0).toNat * 16777216

@[simp] theorem length_le32 (n : Nat) : (le32 n).length = 4 := rfl

theorem word32_le32 (h : n < 2 ^ 32) : word32 (le32 n) 0 = n := by
  simp only [word32, le32, List.getD_cons_zero, List.getD_cons_succ, UInt8.toNat_ofNat']
  omega

theorem le32_inj (ha : a < 2 ^ 32) (hb : b < 2 ^ 32) (h : le32 a = le32 b) : a = b := by
  rw [← word32_le32 ha, ← word32_le32 hb, h]

theorem word32_append_left (h : k + 4 ≤ as.length) : word32 (as ++ bs) k = word32 as k := by
  simp only [word32]
  rw [List.getD_append _ _ _ _ (by omega), List.getD_append _ _ _ _ (by omega),
    List.getD_append _ _ _ _ (by omega), List.getD_append _ _ _ _ (by omega)]

theorem word32_append_right (h : as.length ≤ k) :
    word32 (as ++ bs) k = word32 bs (k - as.length) := by
  simp only [word32]
  rw [List.getD_append_right _ _ _ _ (by omega), List.getD_append_right _ _ _ _ (by omega),
    List.getD_append_right _ _ _ _ (by omega), List.getD_append_right _ _ _ _ (by omega)]
  congr 6 <;> omega

theorem word32_lt (bs : List UInt8) (k : Nat) : word32 bs k < 2 ^ 32 := by
  have h0 := (bs.getD k 0).toNat_lt
  have h1 := (bs.getD (k + 1) 0).toNat_lt
  have h2 := (bs.getD (k + 2) 0).toNat_lt
  have h3 := (bs.getD (k + 3) 0).toNat_lt
  simp only [word32]
  omega

end EspIdf.Device
