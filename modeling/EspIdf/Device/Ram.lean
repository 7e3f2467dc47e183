import EspIdf.Device.Nor

/-! Random access memory as bytes: a store replaces what was there. -/

namespace EspIdf.Device

namespace Bytes

def store (m : Bytes) (a : Nat) (bs : List UInt8) : Bytes :=
  fun x => if a ≤ x ∧ x < a + bs.length then bs.getD (x - a) 0xff else m x

def load32 (m : Bytes) (a : Nat) : Nat := word32 (m.read a 4) 0

def store32 (m : Bytes) (a v : Nat) : Bytes := m.store a (le32 v)

variable {m m' : Bytes} {a b n v x : Nat} {bs cs : List UInt8}

theorem store_in (h1 : a ≤ x) (h2 : x < a + bs.length) :
    m.store a bs x = bs.getD (x - a) 0xff := if_pos ⟨h1, h2⟩

theorem store_out (h : x < a ∨ a + bs.length ≤ x) : m.store a bs x = m x := if_neg (by omega)

@[simp] theorem store_nil : m.store a [] = m := by
  funext x
  exact store_out (by simp; omega)

theorem read_store_out (h : b + n ≤ a ∨ a + bs.length ≤ b) :
    (m.store a bs).read b n = m.read b n :=
  read_congr fun x _ _ => store_out (by omega)

theorem read_store : (m.store a bs).read a bs.length = bs := by
  rw [read_eq_iff]
  refine ⟨rfl, fun k hk => ?_⟩
  rw [store_in (by omega) (by omega), Nat.add_sub_cancel_left]

theorem store_append : m.store a (bs ++ cs) = (m.store a bs).store (a + bs.length) cs := by
  funext x
  simp only [store, List.length_append]
  by_cases h1 : a ≤ x ∧ x < a + bs.length
  · rw [if_pos (by omega), if_neg (by omega), if_pos h1, List.getD_append _ _ _ _ (by omega)]
  · by_cases h2 : a + bs.length ≤ x ∧ x < a + bs.length + cs.length
    · rw [if_pos (by omega), if_pos h2, List.getD_append_right _ _ _ _ (by omega), Nat.sub_sub]
    · rw [if_neg (by omega), if_neg h2, if_neg h1]

theorem store32_out (h : x < a ∨ a + 4 ≤ x) : m.store32 a v x = m x := store_out h

theorem load32_store32 (h : v < 2 ^ 32) : (m.store32 a v).load32 a = v := by
  have hread : (m.store32 a v).read a 4 = le32 v := read_store
  rw [load32, hread, word32_le32 h]

theorem load32_congr (h : ∀ x, a ≤ x → x < a + 4 → m x = m' x) : m.load32 a = m'.load32 a := by
  rw [load32, load32, read_congr h]

end Bytes

end EspIdf.Device
