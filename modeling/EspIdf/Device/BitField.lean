import Mathlib.Tactic.Ring

/-! Bit fields of a word: reading a field, and assigning to it. -/

namespace EspIdf.Device

def field (lo w : Nat) (x : Nat) : Nat := x / 2 ^ lo % 2 ^ w

def setField (lo w v : Nat) (x : Nat) : Nat :=
  x / 2 ^ (lo + w) * 2 ^ (lo + w) + v % 2 ^ w * 2 ^ lo + x % 2 ^ lo

variable {lo w v v' x y : Nat}

theorem setField_low_lt : v % 2 ^ w * 2 ^ lo + x % 2 ^ lo < 2 ^ (lo + w) := by
  have hv : v % 2 ^ w + 1 ≤ 2 ^ w := Nat.mod_lt _ (Nat.two_pow_pos _)
  calc v % 2 ^ w * 2 ^ lo + x % 2 ^ lo < (v % 2 ^ w + 1) * 2 ^ lo := by
        rw [Nat.add_mul]
        omega
    _ ≤ 2 ^ w * 2 ^ lo := Nat.mul_le_mul_right _ hv
    _ = 2 ^ (lo + w) := by rw [pow_add, Nat.mul_comm]

theorem setField_div : setField lo w v x / 2 ^ (lo + w) = x / 2 ^ (lo + w) := by
  rw [setField, Nat.add_assoc, Nat.mul_comm, Nat.mul_add_div (Nat.two_pow_pos _),
    Nat.div_eq_of_lt setField_low_lt, Nat.add_zero]

theorem field_setField_ge {lo' w' : Nat} (h : lo + w ≤ lo') :
    field lo' w' (setField lo w v x) = field lo' w' x := by
  obtain ⟨k, rfl⟩ := Nat.exists_eq_add_of_le h
  rw [field, field, Nat.pow_add 2 (lo + w) k, ← Nat.div_div_eq_div_mul, setField_div,
    Nat.div_div_eq_div_mul]

theorem setField_mod_add : setField lo w v x % 2 ^ (lo + w) = v % 2 ^ w * 2 ^ lo + x % 2 ^ lo := by
  rw [setField, Nat.add_assoc, Nat.mul_comm, Nat.mul_add_mod, Nat.mod_eq_of_lt setField_low_lt]

theorem setField_mod : setField lo w v x % 2 ^ lo = x % 2 ^ lo := by
  have hdvd : 2 ^ lo ∣ 2 ^ (lo + w) := pow_dvd_pow 2 (Nat.le_add_right lo w)
  rw [← Nat.mod_mod_of_dvd _ hdvd, setField_mod_add, Nat.mul_comm, Nat.mul_add_mod, Nat.mod_mod]

theorem field_setField : field lo w (setField lo w v x) = v % 2 ^ w := by
  have hx : x % 2 ^ lo < 2 ^ lo := Nat.mod_lt _ (Nat.two_pow_pos _)
  have hsplit : setField lo w v x / 2 ^ lo % 2 ^ w = setField lo w v x % 2 ^ (lo + w) / 2 ^ lo := by
    rw [pow_add, Nat.mod_mul_right_div_self]
  rw [field, hsplit, setField_mod_add, Nat.mul_comm, Nat.mul_add_div (Nat.two_pow_pos _),
    Nat.div_eq_of_lt hx, Nat.add_zero]

theorem setField_congr (hdiv : x / 2 ^ (lo + w) = y / 2 ^ (lo + w))
    (hmod : x % 2 ^ lo = y % 2 ^ lo) :
    setField lo w v x = setField lo w v y := by
  rw [setField, hdiv, hmod, setField]

theorem setField_setField : setField lo w v (setField lo w v' x) = setField lo w v x :=
  setField_congr setField_div setField_mod

theorem setField_adjacent {w' : Nat} : setField (lo + w) w' v' (setField lo w v x) =
    setField lo (w + w') (v % 2 ^ w + v' % 2 ^ w' * 2 ^ w) x := by
  have hlt : v % 2 ^ w + v' % 2 ^ w' * 2 ^ w < 2 ^ (w + w') := by
    have := @setField_low_lt w w' v' (v % 2 ^ w)
    rw [Nat.mod_mod] at this
    omega
  have hdiv : setField lo w v x / 2 ^ (lo + w + w') = x / 2 ^ (lo + w + w') := by
    rw [pow_add 2 (lo + w), ← Nat.div_div_eq_div_mul, setField_div, Nat.div_div_eq_div_mul]
  rw [setField, setField_mod_add, hdiv, setField, Nat.mod_eq_of_lt hlt, Nat.add_assoc lo w w']
  ring

end EspIdf.Device
