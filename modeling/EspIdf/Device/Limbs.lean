import Mathlib.Data.List.Basic
import Mathlib.Data.Nat.ModEq
import Mathlib.Tactic.Ring

/-! Numbers as lists of 32-bit words, the least significant word first. -/

namespace EspIdf.Limbs

def value : List UInt32 → Nat
  | [] => 0
  | w :: ws => w.toNat + 2 ^ 32 * value ws

def words : Nat → Nat → List UInt32
  | 0, _ => []
  | k + 1, n => UInt32.ofNat n :: words k (n / 2 ^ 32)

@[simp]
theorem value_nil : value [] = 0 := rfl

theorem value_append (l m : List UInt32) :
    value (l ++ m) = value l + 2 ^ (32 * l.length) * value m := by
  induction l with
  | nil => simp
  | cons w ws ih =>
    rw [List.cons_append, value, ih, value, List.length_cons]
    ring

@[simp]
theorem value_zeros (k : Nat) : value (List.replicate k 0) = 0 := by
  induction k with
  | zero => rfl
  | succ k ih => rw [List.replicate_succ, value, ih]; rfl

theorem value_lt (l : List UInt32) : value l < 2 ^ (32 * l.length) := by
  induction l with
  | nil => simp
  | cons w ws ih =>
    rw [value, List.length_cons, Nat.mul_succ, pow_add]
    have hw : w.toNat < 2 ^ 32 := w.toNat_lt
    have hle : value ws + 1 ≤ 2 ^ (32 * ws.length) := ih
    calc w.toNat + 2 ^ 32 * value ws < 2 ^ 32 * (value ws + 1) := by omega
      _ ≤ 2 ^ (32 * ws.length) * 2 ^ 32 := by
        rw [Nat.mul_comm]
        exact Nat.mul_le_mul_right _ hle

@[simp]
theorem length_words (k n : Nat) : (words k n).length = k := by
  induction k generalizing n with
  | zero => rfl
  | succ k ih => simp [words, ih]

theorem value_words (k n : Nat) : value (words k n) = n % 2 ^ (32 * k) := by
  induction k generalizing n with
  | zero => simp [words, Nat.mod_one]
  | succ k ih =>
    rw [words, value, ih, UInt32.toNat_ofNat', Nat.mul_succ, Nat.add_comm (32 * k), pow_add,
      Nat.mod_mul]

theorem value_words_of_lt (h : n < 2 ^ (32 * k)) : value (words k n) = n := by
  rw [value_words, Nat.mod_eq_of_lt h]

theorem value_take_add_drop (l : List UInt32) (k : Nat) (hk : k ≤ l.length) :
    value l = value (l.take k) + 2 ^ (32 * k) * value (l.drop k) := by
  conv_lhs => rw [← List.take_append_drop k l, value_append, List.length_take_of_le hk]

theorem value_take_of_lt (h : value l < 2 ^ (32 * k)) : value (l.take k) = value l := by
  rcases Nat.le_total l.length k with hk | hk
  · rw [List.take_of_length_le hk]
  · have hsplit := value_take_add_drop l k hk
    have hzero : value (l.drop k) = 0 := by
      by_contra hne
      have : 2 ^ (32 * k) * 1 ≤ 2 ^ (32 * k) * value (l.drop k) :=
        Nat.mul_le_mul_left _ (Nat.one_le_iff_ne_zero.2 hne)
      omega
    rw [hsplit, hzero]
    simp

end EspIdf.Limbs
