import Mathlib.Data.Nat.Bitwise

/-! CRC-32, least significant bit first.  One byte is eight shifts of the remainder, which
`crcStep_table` reads from a table.  A shift is linear in exclusive or and injective on words, so
the checksum tells apart any two texts that differ in one aligned word. -/

namespace EspIdf.Device

def crcShift (c : Nat) : Nat := (c >>> 1) ^^^ (0xedb88320 * (c % 2))

def crcStep (crc : Nat) (byte : UInt8) : Nat := crcShift^[8] (crc ^^^ byte.toNat)

def crc32Le (crc : Nat) (buf : List UInt8) : Nat :=
  0xffffffff ^^^ buf.foldl crcStep (0xffffffff ^^^ crc)

theorem crcShift_xor (a b : Nat) : crcShift (a ^^^ b) = crcShift a ^^^ crcShift b := by
  have hlow : 0xedb88320 * ((a ^^^ b) % 2) = 0xedb88320 * (a % 2) ^^^ 0xedb88320 * (b % 2) := by
    rw [show (a ^^^ b) % 2 = (a % 2) ^^^ (b % 2) from Nat.xor_mod_two_pow (n := 1)]
    rcases Nat.mod_two_eq_zero_or_one a with h | h <;>
      rcases Nat.mod_two_eq_zero_or_one b with h' | h' <;> simp [h, h']
  simp only [crcShift, hlow, Nat.shiftRight_xor_distrib]
  ac_rfl

theorem crcShift_iterate_xor (n a b : Nat) :
    crcShift^[n] (a ^^^ b) = crcShift^[n] a ^^^ crcShift^[n] b := by
  induction n generalizing a b with
  | zero => rfl
  | succ n ih => simp only [Function.iterate_succ_apply, crcShift_xor, ih]

theorem crcShift_lt (h : c < 2 ^ 32) : crcShift c < 2 ^ 32 := by
  have h1 : c >>> 1 < 2 ^ 32 := by omega
  have h2 : 0xedb88320 * (c % 2) < 2 ^ 32 := by omega
  exact Nat.xor_lt_two_pow h1 h2

theorem crcShift_iterate_lt (n : Nat) (h : c < 2 ^ 32) : crcShift^[n] c < 2 ^ 32 := by
  induction n generalizing c with
  | zero => exact h
  | succ n ih => exact ih (crcShift_lt h)

theorem crcShift_top (h : c < 2 ^ 32) : crcShift c >>> 31 = c % 2 := by
  have h1 : (c >>> 1) >>> 31 = 0 := by
    rw [← Nat.shiftRight_add, Nat.shiftRight_eq_div_pow]
    exact Nat.div_eq_of_lt h
  have h2 : (0xedb88320 * (c % 2)) >>> 31 = c % 2 := by
    omega
  rw [crcShift, Nat.shiftRight_xor_distrib, h1, h2, Nat.zero_xor]

theorem crcShift_inj (ha : a < 2 ^ 32) (hb : b < 2 ^ 32) (h : crcShift a = crcShift b) : a = b := by
  have hlow : a % 2 = b % 2 := by rw [← crcShift_top ha, ← crcShift_top hb, h]
  have hhigh : a >>> 1 = b >>> 1 := by
    rw [crcShift, hlow] at h
    exact Nat.xor_left_inj.mp h
  omega

theorem crcShift_iterate_inj (n : Nat) (ha : a < 2 ^ 32) (hb : b < 2 ^ 32)
    (h : crcShift^[n] a = crcShift^[n] b) : a = b := by
  induction n generalizing a b with
  | zero => exact h
  | succ n ih => exact crcShift_inj ha hb (ih (crcShift_lt ha) (crcShift_lt hb) h)

theorem crcShift_iterate_mul (n c : Nat) : crcShift^[n] (c * 2 ^ n) = c := by
  induction n generalizing c with
  | zero => simp
  | succ n ih =>
    have h : crcShift (c * 2 ^ (n + 1)) = c * 2 ^ n := by
      have heven : c * 2 ^ (n + 1) = c * 2 ^ n * 2 := by rw [Nat.pow_succ, Nat.mul_assoc]
      rw [crcShift, heven, Nat.shiftRight_eq_div_pow]
      simp
    rw [Function.iterate_succ_apply, h, ih]

theorem xor_low_high (x n : Nat) : x % 2 ^ n ^^^ x / 2 ^ n * 2 ^ n = x := by
  apply Nat.eq_of_testBit_eq
  intro i
  rw [Nat.testBit_xor, Nat.testBit_mul_two_pow, Nat.testBit_div_two_pow]
  by_cases h : i < n
  · simp [h, Nat.not_le.mpr h]
  · have hle : n ≤ i := Nat.le_of_not_lt h
    simp [h, hle, Nat.sub_add_cancel hle]

theorem crcStep_lt (h : c < 2 ^ 32) (b : UInt8) : crcStep c b < 2 ^ 32 :=
  crcShift_iterate_lt 8 (Nat.xor_lt_two_pow h (by have := b.toNat_lt; omega))

theorem crcFold_lt (bs : List UInt8) (h : c < 2 ^ 32) : bs.foldl crcStep c < 2 ^ 32 := by
  induction bs generalizing c with
  | nil => exact h
  | cons b bs ih => exact ih (crcStep_lt h b)

theorem crc32Le_lt (h : crc < 2 ^ 32) (bs : List UInt8) : crc32Le crc bs < 2 ^ 32 :=
  Nat.xor_lt_two_pow (by decide) (crcFold_lt bs (Nat.xor_lt_two_pow (by decide) h))

theorem crcFold_inj (bs : List UInt8) (hc : c < 2 ^ 32) (hd : d < 2 ^ 32)
    (h : bs.foldl crcStep c = bs.foldl crcStep d) : c = d := by
  induction bs generalizing c d with
  | nil => exact h
  | cons b bs ih =>
    have hb : b.toNat < 2 ^ 32 := by have := b.toNat_lt; omega
    have hstep : crcStep c b = crcStep d b := ih (crcStep_lt hc b) (crcStep_lt hd b) h
    exact Nat.xor_left_inj.mp (crcShift_iterate_inj 8 (Nat.xor_lt_two_pow hc hb)
      (Nat.xor_lt_two_pow hd hb) hstep)

theorem crcShift_iterate_enter (n x b : Nat) :
    crcShift^[8] (crcShift^[n] x ^^^ b) = crcShift^[8 + n] (x ^^^ b * 2 ^ n) := by
  conv_lhs => rw [← crcShift_iterate_mul n b]
  rw [← crcShift_iterate_xor, ← Function.iterate_add_apply]

theorem crcFold_four (c : Nat) (b0 b1 b2 b3 : UInt8) : [b0, b1, b2, b3].foldl crcStep c =
    crcShift^[32]
      (c ^^^ (b0.toNat + b1.toNat * 2 ^ 8 + b2.toNat * 2 ^ 16 + b3.toNat * 2 ^ 24)) := by
  have hadd : ∀ (x b n : Nat), x < 2 ^ n → x + b * 2 ^ n = x ^^^ b * 2 ^ n := by
    intro x b n hx
    have := xor_low_high (x + b * 2 ^ n) n
    rw [Nat.add_mul_mod_self_right, Nat.mod_eq_of_lt hx,
      Nat.add_mul_div_right _ _ (Nat.two_pow_pos n),
      Nat.div_eq_of_lt hx, Nat.zero_add] at this
    exact this.symm
  have h0 := b0.toNat_lt
  have h1 := b1.toNat_lt
  have h2 := b2.toNat_lt
  rw [hadd _ _ 24 (by omega), hadd _ _ 16 (by omega), hadd _ _ 8 (by omega)]
  simp only [List.foldl_cons, List.foldl_nil, crcStep, crcShift_iterate_enter]
  congr 1
  ac_rfl

theorem crc32Le_word_ne (hcrc : crc < 2 ^ 32) (pre suf : List UInt8)
    (hne : [b0, b1, b2, b3] ≠ [d0, d1, d2, d3]) :
    crc32Le crc (pre ++ [b0, b1, b2, b3] ++ suf) ≠
      crc32Le crc (pre ++ [d0, d1, d2, d3] ++ suf) := by
  intro h
  apply hne
  set c := pre.foldl crcStep (0xffffffff ^^^ crc) with hcdef
  have hc : c < 2 ^ 32 := crcFold_lt pre (Nat.xor_lt_two_pow (by decide) hcrc)
  have hfold := Nat.xor_right_inj.mp h
  simp only [List.foldl_append, ← hcdef] at hfold
  have hmid := crcFold_inj suf (crcFold_lt _ hc) (crcFold_lt _ hc) hfold
  rw [crcFold_four, crcFold_four] at hmid
  have h0 := b0.toNat_lt
  have h1 := b1.toNat_lt
  have h2 := b2.toNat_lt
  have h3 := b3.toNat_lt
  have g0 := d0.toNat_lt
  have g1 := d1.toNat_lt
  have g2 := d2.toNat_lt
  have g3 := d3.toNat_lt
  have hw := Nat.xor_right_inj.mp (crcShift_iterate_inj 32
    (Nat.xor_lt_two_pow hc (by omega)) (Nat.xor_lt_two_pow hc (by omega)) hmid)
  have e0 : b0 = d0 := UInt8.toNat_inj.mp (by omega)
  have e1 : b1 = d1 := UInt8.toNat_inj.mp (by omega)
  have e2 : b2 = d2 := UInt8.toNat_inj.mp (by omega)
  have e3 : b3 = d3 := UInt8.toNat_inj.mp (by omega)
  rw [e0, e1, e2, e3]

end EspIdf.Device
