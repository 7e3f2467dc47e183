import Mathlib.Data.Int.ModEq
import Mathlib.Data.Nat.Prime.Basic
import Mathlib.Tactic.Linarith
import EspIdf.Mbedtls.Mpi

/-! Multiplication of big numbers on the RSA unit (`mbedtls_mpi_mul_mpi` of `esp_bignum.c`): the
short cut for 0 and 1, the direct product, the modular product with the modulus `2 ^ N - 1` and the
splitting of long factors. -/

namespace EspIdf.Mbedtls

open EspIdf.Limbs

/-- The RSA unit as documented: products of blocks of up to 64 words, and Montgomery products of
blocks of up to 128 words. -/
structure MulUnit where
  multiply : (numWords : Nat) → (x y : List UInt32) → List UInt32
  product : ∀ numWords x y, numWords % 16 = 0 → numWords ≤ 64 → x.length = numWords →
    y.length = numWords → value (multiply numWords x y) = value x * value y
  montgomery : (numWords : Nat) → (m x z : List UInt32) → (mDash : Nat) → List UInt32
  length : ∀ numWords m x z mDash, (montgomery numWords m x z mDash).length = numWords
  reduced : ∀ numWords m x z mDash, numWords % 16 = 0 → numWords ≤ 128 → m.length = numWords →
    x.length = numWords → z.length = numWords → value m % 2 = 1 →
    mDash * value m % 2 ^ 32 = 2 ^ 32 - 1 → value x < value m → value z < value m →
    value (montgomery numWords m x z mDash) < value m ∧
      value (montgomery numWords m x z mDash) * 2 ^ (32 * numWords) % value m =
        value x * value z % value m

namespace Mpi

def bitlen (X : Mpi) : Nat := if X.abs = 0 then 0 else Nat.log2 X.abs + 1

def ofInt (z : Int) : Mpi :=
  ⟨if z < 0 then -1 else 1, (ofNat z.natAbs).p, by split_ifs <;> simp⟩

def lset (z : Int) : Mpi := ofInt z

def shiftL (X : Mpi) (count : Nat) : Mpi := ofInt (X.toInt * 2 ^ count)

def addMpi (A B : Mpi) : Mpi := ofInt (A.toInt + B.toInt)

/-- `mbedtls_mpi_grow` where the allocation succeeds: more than `MBEDTLS_MPI_MAX_LIMBS` (10000)
limbs are refused with the error of a failed one. -/
def grow (X : Mpi) (nblimbs : Nat) : Mpi :=
  { X with p := X.p ++ List.replicate (nblimbs - X.p.length) 0 }

def low (X : Mpi) (limbs : Nat) : Mpi := { X with p := X.p.take limbs }

def high (X : Mpi) (limbs total : Nat) : Mpi :=
  { X with p := (X.p.drop limbs).take (total - limbs) }

def withSign (Z X Y : Mpi) : Mpi :=
  { Z with s := X.s * Y.s, sign := by rcases X.sign with h | h <;> rcases Y.sign with h' | h' <;>
      simp [h, h'] }

end Mpi

def bitsToHardwareWords (numBits : Nat) : Nat := (numBits + 511) / 512 * 16

def multiplyDirect (unit : MulUnit) (Z X Y : Mpi) (wordsMult : Nat) : Mpi :=
  (Z.ofMemBlock (unit.multiply wordsMult (X.toMemBlock wordsMult)
    (Y.toMemBlock wordsMult))).withSign
    X Y

/-- `mpi_mult_mpi_failover_mod_mult`, with `modular_multiply_finish`: the modulus is all ones, the
constant is 1, and the second product takes the result of the first from the block `Z`. -/
def mpiMultMpiFailoverModMult (unit : MulUnit) (Z X Y : Mpi) (numWords : Nat) : Mpi :=
  let m := List.replicate numWords 0xFFFFFFFF
  let rb := 1 :: List.replicate (numWords - 1) 0
  let z := unit.montgomery numWords m (X.toMemBlock numWords) rb 1
  let z := unit.montgomery numWords m (Y.toMemBlock numWords) z 1
  (Z.ofMemBlock z).withSign X Y

def limbsSlice (bitsY : Nat) : Nat := (bitsY + 31) / 32 / 2

def lowHalf (Y : Mpi) : Mpi := Y.low (limbsSlice Y.bitlen)

def highHalf (Y : Mpi) : Mpi := Y.high (limbsSlice Y.bitlen) ((Y.bitlen + 31) / 32)

def mpiMultMpiOverlong (mul : Mpi → Mpi → Mpi → Option Mpi) (Z X Y : Mpi) (wordsResult : Nat) :
    Option Mpi := do
  let Ztemp ← mul Mpi.init X (lowHalf Y)
  let Z ← mul (Z.grow wordsResult) X (highHalf Y)
  return (Z.shiftL (limbsSlice Y.bitlen * 32)).addMpi Ztemp

def wordsMult (X Y : Mpi) : Nat :=
  if bitsToHardwareWords Y.bitlen < bitsToHardwareWords X.bitlen then bitsToHardwareWords X.bitlen
  else bitsToHardwareWords Y.bitlen

/-- At most `fuel` calls are nested. -/
def mbedtlsMpiMulMpi (unit : MulUnit) : Nat → Mpi → Mpi → Mpi → Option Mpi
  | 0, _, _, _ => none
  | fuel + 1, Z, X, Y =>
    if X.bitlen = 0 ∨ Y.bitlen = 0 then some (Mpi.lset 0)
    else if X.bitlen = 1 then some Y
    else if Y.bitlen = 1 then some X
    else if 2048 < wordsMult X Y * 32 then
      let wordsZ := bitsToHardwareWords (X.bitlen + Y.bitlen)
      if wordsZ * 32 ≤ 4096 then some (mpiMultMpiFailoverModMult unit Z X Y wordsZ)
      else if X.bitlen < Y.bitlen then
        mpiMultMpiOverlong (mbedtlsMpiMulMpi unit fuel) Z X Y wordsZ
      else mpiMultMpiOverlong (mbedtlsMpiMulMpi unit fuel) Z Y X wordsZ
    else some (multiplyDirect unit Z X Y (wordsMult X Y))

def TooLong (X Y : Mpi) : Prop :=
  1 < X.bitlen ∧ 1 < Y.bitlen ∧ 4096 < bitsToHardwareWords (X.bitlen + Y.bitlen) * 32

inductive Reaches : Mpi → Mpi → Mpi → Mpi → Prop
  | here (X Y : Mpi) : Reaches X Y X Y
  | lowY {X Y X' Y' : Mpi} (hlong : TooLong X Y) (hlt : X.bitlen < Y.bitlen)
      (h : Reaches X (lowHalf Y) X' Y') : Reaches X Y X' Y'
  | highY {X Y X' Y' : Mpi} (hlong : TooLong X Y) (hlt : X.bitlen < Y.bitlen)
      (h : Reaches X (highHalf Y) X' Y') : Reaches X Y X' Y'
  | lowX {X Y X' Y' : Mpi} (hlong : TooLong X Y) (hle : Y.bitlen ≤ X.bitlen)
      (h : Reaches Y (lowHalf X) X' Y') : Reaches X Y X' Y'
  | highX {X Y X' Y' : Mpi} (hlong : TooLong X Y) (hle : Y.bitlen ≤ X.bitlen)
      (h : Reaches Y (highHalf X) X' Y') : Reaches X Y X' Y'

def SignLost (X Y : Mpi) : Prop :=
  (X.toInt = -1 ∧ Y.toInt ≠ 0) ∨ (1 < X.bitlen ∧ Y.toInt = -1)

/-! ### Lengths -/

namespace Mpi

theorem abs_lt_bitlen (X : Mpi) : X.abs < 2 ^ X.bitlen := by
  unfold bitlen
  split_ifs with h
  · simp [h]
  · exact Nat.lt_log2_self

theorem bitlen_le_iff (X : Mpi) (k : Nat) : X.bitlen ≤ k ↔ X.abs < 2 ^ k := by
  constructor
  · exact fun h => Nat.lt_of_lt_of_le X.abs_lt_bitlen (Nat.pow_le_pow_right (by omega) h)
  · intro h
    unfold bitlen
    split_ifs with hzero
    · omega
    · exact (Nat.log2_lt hzero).2 h

theorem bitlen_eq_zero (X : Mpi) : X.bitlen = 0 ↔ X.abs = 0 := by
  have := X.bitlen_le_iff 0
  omega

theorem bitlen_eq_one (X : Mpi) : X.bitlen = 1 ↔ X.abs = 1 := by
  have hone := X.bitlen_le_iff 1
  have hzero := X.bitlen_eq_zero
  omega

theorem toInt_ofInt (z : Int) : (ofInt z).toInt = z := by
  have habs : (ofInt z).abs = z.natAbs := abs_ofNat z.natAbs
  rw [toInt, habs, ofInt]
  dsimp only
  split_ifs <;> omega

theorem toInt_withSign (Z X Y : Mpi) (h : Z.abs = X.abs * Y.abs) :
    (Z.withSign X Y).toInt = X.toInt * Y.toInt := by
  have habs : (Z.withSign X Y).abs = Z.abs := rfl
  rw [toInt, habs, h, toInt, toInt]
  push_cast
  simp only [withSign]
  ring

theorem abs_low_high (X : Mpi) (hlimbs : limbs ≤ X.p.length) (htotal : X.abs < 2 ^ (32 * total))
    (hle : limbs ≤ total) :
    X.abs = (X.low limbs).abs + 2 ^ (32 * limbs) * (X.high limbs total).abs := by
  have hsplit := value_take_add_drop X.p limbs hlimbs
  have hsmall : value (X.p.drop limbs) < 2 ^ (32 * (total - limbs)) := by
    have hpow : 2 ^ (32 * total) = 2 ^ (32 * limbs) * 2 ^ (32 * (total - limbs)) := by
      rw [← pow_add]
      congr 1
      omega
    have hx : value X.p < 2 ^ (32 * total) := htotal
    have : 2 ^ (32 * limbs) * value (X.p.drop limbs) <
        2 ^ (32 * limbs) * 2 ^ (32 * (total - limbs)) := by omega
    exact Nat.lt_of_mul_lt_mul_left this
  have hhigh : (X.high limbs total).abs = value (X.p.drop limbs) := value_take_of_lt hsmall
  rw [hhigh]
  exact hsplit

end Mpi

theorem value_ones (n : Nat) : value (List.replicate n 0xFFFFFFFF) + 1 = 2 ^ (32 * n) := by
  induction n with
  | zero => rfl
  | succ n ih =>
    rw [List.replicate_succ, value, Nat.mul_succ, pow_add, ← ih]
    have : (0xFFFFFFFF : UInt32).toNat = 2 ^ 32 - 1 := rfl
    omega

theorem le_bitsToHardwareWords (numBits : Nat) : numBits ≤ 32 * bitsToHardwareWords numBits := by
  unfold bitsToHardwareWords
  omega

theorem bitsToHardwareWords_mod (numBits : Nat) : bitsToHardwareWords numBits % 16 = 0 := by
  unfold bitsToHardwareWords
  omega

theorem le_wordsMult (X Y : Mpi) : X.bitlen ≤ 32 * wordsMult X Y ∧
    Y.bitlen ≤ 32 * wordsMult X Y := by
  have hX := le_bitsToHardwareWords X.bitlen
  have hY := le_bitsToHardwareWords Y.bitlen
  unfold wordsMult
  split_ifs <;> omega

theorem wordsMult_mod (X Y : Mpi) : wordsMult X Y % 16 = 0 := by
  unfold wordsMult
  split_ifs
  · exact bitsToHardwareWords_mod _
  · exact bitsToHardwareWords_mod _

/-! ### The products of the unit -/

theorem multiplyDirect_toInt (unit : MulUnit) (Z X Y : Mpi) (h : wordsMult X Y * 32 ≤ 2048) :
    (multiplyDirect unit Z X Y (wordsMult X Y)).toInt = X.toInt * Y.toInt := by
  obtain ⟨hX, hY⟩ := le_wordsMult X Y
  have hvX := Mpi.value_toMemBlock ((X.bitlen_le_iff _).1 hX)
  have hvY := Mpi.value_toMemBlock ((Y.bitlen_le_iff _).1 hY)
  refine Mpi.toInt_withSign _ X Y ?_
  rw [Mpi.abs_ofMemBlock, unit.product _ _ _ (wordsMult_mod X Y) (by omega)
    (X.length_toMemBlock _) (Y.length_toMemBlock _), hvX, hvY]

theorem mul_lt_ones {X Y : Mpi} (hX : 1 < X.bitlen) {n : Nat}
    (hn : X.bitlen + Y.bitlen ≤ n) : X.abs * Y.abs + 1 < 2 ^ n := by
  have hx : X.abs + 1 ≤ 2 ^ X.bitlen := X.abs_lt_bitlen
  have hy : Y.abs + 1 ≤ 2 ^ Y.bitlen := Y.abs_lt_bitlen
  have hx' : 1 < X.abs := by
    by_contra hle
    have := (X.bitlen_le_iff 1).2 (by omega)
    omega
  have hexpand : (X.abs + 1) * (Y.abs + 1) = X.abs * Y.abs + X.abs + Y.abs + 1 := by ring
  calc X.abs * Y.abs + 1 < (X.abs + 1) * (Y.abs + 1) := by omega
    _ ≤ 2 ^ X.bitlen * 2 ^ Y.bitlen := Nat.mul_le_mul hx hy
    _ = 2 ^ (X.bitlen + Y.bitlen) := (pow_add _ _ _).symm
    _ ≤ 2 ^ n := Nat.pow_le_pow_right (by omega) hn

theorem mul_pow_mod_ones (hR : m + 1 = R) (a : Nat) : a * R % m = a % m := by
  rw [← hR, Nat.mul_add, Nat.mul_one, Nat.mul_comm a m, Nat.mul_add_mod]

theorem failover_toInt (unit : MulUnit) (Z X Y : Mpi) (hX : 1 < X.bitlen) (hY : 1 < Y.bitlen)
    (hlong : bitsToHardwareWords (X.bitlen + Y.bitlen) * 32 ≤ 4096) :
    (mpiMultMpiFailoverModMult unit Z X Y (bitsToHardwareWords (X.bitlen + Y.bitlen))).toInt =
      X.toInt * Y.toInt := by
  have hbits := le_bitsToHardwareWords (X.bitlen + Y.bitlen)
  have hdiv := bitsToHardwareWords_mod (X.bitlen + Y.bitlen)
  have hprod := mul_lt_ones hX hbits
  have hX' := Mpi.value_toMemBlock ((X.bitlen_le_iff (32 * bitsToHardwareWords
    (X.bitlen + Y.bitlen))).1 (by omega))
  have hY' := Mpi.value_toMemBlock ((Y.bitlen_le_iff (32 * bitsToHardwareWords
    (X.bitlen + Y.bitlen))).1 (by omega))
  generalize hn : bitsToHardwareWords (X.bitlen + Y.bitlen) = n at *
  have hones := value_ones n
  have hodd : value (List.replicate n 0xFFFFFFFF) % 2 = 1 := by
    have : 2 ^ (32 * n) % 2 = 0 := by
      rw [show 32 * n = 32 * n - 1 + 1 by omega]
      omega
    omega
  have hdash : 1 * value (List.replicate n 0xFFFFFFFF) % 2 ^ 32 = 2 ^ 32 - 1 := by
    have : 2 ^ (32 * n) % 2 ^ 32 = 0 := by
      rw [show 32 * n = 32 * n - 32 + 32 by omega, pow_add]
      exact Nat.mul_mod_left _ _
    omega
  have hrb : value (1 :: List.replicate (n - 1) 0) = 1 := by
    rw [value, value_zeros]
    rfl
  have hrbLen : (1 :: List.replicate (n - 1) (0 : UInt32)).length = n := by
    simp
    omega
  have hx1 : 1 < X.abs := by
    by_contra hle
    have := (X.bitlen_le_iff 1).2 (by omega)
    omega
  have hy1 : 1 < Y.abs := by
    by_contra hle
    have := (Y.bitlen_le_iff 1).2 (by omega)
    omega
  have hXle : X.abs ≤ X.abs * Y.abs := Nat.le_mul_of_pos_right _ (by omega)
  have hYle : Y.abs ≤ X.abs * Y.abs := Nat.le_mul_of_pos_left _ (by omega)
  have hXm : X.abs < value (List.replicate n 0xFFFFFFFF) := by omega
  have hYm : Y.abs < value (List.replicate n 0xFFFFFFFF) := by omega
  -- the first product gives `X` back
  obtain ⟨hlt₁, hmod₁⟩ := unit.reduced n (List.replicate n 0xFFFFFFFF) (X.toMemBlock n)
    (1 :: List.replicate (n - 1) 0) 1 hdiv (by omega) (by simp) (X.length_toMemBlock n) hrbLen hodd
    hdash (by rw [hX']; exact hXm) (by omega)
  rw [mul_pow_mod_ones hones, hX', hrb, Nat.mul_one, Nat.mod_eq_of_lt hlt₁,
    Nat.mod_eq_of_lt hXm] at hmod₁
  -- the second one multiplies it by `Y`
  obtain ⟨hlt₂, hmod₂⟩ := unit.reduced n (List.replicate n 0xFFFFFFFF) (Y.toMemBlock n)
    (unit.montgomery n (List.replicate n 0xFFFFFFFF) (X.toMemBlock n)
      (1 :: List.replicate (n - 1) 0) 1) 1 hdiv (by omega) (by simp) (Y.length_toMemBlock n)
    (unit.length _ _ _ _ _) hodd hdash (by rw [hY']; exact hYm) hlt₁
  rw [mul_pow_mod_ones hones, hY', hmod₁, Nat.mod_eq_of_lt hlt₂,
    Nat.mod_eq_of_lt (by rw [Nat.mul_comm]; omega)] at hmod₂
  refine Mpi.toInt_withSign _ X Y ?_
  rw [Mpi.abs_ofMemBlock, hmod₂, Nat.mul_comm]

/-! ### Splitting -/

theorem limbs_le_length (Y : Mpi) : (Y.bitlen + 31) / 32 ≤ Y.p.length := by
  have := (Y.bitlen_le_iff (32 * Y.p.length)).2 (value_lt Y.p)
  omega

theorem abs_halves (Y : Mpi) :
    Y.abs = (lowHalf Y).abs + 2 ^ (32 * limbsSlice Y.bitlen) * (highHalf Y).abs := by
  have hlen := limbs_le_length Y
  refine Y.abs_low_high ?_ ((Y.bitlen_le_iff _).1 ?_) ?_
  · unfold limbsSlice
    omega
  · omega
  · unfold limbsSlice
    omega

theorem toInt_halves (Y : Mpi) :
    Y.toInt = (lowHalf Y).toInt + 2 ^ (32 * limbsSlice Y.bitlen) * (highHalf Y).toInt := by
  have habs := abs_halves Y
  have hlow : (lowHalf Y).s = Y.s := rfl
  have hhigh : (highHalf Y).s = Y.s := rfl
  rw [Mpi.toInt, Mpi.toInt, Mpi.toInt, hlow, hhigh, habs]
  push_cast
  ring

theorem bitlen_halves (h : 64 < Y.bitlen) :
    (lowHalf Y).bitlen < Y.bitlen ∧ (highHalf Y).bitlen < Y.bitlen := by
  have habs := abs_halves Y
  have hslice : 0 < limbsSlice Y.bitlen ∧ 32 * limbsSlice Y.bitlen < Y.bitlen := by
    unfold limbsSlice
    omega
  constructor
  · refine Nat.lt_of_le_of_lt (((lowHalf Y).bitlen_le_iff _).2 ?_) hslice.2
    have hlen : (lowHalf Y).p.length = limbsSlice Y.bitlen := by
      have := limbs_le_length Y
      rw [lowHalf, Mpi.low]
      simp only [List.length_take]
      omega
    rw [← hlen]
    exact value_lt (lowHalf Y).p
  · refine Nat.lt_of_le_of_lt (((highHalf Y).bitlen_le_iff (Y.bitlen - 32 *
      limbsSlice Y.bitlen)).2 ?_) (by omega)
    have hlt := Y.abs_lt_bitlen
    have hpow : 2 ^ Y.bitlen =
        2 ^ (32 * limbsSlice Y.bitlen) * 2 ^ (Y.bitlen - 32 * limbsSlice Y.bitlen) := by
      rw [← pow_add]
      congr 1
      omega
    exact Nat.lt_of_mul_lt_mul_left (a := 2 ^ (32 * limbsSlice Y.bitlen)) (by omega)

/-! ### The whole product -/

theorem reaches_of_not_tooLong (h : ¬ TooLong X Y) (hr : Reaches X Y X' Y') : X' = X ∧ Y' = Y := by
  cases hr with
  | here => exact ⟨rfl, rfl⟩
  | lowY hlong | highY hlong | lowX hlong | highX hlong => exact absurd hlong h

/-- The result `z` for `X * Y` is off, if at all, to the side that the signs give; it is exact if
and only if no sign is lost on the way. -/
structure OffBy (X Y : Mpi) (z : Int) : Prop where
  side : 0 ≤ -(X.s * Y.s) * (z - X.toInt * Y.toInt)
  exact_iff : z = X.toInt * Y.toInt ↔ ∀ X' Y', Reaches X Y X' Y' → ¬ SignLost X' Y'

theorem OffBy.exact (hshort : ¬ TooLong X Y) (hkept : ¬ SignLost X Y) :
    OffBy X Y (X.toInt * Y.toInt) := by
  refine ⟨by simp, iff_of_true rfl fun X' Y' hr => ?_⟩
  obtain ⟨rfl, rfl⟩ := reaches_of_not_tooLong hshort hr
  exact hkept

theorem Mpi.toInt_of_abs_one {X : Mpi} (h : X.abs = 1) : X.toInt = X.s := by
  rw [Mpi.toInt, h]
  simp

theorem not_signLost_of_long (hX : 1 < X.bitlen) (hY : 1 < Y.bitlen) : ¬ SignLost X Y := by
  have hone : ∀ W : Mpi, W.toInt = -1 → W.bitlen = 1 := by
    intro W hW
    rw [W.bitlen_eq_one]
    rcases W.sign with hs | hs <;> rw [Mpi.toInt, hs] at hW <;> omega
  rintro (⟨h, -⟩ | ⟨-, h⟩)
  · have := hone X h
    omega
  · have := hone Y h
    omega

theorem offBy_zero (h : X.bitlen = 0 ∨ Y.bitlen = 0) : OffBy X Y 0 := by
  have hzero : X.toInt = 0 ∨ Y.toInt = 0 := by
    rw [X.bitlen_eq_zero, Y.bitlen_eq_zero] at h
    exact h.imp (fun h => by simp [Mpi.toInt, h]) fun h => by simp [Mpi.toInt, h]
  have hprod : X.toInt * Y.toInt = 0 := by
    rcases hzero with h | h <;> simp [h]
  rw [← hprod]
  refine OffBy.exact (fun hlong => by rcases h with h | h <;> have := hlong.1 <;>
    have := hlong.2.1 <;> omega) ?_
  rintro (⟨hX, hY⟩ | ⟨hX, hY⟩)
  · rcases hzero with h0 | h0
    · omega
    · exact hY h0
  · rcases hzero with h0 | h0
    · have habs : X.abs = 0 := by
        rcases X.sign with hs | hs <;> rw [Mpi.toInt, hs] at h0 <;> omega
      have := X.bitlen_eq_zero.2 habs
      omega
    · omega

theorem offBy_one_left {X Y : Mpi} (hX : X.bitlen = 1) (hY : Y.bitlen ≠ 0) : OffBy X Y Y.toInt := by
  have hone := Mpi.toInt_of_abs_one (X.bitlen_eq_one.1 hX)
  have hshort : ¬ TooLong X Y := fun hlong => by have := hlong.1; omega
  have hYpos : 0 < Y.abs := by
    have := Y.bitlen_eq_zero
    omega
  rcases X.sign with hs | hs
  · have hprod : X.toInt * Y.toInt = Y.toInt := by rw [hone, hs, one_mul]
    have := OffBy.exact hshort (X := X) (Y := Y) (by
      rintro (⟨h, -⟩ | ⟨h, -⟩) <;> omega)
    rwa [hprod] at this
  · have hY0 : Y.toInt ≠ 0 := by
      rcases Y.sign with hs' | hs' <;> rw [Mpi.toInt, hs'] <;> omega
    refine ⟨?_, iff_of_false ?_ fun h => ?_⟩
    · rw [hone, hs]
      rcases Y.sign with hs' | hs' <;> rw [Mpi.toInt, hs'] <;> omega
    · rw [hone, hs]
      omega
    · exact h X Y (.here X Y) (.inl ⟨by rw [hone, hs], hY0⟩)

theorem offBy_one_right {X Y : Mpi} (hX : 1 < X.bitlen) (hY : Y.bitlen = 1) :
    OffBy X Y X.toInt := by
  have hone := Mpi.toInt_of_abs_one (Y.bitlen_eq_one.1 hY)
  have hshort : ¬ TooLong X Y := fun hlong => by have := hlong.2.1; omega
  have hXabs : 1 < X.abs := by
    by_contra hle
    have := (X.bitlen_le_iff 1).2 (by omega)
    omega
  rcases Y.sign with hs | hs
  · have hprod : X.toInt * Y.toInt = X.toInt := by rw [hone, hs, mul_one]
    have := OffBy.exact hshort (X := X) (Y := Y) (by
      rintro (⟨h, -⟩ | ⟨-, h⟩)
      · rcases X.sign with hs' | hs' <;> rw [Mpi.toInt, hs'] at h <;> omega
      · omega)
    rwa [hprod] at this
  · have hX0 : X.toInt ≠ 0 := by
      rcases X.sign with hs' | hs' <;> rw [Mpi.toInt, hs'] <;> omega
    refine ⟨?_, iff_of_false ?_ fun h => ?_⟩
    · rw [hone, hs]
      rcases X.sign with hs' | hs' <;> rw [Mpi.toInt, hs'] <;> omega
    · rw [hone, hs]
      omega
    · exact h X Y (.here X Y) (.inr ⟨hX, by rw [hone, hs]⟩)

theorem offBy_split (hl : OffBy A (lowHalf B) l) (hh : OffBy A (highHalf B) h) :
    0 ≤ -(A.s * B.s) * (h * 2 ^ (limbsSlice B.bitlen * 32) + l - A.toInt * B.toInt) ∧
    (h * 2 ^ (limbsSlice B.bitlen * 32) + l = A.toInt * B.toInt ↔
      l = A.toInt * (lowHalf B).toInt ∧ h = A.toInt * (highHalf B).toInt) := by
  have hsl : (lowHalf B).s = B.s := rfl
  have hlside := hl.side
  have hhside := hh.side
  rw [hsl] at hlside
  have hB := toInt_halves B
  rw [Nat.mul_comm 32] at hB
  have hpow : (0 : Int) < 2 ^ (limbsSlice B.bitlen * 32) := by positivity
  generalize (2 : Int) ^ (limbsSlice B.bitlen * 32) = R at *
  have herr : h * R + l - A.toInt * B.toInt =
      (l - A.toInt * (lowHalf B).toInt) + R * (h - A.toInt * (highHalf B).toInt) := by
    rw [hB]
    ring
  have hRside : 0 ≤ R * (-(A.s * B.s) * (h - A.toInt * (highHalf B).toInt)) :=
    mul_nonneg hpow.le hhside
  have hsum : -(A.s * B.s) * (h * R + l - A.toInt * B.toInt) =
      -(A.s * B.s) * (l - A.toInt * (lowHalf B).toInt) +
        R * (-(A.s * B.s) * (h - A.toInt * (highHalf B).toInt)) := by
    rw [herr]
    ring
  refine ⟨by rw [hsum]; exact add_nonneg hlside hRside, fun heq => ?_, ?_⟩
  · have hsign : -(A.s * B.s) ≠ 0 := by
      rcases A.sign with hs | hs <;> rcases B.sign with hs' | hs' <;> simp [hs, hs']
    have hzero : -(A.s * B.s) * (h * R + l - A.toInt * B.toInt) = 0 := by
      rw [heq]
      ring
    have hl0 : -(A.s * B.s) * (l - A.toInt * (lowHalf B).toInt) = 0 := by linarith
    have hh0 : R * (-(A.s * B.s) * (h - A.toInt * (highHalf B).toInt)) = 0 := by linarith
    rcases mul_eq_zero.1 hl0 with hbad | hl0
    · exact absurd hbad hsign
    rcases mul_eq_zero.1 hh0 with hbad | hh0
    · exact absurd hbad hpow.ne'
    rcases mul_eq_zero.1 hh0 with hbad | hh0
    · exact absurd hbad hsign
    exact ⟨by omega, by omega⟩
  · rintro ⟨rfl, rfl⟩
    rw [hB]
    ring

theorem tooLong_of_long (hX : 1 < X.bitlen) (hY : 1 < Y.bitlen)
    (h : ¬ bitsToHardwareWords (X.bitlen + Y.bitlen) * 32 ≤ 4096) : TooLong X Y :=
  ⟨hX, hY, by omega⟩

theorem not_tooLong_of_short (h : ¬ 2048 < wordsMult X Y * 32) : ¬ TooLong X Y := by
  intro hlong
  have hsum := hlong.2.2
  obtain ⟨hX, hY⟩ := le_wordsMult X Y
  unfold bitsToHardwareWords at hsum
  omega

theorem signs_splitY (hlong : TooLong X Y) (hlt : X.bitlen < Y.bitlen) :
    ((∀ X' Y', Reaches X (lowHalf Y) X' Y' → ¬ SignLost X' Y') ∧
      ∀ X' Y', Reaches X (highHalf Y) X' Y' → ¬ SignLost X' Y') ↔
    ∀ X' Y', Reaches X Y X' Y' → ¬ SignLost X' Y' := by
  constructor
  · rintro ⟨hlow, hhigh⟩ X' Y' hr
    cases hr with
    | here => exact not_signLost_of_long hlong.1 hlong.2.1
    | lowY _ _ hr => exact hlow X' Y' hr
    | highY _ _ hr => exact hhigh X' Y' hr
    | lowX _ hle _ => omega
    | highX _ hle _ => omega
  · intro hall
    exact ⟨fun X' Y' hr => hall X' Y' (.lowY hlong hlt hr),
      fun X' Y' hr => hall X' Y' (.highY hlong hlt hr)⟩

theorem signs_splitX (hlong : TooLong X Y) (hle : Y.bitlen ≤ X.bitlen) :
    ((∀ X' Y', Reaches Y (lowHalf X) X' Y' → ¬ SignLost X' Y') ∧
      ∀ X' Y', Reaches Y (highHalf X) X' Y' → ¬ SignLost X' Y') ↔
    ∀ X' Y', Reaches X Y X' Y' → ¬ SignLost X' Y' := by
  constructor
  · rintro ⟨hlow, hhigh⟩ X' Y' hr
    cases hr with
    | here => exact not_signLost_of_long hlong.1 hlong.2.1
    | lowY _ hlt _ => omega
    | highY _ hlt _ => omega
    | lowX _ _ hr => exact hlow X' Y' hr
    | highX _ _ hr => exact hhigh X' Y' hr
  · intro hall
    exact ⟨fun X' Y' hr => hall X' Y' (.lowX hlong hle hr),
      fun X' Y' hr => hall X' Y' (.highX hlong hle hr)⟩

theorem OffBy.splitY (hl : OffBy X (lowHalf Y) l) (hh : OffBy X (highHalf Y) h)
    (hlong : TooLong X Y)
    (hlt : X.bitlen < Y.bitlen) :
    OffBy X Y (h * 2 ^ (limbsSlice Y.bitlen * 32) + l) := by
  obtain ⟨hside, hiff⟩ := offBy_split hl hh
  refine ⟨hside, hiff.trans ?_⟩
  rw [hl.exact_iff, hh.exact_iff]
  exact signs_splitY hlong hlt

theorem OffBy.splitX (hl : OffBy Y (lowHalf X) l) (hh : OffBy Y (highHalf X) h)
    (hlong : TooLong X Y)
    (hle : Y.bitlen ≤ X.bitlen) :
    OffBy X Y (h * 2 ^ (limbsSlice X.bitlen * 32) + l) := by
  obtain ⟨hside, hiff⟩ := offBy_split hl hh
  rw [mul_comm Y.s, mul_comm Y.toInt X.toInt] at hside
  rw [mul_comm Y.toInt X.toInt] at hiff
  refine ⟨hside, hiff.trans ?_⟩
  rw [hl.exact_iff, hh.exact_iff]
  exact signs_splitX hlong hle

theorem overlong_some (hl : mul Mpi.init A (lowHalf B) = some l)
    (hh : mul (Z.grow wordsResult) A (highHalf B) = some h) :
    ∃ Z', mpiMultMpiOverlong mul Z A B wordsResult = some Z' ∧
      Z'.toInt = h.toInt * 2 ^ (limbsSlice B.bitlen * 32) + l.toInt := by
  refine ⟨(h.shiftL (limbsSlice B.bitlen * 32)).addMpi l, ?_, ?_⟩
  · simp only [mpiMultMpiOverlong, hl, hh]
    rfl
  · rw [Mpi.addMpi, Mpi.shiftL, Mpi.toInt_ofInt, Mpi.toInt_ofInt]

theorem mulMpi_offBy (unit : MulUnit) (fuel : Nat) (Z X Y : Mpi)
    (hfuel : X.bitlen + Y.bitlen < fuel) :
    ∃ Z', mbedtlsMpiMulMpi unit fuel Z X Y = some Z' ∧ OffBy X Y Z'.toInt := by
  induction fuel generalizing Z X Y with
  | zero => omega
  | succ fuel ih =>
    -- the longer factor, if it has to be split, has more than 64 bits
    have hbits : ¬ bitsToHardwareWords (X.bitlen + Y.bitlen) * 32 ≤ 4096 → 64 < X.bitlen ∨
        64 < Y.bitlen := by
      intro hlong
      unfold bitsToHardwareWords at hlong
      omega
    rw [mbedtlsMpiMulMpi]
    dsimp only
    split_ifs with hzero hX1 hY1 hlong hfits hlt
    · exact ⟨_, rfl, by exact offBy_zero hzero⟩
    · exact ⟨_, rfl, offBy_one_left hX1 (by omega)⟩
    · exact ⟨_, rfl, offBy_one_right (by omega) hY1⟩
    · have hX : 1 < X.bitlen := by omega
      have hY : 1 < Y.bitlen := by omega
      refine ⟨_, rfl, ?_⟩
      rw [failover_toInt unit Z X Y hX hY hfits]
      exact OffBy.exact (fun h => by have := h.2.2; omega) (not_signLost_of_long hX hY)
    · -- `Y` is split
      have htoo := tooLong_of_long (by omega) (by omega) hfits
      obtain ⟨hlo, hhi⟩ := bitlen_halves (Y := Y) (by omega)
      obtain ⟨l, hl, hloff⟩ := ih Mpi.init X (lowHalf Y) (by omega)
      obtain ⟨h, hh, hhoff⟩ := ih (Z.grow (bitsToHardwareWords (X.bitlen + Y.bitlen))) X
        (highHalf Y) (by omega)
      obtain ⟨Z', hZ', hsum⟩ := overlong_some hl hh
      refine ⟨Z', hZ', ?_⟩
      rw [hsum]
      exact hloff.splitY hhoff htoo hlt
    · -- `X` is split
      have htoo := tooLong_of_long (by omega) (by omega) hfits
      obtain ⟨hlo, hhi⟩ := bitlen_halves (Y := X) (by omega)
      obtain ⟨l, hl, hloff⟩ := ih Mpi.init Y (lowHalf X) (by omega)
      obtain ⟨h, hh, hhoff⟩ := ih (Z.grow (bitsToHardwareWords (X.bitlen + Y.bitlen))) Y
        (highHalf X) (by omega)
      obtain ⟨Z', hZ', hsum⟩ := overlong_some hl hh
      refine ⟨Z', hZ', ?_⟩
      rw [hsum]
      exact hloff.splitX hhoff htoo (by omega)
    · have hX : 1 < X.bitlen := by omega
      have hY : 1 < Y.bitlen := by omega
      refine ⟨_, rfl, ?_⟩
      rw [multiplyDirect_toInt unit Z X Y (by omega)]
      exact OffBy.exact (not_tooLong_of_short hlong) (not_signLost_of_long hX hY)

/-- The multiplication ends, and its result is the product exactly if none of the products that the
splitting comes to has the factor -1 where the short cut copies the other factor. -/
theorem mul_mpi_exact_iff (unit : MulUnit) (Z X Y : Mpi) (fuel : Nat)
    (hfuel : X.bitlen + Y.bitlen < fuel) :
    ∃ Z', mbedtlsMpiMulMpi unit fuel Z X Y = some Z' ∧
      (Z'.toInt = X.toInt * Y.toInt ↔ ∀ X' Y', Reaches X Y X' Y' → ¬ SignLost X' Y') := by
  obtain ⟨Z', hZ', hoff⟩ := mulMpi_offBy unit fuel Z X Y hfuel
  exact ⟨Z', hZ', hoff.exact_iff⟩

/-! ### A unit -/

def montgomeryProduct (R m x z : Nat) : Nat := ((x * z : Nat) * Nat.gcdA R m % (m : Int)).toNat

theorem montgomeryProduct_spec (hcop : Nat.Coprime R m) (hm : 0 < m) (x z : Nat) :
    montgomeryProduct R m x z < m ∧ montgomeryProduct R m x z * R % m = x * z % m := by
  have hpos : (0 : Int) < m := by omega
  have hnonneg := Int.emod_nonneg ((x * z : Nat) * Nat.gcdA R m : Int) hpos.ne'
  have hlt := Int.emod_lt_of_pos ((x * z : Nat) * Nat.gcdA R m : Int) hpos
  refine ⟨by unfold montgomeryProduct; omega, ?_⟩
  have hbezout := Nat.gcd_eq_gcd_ab R m
  have hinv : (R : Int) * Nat.gcdA R m ≡ 1 [ZMOD m] := by
    rw [Int.modEq_iff_dvd]
    exact ⟨Nat.gcdB R m, by linarith⟩
  have hmod : ((montgomeryProduct R m x z * R : Nat) : Int) ≡ ((x * z : Nat) : Int) [ZMOD m] := by
    have hcast : ((montgomeryProduct R m x z : Nat) : Int) =
        (x * z : Nat) * Nat.gcdA R m % (m : Int) := Int.toNat_of_nonneg hnonneg
    rw [Nat.cast_mul, hcast]
    calc ((x * z : Nat) * Nat.gcdA R m % (m : Int)) * R
        ≡ ((x * z : Nat) * Nat.gcdA R m) * R [ZMOD m] := (Int.mod_modEq _ _).mul_right _
      _ = (x * z : Nat) * (R * Nat.gcdA R m) := by ring
      _ ≡ (x * z : Nat) * 1 [ZMOD m] := hinv.mul_left _
      _ = (x * z : Nat) := by ring
  exact (Int.natCast_modEq_iff.1 hmod)

def exactUnit : MulUnit where
  multiply n x y := words (2 * n) (value x * value y)
  product n x y _ _ hx hy := by
    refine value_words_of_lt ?_
    have hx' := value_lt x
    have hy' := value_lt y
    rw [hx] at hx'
    rw [hy] at hy'
    calc value x * value y < 2 ^ (32 * n) * 2 ^ (32 * n) := Nat.mul_lt_mul'' hx' hy'
      _ = 2 ^ (32 * (2 * n)) := by rw [← pow_add]; congr 1; omega
  montgomery n m x z _ := words n (montgomeryProduct (2 ^ (32 * n)) (value m) (value x) (value z))
  length n _ _ _ _ := length_words n _
  reduced n m x z _ _ _ hm _ _ hodd _ _ _ := by
    have hcop : Nat.Coprime (2 ^ (32 * n)) (value m) :=
      Nat.Coprime.pow_left _ (Nat.coprime_two_left.2 (Nat.odd_iff.2 hodd))
    have hspec := montgomeryProduct_spec hcop (by omega) (value x) (value z)
    have hlt := value_lt m
    rw [hm] at hlt
    rw [value_words_of_lt (Nat.lt_trans hspec.1 hlt)]
    exact hspec

/-- Factors of 70 limbs, whose product is split. -/
def longFactor : Mpi := { Mpi.init with p := List.replicate 70 3 }

theorem mul_mpi_exact_split : TooLong longFactor longFactor ∧
    ∃ Z', mbedtlsMpiMulMpi exactUnit 4480 Mpi.init longFactor longFactor = some Z' ∧
      (Z'.toInt = longFactor.toInt * longFactor.toInt ↔
        ∀ X' Y', Reaches longFactor longFactor X' Y' → ¬ SignLost X' Y') := by
  have hbits : longFactor.bitlen = 2210 := by decide +kernel
  refine ⟨by rw [TooLong, hbits]; decide +kernel, ?_⟩
  exact mul_mpi_exact_iff exactUnit Mpi.init longFactor longFactor 4480 (by rw [hbits]; decide)

theorem minus_one_times_five : ∃ (unit : MulUnit) (X Y Z' : Mpi), X.toInt = -1 ∧ Y.toInt = 5 ∧
    mbedtlsMpiMulMpi unit 10 Mpi.init X Y = some Z' ∧ Z'.toInt = 5 := by
  refine ⟨exactUnit, ⟨-1, [1], .inr rfl⟩, ⟨1, [5], .inl rfl⟩, ⟨1, [5], .inl rfl⟩, by decide,
    by decide, ?_, by decide⟩
  rw [mbedtlsMpiMulMpi, if_neg (by decide), if_pos (by decide)]

end EspIdf.Mbedtls
