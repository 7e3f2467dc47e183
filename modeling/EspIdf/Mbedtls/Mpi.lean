import Mathlib.Data.List.GetD
import Mathlib.Data.List.Induction
import EspIdf.Device.Limbs

/-! Big numbers as `mbedtls_mpi` holds them, and their transfer to and from the memory blocks of the
RSA unit (`esp_bignum.c`). -/

namespace EspIdf.Mbedtls

open EspIdf.Limbs

/-- `mbedtls_mpi`: the sign, which is 1 or -1, and the words; `p` is `NULL` if there are none. -/
structure Mpi where
  s : Int
  p : List UInt32
  sign : s = 1 ∨ s = -1
  deriving DecidableEq, Repr

namespace Mpi

def abs (X : Mpi) : Nat := value X.p

def toInt (X : Mpi) : Int := X.s * X.abs

def init : Mpi := ⟨1, [], .inl rfl⟩

theorem toInt_eq_abs {X : Mpi} (h : 0 ≤ X.toInt) : X.toInt = X.abs := by
  rcases X.sign with hs | hs <;> rw [toInt, hs] at h ⊢ <;> omega

/-- The scan of `hardware_words_needed`: one more than the index of the last word that is not
zero, and at least 1. -/
def usedWords (p : List UInt32) : Nat :=
  (List.range p.length).foldl (fun res i => if p.getD i 0 ≠ 0 then i + 1 else res) 1

def hardwareWordsNeeded (X : Mpi) : Nat := (usedWords X.p + 15) / 16 * 16

def toMemBlock (X : Mpi) (numWords : Nat) : List UInt32 :=
  let copyWords := if numWords < X.p.length then numWords else X.p.length
  X.p.take copyWords ++ List.replicate (numWords - copyWords) 0

def ofMemBlock (Z : Mpi) (block : List UInt32) : Mpi :=
  { Z with p := block ++ List.replicate (Z.p.length - block.length) 0 }

theorem usedWords_concat (p : List UInt32) (w : UInt32) :
    usedWords (p ++ [w]) = if w ≠ 0 then p.length + 1 else usedWords p := by
  have hsame : (List.range p.length).foldl
      (fun res i => if (p ++ [w]).getD i 0 ≠ 0 then i + 1 else res) 1 = usedWords p := by
    refine List.foldl_ext _ _ _ fun res i hi => ?_
    rw [List.getD_append _ _ _ _ (List.mem_range.1 hi)]
  rw [usedWords, List.length_append, List.length_singleton, List.range_succ, List.foldl_append,
    hsame]
  simp

theorem value_lt_usedWords (p : List UInt32) : value p < 2 ^ (32 * usedWords p) := by
  induction p using List.reverseRecOn with
  | nil => simp
  | append_singleton p w ih =>
    rw [usedWords_concat]
    split_ifs with hw
    · simpa using value_lt (p ++ [w])
    · rw [not_not] at hw
      subst hw
      rw [value_append]
      simpa [value] using ih

theorem abs_lt_hardwareWords {X : Mpi} {numWords : Nat} (h : X.hardwareWordsNeeded ≤ numWords) :
    X.abs < 2 ^ (32 * numWords) := by
  refine Nat.lt_of_lt_of_le (value_lt_usedWords X.p) (Nat.pow_le_pow_right (by omega) ?_)
  rw [hardwareWordsNeeded] at h
  omega

theorem length_toMemBlock (X : Mpi) (numWords : Nat) :
    (X.toMemBlock numWords).length = numWords := by
  unfold toMemBlock
  split_ifs with h
  · simp
    omega
  · simp
    omega

theorem value_toMemBlock {X : Mpi} {numWords : Nat} (h : X.abs < 2 ^ (32 * numWords)) :
    value (X.toMemBlock numWords) = X.abs := by
  unfold toMemBlock
  rw [value_append, value_zeros]
  split_ifs with hlen
  · exact value_take_of_lt h
  · rw [List.take_length]
    rfl

theorem abs_ofMemBlock (Z : Mpi) (block : List UInt32) : (Z.ofMemBlock block).abs =
    value block := by
  rw [abs, ofMemBlock, value_append, value_zeros, Nat.mul_zero, Nat.add_zero]

theorem toInt_ofMemBlock (Z : Mpi) (block : List UInt32) :
    (Z.ofMemBlock block).toInt = Z.s * (value block : Int) := by
  rw [toInt, abs_ofMemBlock]
  rfl

/-- The number with the given absolute value that `mbedtls` functions leave in fresh memory. -/
def ofNat (n : Nat) : Mpi :=
  ⟨1, if n = 0 then [0] else words (Nat.log2 n / 32 + 1) n, .inl rfl⟩

theorem abs_ofNat (n : Nat) : (ofNat n).abs = n := by
  rw [abs, ofNat]
  split_ifs with hn
  · rw [hn]
    rfl
  · refine value_words_of_lt (Nat.lt_of_lt_of_le (Nat.lt_log2_self) ?_)
    exact Nat.pow_le_pow_right (by omega) (by omega)

end Mpi

end EspIdf.Mbedtls
