import Mathlib.Tactic.Linarith
import EspIdf.Device.Runs
import EspIdf.Mbedtls.Mpi

/-! Modular exponentiation on the RSA unit (`mbedtls_mpi_exp_mod` of `esp_bignum.c`): calls that
share the cached constant `_Rinv`, and when each of them gives the power. -/

namespace EspIdf.Mbedtls

open EspIdf.Limbs EspIdf.Runs

/-! ### The constants -/

def inverseRound (N : Nat) (st : Nat × Nat × Nat) : Nat × Nat × Nat :=
  let (t, half, whole) := st
  (if half ≤ N * t % 2 ^ 64 % whole then t + half else t, half * 2, whole * 2)

def modularInverse (N : Nat) : Nat :=
  (2 ^ 32 - 1 - ((inverseRound N)^[31] (1, 2, 4)).1 + 1) % 2 ^ 32

theorem inverseRound_iterate (hodd : N % 2 = 1) (hN : N < 2 ^ 32) (j : Nat) (hj : j ≤ 31) : ∃ t,
    (inverseRound N)^[j] (1, 2, 4) = (t, 2 ^ (j + 1), 2 ^ (j + 2)) ∧
      0 < t ∧ t < 2 ^ (j + 1) ∧ N * t % 2 ^ (j + 1) = 1 := by
  induction j with
  | zero => exact ⟨1, rfl, by simp, by simp, by simpa using hodd⟩
  | succ j ih =>
    obtain ⟨t, hiter, hpos, hlt, hinv⟩ := ih (by omega)
    rw [Function.iterate_succ_apply', hiter]
    have hpow : 2 ^ (j + 2) = 2 * 2 ^ (j + 1) := by ring
    have hsmall : N * t % 2 ^ 64 = N * t := by
      refine Nat.mod_eq_of_lt (Nat.lt_of_lt_of_le (Nat.mul_lt_mul'' hN hlt) ?_)
      rw [← pow_add]
      exact Nat.pow_le_pow_right (by omega) (by omega)
    have hmod : N * t % 2 ^ (j + 2) % 2 ^ (j + 1) = 1 := by
      rw [Nat.mod_mod_of_dvd _ (pow_dvd_pow 2 (by omega)), hinv]
    have hbound : N * t % 2 ^ (j + 2) < 2 ^ (j + 2) := Nat.mod_lt _ (by positivity)
    simp only [inverseRound, hsmall]
    refine ⟨_, by rw [hpow, show 2 ^ (j + 1 + 2) = 2 * 2 ^ (j + 2) by ring, hpow,
      Nat.mul_comm (2 ^ (j + 1)), Nat.mul_comm (2 * 2 ^ (j + 1))], ?_⟩
    generalize 2 ^ (j + 1) = a at *
    rw [hpow] at hmod hbound ⊢
    split_ifs with hge
    · -- the remainder is `1 + a`, and `N * a` adds another `a`
      have hrem : N * t % (2 * a) = 1 + a := by
        have := Nat.mod_add_div (N * t % (2 * a)) a
        have hdiv : N * t % (2 * a) / a = 1 := by
          refine Nat.div_eq_of_lt_le (by omega) (by omega)
        rw [hdiv, hmod] at this
        omega
      refine ⟨by omega, by omega, ?_⟩
      obtain ⟨q, hq⟩ : ∃ q, N = 2 * q + 1 := ⟨N / 2, by omega⟩
      have hNa : N * a % (2 * a) = a := by
        rw [hq, show (2 * q + 1) * a = a + 2 * a * q by ring, Nat.add_mul_mod_self_left]
        exact Nat.mod_eq_of_lt (by omega)
      rw [Nat.mul_add, Nat.add_mod, hrem, hNa, show 1 + a + a =
        1 + 2 * a by ring, Nat.add_mod_right]
      exact Nat.mod_eq_of_lt (by omega)
    · refine ⟨hpos, by omega, ?_⟩
      rw [Nat.mod_eq_of_lt (by omega)] at hmod
      exact hmod

theorem modularInverse_spec (hodd : N % 2 = 1) (hN : N < 2 ^ 32) :
    modularInverse N * N % 2 ^ 32 = 2 ^ 32 - 1 ∧ modularInverse N < 2 ^ 32 := by
  obtain ⟨t, hiter, hpos, hlt, hinv⟩ := inverseRound_iterate hodd hN 31 le_rfl
  have hm : modularInverse N = 2 ^ 32 - t := by
    rw [modularInverse, hiter]
    omega
  refine ⟨?_, by omega⟩
  rw [hm]
  have hsum : (2 ^ 32 - t) * N + N * t = 2 ^ 32 * N := by
    rw [Nat.mul_comm N t, ← Nat.add_mul, show 2 ^ 32 - t + t = 2 ^ 32 by omega]
  omega

/-- For an odd lowest limb the constant is its negated inverse modulo `2 ^ 32`.  The products and
the three variables of the loop stay below `2 ^ 64`, and the last subtraction does not wrap. -/
theorem modularInverse_negates (M : Mpi) (hodd : (M.p.headD 0).toNat % 2 = 1) :
    (M.p.headD 0).toNat * modularInverse (M.p.headD 0).toNat % 2 ^ 32 = 2 ^ 32 - 1 ∧
    modularInverse (M.p.headD 0).toNat < 2 ^ 32 ∧
    (∀ j < 31, ∃ t half whole, (inverseRound (M.p.headD 0).toNat)^[j] (1, 2, 4) = (t, half, whole) ∧
      (M.p.headD 0).toNat * t < 2 ^ 64 ∧ t + half < 2 ^ 64 ∧ half * 2 < 2 ^ 64 ∧
        whole * 2 < 2 ^ 64) ∧
    ((inverseRound (M.p.headD 0).toNat)^[31] (1, 2, 4)).1 ≤ 2 ^ 32 - 1 := by
  have hN := (M.p.headD 0).toNat_lt
  obtain ⟨hinv, hlt⟩ := modularInverse_spec hodd hN
  refine ⟨by rw [Nat.mul_comm, hinv], hlt, fun j hj => ?_, ?_⟩
  · obtain ⟨t, hiter, -, ht, -⟩ := inverseRound_iterate hodd hN j hj.le
    have hhalf : 2 ^ (j + 1) ≤ 2 ^ 31 := Nat.pow_le_pow_right (by omega) (by omega)
    have hwhole : 2 ^ (j + 2) ≤ 2 ^ 32 := Nat.pow_le_pow_right (by omega) (by omega)
    have hprod := Nat.mul_lt_mul'' hN (ht.trans_le hhalf)
    exact ⟨t, _, _, hiter, by omega, by omega, by omega, by omega⟩
  · obtain ⟨t, hiter, -, ht, -⟩ := inverseRound_iterate hodd hN 31 le_rfl
    rw [hiter]
    exact Nat.le_pred_of_lt ht

theorem modularInverse_negates_three :
    ((Mpi.mk 1 [3] (.inl rfl)).p.headD 0).toNat *
      modularInverse ((Mpi.mk 1 [3] (.inl rfl)).p.headD 0).toNat % 2 ^ 32 = 2 ^ 32 - 1 :=
  (modularInverse_negates ⟨1, [3], .inl rfl⟩ rfl).1

def calculateRinv (M : Mpi) (numWords : Nat) : Mpi :=
  Mpi.ofNat (2 ^ (numWords * 32 * 2) % M.abs)

/-! ### The call -/

/-- The RSA unit: with the right constants it gives the power of its operands of `numWords`
words. -/
structure RsaUnit where
  modexp : (numWords : Nat) → (m x y rb : List UInt32) → (mDash : Nat) → List UInt32
  length : ∀ numWords m x y rb mDash, (modexp numWords m x y rb mDash).length = numWords
  power : ∀ numWords m x y rb mDash, m.length = numWords → x.length = numWords →
    y.length = numWords → rb.length = numWords → value m % 2 = 1 → 1 < value m →
    value rb = 2 ^ (numWords * 32 * 2) % value m → mDash * value m % 2 ^ 32 = 2 ^ 32 - 1 →
    value (modexp numWords m x y rb mDash) = value x ^ value y % value m

structure Modulus where
  mpi : Mpi
  positive : mpi.s = 1
  odd : mpi.abs % 2 = 1
  large : 1 < mpi.abs

structure ExpCall where
  z : Mpi
  x : Mpi
  y : Mpi
  xNonneg : 0 ≤ x.toInt
  yNonneg : 0 ≤ y.toInt
  rinvAlloc : Bool
  zAlloc : Bool

def ExpCall.numWords (c : ExpCall) (M : Modulus) : Nat :=
  let n := c.z.hardwareWordsNeeded
  let n := if n < c.x.hardwareWordsNeeded then c.x.hardwareWordsNeeded else n
  let n := if n < c.y.hardwareWordsNeeded then c.y.hardwareWordsNeeded else n
  if n < M.mpi.hardwareWordsNeeded then M.mpi.hardwareWordsNeeded else n

/-- The code, and `Z` and `_Rinv` after the call. -/
def mbedtlsMpiExpMod (unit : RsaUnit) (M : Modulus) (rinv : Mpi) (c : ExpCall) :
    Int × Mpi × Mpi :=
  let numWords := c.numWords M
  if 4096 < numWords * 32 then (-0x000E, c.z, rinv)
  else if rinv.p = [] ∧ c.rinvAlloc = false then (-0x0010, c.z, rinv)
  else
    let rinv := if rinv.p = [] then calculateRinv M.mpi numWords else rinv
    let block := unit.modexp numWords (M.mpi.toMemBlock numWords) (c.x.toMemBlock numWords)
      (c.y.toMemBlock numWords) (rinv.toMemBlock numWords)
      (modularInverse (M.mpi.p.headD 0).toNat)
    if c.z.p.length < numWords ∧ c.zAlloc = false then (-0x0010, c.z, rinv)
    else (0, c.z.ofMemBlock block, rinv)

def nextRinv (M : Modulus) (rinv : Mpi) (c : ExpCall) : Mpi :=
  if 4096 < c.numWords M * 32 then rinv
  else if rinv.p = [] ∧ c.rinvAlloc = false then rinv
  else if rinv.p = [] then calculateRinv M.mpi (c.numWords M) else rinv

def expStep (M : Modulus) (rinv : Mpi) (c : ExpCall) : Option Mpi := some (nextRinv M rinv c)

/-- What a call leaves in `_Rinv` does not depend on the unit. -/
theorem mbedtlsMpiExpMod_rinv (unit : RsaUnit) (M : Modulus) (rinv : Mpi) (c : ExpCall) :
    (mbedtlsMpiExpMod unit M rinv c).2.2 = nextRinv M rinv c := by
  unfold mbedtlsMpiExpMod nextRinv
  dsimp only
  split_ifs <;> rfl

/-- If the call returns 0 it sets `Z` to the power modulo `M`. -/
def GivesPower (unit : RsaUnit) (M : Modulus) (rinv : Mpi) (c : ExpCall) : Prop :=
  (mbedtlsMpiExpMod unit M rinv c).1 = 0 →
    (mbedtlsMpiExpMod unit M rinv c).2.1.toInt = c.x.toInt ^ c.y.toInt.toNat % M.mpi.toInt

structure Accepted (M : Modulus) (rinv : Mpi) (c : ExpCall) : Prop where
  size : c.numWords M * 32 ≤ 4096
  rinv : rinv.p = [] → c.rinvAlloc = true
  z : c.z.p.length < c.numWords M → c.zAlloc = true

/-- A call that is accepted finds no cached constant or the one of its own word count, and its `Z`
was not negative or the power is zero. -/
def CacheFits (M : Modulus) (rinv : Mpi) (c : ExpCall) : Prop :=
  Accepted M rinv c →
    (rinv.p = [] ∨ rinv.abs = 2 ^ (c.numWords M * 32 * 2) % M.mpi.abs) ∧
    (c.z.s = 1 ∨ c.x.abs ^ c.y.abs % M.mpi.abs = 0)

/-! ### One call -/

theorem le_numWords (M : Modulus) (c : ExpCall) :
    c.z.hardwareWordsNeeded ≤ c.numWords M ∧ c.x.hardwareWordsNeeded ≤ c.numWords M ∧
    c.y.hardwareWordsNeeded ≤ c.numWords M ∧ M.mpi.hardwareWordsNeeded ≤ c.numWords M := by
  simp only [ExpCall.numWords]
  split_ifs <;> omega

theorem head_mod (X : Mpi) : (X.p.headD 0).toNat = X.abs % 2 ^ 32 := by
  unfold Mpi.abs
  cases X.p with
  | nil => rfl
  | cons w ws =>
    rw [value, Nat.add_mul_mod_self_left]
    exact (Nat.mod_eq_of_lt w.toNat_lt).symm

def usedRinv (M : Modulus) (rinv : Mpi) (c : ExpCall) : Mpi :=
  if rinv.p = [] then calculateRinv M.mpi (c.numWords M) else rinv

def resultBlock (unit : RsaUnit) (M : Modulus) (rinv : Mpi) (c : ExpCall) : List UInt32 :=
  unit.modexp (c.numWords M) (M.mpi.toMemBlock (c.numWords M)) (c.x.toMemBlock (c.numWords M))
    (c.y.toMemBlock (c.numWords M)) ((usedRinv M rinv c).toMemBlock (c.numWords M))
    (modularInverse (M.mpi.p.headD 0).toNat)

theorem expMod_accepted (unit : RsaUnit) (h : Accepted M rinv c) : mbedtlsMpiExpMod unit M rinv c =
      (0, c.z.ofMemBlock (resultBlock unit M rinv c), usedRinv M rinv c) := by
  have hrinv : ¬ (rinv.p = [] ∧ c.rinvAlloc = false) := fun hno => by simp [h.rinv hno.1] at hno
  have hz : ¬ (c.z.p.length < c.numWords M ∧ c.zAlloc = false) := fun hno => by
    simp [h.z hno.1] at hno
  simp only [mbedtlsMpiExpMod]
  rw [if_neg (Nat.not_lt.2 h.size), if_neg hrinv, if_neg hz]
  rfl

theorem accepted_of_zero (h : (mbedtlsMpiExpMod unit M rinv c).1 = 0) : Accepted M rinv c := by
  by_cases hsize : 4096 < c.numWords M * 32
  · simp [mbedtlsMpiExpMod, hsize] at h
  by_cases hrinv : rinv.p = [] ∧ c.rinvAlloc = false
  · simp [mbedtlsMpiExpMod, hsize, hrinv] at h
  by_cases hz : c.z.p.length < c.numWords M ∧ c.zAlloc = false
  · simp only [mbedtlsMpiExpMod] at h
    rw [if_neg hsize, if_neg hrinv, if_pos hz] at h
    simp at h
  refine ⟨Nat.not_lt.1 hsize, fun hp => ?_, fun hp => ?_⟩
  · simpa [hp] using hrinv
  · simpa [hp] using hz

def Residue (M : Modulus) (rinv : Mpi) : Prop := rinv.p = [] ∨ rinv.abs < M.mpi.abs

theorem usedRinv_lt (h : Residue M rinv) (c : ExpCall) : (usedRinv M rinv c).abs < M.mpi.abs := by
  unfold usedRinv
  split_ifs with hp
  · rw [calculateRinv, Mpi.abs_ofNat]
    exact Nat.mod_lt _ (Nat.lt_trans Nat.zero_lt_one M.large)
  · exact h.resolve_left hp

theorem nextRinv_residue (h : Residue M rinv) (c : ExpCall) : Residue M (nextRinv M rinv c) := by
  unfold nextRinv
  split_ifs
  · exact h
  · exact h
  · right
    rw [calculateRinv, Mpi.abs_ofNat]
    exact Nat.mod_lt _ (Nat.lt_trans Nat.zero_lt_one M.large)
  · exact h

theorem value_resultBlock (unit : RsaUnit) (hres : Residue M rinv) (c : ExpCall)
    (hconst : (usedRinv M rinv c).abs = 2 ^ (c.numWords M * 32 * 2) % M.mpi.abs) :
    value (resultBlock unit M rinv c) = c.x.abs ^ c.y.abs % M.mpi.abs := by
  obtain ⟨-, hx, hy, hm⟩ := le_numWords M c
  have hmlt := Mpi.abs_lt_hardwareWords hm
  have hvm := Mpi.value_toMemBlock hmlt
  have hvx := Mpi.value_toMemBlock (Mpi.abs_lt_hardwareWords hx)
  have hvy := Mpi.value_toMemBlock (Mpi.abs_lt_hardwareWords hy)
  have hvr := Mpi.value_toMemBlock (Nat.lt_trans (usedRinv_lt hres c) hmlt)
  have hhead := head_mod M.mpi
  have hodd : (M.mpi.p.headD 0).toNat % 2 = 1 := by
    have := M.odd
    omega
  have hinv := (modularInverse_spec hodd (M.mpi.p.headD 0).toNat_lt).1
  have hdash : modularInverse (M.mpi.p.headD 0).toNat * M.mpi.abs % 2 ^ 32 = 2 ^ 32 - 1 := by
    rw [Nat.mul_mod, ← hhead, ← hinv, Nat.mul_mod (modularInverse _) (M.mpi.p.headD 0).toNat,
      Nat.mod_eq_of_lt (M.mpi.p.headD 0).toNat_lt]
  have hpower := unit.power (c.numWords M) _ _ _ _ _ (Mpi.length_toMemBlock M.mpi _)
    (Mpi.length_toMemBlock c.x _) (Mpi.length_toMemBlock c.y _)
    (Mpi.length_toMemBlock (usedRinv M rinv c) _) (by rw [hvm]; exact M.odd)
    (by rw [hvm]; exact M.large) (by rw [hvr, hvm, hconst]) (by rw [hvm]; exact hdash)
  rw [resultBlock, hpower, hvm, hvx, hvy]

theorem power_toInt (M : Modulus) (c : ExpCall) :
    c.x.toInt ^ c.y.toInt.toNat % M.mpi.toInt = (c.x.abs ^ c.y.abs % M.mpi.abs : Nat) := by
  rw [Mpi.toInt_eq_abs c.xNonneg, Mpi.toInt_eq_abs c.yNonneg, Mpi.toInt, M.positive, one_mul]
  rfl

def strictUnit : RsaUnit where
  modexp n m x y rb _ := words n
    (if value rb = 2 ^ (n * 32 * 2) % value m then value x ^ value y % value m
      else 2 ^ (32 * n) - 1)
  length n _ _ _ _ _ := length_words n _
  power n m x y rb _ hm _ _ _ _ hlarge hrb _ := by
    rw [if_pos hrb]
    refine value_words_of_lt (Nat.lt_trans (Nat.mod_lt _ (by omega)) ?_)
    have := value_lt m
    rwa [hm] at this

theorem strictUnit_wrong (hres : Residue M rinv) (c : ExpCall)
    (hconst : (usedRinv M rinv c).abs ≠ 2 ^ (c.numWords M * 32 * 2) % M.mpi.abs) :
    M.mpi.abs ≤ value (resultBlock strictUnit M rinv c) := by
  obtain ⟨-, -, -, hm⟩ := le_numWords M c
  have hmlt := Mpi.abs_lt_hardwareWords hm
  have hvr := Mpi.value_toMemBlock (Nat.lt_trans (usedRinv_lt hres c) hmlt)
  simp only [resultBlock, strictUnit]
  rw [if_neg (by rw [hvr, Mpi.value_toMemBlock hmlt]; exact hconst),
    value_words_of_lt (by omega)]
  omega

theorem givesPower_iff (hres : Residue M rinv) (c : ExpCall) :
    (∀ unit : RsaUnit, GivesPower unit M rinv c) ↔ CacheFits M rinv c := by
  have hlarge := M.large
  have hpow : c.x.abs ^ c.y.abs % M.mpi.abs < M.mpi.abs := Nat.mod_lt _ (by omega)
  have hused : (usedRinv M rinv c).abs = 2 ^ (c.numWords M * 32 * 2) % M.mpi.abs ↔
      (rinv.p = [] ∨ rinv.abs = 2 ^ (c.numWords M * 32 * 2) % M.mpi.abs) := by
    unfold usedRinv
    split_ifs with hp
    · simp [hp, calculateRinv, Mpi.abs_ofNat]
    · simp [hp]
  constructor
  · intro h hacc
    have hresult : ∀ unit : RsaUnit, c.z.s * (value (resultBlock unit M rinv c) : Int) =
        (c.x.abs ^ c.y.abs % M.mpi.abs : Nat) := by
      intro unit
      have := h unit
      rw [GivesPower, expMod_accepted unit hacc, power_toInt] at this
      exact (Mpi.toInt_ofMemBlock _ _).symm.trans (this rfl)
    have hconst : (usedRinv M rinv c).abs = 2 ^ (c.numWords M * 32 * 2) % M.mpi.abs := by
      by_contra hne
      have hwrong := strictUnit_wrong hres c hne
      have hstrict := hresult strictUnit
      rcases c.z.sign with hs | hs <;> rw [hs] at hstrict <;> omega
    refine ⟨hused.1 hconst, ?_⟩
    have hgot := hresult strictUnit
    rcases c.z.sign with hs | hs
    · exact .inl hs
    · rw [hs] at hgot
      right
      omega
  · intro h unit hzero
    have hacc := accepted_of_zero hzero
    obtain ⟨hcache, hsign⟩ := h hacc
    rw [expMod_accepted unit hacc, power_toInt]
    refine (Mpi.toInt_ofMemBlock _ _).trans ?_
    rw [value_resultBlock unit hres c (hused.2 hcache)]
    rcases hsign with hs | hs
    · rw [hs, one_mul]
    · rw [hs]
      simp

/-! ### Calls that share the constant -/

/-- For every unit with the documented behaviour each call gives the power, exactly if each call
that is accepted finds the constant of its own word count and a `Z` that was not negative. -/
theorem exp_mod_right_iff (M : Modulus) (calls : List ExpCall) :
    (∀ unit : RsaUnit, Along (expStep M) (GivesPower unit M) Mpi.init calls) ↔
      Along (expStep M) (CacheFits M) Mpi.init calls := by
  have hkeep : ∀ r c r', Residue M r → True → expStep M r c = some r' → Residue M r' := by
    intro r c r' hr _ hr'
    cases hr'
    exact nextRinv_residue hr c
  rw [← along_forall]
  exact along_congr (fun r c r' hr => hkeep r c r' hr trivial)
    (fun r c hr => givesPower_iff hr c) (.inl rfl) calls

theorem negative_z_stays_negative :
    ∃ (unit : RsaUnit) (M : Modulus) (c : ExpCall), c.z.toInt = -5 ∧ c.x.toInt = 2 ∧
      c.y.toInt = 3 ∧ M.mpi.toInt = 7 ∧ (mbedtlsMpiExpMod unit M Mpi.init c).1 = 0 ∧
      (mbedtlsMpiExpMod unit M Mpi.init c).2.1.toInt = -1 := by
  refine ⟨strictUnit, ⟨⟨1, [7], .inl rfl⟩, rfl, by decide, by decide⟩,
    ⟨⟨-1, [5], .inr rfl⟩, ⟨1, [2], .inl rfl⟩, ⟨1, [3], .inl rfl⟩, by decide, by decide, true, true⟩,
    by decide, by decide, by decide, by decide, ?_, ?_⟩
  · decide +kernel
  · decide +kernel

end EspIdf.Mbedtls
