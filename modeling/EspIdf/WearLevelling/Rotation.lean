import Mathlib.Data.Int.CardIntervalMod

/-! A rotation with a hole: `n` items on `n + 1` places, of which the hole `pos` is empty.  Item `v`
is `turn` places before its own number, modulo `n`, and one place up from the hole on.  Moving the
item after the hole into it moves the hole up; past the last place, it starts again at the first
with one more turn. -/

namespace EspIdf.WearLevelling

/-- The place of item `v`. -/
def slot (n turn pos v : Nat) : Nat :=
  if (n - turn + v) % n < pos then (n - turn + v) % n else (n - turn + v) % n + 1

def nextSlot (n pos : Nat) : Nat := if n + 1 ≤ pos + 1 then 0 else pos + 1

def advance (n turn pos : Nat) : Nat × Nat :=
  if n + 1 ≤ pos + 1 then (if n ≤ turn + 1 then 0 else turn + 1, 0) else (turn, pos + 1)

variable {n turn pos v w : Nat}

theorem slot_le (hn : 0 < n) (turn pos v : Nat) : slot n turn pos v ≤ n := by
  have := Nat.mod_lt (n - turn + v) hn
  unfold slot
  split <;> omega

theorem slot_ne (n turn pos v : Nat) : slot n turn pos v ≠ pos := by
  unfold slot
  split <;> omega

theorem mod_turn_inj (hv : v < n) (hw : w < n) (h : (n - turn + v) % n = (n - turn + w) % n) :
    v = w := by
  have := Nat.ModEq.add_left_cancel' (n - turn) (show n - turn + v ≡ n - turn + w [MOD n] from h)
  rwa [Nat.ModEq, Nat.mod_eq_of_lt hv, Nat.mod_eq_of_lt hw] at this

theorem slot_inj (hv : v < n) (hw : w < n) (h : slot n turn pos v = slot n turn pos w) : v = w := by
  have hmod : (n - turn + v) % n = (n - turn + w) % n := by
    unfold slot at h
    split at h <;> split at h <;> omega
  exact mod_turn_inj hv hw hmod

theorem slot_next (hn : 0 < n) (turn v : Nat) (hpos : pos ≤ n) :
    slot n turn pos (v + 1) = slot n turn pos v + 1 ∨ slot n turn pos v + 1 = pos ∨
      n ≤ slot n turn pos v := by
  have hr := Nat.mod_lt (n - turn + v) hn
  have hmod : (n - turn + (v + 1)) % n = ((n - turn + v) % n + 1) % n := by
    rw [← Nat.add_assoc, ← Nat.mod_add_mod]
  unfold slot
  rw [hmod]
  by_cases hlast : (n - turn + v) % n + 1 = n
  · split_ifs <;> omega
  · rw [Nat.mod_eq_of_lt (by omega)]
    split_ifs <;> omega

theorem slot_succ (hpos : pos < n) : slot n turn (pos + 1) v =
    if slot n turn pos v = nextSlot n pos then pos else slot n turn pos v := by
  unfold slot nextSlot
  rw [if_neg (by omega : ¬n + 1 ≤ pos + 1)]
  split <;> split <;> split <;> omega

theorem slot_wrap (hn : 0 < n) (hturn : turn < n) :
    slot n (if n ≤ turn + 1 then 0 else turn + 1) 0 v =
      if slot n turn n v = 0 then n else slot n turn n v := by
  have hr := Nat.mod_lt (n - turn + v) hn
  have hstep : (n - (if n ≤ turn + 1 then 0 else turn + 1) + v) % n =
      if (n - turn + v) % n = 0 then n - 1 else (n - turn + v) % n - 1 := by
    have hone : ∀ x, x < n → (x = 0 → (x + (n - 1)) % n = n - 1) ∧
        (x ≠ 0 → (x + (n - 1)) % n = x - 1) := by
      intro x hx
      constructor
      · intro h; rw [h, Nat.zero_add, Nat.mod_eq_of_lt (by omega)]
      · intro h
        rw [show x + (n - 1) = x - 1 + n by omega, Nat.add_mod_right, Nat.mod_eq_of_lt (by omega)]
    have hmod : (n - (if n ≤ turn + 1 then 0 else turn + 1) + v) % n =
        ((n - turn + v) % n + (n - 1)) % n := by
      rw [Nat.mod_add_mod]
      split
      · rw [show n - turn + v + (n - 1) = n - 0 + v by omega]
      · rw [show n - turn + v + (n - 1) = n - (turn + 1) + v + n by omega, Nat.add_mod_right]
    rw [hmod]
    split
    · exact (hone _ hr).1 ‹_›
    · exact (hone _ hr).2 ‹_›
  unfold slot
  rw [hstep]
  simp only [hr, if_true, Nat.not_lt_zero, if_false]
  split <;> omega

theorem slot_advance (hn : 0 < n) (hturn : turn < n) (hpos : pos ≤ n) :
    slot n (advance n turn pos).1 (advance n turn pos).2 v =
      if slot n turn pos v = nextSlot n pos then pos else slot n turn pos v := by
  rcases Nat.lt_or_eq_of_le hpos with h | rfl
  · rw [advance, if_neg (by omega)]
    exact slot_succ h
  · simp only [advance, nextSlot, Nat.le_refl, if_true]
    exact slot_wrap hn hturn

theorem advance_turn (hn : 0 < n) (hturn : turn < n) (pos : Nat) : (advance n turn pos).1 < n := by
  unfold advance
  split
  · split <;> omega
  · exact hturn

theorem nextSlot_le (hpos : pos ≤ n) : nextSlot n pos ≤ n := by
  unfold nextSlot
  split <;> omega

theorem nextSlot_ne (hn : 0 < n) : nextSlot n pos ≠ pos := by
  unfold nextSlot
  split <;> omega

/-! ### Whole rounds -/

def moves (n k : Nat) : Nat × Nat := (k / (n + 1) % n, k % (n + 1))

theorem moves_turn (hn : 0 < n) (k : Nat) : (moves n k).1 < n := Nat.mod_lt _ hn

theorem moves_pos (n k : Nat) : (moves n k).2 ≤ n := Nat.le_of_lt_succ (Nat.mod_lt _ n.succ_pos)

theorem advance_moves (hn : 0 < n) (k : Nat) :
    advance n (moves n k).1 (moves n k).2 = moves n (k + 1) := by
  have hturn : k / (n + 1) % n < n := moves_turn hn k
  unfold moves advance
  simp only
  by_cases hlast : k % (n + 1) = n
  · rw [if_pos (by omega)]
    have hdiv : (k + 1) / (n + 1) = k / (n + 1) + 1 := by
      rw [Nat.succ_div, if_pos (Nat.dvd_of_mod_eq_zero (by rw [Nat.add_mod, hlast]; simp))]
    have hmod : (k + 1) % (n + 1) = 0 := by rw [Nat.add_mod, hlast]; simp
    rw [hdiv, hmod, ← Nat.mod_add_mod]
    generalize k / (n + 1) % n = turn at hturn ⊢
    by_cases hfull : n ≤ turn + 1
    · obtain rfl : n = turn + 1 := by omega
      simp
    · rw [if_neg hfull, Nat.mod_eq_of_lt (by omega)]
  · have hlt : k % (n + 1) < n + 1 := Nat.mod_lt k n.succ_pos
    have hmod : (k + 1) % (n + 1) = k % (n + 1) + 1 := by
      rw [← Nat.mod_add_mod, Nat.mod_eq_of_lt (by omega)]
    have hdiv : (k + 1) / (n + 1) = k / (n + 1) := by
      rw [Nat.succ_div, if_neg fun h => by omega, Nat.add_zero]
    rw [if_neg (by omega), hdiv, hmod]

theorem moves_period (n k : Nat) : moves n (k + n * (n + 1)) = moves n k := by
  unfold moves
  rw [Nat.add_mul_div_right _ _ n.succ_pos, Nat.add_mod_right, Nat.add_mul_mod_self_right]

theorem moves_inj (hj : j < n * (n + 1)) (hk : k < n * (n + 1)) (h : moves n j = moves n k) :
    j = k := by
  obtain ⟨hturn, hpos⟩ := Prod.mk.inj h
  rw [Nat.mod_eq_of_lt (Nat.div_lt_of_lt_mul (by rwa [Nat.mul_comm] at hj)),
    Nat.mod_eq_of_lt (Nat.div_lt_of_lt_mul (by rwa [Nat.mul_comm] at hk))] at hturn
  rw [← Nat.div_add_mod j (n + 1), ← Nat.div_add_mod k (n + 1), hturn, hpos]

theorem moves_eq (hturn : turn < n) (hpos : pos ≤ n) :
    moves n (turn * (n + 1) + pos) = (turn, pos) ∧ turn * (n + 1) + pos < n * (n + 1) := by
  have hlt : pos < n + 1 := Nat.lt_succ_of_le hpos
  constructor
  · unfold moves
    rw [Nat.mul_comm turn, Nat.mul_add_mod, Nat.mod_eq_of_lt hlt, Nat.mul_add_div n.succ_pos,
      Nat.div_eq_of_lt hlt, Nat.add_zero, Nat.mod_eq_of_lt hturn]
  · have := Nat.mul_le_mul_right (n + 1) (Nat.succ_le_of_lt hturn)
    rw [Nat.succ_mul] at this
    omega

theorem turn_back (hturn : turn ≤ n) (hr : r < n) : (n - turn + (r + turn) % n) % n = r := by
  rw [Nat.add_mod_mod, show n - turn + (r + turn) = r + n by omega, Nat.add_mod_right,
    Nat.mod_eq_of_lt hr]

theorem slot_surj (hn : 0 < n) (hturn : turn ≤ n) (hs : s ≤ n) (hne : s ≠ pos) (hpos : pos ≤ n) :
    ∃ v < n, slot n turn pos v = s := by
  unfold slot
  by_cases h : s < pos
  · refine ⟨(s + turn) % n, Nat.mod_lt _ hn, ?_⟩
    rw [turn_back hturn (by omega), if_pos h]
  · refine ⟨(s - 1 + turn) % n, Nat.mod_lt _ hn, ?_⟩
    rw [turn_back hturn (by omega), if_neg (by omega)]
    omega

theorem slot_visits (hv : v < n) (hs : s ≤ n) :
    ∃ turn pos, turn < n ∧ pos ≤ n ∧ slot n turn pos v = s := by
  have hn : 0 < n := by omega
  have hback : ∀ r < n, (n - (v + (n - r)) % n + v) % n = r := by
    intro r hr
    rcases Nat.lt_or_ge v r with h | h
    · have hturn : (v + (n - r)) % n = v + (n - r) := Nat.mod_eq_of_lt (by omega)
      rw [hturn, show n - (v + (n - r)) + v = r by omega, Nat.mod_eq_of_lt hr]
    · have hturn : (v + (n - r)) % n = v - r := by
        rw [show v + (n - r) = v - r + n by omega, Nat.add_mod_right, Nat.mod_eq_of_lt (by omega)]
      rw [hturn, show n - (v - r) + v = r + n by omega, Nat.add_mod_right, Nat.mod_eq_of_lt hr]
  unfold slot
  rcases Nat.lt_or_ge s n with h | h
  · refine ⟨(v + (n - s)) % n, s + 1, Nat.mod_lt _ hn, by omega, ?_⟩
    rw [hback s h, if_pos (Nat.lt_succ_self s)]
  · refine ⟨(v + (n - (n - 1))) % n, 0, Nat.mod_lt _ hn, Nat.zero_le n, ?_⟩
    rw [hback (n - 1) (by omega), if_neg (Nat.not_lt_zero _)]
    omega

theorem exists_slot_ne (hn : 0 < n) (hturn : turn < n) (hturn' : turn' < n) (hpos : pos ≤ n)
    (hpos' : pos' ≤ n) (hne : (turn, pos) ≠ (turn', pos')) :
    ∃ v < n, slot n turn pos v ≠ slot n turn' pos' v := by
  by_cases h : pos = pos'
  · subst h
    refine ⟨0, hn, fun heq => hne ?_⟩
    have hmod : (n - turn + 0) % n = (n - turn' + 0) % n := by
      unfold slot at heq
      split at heq <;> split at heq <;> omega
    have hz : ∀ t < n, (n - t + 0) % n = if t = 0 then 0 else n - t := by
      intro t ht
      split
      · subst_vars
        simp
      · exact Nat.mod_eq_of_lt (by omega)
    rw [hz turn hturn, hz turn' hturn'] at hmod
    have : turn = turn' := by
      split at hmod <;> split at hmod <;> omega
    rw [this]
  · obtain ⟨v, hv, hslot⟩ := slot_surj hn (Nat.le_of_lt hturn') hpos h hpos'
    exact ⟨v, hv, fun heq => slot_ne n turn pos v (heq.trans hslot)⟩

theorem count_moves (hs : s ≤ n) : Nat.count (fun k => (moves n k).2 = s) (n * (n + 1)) = n := by
  have hmod : s % (n + 1) = s := Nat.mod_eq_of_lt (by omega)
  have hiff : ∀ k, (moves n k).2 = s ↔ k ≡ s [MOD n + 1] := fun k => by
    rw [Nat.ModEq, hmod, moves]
  simp only [hiff]
  rw [Nat.count_modEq_card _ n.succ_pos, Nat.mul_mod_left, Nat.mul_div_cancel _ n.succ_pos]
  exact Nat.add_zero n

end EspIdf.WearLevelling
