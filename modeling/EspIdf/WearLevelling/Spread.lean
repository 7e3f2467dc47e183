import EspIdf.WearLevelling.LayoutChecks

/-! How `WL_Flash::updateWL` spreads the wear.  After `k` moves of the dummy page the map from
virtual to physical pages is that of `Rotation` after `k` moves, unless the sum in `calcAddr`
wraps. -/

namespace EspIdf.WearLevelling

open EspIdf.Device

/-! ### Programs on a driver that does not fail -/

abbrev Does {α : Type} (sectorSize : Nat) (Q : α → Prop) (p : Drv α) (m : Bytes) : Prop :=
  Prog.Sat (flash sectorSize) False (fun _ => True) (fun a _ => Q a) p m

section Does

variable {α β : Type} {sectorSize : Nat} {Q : α → Prop} {S : β → Prop} {m : Bytes}

theorem Does.bind (h : Does sectorSize Q p m) (hf : ∀ a m', Q a → Does sectorSize S (f a) m') :
    Does sectorSize S (p.bind f) m :=
  Prog.Sat.bind (h.mono fun a m' _ hq => hf a m' hq)

theorem Does.next {p : Drv EspErr} {e : EspErr → Drv α} {q : Drv α}
    (h : Does sectorSize (· = .ok) p m) (hq : ∀ m', Does sectorSize Q q m') :
    Does sectorSize Q (p.bind fun result => if result ≠ .ok then e result else q) m := by
  refine h.bind fun result m' hok => ?_
  rw [hok]
  exact hq m'

theorem eraseSectors_does (sector count : Nat) :
    Does sectorSize (· = .ok) (Drv.eraseSectors sector count) m := by
  induction count generalizing sector m with
  | zero => exact ⟨trivial, rfl⟩
  | succ count ih => exact Does.next ⟨trivial, trivial, rfl⟩ fun m' => ih (sector + 1)

theorem eraseRange_does (size start length : Nat) :
    Does sectorSize (· = .ok) (Drv.eraseRange size start length) m :=
  eraseSectors_does _ _

theorem write_does (addr : Nat) (bs : List UInt8) :
    Does sectorSize (· = .ok) (Drv.write addr bs) m := ⟨trivial, trivial, rfl⟩

theorem copyPage_does (w : WlFlash) (dataAddr i n : Nat) :
    Does sectorSize (· = .ok) (w.copyPage dataAddr i n) m := by
  induction n generalizing i m with
  | zero => exact ⟨trivial, rfl⟩
  | succ n ih => exact ⟨trivial, Does.next (write_does _ _) fun m' => ih (i + 1)⟩

end Does

/-! ### Moves -/

structure AfterMoves (c : WlConfig) (k : Nat) (w : WlFlash) : Prop where
  pageSize : w.cfg.pageSize = c.pageSize
  flashSize : w.flashSize = c.pages * c.pageSize
  maxPos : w.state.maxPos = 1 + c.pages
  turn : w.state.moveCount = (moves c.pages k).1
  pos : w.state.pos = (moves c.pages k).2
  count : w.state.accessCount < w.state.maxCount ∨ w.state.accessCount = 0
  limit : w.state.maxCount < 2 ^ 32

def WlFlash.Due (w : WlFlash) : Prop := w.state.maxCount ≤ u32 (w.state.accessCount + 1)

section Moves

variable {c : WlConfig} {w w' w0 : WlFlash} {k sectorSize : Nat} {m : Bytes}

structure MovedTo (n : Nat) (w w' : WlFlash) : Prop where
  cfg : w'.cfg = w.cfg
  flashSize : w'.flashSize = w.flashSize
  maxPos : w'.state.maxPos = w.state.maxPos
  maxCount : w'.state.maxCount = w.state.maxCount
  turn : w'.state.moveCount = (advance n w.state.moveCount w.state.pos).1
  pos : w'.state.pos = (advance n w.state.moveCount w.state.pos).2
  count : w'.state.accessCount = 0

theorem writeMainState_does {n : Nat} (hmax : w.state.maxPos = 1 + n) (hn : n + 1 < 2 ^ 32)
    (hturn : w.state.moveCount < n) : Does sectorSize (fun r => r.1 = .ok ∧
      r.2.cfg = w.cfg ∧ r.2.flashSize = w.flashSize ∧ r.2.state.maxPos = w.state.maxPos ∧
      r.2.state.maxCount = w.state.maxCount ∧ r.2.state.accessCount = w.state.accessCount ∧
      r.2.state.moveCount = (if n ≤ w.state.moveCount + 1 then 0 else w.state.moveCount + 1) ∧
      r.2.state.pos = 0) w.writeMainState m := by
  have hcount : (if sub32 w.state.maxPos 1 ≤ u32 (w.state.moveCount + 1) then 0
      else u32 (w.state.moveCount + 1)) =
      if n ≤ w.state.moveCount + 1 then 0 else w.state.moveCount + 1 := by
    rw [hmax, sub32_eq (by omega) (by omega), u32_eq (by omega), Nat.add_sub_cancel_left]
  unfold WlFlash.writeMainState
  simp only [hcount, Prog.bind_eq]
  refine Does.next (eraseRange_does _ _ _) fun m1 => Does.next (write_does _ _) fun m2 =>
    Does.next (eraseRange_does _ _ _) fun m3 => ?_
  exact (write_does _ _).bind fun result m4 hok => ⟨trivial, hok, rfl, rfl, rfl, rfl, rfl, rfl, rfl⟩

theorem moveBlock_does {n : Nat} (hmax : w.state.maxPos = 1 + n) (hn : n + 1 < 2 ^ 32)
    (hturn : w.state.moveCount < n) (hpos : w.state.pos ≤ n) :
    Does sectorSize (fun r => r.1 = .ok ∧ MovedTo n w r.2) w.moveBlock m := by
  have hnext : u32 (w.state.pos + 1) = w.state.pos + 1 := u32_eq (by omega)
  refine Does.next (eraseRange_does _ _ _) fun m1 => Does.next (copyPage_does _ _ _ _) fun m2 =>
    Does.next (write_does _ _) fun m3 => Does.next (write_does _ _) fun m4 => ?_
  simp only [hnext, hmax]
  split
  · refine Prog.Sat.mono (writeMainState_does (n := n) ?_ hn ?_) ?_
    · rfl
    · exact hturn
    rintro ⟨result, w'⟩ m' - ⟨hok, hcfg, hflash, hmaxPos, hmaxCount, hcount, hmove, hzero⟩
    refine ⟨hok, hcfg, hflash, hmaxPos.trans hmax.symm, hmaxCount, ?_, ?_, hcount⟩
    · rw [advance, if_pos (by omega)]
      exact hmove
    · rw [advance, if_pos (by omega)]
      exact hzero
  · have hadvance : advance n w.state.moveCount w.state.pos =
        (w.state.moveCount, w.state.pos + 1) := by
      rw [advance, if_neg (by omega)]
    refine ⟨trivial, rfl, rfl, rfl, hmax.symm, rfl, ?_, ?_, rfl⟩
    · rw [hadvance]
    · rw [hadvance]

theorem AfterMoves.updateWL_does (h : AfterMoves c k w) (hf : c.Fits) (sectorSize : Nat)
    (m : Bytes) :
    Does sectorSize (fun r => r.1 = .ok ∧ (w.Due → AfterMoves c (k + 1) r.2) ∧
      (¬ w.Due → AfterMoves c k r.2 ∧ r.2.state.maxCount = w.state.maxCount ∧
        r.2.state.accessCount = u32 (w.state.accessCount + 1))) w.updateWL m := by
  have hn : c.pages + 1 < 2 ^ 32 := by
    have hfit := hf.pages_fit
    have hbound := hf.bound
    have hle := Nat.le_mul_of_pos_right (c.pages + 1)
      (Nat.lt_of_lt_of_le hf.sectorPos hf.pageSector)
    omega
  have hpages := hf.pages_pos
  unfold WlFlash.updateWL
  dsimp only
  split
  · rename_i hless
    refine ⟨trivial, rfl, fun hdue => absurd hless (Nat.not_lt.mpr hdue), fun _ => ⟨?_, rfl, rfl⟩⟩
    exact ⟨h.pageSize, h.flashSize, h.maxPos, h.turn, h.pos, .inl hless, h.limit⟩
  · rename_i hdue
    refine (moveBlock_does (n := c.pages) h.maxPos hn (h.turn ▸ moves_turn hpages k)
      (h.pos ▸ moves_pos c.pages k)).mono ?_
    rintro ⟨result, w'⟩ m' - ⟨hok, hmoved⟩
    refine ⟨hok, fun _ => ?_, fun hnot => absurd (Nat.le_of_not_lt hdue) hnot⟩
    have hadvance := advance_moves hpages k
    rw [← h.turn, ← h.pos] at hadvance
    exact ⟨hmoved.cfg ▸ h.pageSize, hmoved.flashSize.trans h.flashSize,
      hmoved.maxPos.trans h.maxPos, hmoved.turn.trans (congrArg Prod.fst hadvance),
      hmoved.pos.trans (congrArg Prod.snd hadvance), .inr hmoved.count,
      hmoved.maxCount ▸ h.limit⟩

/-- Objects that calls of `updateWL` on a driver that does not fail lead to from `w0`, with the
number of moves that were made. -/
inductive Updates (sectorSize : Nat) (w0 : WlFlash) : Nat → WlFlash → Prop
  | start : Updates sectorSize w0 0 w0
  | counted {k : Nat} {w w' : WlFlash} {m m' : Bytes} (h : Updates sectorSize w0 k w)
      (hdue : ¬ w.Due) (hrun : Prog.run (flash sectorSize) w.updateWL m = some ((.ok, w'), m')) :
      Updates sectorSize w0 k w'
  | moved {k : Nat} {w w' : WlFlash} {m m' : Bytes} (h : Updates sectorSize w0 k w) (hdue : w.Due)
      (hrun : Prog.run (flash sectorSize) w.updateWL m = some ((.ok, w'), m')) :
      Updates sectorSize w0 (k + 1) w'

theorem Updates.afterMoves (hf : c.Fits) (h0 : AfterMoves c 0 w0) (h : Updates sectorSize w0 k w) :
    AfterMoves c k w := by
  induction h with
  | start => exact h0
  | counted _ hdue hrun ih => exact (((ih.updateWL_does hf _ _).run hrun).2.2.2 hdue).1
  | moved _ hdue hrun ih => exact ((ih.updateWL_does hf _ _).run hrun).2.2.1 hdue

theorem Updates.update (hf : c.Fits) (h0 : AfterMoves c 0 w0) (h : Updates sectorSize w0 k w) :
    (∃ w', Updates sectorSize w0 (k + 1) w') ∨
      w.state.accessCount < w.state.maxCount ∧ ∃ w', Updates sectorSize w0 k w' ∧
        w'.state.maxCount = w.state.maxCount ∧ w'.state.accessCount = w.state.accessCount + 1 := by
  have hat := h.afterMoves hf h0
  obtain ⟨⟨result, w'⟩, m', hrun, -, hok, -, hcount⟩ :=
    (hat.updateWL_does hf sectorSize fun _ => 0xff).run_total
  cases hok
  by_cases hdue : w.Due
  · exact .inl ⟨w', h.moved hdue hrun⟩
  · obtain ⟨-, hmax, hacc⟩ := hcount hdue
    have hlt := hat.count
    have hlimit := hat.limit
    have hleft : w.state.accessCount < w.state.maxCount := by
      unfold WlFlash.Due at hdue
      omega
    exact .inr ⟨hleft, w', h.counted hdue hrun, hmax, hacc.trans (u32_eq (by omega))⟩

theorem Updates.next (hf : c.Fits) (h0 : AfterMoves c 0 w0) (h : Updates sectorSize w0 k w) :
    ∃ w', Updates sectorSize w0 (k + 1) w' := by
  -- the accesses left before the move
  generalize hleft : w.state.maxCount - w.state.accessCount = left
  induction left generalizing w with
  | zero =>
    rcases h.update hf h0 with hmoved | ⟨hlt, -⟩
    · exact hmoved
    · omega
  | succ left ih =>
    rcases h.update hf h0 with hmoved | ⟨-, w', hw', hmax, hacc⟩
    · exact hmoved
    · exact ih hw' (by omega)

theorem Updates.exists (sectorSize : Nat) (hf : c.Fits) (h0 : AfterMoves c 0 w0) (k : Nat) :
    ∃ w, Updates sectorSize w0 k w := by
  induction k with
  | zero => exact ⟨w0, .start⟩
  | succ k ih =>
    obtain ⟨w, hw⟩ := ih
    exact hw.next hf h0

end Moves

/-! ### The map of pages -/

/-- The physical page of virtual page `v`. -/
def WlFlash.pageMap (w : WlFlash) (pageSize v : Nat) : Nat := w.calcAddr (v * pageSize) / pageSize

/-- The maps from `n` virtual to `n + 1` physical pages that the moves from `w0` lead to. -/
structure WearSpread (c : WlConfig) (n : Nat) (w0 : WlFlash) : Prop where
  reached : ∀ k, ∃ w, Updates c.sectorSize w0 k w
  whole : ∀ k w, Updates c.sectorSize w0 k w → ∀ v < n, ∀ o < c.pageSize,
    w.calcAddr (v * c.pageSize + o) = w.pageMap c.pageSize v * c.pageSize + o
  bijection : ∀ k w, Updates c.sectorSize w0 k w →
    Set.BijOn (w.pageMap c.pageSize) {v | v < n} {s | s ≤ n ∧ s ≠ w.state.pos}
  periodic : ∀ k w w', Updates c.sectorSize w0 k w → Updates c.sectorSize w0 (k + n * (n + 1)) w' →
    (∀ v < n, w'.pageMap c.pageSize v = w.pageMap c.pageSize v) ∧ w'.state.pos = w.state.pos
  least : ∀ j k w w', j < k → k < n * (n + 1) → Updates c.sectorSize w0 j w →
    Updates c.sectorSize w0 k w' → ∃ v < n, w'.pageMap c.pageSize v ≠ w.pageMap c.pageSize v
  visits : ∀ v < n, ∀ s ≤ n, ∃ k < n * (n + 1), ∃ w, Updates c.sectorSize w0 k w ∧
    w.pageMap c.pageSize v = s
  dummies : ∀ w : Nat → WlFlash, (∀ k, Updates c.sectorSize w0 k (w k)) → ∀ s ≤ n,
    Nat.count (fun k => (w k).state.pos = s) (n * (n + 1)) = n

section Spread

variable {c : WlConfig} {w w0 : WlFlash} {k v o : Nat}

theorem AfterMoves.calcAddr (h : AfterMoves c k w) (hf : c.Fits)
    (hwrap : 2 * (c.pages * c.pageSize) ≤ 2 ^ 32) (hv : v < c.pages) (ho : o < c.pageSize) :
    w.calcAddr (v * c.pageSize + o) =
      slot c.pages (moves c.pages k).1 (moves c.pages k).2 v * c.pageSize + o := by
  have hsame : w.calcAddr (v * c.pageSize + o) =
      (c.object w.state false 0 0).calcAddr (v * c.pageSize + o) := by
    simp only [WlFlash.calcAddr, h.pageSize, h.flashSize]
  have hle := Nat.mul_le_mul_right c.pageSize (Nat.succ_le_of_lt hv)
  rw [Nat.succ_mul] at hle
  rw [hsame, calcAddr_fits hf w.state (h.turn ▸ moves_turn hf.pages_pos k)
    (h.pos ▸ moves_pos c.pages k) (by omega), WlConfig.place, h.turn, h.pos,
    Nat.mul_comm v, Nat.mul_add_div (by omega), Nat.mul_add_mod, Nat.div_eq_of_lt ho,
    Nat.mod_eq_of_lt ho, Nat.add_zero]

theorem AfterMoves.pageMap (h : AfterMoves c k w) (hf : c.Fits)
    (hwrap : 2 * (c.pages * c.pageSize) ≤ 2 ^ 32) (hv : v < c.pages) :
    w.pageMap c.pageSize v = slot c.pages (moves c.pages k).1 (moves c.pages k).2 v := by
  have hpage : 0 < c.pageSize := Nat.lt_of_lt_of_le hf.sectorPos hf.pageSector
  have haddr := h.calcAddr hf hwrap hv hpage
  rw [Nat.add_zero, Nat.add_zero] at haddr
  rw [WlFlash.pageMap, haddr, Nat.mul_div_cancel _ hpage]

theorem AfterMoves.bijOn (h : AfterMoves c k w) (hf : c.Fits)
    (hwrap : 2 * (c.pages * c.pageSize) ≤ 2 ^ 32) :
    Set.BijOn (w.pageMap c.pageSize) {v | v < c.pages} {s | s ≤ c.pages ∧ s ≠ w.state.pos} := by
  have hn := hf.pages_pos
  refine ⟨?_, ?_, ?_⟩
  · intro v hv
    rw [h.pageMap hf hwrap hv]
    exact ⟨slot_le hn _ _ _, h.pos ▸ slot_ne _ _ _ _⟩
  · intro v hv v' hv' heq
    rw [h.pageMap hf hwrap hv, h.pageMap hf hwrap hv'] at heq
    exact slot_inj hv hv' heq
  · rintro s ⟨hs, hne⟩
    rw [h.pos] at hne
    obtain ⟨v, hv, hslot⟩ := slot_surj hn (Nat.le_of_lt (moves_turn hn k)) hs hne (moves_pos _ k)
    exact ⟨v, hv, (h.pageMap hf hwrap hv).trans hslot⟩

theorem spread_of_no_wrap (hf : c.Fits) (h0 : AfterMoves c 0 w0)
    (hwrap : 2 * (c.pages * c.pageSize) ≤ 2 ^ 32) : WearSpread c c.pages w0 := by
  have hn := hf.pages_pos
  have hat : ∀ {k w}, Updates c.sectorSize w0 k w → AfterMoves c k w := fun h => h.afterMoves hf h0
  refine ⟨Updates.exists _ hf h0, ?_, fun k w h => (hat h).bijOn hf hwrap, ?_, ?_, ?_, ?_⟩
  · intro k w h v hv o ho
    rw [(hat h).calcAddr hf hwrap hv ho, (hat h).pageMap hf hwrap hv]
  · intro k w w' h h'
    refine ⟨fun v hv => ?_, ?_⟩
    · rw [(hat h).pageMap hf hwrap hv, (hat h').pageMap hf hwrap hv, moves_period]
    · rw [(hat h).pos, (hat h').pos, moves_period]
  · intro j k w w' hjk hk h h'
    have hne : moves c.pages k ≠ moves c.pages j := fun heq =>
      Nat.ne_of_gt hjk (moves_inj hk (by omega) heq)
    obtain ⟨v, hv, hslot⟩ := exists_slot_ne hn (moves_turn hn k) (moves_turn hn j) (moves_pos _ k)
      (moves_pos _ j) hne
    refine ⟨v, hv, ?_⟩
    rwa [(hat h).pageMap hf hwrap hv, (hat h').pageMap hf hwrap hv]
  · intro v hv s hs
    obtain ⟨turn, pos, hturn, hpos, hslot⟩ := slot_visits hv hs
    obtain ⟨heq, hlt⟩ := moves_eq hturn hpos
    obtain ⟨w, hw⟩ := Updates.exists c.sectorSize hf h0 (turn * (c.pages + 1) + pos)
    refine ⟨_, hlt, w, hw, ?_⟩
    rw [(hat hw).pageMap hf hwrap hv, heq, hslot]
  · intro w hw s hs
    have hpos : ∀ k, (w k).state.pos = (moves c.pages k).2 := fun k => (hat (hw k)).pos
    simp only [hpos]
    exact count_moves hs

theorem no_wrap_of_spread (hf : c.Fits) (h0 : AfterMoves c 0 w0) (h : WearSpread c c.pages w0) :
    2 * (c.pages * c.pageSize) ≤ 2 ^ 32 := by
  by_contra hwrap
  have hpage : 0 < c.pageSize := Nat.lt_of_lt_of_le hf.sectorPos hf.pageSector
  have hfit := hf.pages_fit
  have hbound := hf.bound
  rw [Nat.succ_mul] at hfit
  have hturn : w0.state.moveCount = 0 := by rw [h0.turn, moves, Nat.zero_div, Nat.zero_mod]
  have hpos : w0.state.pos = 0 := by rw [h0.pos, moves, Nat.zero_mod]
  have hcalc : ∀ a, w0.calcAddr a =
      u32 (u32 (c.pages * c.pageSize + a) % (c.pages * c.pageSize) + c.pageSize) := by
    intro a
    simp only [WlFlash.calcAddr, h0.pageSize, h0.flashSize, hturn, hpos, Nat.zero_mul]
    rw [show u32 0 = 0 from rfl, sub32_eq (Nat.zero_le _) (by omega), Nat.sub_zero,
      if_neg (Nat.not_lt_zero _)]
  have hzero : w0.calcAddr 0 = c.pageSize := by
    rw [hcalc, Nat.add_zero, u32_eq (by omega : c.pages * c.pageSize < 2 ^ 32), Nat.mod_self,
      Nat.zero_add, u32_eq (by omega)]
  have hsecond : w0.calcAddr (2 ^ 32 - c.pages * c.pageSize) = c.pageSize := by
    rw [hcalc, show c.pages * c.pageSize + (2 ^ 32 - c.pages * c.pageSize) = 2 ^ 32 by omega,
      show u32 (2 ^ 32) = 0 from Nat.mod_self _, Nat.zero_mod, Nat.zero_add, u32_eq (by omega)]
  generalize hd : 2 ^ 32 - c.pages * c.pageSize = d at hsecond
  have hv : d / c.pageSize < c.pages := Nat.div_lt_of_lt_mul (by rw [Nat.mul_comm]; omega)
  have hwhole0 := h.whole 0 w0 .start 0 hf.pages_pos 0 hpage
  have hwhole := h.whole 0 w0 .start (d / c.pageSize) hv (d % c.pageSize) (Nat.mod_lt _ hpage)
  rw [Nat.zero_mul, hzero] at hwhole0
  rw [Nat.div_add_mod', hsecond] at hwhole
  have hone : w0.pageMap c.pageSize 0 = 1 :=
    Nat.eq_of_mul_eq_mul_right hpage (by rw [Nat.one_mul]; exact hwhole0.symm)
  have hoff : d % c.pageSize = 0 := by
    have hmod := congrArg (· % c.pageSize) hwhole
    simpa [Nat.mul_add_mod_self_right] using hmod.symm
  have hone' : w0.pageMap c.pageSize (d / c.pageSize) = 1 := by
    rw [hoff] at hwhole
    exact Nat.eq_of_mul_eq_mul_right hpage (by rw [Nat.one_mul]; exact hwhole.symm)
  have hsame := (h.bijection 0 w0 .start).injOn hv hf.pages_pos (hone'.trans hone.symm)
  have hdz := Nat.div_add_mod' d c.pageSize
  rw [hsame, hoff] at hdz
  omega

theorem initSections_does (w1 : WlFlash) (hf : c.Fits) (hrate : c.updaterate < 2 ^ 32)
    (hpage : w1.cfg.pageSize = c.pageSize) (hrate1 : w1.cfg.updaterate = c.updaterate)
    (hflash : w1.flashSize = c.pages * c.pageSize) (sectorSize : Nat) (m : Bytes) :
    Does sectorSize (fun r => r.1 = .ok ∧ AfterMoves c 0 r.2) w1.initSections m := by
  have hpos : 0 < c.pageSize := Nat.lt_of_lt_of_le hf.sectorPos hf.pageSector
  have hfit := hf.pages_fit
  have hbound := hf.bound
  have hle := Nat.le_mul_of_pos_right (c.pages + 1) hpos
  have hmaxPos : u32 (1 + w1.flashSize / w1.cfg.pageSize) = 1 + c.pages := by
    rw [hflash, hpage, Nat.mul_div_cancel _ hpos, u32_eq (by omega)]
  have hlimit : (if w1.cfg.updaterate ≠ 0 then w1.cfg.updaterate
      else u32 (w1.flashSize / w1.stateSize * w1.cfg.updaterate)) < 2 ^ 32 := by
    split
    · rwa [hrate1]
    · exact u32_lt _
  have hmoves : moves c.pages 0 = (0, 0) := by simp [moves]
  refine Does.next (eraseRange_does _ _ _) fun m1 => Does.next (write_does _ _) fun m2 =>
    Does.next (eraseRange_does _ _ _) fun m3 => Does.next (write_does _ _) fun m4 =>
    Does.next (eraseRange_does _ _ _) fun m5 => ?_
  refine (write_does _ _).bind fun result m6 hok => ⟨trivial, hok, ?_⟩
  exact ⟨hpage, hflash, hmaxPos, by rw [hmoves], by rw [hmoves], .inr rfl, hlimit⟩

/-- For a configuration with at least one usable page, in memory below the end of the address space,
the moves spread the wear as they should if and only if twice the usable size is at most `2 ^
32`. -/
theorem wear_spread_iff {w1 : WlFlash} {m m' : Bytes} (hf : c.Fits) (hrate : c.updaterate < 2 ^ 32)
    (hconfig : w.config c = some (.ok, w1))
    (hinit : Prog.run (flash c.sectorSize) w1.initSections m = some ((.ok, w0), m')) :
    WearSpread c c.pages w0 ↔ 2 * (c.pages * c.pageSize) ≤ 2 ^ 32 := by
  have ha := config_accepted hconfig
  have hobject := config_fits w hf ha.buffPos ha.buff
  rw [hconfig] at hobject
  have hw1 := (Prod.mk.inj (Option.some.inj hobject)).2
  have h0 : AfterMoves c 0 w0 := ((initSections_does w1 hf hrate (by rw [hw1]; rfl)
    (by rw [hw1]; rfl)
    (by rw [hw1]; rfl) _ _).run hinit).2.2
  exact ⟨no_wrap_of_spread hf h0, spread_of_no_wrap hf h0⟩

end Spread

theorem wear_spread_8_sectors : (mountConfig 0x8000).pages = 4 ∧ ∃ w1 w0 m',
    zeroed.config (mountConfig 0x8000) = some (.ok, w1) ∧
    Prog.run (flash 4096) w1.initSections blank = some ((.ok, w0), m') ∧
    WearSpread (mountConfig 0x8000) 4 w0 := by
  have hf : (mountConfig 0x8000).Fits := ⟨by decide, by decide, by decide, by decide⟩
  have hconfig := config_fits zeroed hf (by decide) (by decide)
  obtain ⟨⟨result, w0⟩, m', hrun, -, hok, -⟩ := (initSections_does
    ((mountConfig 0x8000).sealed.object zeroed.state zeroed.initialized zeroed.dummyAddr
      zeroed.usedBits) hf (by decide) rfl rfl rfl 4096 blank).run_total
  cases hok
  exact ⟨by decide, _, w0, m', hconfig, hrun,
    (wear_spread_iff hf (by decide) hconfig hrun).mpr (by decide)⟩

def largeConfig : WlConfig :=
  { mountConfig 0xF0000000 with pageSize := 0x10000, sectorSize := 0x10000 }

theorem large_pages_collide : largeConfig.pages = 61406 ∧
    ((zeroed.config largeConfig).bind fun r =>
      Prog.run (flash 0x10000) r.2.initSections blank).any (fun r =>
        r.1.1 = .ok ∧ r.1.2.pageMap 0x10000 0 = 1 ∧ r.1.2.pageMap 0x10000 4130 = 1) = true := by
  decide +kernel

end EspIdf.WearLevelling
