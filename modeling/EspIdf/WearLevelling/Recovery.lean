import EspIdf.WearLevelling.Steps

/-! `WL_Flash::init`: it brings the device up in the round and position that the state copies hold,
and what the copies hold when power is lost on the way. -/

namespace EspIdf.WearLevelling

open EspIdf.Device

variable {c : WlConfig} {state : WlState} {b : Bool} {d : Nat} {u : UInt8} {m m' : Bytes}
  {turn pos : Nat}

section Sections

theorem sat_initSections (hc : c.Valid)
    (hC1 : ∀ j, j * c.sectorSize ≤ c.stateLen → C (m.erase c.state1 (j * c.sectorSize)))
    (hC2 : ∀ j, j * c.sectorSize ≤ c.stateLen →
    C ((newArea c m c.state1 0).erase c.state2 (j * c.sectorSize)))
    (hC3 : ∀ m', (∀ x < c.cfgStart, m' x = newArea c (newArea c m c.state1 0) c.state2 0 x) → C m')
    (hk : ∀ m', (∀ x < c.cfgStart, m' x = newArea c (newArea c m c.state1 0) c.state2 0 x) →
    Prog.Sat (flash c.sectorSize) H C Q (k (.ok, c.object (c.header 0) b d 0)) m') :
    Prog.Sat (flash c.sectorSize) H C Q
      ((WlFlash.initSections (c.object state b d u)).bind k) m := by
  have hpages := hc.pages_lt
  have hmaxPos : u32 (1 + c.pages * c.pageSize / c.pageSize) = c.pages + 1 := by
    rw [Nat.mul_div_cancel _ hc.pagePos, Nat.add_comm]
    exact u32_eq (by omega)
  have hmaxCount : (if ¬c.updaterate = 0 then c.updaterate
      else u32 (c.pages * c.pageSize / c.stateLen * c.updaterate)) = c.updaterate := by
    split
    · rfl
    · rename_i h
      rw [not_not.mp h]
      rfl
  have herase : ∀ {dst : Nat} {m : Bytes},
      (∀ j, j * c.sectorSize ≤ c.stateLen → C (m.erase dst (j * c.sectorSize))) →
      C (m.erase dst c.stateLen) := by
    intro dst m h
    obtain ⟨q, hq⟩ := WlConfig.stateLen_dvd c
    rw [hq, Nat.mul_comm]
    exact h q (by rw [hq, Nat.mul_comm])
  have herased : ∀ n, C ((newArea c (newArea c m c.state1 0) c.state2 0).erase c.cfgStart n) :=
    fun n => hC3 _ fun x hx => Bytes.erase_out (.inl hx)
  simp only [WlFlash.initSections, Prog.bind_eq, Prog.bind_assoc, Prog.ite_bind, ne_eq, hmaxPos,
    hmaxCount]
  apply sat_eraseRange hc.sectorPos hc.dvd_state1 (WlConfig.stateLen_dvd c) hC1
  refine ⟨herase hC1, ?_⟩
  apply sat_eraseRange hc.sectorPos hc.dvd_state2 (WlConfig.stateLen_dvd c) hC2
  refine ⟨herase hC2, ?_⟩
  apply sat_eraseRange hc.sectorPos hc.dvd_cfgStart (WlConfig.cfgLen_dvd c) fun j _ => herased _
  simp only [not_true_eq_false, if_false, sat_write]
  refine ⟨herased _, hk _ fun x hx => ?_⟩
  rw [Bytes.program_out (.inl hx), Bytes.erase_out (.inl hx)]

end Sections

/-- Where power is lost in `init`, the state copies still hold the same round and position, unless
the first copy has its header back but not yet all of its marks. -/
structure InitCut (c : WlConfig) (m : Bytes) (turn pos : Nat) (m' : Bytes) : Prop where
  data : SameData c m m'
  map : c.TornInvalid → Robust c m → Robust c m' ∧ (Recovers c m' turn pos ∨
    (¬(stateAt m c.state1).Intact ∧ HeaderAt c m c.state2 turn ∧ turn < c.pages ∧ pos = c.pages ∧
      HeaderAt c m' c.state1 turn ∧ HeaderAt c m' c.state2 turn))

structure InitDone (c : WlConfig) (m : Bytes) (turn pos : Nat) (r : EspErr × WlFlash)
    (m' : Bytes) : Prop where
  ok : r.1 = .ok
  online : Online c r.2 m' turn pos
  data : SameData c m m'
  recorded : NoHole c m → Recorded c m' pos

theorem InitCut.here (h : Recovers c m turn pos) : InitCut c m turn pos m :=
  ⟨SameData.refl c m, fun _ hrob => ⟨hrob, .inl h⟩⟩

theorem Robust.of_headers (hc : c.Valid) (hturn : turn < c.pages) (ht : t < c.pages)
    (h1 : HeaderAt c m c.state1 turn) (h2 : HeaderAt c m c.state2 t) : Robust c m :=
  ⟨fun h => (h (h1.intact hc hturn)).elim, fun h => (h (h2.intact hc ht)).elim⟩

theorem Robust.of_first (hc : c.Valid) (hturn : turn < c.pages) (h1 : HeaderAt c m c.state1 turn)
    (h2 : Broken c m c.state2) : Robust c m :=
  ⟨fun h => (h (h1.intact hc hturn)).elim, fun _ => h2⟩

theorem Robust.of_second (hc : c.Valid) (hturn : turn < c.pages) (h1 : Broken c m c.state1)
    (h2 : HeaderAt c m c.state2 turn) : Robust c m :=
  ⟨fun _ => h1, fun h => (h (h2.intact hc hturn)).elim⟩

theorem InitDone.of_headers (hturn : turn < c.pages) (hpos : pos ≤ c.pages)
    (h1 : HeaderAt c m' c.state1 turn) (h2 : HeaderAt c m' c.state2 turn) (hd : SameData c m m')
    (hr : NoHole c m → Recorded c m' pos) :
    InitDone c m turn pos (.ok, c.object (c.ramState turn pos count crc) true d u) m' :=
  ⟨rfl, ⟨⟨_, _, _, _, rfl⟩, hturn, hpos, h1, h2⟩, hd, hr⟩

section Branches

section

variable (hc : c.Valid)
include hc

theorem init_both (hturn : turn < c.pages) (h1 : HeaderAt c m c.state1 turn)
    (h2 : HeaderAt c m c.state2 turn) :
    Prog.Sat (flash c.sectorSize) False (InitCut c m turn (scan c m))
      (InitDone c m turn (scan c m)) (c.object state b d u).init m := by
  have hs1 := h1.state hc hturn
  have hs2 := h2.state hc hturn
  have here := InitCut.here (Recovers.both hturn h1 h2)
  unfold stateAt at hs1 hs2
  simp only [WlFlash.init, WlConfig.object, Prog.bind_eq, Bool.true_eq_false, if_false, sat_read,
    if_true, hs1, hs2, ne_eq, not_true_eq_false, header_crc, header_version, and_self]
  refine ⟨here, here, ?_⟩
  apply sat_recoverPos rfl here
  exact ⟨here, InitDone.of_headers hturn scan_le h1 h2 (SameData.refl c m)
    fun hole => hole.first (h1.intact hc hturn)⟩

theorem init_fresh (h1 : ¬(stateAt m c.state1).Intact) (h2 : ¬(stateAt m c.state2).Intact) :
    Prog.Sat (flash c.sectorSize) False (InitCut c m 0 0) (InitDone c m 0 0)
      (c.object state b d u).init m := by
  have hpages := WlConfig.pages_pos hc
  have hstate2 := c.state2_eq
  have hcfg : c.cfgStart = c.state2 + c.stateLen := rfl
  have hmarks := hc.marks_le
  have hmark0 := hc.mark_lt (Nat.zero_le _)
  have here := InitCut.here (Recovers.fresh h1 h2)
  have hdata := newArea_sameData hc m 0 (Nat.le_refl c.state1)
  have hblank := newArea_unmarked hc m c.state1 0 (Nat.zero_le _)
  have hheader := newArea_header hc m c.state1 0
  have hcut1 : ∀ j, j * c.sectorSize ≤ c.stateLen →
      InitCut c m 0 0 (m.erase c.state1 (j * c.sectorSize)) := by
    intro j hj
    refine ⟨SameData.erase (Nat.le_refl _), fun _ hrob => ?_⟩
    have hb1 := (hrob.first h1).erase j
    have hb2 : Broken c (m.erase c.state1 (j * c.sectorSize)) c.state2 :=
      (hrob.second h2).congr fun x hx _ => Bytes.erase_out (.inr (by omega))
    exact ⟨⟨fun _ => hb1, fun _ => hb2⟩, .inl (.fresh hb1.not_intact hb2.not_intact)⟩
  have hcut2 : ∀ j, j * c.sectorSize ≤ c.stateLen →
      InitCut c m 0 0 ((newArea c m c.state1 0).erase c.state2 (j * c.sectorSize)) := by
    intro j _
    refine ⟨hdata.trans (SameData.erase (by omega)), fun _ hrob => ?_⟩
    have hh1 : HeaderAt c ((newArea c m c.state1 0).erase c.state2 (j * c.sectorSize)) c.state1 0 :=
      hheader.congr fun x _ hx => Bytes.erase_out (.inl (by omega))
    have hb2 : Broken c (newArea c m c.state1 0) c.state2 :=
      (hrob.second h2).congr fun x hx _ => newArea_out hc (.inr (by omega))
    refine ⟨.of_first hc hpages hh1 (hb2.erase j),
      .inl (.first hpages hh1 (hb2.erase j).not_intact ?_)⟩
    rw [Marked, Bytes.erase_out (.inl (by omega))]
    exact hblank
  have hlast : ∀ m', (∀ x < c.cfgStart, m' x = newArea c (newArea c m c.state1 0) c.state2 0 x) →
      HeaderAt c m' c.state1 0 ∧ HeaderAt c m' c.state2 0 ∧ Recorded c m' 0 ∧ SameData c m m' := by
    intro m' hm'
    refine ⟨?_, ?_, Recorded.of_blank fun i hi => ?_, ?_⟩
    · refine hheader.congr fun x _ hx => ?_
      rw [hm' x (by omega), newArea_out hc (.inl (by omega))]
    · exact (newArea_header hc _ _ _).congr fun x _ hx => hm' x (by omega)
    · have := hc.mark_lt hi
      rw [Marked, hm' _ (by omega), newArea_out hc (.inl (by omega))]
      exact newArea_unmarked hc _ _ _ hi
    · intro x hx
      rw [hm' x (by omega), newArea_out hc (.inl (by omega)), hdata x hx]
  have hcut3 : ∀ m', (∀ x < c.cfgStart, m' x = newArea c (newArea c m c.state1 0) c.state2 0 x) →
      InitCut c m 0 0 m' := by
    intro m' hm'
    obtain ⟨hh1, hh2, hrec, hd⟩ := hlast m' hm'
    have := Recovers.both hpages hh1 hh2
    rw [hrec.scan_eq (Nat.zero_le _)] at this
    exact ⟨hd, fun _ _ => ⟨.of_headers hc hpages hpages hh1 hh2, .inl this⟩⟩
  unfold stateAt WlState.Intact at h1 h2
  simp only [WlFlash.init, Prog.bind_eq, Bool.true_eq_false, if_false, sat_read, if_true, ne_eq,
    not_true_eq_false, h1, h2, not_false_eq_true, and_self]
  refine ⟨here, here, sat_initSections hc hcut1 hcut2 hcut3 fun m' hm' => ?_⟩
  obtain ⟨hh1, hh2, hrec, hd⟩ := hlast m' hm'
  apply sat_recoverPos rfl (hcut3 m' hm')
  rw [hrec.scan_eq (Nat.zero_le _)]
  exact ⟨hcut3 m' hm', InitDone.of_headers hpages (Nat.zero_le _) hh1 hh2 hd fun _ => hrec⟩

section

variable (hturn : turn < c.pages)
include hturn

theorem rebuild_second (h1 : HeaderAt c m c.state1 turn)
    (hblank : ¬Marked c m c.state1 0)
    (h : ∀ x, x < c.state2 ∨ c.state2 + c.stateLen ≤ x → m' x = m x)
    (h2 : HeaderAt c m' c.state2 turn) :
    HeaderAt c m' c.state1 turn ∧ scan c m' = 0 ∧ InitCut c m turn 0 m' ∧
      (NoHole c m → Recorded c m' 0) := by
  have hstate2 := c.state2_eq
  have hmarks := hc.marks_le
  have hmark0 := hc.mark_lt (Nat.zero_le _)
  have hh1 : HeaderAt c m' c.state1 turn := h1.congr fun x _ hx => h x (.inl (by omega))
  have hscan : scan c m' = 0 := by
    apply scan_zero
    rw [Marked, h _ (.inl (by omega))]
    exact hblank
  refine ⟨hh1, hscan, ⟨fun x hx => h x (.inl (by omega)),
    fun _ _ => ⟨.of_headers hc hturn hturn hh1 h2, .inl ?_⟩⟩, fun hole => ?_⟩
  · have := Recovers.both hturn hh1 h2
    rwa [hscan] at this
  · have hrec := hole.first (h1.intact hc hturn)
    rw [scan_zero hblank] at hrec
    refine hrec.congr (Nat.zero_le _) fun i hi => ?_
    have := hc.mark_lt hi
    rw [Marked, Marked, h _ (.inl (by omega))]

theorem erasing_second (h1 : HeaderAt c m c.state1 turn)
    (hblank : ¬Marked c m c.state1 0)
    (hb2 : c.TornInvalid → Robust c m → Broken c (m.erase c.state2 (j * c.sectorSize)) c.state2) :
    InitCut c m turn 0 (m.erase c.state2 (j * c.sectorSize)) := by
  have hstate2 := c.state2_eq
  have hmarks := hc.marks_le
  have hmark0 := hc.mark_lt (Nat.zero_le _)
  refine ⟨SameData.erase (by omega), fun htorn hrob => ?_⟩
  have hh1 : HeaderAt c (m.erase c.state2 (j * c.sectorSize)) c.state1 turn :=
    h1.congr fun x _ hx => Bytes.erase_out (.inl (by omega))
  refine ⟨.of_first hc hturn hh1 (hb2 htorn hrob),
    .inl (.first hturn hh1 (hb2 htorn hrob).not_intact ?_)⟩
  rw [Marked, Bytes.erase_out (.inl (by omega))]
  exact hblank

theorem init_ahead (hold : old < c.pages) (hne : turn ≠ old)
    (h1 : HeaderAt c m c.state1 turn) (h2 : HeaderAt c m c.state2 old)
    (hblank : ¬Marked c m c.state1 0) :
    Prog.Sat (flash c.sectorSize) False (InitCut c m turn 0) (InitDone c m turn 0)
      (c.object state b d u).init m := by
  have hs1 := h1.state hc hturn
  have hs2 := h2.state hc hold
  have here := InitCut.here (Recovers.ahead hturn hold hne h1 h2 hblank)
  have hcrcNe := header_crc_ne hc hturn hold hne
  unfold stateAt at hs1 hs2
  simp only [WlFlash.init, Prog.bind_eq, Bool.true_eq_false, if_false, sat_read, if_true, hs1, hs2,
    ne_eq, not_true_eq_false, header_crc, header_version, and_self, hcrcNe, not_false_eq_true]
  refine ⟨here, here, sat_rebuild hc hc.dvd_state2 (.inl (Nat.le_refl _)) ?_ ?_ ?_⟩
  · intro j _
    rcases Nat.eq_zero_or_pos j with rfl | hj
    · rw [Nat.zero_mul, Bytes.erase_zero]
      exact here
    · exact erasing_second hc hturn h1 hblank fun htorn _ => h2.erase_broken hold htorn hj
  · exact fun m' h hh2 => (rebuild_second hc hturn h1 hblank h hh2).2.2.1
  · intro m' h hh2 _
    obtain ⟨hh1, hscan, hcut, hrec⟩ := rebuild_second hc hturn h1 hblank h hh2
    apply sat_recoverPos rfl hcut
    rw [hscan]
    exact ⟨hcut, InitDone.of_headers hturn (Nat.zero_le _) hh1 hh2 hcut.data hrec⟩

theorem init_first (h1 : HeaderAt c m c.state1 turn)
    (h2 : ¬(stateAt m c.state2).Intact) (hblank : ¬Marked c m c.state1 0) :
    Prog.Sat (flash c.sectorSize) False (InitCut c m turn 0) (InitDone c m turn 0)
      (c.object state b d u).init m := by
  have hs1 := h1.state hc hturn
  have here := InitCut.here (Recovers.first hturn h1 h2 hblank)
  have hn2 := h2
  unfold stateAt at hs1
  unfold stateAt WlState.Intact at hn2
  simp only [WlFlash.init, Prog.bind_eq, Bool.true_eq_false, if_false, sat_read, if_true, hs1,
    ne_eq, not_true_eq_false, header_crc, header_version, hn2, and_false, false_and]
  refine ⟨here, here, sat_rebuild hc hc.dvd_state2 (.inl (Nat.le_refl _)) ?_ ?_ ?_⟩
  · exact fun j _ => erasing_second hc hturn h1 hblank fun _ hrob => (hrob.second h2).erase j
  · exact fun m' h hh2 => (rebuild_second hc hturn h1 hblank h hh2).2.2.1
  · intro m' h hh2 _
    obtain ⟨hh1, hscan, hcut, hrec⟩ := rebuild_second hc hturn h1 hblank h hh2
    have hs2 := hh2.state hc hturn
    unfold stateAt at hs2
    simp only [not_true_eq_false, if_false, sat_read, hs2, header_version]
    exact ⟨hcut, hcut, InitDone.of_headers hturn (Nat.zero_le _) hh1 hh2 hcut.data hrec⟩

theorem init_second (h1 : ¬(stateAt m c.state1).Intact)
    (h2 : HeaderAt c m c.state2 turn) :
    Prog.Sat (flash c.sectorSize) False (InitCut c m turn c.pages) (InitDone c m turn c.pages)
      (c.object state b d u).init m := by
  have hstate2 := c.state2_eq
  have hpages := hc.pages_lt
  have hn1 := h1
  have hs2 := h2.state hc hturn
  have here := InitCut.here (Recovers.second hturn h1 h2)
  have hlast : sub32 (c.pages + 1) 1 = c.pages := sub32_eq (by omega) (by omega)
  unfold stateAt at hs2
  unfold stateAt WlState.Intact at hn1
  have hcut : ∀ m', (∀ x, x < c.state1 ∨ c.state1 + c.stateLen ≤ x → m' x = m x) →
      HeaderAt c m' c.state1 turn →
      HeaderAt c m' c.state2 turn ∧ InitCut c m turn c.pages m' := by
    intro m' h hh1
    have hh2 : HeaderAt c m' c.state2 turn := h2.congr fun x hx _ => h x (.inr (by omega))
    exact ⟨hh2, fun x hx => h x (.inl hx), fun _ _ =>
      ⟨.of_headers hc hturn hturn hh1 hh2, .inr ⟨h1, h2, hturn, rfl, hh1, hh2⟩⟩⟩
  simp only [WlFlash.init, Prog.bind_eq, Bool.true_eq_false, if_false, sat_read, if_true, hs2,
    ne_eq, not_true_eq_false, header_crc, hn1, and_false, false_and]
  refine ⟨here, here, sat_rebuild hc hc.dvd_state1 (.inr (Nat.le_refl _)) ?_ ?_ ?_⟩
  · intro j hj
    refine ⟨SameData.erase (Nat.le_refl _), fun htorn hrob => ?_⟩
    have hb1 := (hrob.first h1).erase j
    have hh2 : HeaderAt c (m.erase c.state1 (j * c.sectorSize)) c.state2 turn :=
      h2.congr fun x hx _ => Bytes.erase_out (.inr (by omega))
    exact ⟨.of_second hc hturn hb1 hh2, .inl (.second hturn hb1.not_intact hh2)⟩
  · exact fun m' h hh1 => (hcut m' h hh1).2
  · intro m' h hh1 hcopied
    obtain ⟨hh2, hcut⟩ := hcut m' h hh1
    have hrec : NoHole c m → Recorded c m' c.pages := fun hole =>
      ⟨fun i hi => (hcopied i (by omega)).mpr (hole.second h1 (h2.intact hc hturn) i hi),
        fun hlt => (Nat.lt_irrefl _ hlt).elim⟩
    have hs1 := hh1.state hc hturn
    have hmax : (c.header turn).maxPos = c.pages + 1 := rfl
    unfold stateAt at hs1
    simp only [not_true_eq_false, if_false, sat_read, hs1, header_version, hmax, hlast]
    exact ⟨hcut, hcut, InitDone.of_headers hturn (Nat.le_refl _) hh1 hh2 hcut.data hrec⟩

end

end

end Branches

theorem init_sat (hc : c.Valid) (h : Recovers c m turn pos) :
    Prog.Sat (flash c.sectorSize) False (InitCut c m turn pos) (InitDone c m turn pos)
      (c.object state b d u).init m := by
  cases h with
  | fresh h1 h2 => exact init_fresh hc h1 h2
  | both hturn h1 h2 => exact init_both hc hturn h1 h2
  | ahead hturn hold hne h1 h2 hblank => exact init_ahead hc hturn hold hne h1 h2 hblank
  | first hturn h1 h2 hblank => exact init_first hc hturn h1 h2 hblank
  | second hturn h1 h2 => exact init_second hc hturn h1 h2

end EspIdf.WearLevelling
