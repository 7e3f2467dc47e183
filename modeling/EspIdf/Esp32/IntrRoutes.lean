import EspIdf.Esp32.IntrPlaced

/-! Which calls of the interrupt allocator keep the enabled handlers running: the routes of the
sources through whole sequences of calls. -/

namespace EspIdf.IntrAlloc

open EspIdf.Runs
open Function (update update_of_ne update_self)

variable {intr : Nat}

theorem withDesc_isSome {s : IntrState} {malloc : Bool} {r : Option IntrState}
    (h : s.withDesc intr malloc = some r) :
    r.isSome = ((s.findDescForInt intr).isSome || malloc) := by
  unfold IntrState.withDesc at h
  split_ifs at h with hsome hmalloc
  · cases h
    simp [hsome]
  · cases h
    simp only [Bool.not_eq_true'] at hmalloc
    simp [hsome, hmalloc]
  · obtain ⟨vs, -, rfl⟩ := Option.map_eq_some_iff.1 h
    simp only [Bool.not_eq_true', Bool.not_eq_false] at hmalloc
    simp [hmalloc]

theorem levelFlags_shared {a : AllocArgs} (hnot : a.isShared = false) : a.levelFlags.testBit 8 =
    false := by
  unfold AllocArgs.levelFlags
  split_ifs with hlevel hsh
  · exact absurd hnot (by simp [hsh])
  · have hlow : Nat.testBit 14 8 = false := by decide
    simpa [AllocArgs.isShared, hlow] using hnot
  · exact hnot

theorem lineFor_of_usable (h : IntrState.Usable cpu s a.levelFlags intr)
    (hfind : t.findDescForInt intr = some d) (hsame : t.descOrEmpty intr = s.descOrEmpty intr) :
    LineFor t a intr d := by
  have hd : t.descOrEmpty intr = d := by simp [IntrState.descOrEmpty, hfind]
  refine ⟨hfind, ?_, fun hnot => ?_, h.ne_six⟩
  · rw [← hd, hsame]
    exact h.nonshared
  · rw [← hd, hsame]
    exact h.shared (levelFlags_shared hnot)

theorem espIntrAlloc_cases {cpu : Fin 2} {s s' : IntrState} {a : AllocArgs} {err : EspErr}
    (hs : Placed s) (h : s.espIntrAlloc cpu a = .ret err s') :
    (allocLine cpu s a = none ∧ Placed s' ∧ s'.handles = s.handles ∧ s'.matrix = s.matrix) ∨
    (∃ intr t d, allocLine cpu s a = some intr ∧ Placed t ∧ t.handles = s.handles ∧
      t.matrix = s.matrix ∧ LineFor t a intr d ∧
      s' = if a.intrDisabled then
          (t.connect a intr).espIntrDisable t.next ((t.connect a intr).newHandle a intr)
        else t.connect a intr) := by
  have hnone : s' = s → allocLine cpu s a = none → (allocLine cpu s a = none ∧ Placed s' ∧
      s'.handles = s.handles ∧ s'.matrix = s.matrix) := by
    rintro rfl hline
    exact ⟨hline, hs, rfl, rfl⟩
  unfold IntrState.espIntrAlloc at h
  split_ifs at h with hvalid hret
  · obtain ⟨-, rfl⟩ := Outcome.ret.inj h
    exact .inl (hnone rfl (by simp [allocLine, by simpa using hvalid]))
  · obtain ⟨-, rfl⟩ := Outcome.ret.inj h
    exact .inl (hnone rfl (by simp [allocLine, by simpa using hret]))
  · simp only [Bool.not_eq_true, Bool.not_eq_false'] at hvalid hret
    cases hint : s.getFreeInt cpu a.levelFlags with
    | none =>
      rw [hint] at h
      obtain ⟨-, rfl⟩ := Outcome.ret.inj h
      exact .inl (hnone rfl (by simp [allocLine, hint]))
    | some intr =>
      rw [hint] at h
      cases hdesc : s.withDesc intr a.mallocDesc with
      | none => simp [hdesc] at h
      | some r =>
        cases r with
        | none =>
          simp only [hdesc] at h
          obtain ⟨-, rfl⟩ := Outcome.ret.inj h
          have hno := withDesc_isSome hdesc
          refine .inl (hnone rfl ?_)
          simp [allocLine, hint, Option.filter, ← hno]
        | some t =>
          simp only [hdesc, IntrState.allocOn] at h
          obtain ⟨ht, hhandles, -, hmatrix, ⟨d, hfind⟩, hsame⟩ := hs.withDesc hdesc
          have hfor := lineFor_of_usable (IntrState.getFreeInt_usable hint) hfind hsame
          have havail := (withDesc_isSome hdesc).symm
          by_cases hshared : (a.isShared && !a.mallocShared) = true
          · rw [if_pos hshared] at h
            obtain ⟨-, rfl⟩ := Outcome.ret.inj h
            simp only [Bool.and_eq_true, Bool.not_eq_true'] at hshared
            exact .inl ⟨by simp [allocLine, hshared], ht, hhandles, hmatrix⟩
          · rw [if_neg hshared] at h
            obtain ⟨-, rfl⟩ := Outcome.ret.inj h
            refine .inr ⟨intr, t, d, ?_, ht, hhandles, hmatrix, hfor, rfl⟩
            have hmem : (!a.isShared || a.mallocShared) = true := by
              cases hsh : a.isShared <;> simp_all
            simp only [allocLine, hvalid, hret, hmem, Bool.and_self, if_true, hint]
            simp [Option.filter, havail]

theorem Placed.enabled_connect (h : Placed s) (hen : Enabled s k hd) :
    Enabled (s.connect a intr) k hd :=
  ⟨h.connect_keeps hen.live, hen.on, hen.handler⟩

theorem Routed.connect (hr : Routed s)
    (hkept : ∀ k hd, Enabled s k hd → hd.source = a.source → hd.intno = intr) :
    Routed (s.connect a intr) := by
  intro k hd hen
  have hmatrix : (s.connect a intr).matrix = update s.matrix a.source intr := rfl
  rw [hmatrix]
  rcases connect_handle hen.live with ⟨rfl, rfl⟩ | ⟨-, hlive⟩
  · exact update_self _ _ _
  · have hold : Enabled s k hd := ⟨hlive, hen.on, hen.handler⟩
    by_cases hsource : hd.source = a.source
    · rw [hsource, update_self]
      exact (hkept k hd hold hsource).symm
    · rw [update_of_ne hsource]
      exact hr k hd hold

theorem setDisabled_matrix (h : Placed s) (hk : s.handles k = some hd) (b : Bool) (line : Nat) :
    (s.setDisabled k hd b line).matrix = update s.matrix hd.source line := by
  rw [← h.handleSource hk]
  rfl

theorem enabled_setDisabled (hen : Enabled (s.setDisabled k h b line) k' h') :
    (k' = k ∧ b = false ∧ h' = { h with disabled := b }) ∨ (k' ≠ k ∧ Enabled s k' h') := by
  rcases setDisabled_handle hen.live with ⟨rfl, rfl⟩ | ⟨hk, hlive⟩
  · exact .inl ⟨rfl, hen.on, rfl⟩
  · exact .inr ⟨hk, hlive, hen.on, hen.handler⟩

theorem Enabled.setDisabled (hen : Enabled s k' h') (hne : k' ≠ k) (b : Bool) (line : Nat) :
    Enabled (s.setDisabled k h b line) k' h' := by
  refine ⟨?_, hen.on, hen.handler⟩
  rw [setDisabled_handles, update_of_ne hne]
  exact hen.live

theorem Routed.setDisabled (h : Placed s) (hr : Routed s) (hk : s.handles k = some hd)
    (hline : b = false → line = hd.intno)
    (hkept : ∀ k' h', Enabled s k' h' → k' ≠ k → h'.source = hd.source → h'.intno = line) :
    Routed (s.setDisabled k hd b line) := by
  intro k' h' hen
  rw [setDisabled_matrix h hk]
  rcases enabled_setDisabled hen with ⟨-, hb, rfl⟩ | ⟨hne, hold⟩
  · exact (update_self _ _ _).trans (hline hb)
  · by_cases hsource : h'.source = hd.source
    · rw [hsource, update_self]
      exact (hkept k' h' hold hne hsource).symm
    · rw [update_of_ne hsource]
      exact hr k' h' hold

theorem not_handlersRun_setDisabled (h : Placed s) (hk : s.handles k = some hd)
    (hen : Enabled s k' h')
    (hne : k' ≠ k) (hsource : h'.source = hd.source) (hline : h'.intno ≠ line) :
    ¬ HandlersRun (s.setDisabled k hd b line) := by
  intro hrun
  have hroute := (hrun k' h' (hen.setDisabled hne b line)).1
  rw [setDisabled_matrix h hk, hsource, update_self] at hroute
  exact hline hroute.symm

theorem owned_handles {s : IntrState} {k : Nat} {h : Handle} (hk : s.owned k = some h) :
    s.handles k = some h := by
  exact (Option.filter_eq_some_iff.1 hk).1

structure IntrHolds (s : IntrState) : Prop where
  placed : Placed s
  routed : Routed s

theorem enabled_release : Enabled (s.release k h) k' h' ↔ k' ≠ k ∧ Enabled s k' h' := by
  constructor
  · intro hen
    obtain ⟨hk, hlive⟩ := release_handle hen.live
    exact ⟨hk, hlive, hen.on, hen.handler⟩
  · rintro ⟨hk, hen⟩
    refine ⟨?_, hen.on, hen.handler⟩
    rw [(release_handles s k h).1, update_of_ne hk]
    exact hen.live

theorem IntrHolds.disabled (h : IntrHolds s) (hk : s.handles k = some hd)
    (hkept : ∀ k' h', Enabled s k' h' → k' ≠ k → h'.source ≠ hd.source) :
    IntrHolds (s.espIntrDisable k hd) :=
  ⟨h.placed.setDisabled hk _ _, h.routed.setDisabled h.placed hk (by simp)
    fun k' h' hen hne hsource => absurd hsource (hkept k' h' hen hne)⟩

/-- An allocation keeps the routes if every enabled handler of the source is on the line found, and
there is none if the new handler starts disabled. -/
theorem IntrHolds.alloc (h : IntrHolds s) (hkept : SourceKept cpu s (.alloc a))
    (hout : s.espIntrAlloc cpu a = .ret err t) : IntrHolds t := by
  obtain ⟨-, hplaced, hhandles, hmatrix⟩ |
    ⟨intr, u, d, hline, hplaced, hhandles, hmatrix, hfor, rfl⟩ := espIntrAlloc_cases h.placed hout
  · refine ⟨hplaced, fun k hd hen => ?_⟩
    rw [hmatrix]
    exact h.routed k hd ⟨hhandles ▸ hen.live, hen.on, hen.handler⟩
  · have hsame : ∀ k hd, Enabled u k hd → Enabled s k hd := fun k hd hen =>
      ⟨hhandles ▸ hen.live, hen.on, hen.handler⟩
    have hrouted : Routed u := fun k hd hen => by
      rw [hmatrix]
      exact h.routed k hd (hsame k hd hen)
    have hconn : IntrHolds (u.connect a intr) :=
      ⟨hplaced.connect hfor, hrouted.connect fun k hd hen hsource =>
        (hkept intr hline k hd (hsame k hd hen) hsource).2⟩
    split_ifs with hoff
    · refine hconn.disabled (update_self _ _ _) fun k hd hen hne hsource => ?_
      rcases connect_handle hen.live with ⟨hk, -⟩ | ⟨-, hlive⟩
      · exact hne hk
      · have hon := (hkept intr hline k hd (hsame k hd ⟨hlive, hen.on, hen.handler⟩) hsource).1
        rw [hon] at hoff
        cases hoff
    · exact hconn

theorem IntrHolds.step {cpu : Fin 2} {s s' : IntrState} {c : IntrCall} (h : IntrHolds s)
    (hkept : SourceKept cpu s c) (hs' : intrStep cpu s c = some s') : IntrHolds s' := by
  cases c with
  | alloc a =>
    simp only [intrStep] at hs'
    cases hout : s.espIntrAlloc cpu a with
    | crash => simp [hout] at hs'
    | ret err t =>
      rw [hout] at hs'
      cases hs'
      exact h.alloc hkept hout
  | free k =>
    obtain ⟨hd, hk, rfl⟩ := Option.map_eq_some_iff.1 hs'
    have hlive := owned_handles hk
    obtain ⟨hplaced, hrouted⟩ := h.disabled hlive (hkept hd hk)
    have hoff : (s.espIntrDisable k hd).handles k = some { hd with disabled := true } :=
      update_self _ _ _
    have hrel : s.espIntrFree k hd =
        (s.espIntrDisable k hd).release k { hd with disabled := true } := rfl
    rw [hrel]
    refine ⟨hplaced.release hoff, fun k' h' hen => ?_⟩
    rw [(release_handles _ _ _).2.1]
    exact hrouted k' h' (enabled_release.1 hen).2
  | enable k =>
    obtain ⟨hd, hk, rfl⟩ := Option.map_eq_some_iff.1 hs'
    have hlive := owned_handles hk
    exact ⟨h.placed.setDisabled hlive _ _, h.routed.setDisabled h.placed hlive (fun _ => rfl)
      fun k' h' hen _ hsource => hkept hd hk k' h' hen hsource⟩
  | disable k =>
    obtain ⟨hd, hk, rfl⟩ := Option.map_eq_some_iff.1 hs'
    exact h.disabled (owned_handles hk) (hkept hd hk)

theorem IntrHolds.muted_alloc (h : IntrHolds s) (hlost : ¬ SourceKept cpu s (.alloc a))
    (hout : s.espIntrAlloc cpu a = .ret err t) : ¬ HandlersRun t := by
  simp only [SourceKept, not_forall] at hlost
  obtain ⟨line, hline, k, hd, hen, hsource, hnot⟩ := hlost
  obtain ⟨hnone, -⟩ | ⟨intr, u, d, hline', hplaced, hhandles, -, hfor, rfl⟩ :=
    espIntrAlloc_cases h.placed hout
  · rw [hnone] at hline
    cases hline
  · obtain rfl := Option.some.inj (hline.symm.trans hline')
    have hlive : u.handles k = some hd := hhandles ▸ hen.live
    have hconn : Enabled (u.connect a line) k hd :=
      hplaced.enabled_connect ⟨hlive, hen.on, hen.handler⟩
    have hplaced' := hplaced.connect hfor
    split_ifs with hoff
    · exact not_handlersRun_setDisabled hplaced' (update_self _ _ _) hconn
        (hplaced.lt_next hlive).ne hsource (hplaced'.line k hd hconn.live).2
    · intro hrun
      have hroute := (hrun k hd hconn).1
      have hmat : (u.connect a line).matrix = update u.matrix a.source line := rfl
      rw [hmat, hsource, update_self] at hroute
      exact hnot ⟨by simpa using hoff, hroute.symm⟩

theorem IntrHolds.muted {cpu : Fin 2} {s s' : IntrState} {c : IntrCall} (h : IntrHolds s)
    (hlost : ¬ SourceKept cpu s c) (hs' : intrStep cpu s c = some s') : ¬ HandlersRun s' := by
  cases c with
  | alloc a =>
    simp only [intrStep] at hs'
    cases hout : s.espIntrAlloc cpu a with
    | crash => simp [hout] at hs'
    | ret err t =>
      rw [hout] at hs'
      cases hs'
      exact h.muted_alloc hlost hout
  | free k =>
    obtain ⟨hd, hk, rfl⟩ := Option.map_eq_some_iff.1 hs'
    simp only [SourceKept, not_forall] at hlost
    obtain ⟨hd', hk', k', h', hen, hne, hsource⟩ := hlost
    obtain rfl := Option.some.inj (hk.symm.trans hk')
    intro hrun
    have hen' : Enabled (s.espIntrDisable k hd) k' h' := hen.setDisabled hne _ _
    have hroute := (hrun k' h' (enabled_release.2 ⟨hne, hen'⟩)).1
    rw [IntrState.espIntrFree, (release_handles _ _ _).2.1, IntrState.espIntrDisable,
      setDisabled_matrix h.placed (owned_handles hk), not_not.1 hsource,
      update_self] at hroute
    exact (h.placed.line k' h' hen.live).2 hroute.symm
  | enable k =>
    obtain ⟨hd, hk, rfl⟩ := Option.map_eq_some_iff.1 hs'
    simp only [SourceKept, not_forall] at hlost
    obtain ⟨hd', hk', k', h', hen, hsource, hline⟩ := hlost
    obtain rfl := Option.some.inj (hk.symm.trans hk')
    have hne : k' ≠ k := by
      rintro rfl
      obtain rfl := Option.some.inj (hen.live.symm.trans (owned_handles hk))
      exact hline rfl
    exact not_handlersRun_setDisabled h.placed (owned_handles hk) hen hne hsource hline
  | disable k =>
    obtain ⟨hd, hk, rfl⟩ := Option.map_eq_some_iff.1 hs'
    simp only [SourceKept, not_forall] at hlost
    obtain ⟨hd', hk', k', h', hen, hne, hsource⟩ := hlost
    obtain rfl := Option.some.inj (hk.symm.trans hk')
    exact not_handlersRun_setDisabled h.placed (owned_handles hk) hen hne (not_not.1 hsource)
      (h.placed.line k' h' hen.live).2

/-- Enabled handlers are run in every state of a sequence of calls exactly if no call routes a
source away from the line of another enabled handler. -/
theorem handlers_run_iff (cpu : Fin 2) (matrix : Nat → Nat) (calls : List IntrCall) :
    Always (intrStep cpu) HandlersRun (IntrState.initial matrix) calls ↔
      Along (intrStep cpu) (SourceKept cpu) (IntrState.initial matrix) calls := by
  have hstart : IntrHolds (IntrState.initial matrix) :=
    ⟨placed_initial matrix, fun k h hen => by cases hen.live⟩
  exact always_iff_along (fun _ h => h.placed.handlersRun h.routed)
    (fun _ _ _ h hkept => h.step hkept) (fun _ _ _ h hlost => h.muted hlost) hstart calls

theorem disabling_mutes_sharer : ∃ s, run (intrStep 0) (IntrState.initial fun _ => 16)
        [.alloc ⟨5, 0x100, 0x40080000, 1, true, true, true, true⟩,
          .alloc ⟨5, 0x100, 0x40080100, 2, true, true, true, true⟩, .disable 0] = some s ∧
      (∃ h, Enabled s 1 h ∧ h.source = 5) ∧ s.matrix 5 = 6 ∧ ¬ HandlersRun s := by
  refine ⟨_, rfl, ⟨_, ⟨rfl, rfl, by decide⟩, rfl⟩, rfl, fun hrun => ?_⟩
  have hroute := (hrun 1 _ ⟨rfl, rfl, by decide⟩).1
  exact absurd hroute (by decide)

theorem Placed.step {cpu : Fin 2} {s s' : IntrState} {c : IntrCall} (h : Placed s)
    (hs' : intrStep cpu s c = some s') : Placed s' := by
  cases c with
  | alloc a =>
    simp only [intrStep] at hs'
    cases hout : s.espIntrAlloc cpu a with
    | crash => simp [hout] at hs'
    | ret err t =>
      rw [hout] at hs'
      cases hs'
      obtain ⟨-, hplaced, -⟩ | ⟨intr, u, d, -, hplaced, -, -, hfor, rfl⟩ :=
        espIntrAlloc_cases h hout
      · exact hplaced
      · split_ifs
        · exact (hplaced.connect hfor).setDisabled (update_self _ _ _) _ _
        · exact hplaced.connect hfor
  | free k =>
    obtain ⟨hd, hk, rfl⟩ := Option.map_eq_some_iff.1 hs'
    have hrel : s.espIntrFree k hd =
        (s.espIntrDisable k hd).release k { hd with disabled := true } := rfl
    rw [hrel]
    exact (h.setDisabled (owned_handles hk) _ _).release (update_self _ _ _)
  | enable k | disable k =>
    obtain ⟨hd, hk, rfl⟩ := Option.map_eq_some_iff.1 hs'
    exact h.setDisabled (owned_handles hk) _ _

/-- Whatever is called, muted handlers or not: a non-shared handler is alone on its line, the
records of a shared line are those of its live handles, and the line of a live handle is enabled. -/
theorem placed_always (cpu : Fin 2) (matrix : Nat → Nat) (calls : List IntrCall) :
    Always (intrStep cpu) Placed (IntrState.initial matrix) calls :=
  always_of_step (C := fun _ _ => True) (fun _ _ _ h _ => h.step) (placed_initial matrix)
    (along_of_forall fun _ _ => trivial)

end EspIdf.IntrAlloc
