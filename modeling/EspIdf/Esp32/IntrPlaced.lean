import EspIdf.Esp32.IntrAlloc

/-! Where the interrupt handlers are: every handle has its place on the line it was given, and each
of the calls keeps it there. -/

namespace EspIdf.IntrAlloc

open Function (update update_of_ne update_self)
open IntrState (install removeShared clearFlags initial newHandle descOrEmpty)

variable {s : IntrState}

namespace IntrState

theorem findDescForInt_modifyDesc (s : IntrState) (n m : Nat) (hf : ∀ d, (f d).intno = d.intno) :
    (s.modifyDesc n f).findDescForInt m =
      if m = n then (s.findDescForInt m).map f else s.findDescForInt m := by
  have hsame : ((fun d : VectorDesc => decide (d.intno = m)) ∘
      fun d => if d.intno = n then f d else d) = fun d => decide (d.intno = m) := by
    funext d
    simp only [Function.comp]
    split_ifs
    · rw [hf]
    · rfl
  simp only [findDescForInt, modifyDesc, List.find?_map, hsame]
  cases hfind : s.vectors.find? (·.intno = m) with
  | none => simp
  | some d =>
    have hd : d.intno = m := by simpa using List.find?_some hfind
    by_cases hm : m = n
    · simp [hm, hd]
    · simp [hm, hd]

theorem find_modifyDesc_some {n : Nat} {d : VectorDesc}
    {f : VectorDesc → VectorDesc} (hf : ∀ d, (f d).intno = d.intno)
    (hfind : s.findDescForInt n = some d) (m : Nat) :
    (s.modifyDesc n f).findDescForInt m = if m = n then some (f d) else s.findDescForInt m := by
  rw [s.findDescForInt_modifyDesc n m hf]
  split_ifs with hm
  · rw [hm, hfind, Option.map_some]
  · rfl

theorem find_insertVectorDesc {vectors vectors' : List VectorDesc} {d : VectorDesc}
    (hnew : vectors.find? (·.intno = d.intno) = none)
    (h : insertVectorDesc vectors d = some vectors') (m : Nat) :
    vectors'.find? (·.intno = m) = if m = d.intno then some d else vectors.find? (·.intno = m) := by
  have hparts : ∀ l r : List VectorDesc, l ++ r = vectors → (l ++ d :: r).find? (·.intno = m) =
        if m = d.intno then some d else vectors.find? (·.intno = m) := by
    rintro l r rfl
    by_cases hm : m = d.intno
    · subst hm
      rw [List.find?_append, Option.or_eq_none_iff] at hnew
      simp [hnew.1]
    · simp [hm, Ne.symm hm]
  unfold insertVectorDesc at h
  split at h
  case h_1 =>
    cases h
    exact hparts [] [] rfl
  case h_2 =>
    split_ifs at h
    cases h
    exact hparts _ _ (List.takeWhile_append_dropWhile)

structure Usable (cpu : Fin 2) (s : IntrState) (flags x : Nat) : Prop where
  normal : (intDesc x).cpuflags cpu = .normal
  nonshared : (s.descOrEmpty x).nonshared = false
  shared : flags.testBit 8 = false → (s.descOrEmpty x).shared = false

theorem choose_best (s : IntrState) (flags : Nat) (b : Search) (x : Nat) :
    (s.choose flags b x).best = b.best ∨
    ((s.choose flags b x).best = some x ∧
      (flags.testBit 8 = false → (s.descOrEmpty x).shared = false)) := by
  unfold choose
  dsimp only
  split_ifs with h8 _ hshared <;> simp_all

theorem consider_usable (hb : ∀ y ∈ b.best, Usable cpu s flags y) :
    ∀ y ∈ (s.consider cpu flags b x).best, Usable cpu s flags y := by
  unfold consider
  split_ifs with hskip
  · exact hb
  · rcases s.choose_best flags b x with hbest | ⟨hbest, hshared⟩
    · rw [hbest]
      exact hb
    · intro y hy
      rw [hbest] at hy
      cases hy
      simp only [unusable, Bool.or_eq_true, not_or, decide_eq_true_eq, Bool.not_eq_true] at hskip
      obtain ⟨⟨⟨⟨⟨⟨hresvd, hspecial⟩, -⟩, -⟩, -⟩, -⟩, hnonshared⟩ := hskip
      refine ⟨?_, hnonshared, hshared⟩
      cases hflag : (intDesc x).cpuflags cpu with
      | normal => rfl
      | resvd => exact absurd hflag hresvd
      | special => exact absurd hflag hspecial

theorem getFreeInt_usable (h : s.getFreeInt cpu flags = some x) : Usable cpu s flags x := by
  have hfold : ∀ (l : List Nat) (b : Search), (∀ y ∈ b.best, Usable cpu s flags y) →
      ∀ y ∈ (l.foldl (s.consider cpu flags) b).best, Usable cpu s flags y := by
    intro l
    induction l with
    | nil => exact fun b hb => hb
    | cons x l ih => exact fun b hb => ih _ (consider_usable hb)
  exact hfold (List.range 32) ⟨none, 9, none⟩ (by simp) x h

theorem Usable.ne_six (h : Usable cpu s flags x) : x ≠ intMuxDisabledIntno := by
  rintro rfl
  have hsix : ∀ cpu : Fin 2, (intDesc intMuxDisabledIntno).cpuflags cpu ≠ .normal := by decide
  exact hsix cpu h.normal

end IntrState

/-! ### Where the handlers are -/

structure OnShared (s : IntrState) (k : Nat) (h : Handle) : Prop where
  desc : ∃ d, s.findDescForInt h.intno = some d ∧ d.shared = true ∧
    ⟨k, h.disabled, h.source, h.isr, h.arg⟩ ∈ d.sharedVecInfo
  vector : s.table h.intno = .sharedIntrIsr h.intno
  node : h.sharedVectorDesc = some k

structure OnNonshared (s : IntrState) (k : Nat) (h : Handle) : Prop where
  desc : ∃ d, s.findDescForInt h.intno = some d ∧ d.nonshared = true ∧ d.source = h.source
  vector : h.isr ≠ 0 → s.table h.intno = .handler h.isr h.arg
  node : h.sharedVectorDesc = none
  alone : ∀ k' h', s.handles k' = some h' → h'.intno = h.intno → k' = k

structure Placed (s : IntrState) : Prop where
  fresh : ∀ k, s.next ≤ k → s.handles k = none
  flags : ∀ n d, s.findDescForInt n = some d →
    (d.nonshared = true → d.shared = false) ∧ (d.shared = false → d.sharedVecInfo = [])
  nodes : ∀ n d, s.findDescForInt n = some d → ∀ v ∈ d.sharedVecInfo, ∃ h,
    s.handles v.id = some h ∧ h.intno = n ∧ h.sharedVectorDesc = some v.id ∧
    v = ⟨v.id, h.disabled, h.source, h.isr, h.arg⟩
  nodup : ∀ n d, s.findDescForInt n = some d → (d.sharedVecInfo.map (·.id)).Nodup
  placed : ∀ k h, s.handles k = some h → OnShared s k h ∨ OnNonshared s k h
  line : ∀ k h, s.handles k = some h → s.intenable h.intno = true ∧
    h.intno ≠ intMuxDisabledIntno

def Routed (s : IntrState) : Prop := ∀ k h, Enabled s k h → s.matrix h.source = h.intno

theorem Placed.handlersRun (h : Placed s) (hr : Routed s) : HandlersRun s := by
  intro k hd hen
  refine ⟨hr k hd hen, (h.line k hd hen.live).1, ?_⟩
  rcases h.placed k hd hen.live with hon | hon
  · obtain ⟨d, hfind, -, hmem⟩ := hon.desc
    simp only [IntrState.calls, hon.vector, hfind, Option.map_some, Option.getD_some]
    refine List.mem_map.2 ⟨_, List.mem_filter.2 ⟨hmem, ?_⟩, rfl⟩
    simp [hen.on]
  · simp [IntrState.calls, hon.vector hen.handler]

theorem placed_initial (matrix : Nat → Nat) : Placed (initial matrix) :=
  ⟨fun _ _ => rfl, by simp [initial, IntrState.findDescForInt],
    by simp [initial, IntrState.findDescForInt],
    by simp [initial, IntrState.findDescForInt], by simp [initial],
    by simp [initial]⟩

theorem Placed.handleSource (h : Placed s) (hk : s.handles k = some hd) : s.handleSource hd =
    hd.source := by
  rcases h.placed k hd hk with hon | hon
  · obtain ⟨d, hfind, -, hmem⟩ := hon.desc
    have hsome : (d.sharedVecInfo.find? (·.id = k)).isSome := by
      rw [List.find?_isSome]
      exact ⟨_, hmem, by simp⟩
    obtain ⟨v, hv⟩ := Option.isSome_iff_exists.1 hsome
    have hid : v.id = k := by simpa using List.find?_some hv
    obtain ⟨hd', hk', -, -, hrec⟩ := h.nodes _ d hfind v (List.mem_of_find?_eq_some hv)
    rw [hid, hk] at hk'
    cases hk'
    simp only [IntrState.handleSource, hon.node, hfind, Option.bind_some, hv, Option.map_some,
      Option.getD_some]
    rw [hrec]
  · obtain ⟨d, hfind, -, hsource⟩ := hon.desc
    simp [IntrState.handleSource, hon.node, hfind, hsource]

/-! ### Changes of one line -/

structure OffLine (n : Nat) (s s' : IntrState) : Prop where
  find : ∀ m, m ≠ n → s'.findDescForInt m = s.findDescForInt m
  table : ∀ m, m ≠ n → s'.table m = s.table m
  intenable : ∀ m, m ≠ n → s'.intenable m = s.intenable m
  handles : ∀ k h, h.intno ≠ n → (s'.handles k = some h ↔ s.handles k = some h)

structure LinePlaced (s : IntrState) (n : Nat) (d : VectorDesc) : Prop where
  find : s.findDescForInt n = some d
  flags : (d.nonshared = true → d.shared = false) ∧ (d.shared = false → d.sharedVecInfo = [])
  nodes : ∀ v ∈ d.sharedVecInfo, ∃ h, s.handles v.id = some h ∧ h.intno = n ∧
    h.sharedVectorDesc = some v.id ∧ v = ⟨v.id, h.disabled, h.source, h.isr, h.arg⟩
  nodup : (d.sharedVecInfo.map (·.id)).Nodup
  placed : ∀ k h, s.handles k = some h → h.intno = n → OnShared s k h ∨ OnNonshared s k h
  line : ∀ k h, s.handles k = some h → h.intno = n → s.intenable h.intno = true ∧
    h.intno ≠ intMuxDisabledIntno

theorem OffLine.desc (hoff : OffLine n s s') (hline : LinePlaced s' n d)
    (hfind : s'.findDescForInt m = some d') :
    (m = n ∧ d' = d) ∨ (m ≠ n ∧ s.findDescForInt m = some d') := by
  by_cases hm : m = n
  · rw [hm, hline.find] at hfind
    exact .inl ⟨hm, (Option.some.inj hfind).symm⟩
  · rw [hoff.find m hm] at hfind
    exact .inr ⟨hm, hfind⟩

theorem Placed.off (h : Placed s) (hoff : OffLine n s s') (hk : s'.handles k = some hd)
    (hne : hd.intno ≠ n) :
    OnShared s' k hd ∨ OnNonshared s' k hd := by
  rcases h.placed k hd ((hoff.handles k hd hne).1 hk) with hon | hon
  · refine .inl ⟨?_, ?_, hon.node⟩
    · rw [hoff.find _ hne]
      exact hon.desc
    · rw [hoff.table _ hne]
      exact hon.vector
  · refine .inr ⟨?_, ?_, hon.node, fun k' h' hk' hintno => ?_⟩
    · rw [hoff.find _ hne]
      exact hon.desc
    · rw [hoff.table _ hne]
      exact hon.vector
    · exact hon.alone k' h' ((hoff.handles k' h' (by rw [hintno]; exact hne)).1 hk') hintno

theorem Placed.of_line (h : Placed s) (hoff : OffLine n s s')
    (hfresh : ∀ k, s'.next ≤ k → s'.handles k = none) (hline : LinePlaced s' n d) : Placed s' := by
  refine ⟨hfresh, fun m d' hd' => ?_, fun m d' hd' v hv => ?_, fun m d' hd' => ?_,
    fun k hd hk => ?_, fun k hd hk => ?_⟩
  · rcases hoff.desc hline hd' with ⟨-, rfl⟩ | ⟨-, hd'⟩
    · exact hline.flags
    · exact h.flags m d' hd'
  · rcases hoff.desc hline hd' with ⟨rfl, rfl⟩ | ⟨hm, hd'⟩
    · exact hline.nodes v hv
    · obtain ⟨h', hk', hintno, hrest⟩ := h.nodes m d' hd' v hv
      exact ⟨h', (hoff.handles _ h' (by rw [hintno]; exact hm)).2 hk', hintno, hrest⟩
  · rcases hoff.desc hline hd' with ⟨-, rfl⟩ | ⟨-, hd'⟩
    · exact hline.nodup
    · exact h.nodup m d' hd'
  · by_cases hm : hd.intno = n
    · exact hline.placed k hd hk hm
    · exact h.off hoff hk hm
  · by_cases hm : hd.intno = n
    · exact hline.line k hd hk hm
    · rw [hoff.intenable _ hm]
      exact h.line k hd ((hoff.handles k hd hm).1 hk)

theorem update_off (hold : ∀ h, f k = some h → h.intno = n) (hnew : ∀ h, x = some h → h.intno = n)
    (k' : Nat) (h' : Handle) (hne : h'.intno ≠ n) : update f k x k' = some h' ↔ f k' = some h' := by
  by_cases hk : k' = k
  · subst hk
    rw [update_self]
    exact ⟨fun hx => absurd (hnew h' hx) hne, fun hf => absurd (hold h' hf) hne⟩
  · rw [update_of_ne hk]

theorem Placed.lt_next (h : Placed s) (hk : s.handles k = some hd) : k < s.next := by
  by_contra hnot
  rw [h.fresh k (by omega)] at hk
  cases hk

theorem Placed.sharer (h : Placed s) (hk : s.handles k = some hd) (hk' : s.handles k' = some hd')
    (hne : k' ≠ k) (hintno : hd'.intno = hd.intno) : OnShared s k' hd' := by
  rcases h.placed k' hd' hk' with hon | hon
  · exact hon
  · exact absurd (hon.alone k hd hk hintno.symm).symm hne

theorem Placed.desc_of_handle (h : Placed s) (hk : s.handles k = some hd) : ∃ d,
    s.findDescForInt hd.intno = some d := by
  rcases h.placed k hd hk with hon | hon
  · obtain ⟨d, hfind, -⟩ := hon.desc
    exact ⟨d, hfind⟩
  · obtain ⟨d, hfind, -⟩ := hon.desc
    exact ⟨d, hfind⟩

/-! ### Enabling and disabling -/

def setNode (h : Handle) (b : Bool) (d : VectorDesc) : VectorDesc :=
  { d with sharedVecInfo := d.sharedVecInfo.map fun n =>
      if some n.id = h.sharedVectorDesc then { n with disabled := b } else n }

theorem setDisabled_find (s : IntrState) (k : Nat) (h : Handle) (b : Bool) (line m : Nat) :
    (s.setDisabled k h b line).findDescForInt m =
      if m = h.intno then (s.findDescForInt m).map (setNode h b) else s.findDescForInt m :=
  s.findDescForInt_modifyDesc h.intno m fun _ => rfl

theorem setDisabled_handles (s : IntrState) (k : Nat) (h : Handle) (b : Bool) (line : Nat) :
    (s.setDisabled k h b line).handles = update s.handles k (some { h with disabled := b }) := rfl

theorem setNode_ids (h : Handle) (b : Bool) (d : VectorDesc) :
    (setNode h b d).sharedVecInfo.map (·.id) = d.sharedVecInfo.map (·.id) := by
  simp only [setNode, List.map_map]
  refine List.map_congr_left fun n _ => ?_
  simp only [Function.comp]
  split_ifs <;> rfl

theorem mem_setNode_of_ne (hv : v ∈ d.sharedVecInfo) (hne : some v.id ≠ h.sharedVectorDesc) :
    v ∈ (setNode h b d).sharedVecInfo :=
  List.mem_map.2 ⟨v, hv, if_neg hne⟩

theorem Placed.node_iff (h : Placed s) (hk : s.handles k = some hd) (hfind : s.findDescForInt n = some d)
    (hv : v ∈ d.sharedVecInfo) :
    some v.id = hd.sharedVectorDesc ↔ v.id = k := by
  constructor
  · intro heq
    rcases h.placed k hd hk with hon | hon
    · rw [hon.node] at heq
      exact Option.some.inj heq
    · rw [hon.node] at heq
      cases heq
  · intro heq
    obtain ⟨hd', hk', -, hnode, -⟩ := h.nodes n d hfind v hv
    rw [heq, hk] at hk'
    cases hk'
    exact hnode.symm

theorem setDisabled_offLine (hk : s.handles k = some h) (b : Bool) (line : Nat) :
    OffLine h.intno s (s.setDisabled k h b line) := by
  refine ⟨fun m hm => ?_, fun _ _ => rfl, fun _ _ => rfl, ?_⟩
  · rw [setDisabled_find, if_neg hm]
  · refine update_off (fun h' hk' => ?_) fun h' hx => ?_
    · rw [hk] at hk'
      rw [Option.some.inj hk']
    · rw [← Option.some.inj hx]

theorem setDisabled_handle {k : Nat} {h : Handle} {b : Bool} {line k' : Nat}
    {h' : Handle} (hk' : (s.setDisabled k h b line).handles k' = some h') :
    (k' = k ∧ h' = { h with disabled := b }) ∨ (k' ≠ k ∧ s.handles k' = some h') := by
  rw [setDisabled_handles] at hk'
  by_cases hkk : k' = k
  · rw [hkk, update_self] at hk'
    exact .inl ⟨hkk, (Option.some.inj hk').symm⟩
  · rw [update_of_ne hkk] at hk'
    exact .inr ⟨hkk, hk'⟩

section SetDisabled

variable {s : IntrState} {k : Nat} {hd : Handle} {d : VectorDesc} (b : Bool) (line : Nat)

theorem setDisabled_find_line (hfind : s.findDescForInt hd.intno = some d) :
    (s.setDisabled k hd b line).findDescForInt hd.intno = some (setNode hd b d) := by
  rw [setDisabled_find, if_pos rfl, hfind]
  rfl

theorem Placed.setDisabled_nodes (h : Placed s) (hk : s.handles k = some hd)
    (hfind : s.findDescForInt hd.intno = some d) (hv : v ∈ (setNode hd b d).sharedVecInfo) : ∃ h',
      (s.setDisabled k hd b line).handles v.id = some h' ∧ h'.intno = hd.intno ∧
      h'.sharedVectorDesc = some v.id ∧ v = ⟨v.id, h'.disabled, h'.source, h'.isr, h'.arg⟩ := by
  obtain ⟨w, hw, rfl⟩ := List.mem_map.1 hv
  obtain ⟨h', hk', hintno, hnode, hrec⟩ := h.nodes _ d hfind w hw
  by_cases hwk : w.id = k
  · rw [if_pos ((h.node_iff hk hfind hw).2 hwk)]
    rw [hwk, hk] at hk'
    cases hk'
    refine ⟨{ hd with disabled := b }, ?_, rfl, hnode, by rw [hrec]⟩
    rw [setDisabled_handles, hwk, update_self]
  · rw [if_neg fun heq => hwk ((h.node_iff hk hfind hw).1 heq)]
    refine ⟨h', ?_, hintno, hnode, hrec⟩
    rw [setDisabled_handles, update_of_ne hwk, hk']

theorem Placed.setDisabled_self (h : Placed s) (hk : s.handles k = some hd) :
    OnShared (s.setDisabled k hd b line) k { hd with disabled := b } ∨
      OnNonshared (s.setDisabled k hd b line) k { hd with disabled := b } := by
  rcases h.placed k hd hk with hon | hon
  · obtain ⟨d, hfind, hshared, hmem⟩ := hon.desc
    refine .inl ⟨⟨_, setDisabled_find_line b line hfind, hshared, ?_⟩, hon.vector, hon.node⟩
    refine List.mem_map.2 ⟨_, hmem, ?_⟩
    rw [if_pos hon.node.symm]
  · obtain ⟨d, hfind, hnonshared, hsource⟩ := hon.desc
    refine .inr ⟨⟨_, setDisabled_find_line b line hfind, hnonshared, hsource⟩, hon.vector,
      hon.node, fun k' h' hk' hintno => ?_⟩
    rcases setDisabled_handle hk' with ⟨hkk, -⟩ | ⟨-, hk'⟩
    · exact hkk
    · exact hon.alone k' h' hk' hintno

theorem Placed.setDisabled_sharer (h : Placed s) (hk : s.handles k = some hd)
    (hk' : s.handles k' = some h')
    (hne : k' ≠ k) (hintno : h'.intno = hd.intno) :
    OnShared (s.setDisabled k hd b line) k' h' := by
  have hon := h.sharer hk hk' hne hintno
  obtain ⟨d, hfind, hshared, hmem⟩ := hon.desc
  rw [hintno] at hfind
  refine ⟨⟨setNode hd b d, ?_, hshared, mem_setNode_of_ne hmem fun heq => ?_⟩, hon.vector, hon.node⟩
  · rw [hintno]
    exact setDisabled_find_line b line hfind
  · exact hne ((h.node_iff hk hfind hmem).1 heq)

end SetDisabled

theorem Placed.setDisabled (h : Placed s) {k : Nat} {hd : Handle}
    (hk : s.handles k = some hd) (b : Bool) (line : Nat) :
    Placed (s.setDisabled k hd b line) := by
  obtain ⟨d, hfind⟩ := h.desc_of_handle hk
  refine h.of_line (d := setNode hd b d) (setDisabled_offLine hk b line) (fun k' hk' => ?_)
    ⟨setDisabled_find_line b line hfind, ?_, fun v => h.setDisabled_nodes b line hk hfind, ?_,
      fun k' h' hk' hintno => ?_, fun k' h' hk' _ => ?_⟩
  · have hlt := h.lt_next hk
    have hle : s.next ≤ k' := hk'
    rw [setDisabled_handles, update_of_ne (by omega)]
    exact h.fresh k' hle
  · refine ⟨(h.flags _ d hfind).1, fun hshared => ?_⟩
    simp [setNode, (h.flags _ d hfind).2 hshared]
  · rw [setNode_ids]
    exact h.nodup _ d hfind
  · rcases setDisabled_handle hk' with ⟨rfl, rfl⟩ | ⟨hne, hk'⟩
    · exact h.setDisabled_self b line hk
    · exact .inl (h.setDisabled_sharer b line hk hk' hne hintno)
  · rcases setDisabled_handle hk' with ⟨rfl, rfl⟩ | ⟨-, hk'⟩
    · exact h.line k' hd hk
    · exact h.line k' h' hk'

/-! ### Allocating -/

theorem Placed.withDesc {s s' : IntrState} (h : Placed s) {intr : Nat} {malloc : Bool}
    (hs' : s.withDesc intr malloc = some (some s')) : Placed s' ∧
      s'.handles = s.handles ∧ s'.next = s.next ∧ s'.matrix = s.matrix ∧
      (∃ d, s'.findDescForInt intr = some d) ∧ s'.descOrEmpty intr = s.descOrEmpty intr := by
  unfold IntrState.withDesc at hs'
  split_ifs at hs' with hsome hmalloc
  · obtain rfl := Option.some.inj (Option.some.inj hs')
    exact ⟨h, rfl, rfl, rfl, Option.isSome_iff_exists.1 hsome, rfl⟩
  · simp at hs'
  · obtain ⟨vs, hvs, heq⟩ := Option.map_eq_some_iff.1 hs'
    cases heq
    have hnone : s.findDescForInt intr = none := by simpa using hsome
    have hfind : ∀ m, IntrState.findDescForInt { s with vectors := vs } m =
        if m = intr then some (.empty intr) else s.findDescForInt m :=
      IntrState.find_insertVectorDesc (d := .empty intr) hnone hvs
    have hoff : OffLine intr s { s with vectors := vs } :=
      ⟨fun m hm => by rw [hfind, if_neg hm], fun _ _ => rfl, fun _ _ => rfl, fun _ _ _ => Iff.rfl⟩
    -- a line without a descriptor has no handlers
    have hvacant : ∀ k hd, s.handles k = some hd → hd.intno ≠ intr := by
      rintro k hd hk rfl
      obtain ⟨d, hd'⟩ := h.desc_of_handle hk
      rw [hnone] at hd'
      cases hd'
    refine ⟨h.of_line (d := .empty intr) hoff h.fresh ⟨by rw [hfind, if_pos rfl], ?_, ?_, ?_,
      fun k hd hk hintno => absurd hintno (hvacant k hd hk),
      fun k hd hk hintno => absurd hintno (hvacant k hd hk)⟩, rfl, rfl, rfl,
      ⟨_, by rw [hfind, if_pos rfl]⟩, ?_⟩
    · simp [VectorDesc.empty]
    · simp [VectorDesc.empty]
    · simp [VectorDesc.empty]
    · simp only [descOrEmpty, hfind, if_true, hnone]
      rfl

theorem install_intno (a : AllocArgs) (k : Nat) (d : VectorDesc) :
    (install a k d).intno = d.intno := by
  unfold install
  split_ifs <;> rfl

theorem connect_find (s : IntrState) (a : AllocArgs) (intr m : Nat) :
    (s.connect a intr).findDescForInt m =
      if m = intr then (s.findDescForInt m).map (install a s.next)
      else s.findDescForInt m :=
  s.findDescForInt_modifyDesc intr m (install_intno a s.next)

structure LineFor (s : IntrState) (a : AllocArgs) (intr : Nat) (d : VectorDesc) : Prop where
  find : s.findDescForInt intr = some d
  nonshared : d.nonshared = false
  shared : a.isShared = false → d.shared = false
  line : intr ≠ intMuxDisabledIntno

theorem Placed.sharers (h : Placed s) {intr : Nat} (hline : LineFor s a intr d)
    (hk : s.handles k = some hd)
    (hintno : hd.intno = intr) : OnShared s k hd ∧ a.isShared = true := by
  rcases h.placed k hd hk with hon | hon
  · refine ⟨hon, ?_⟩
    obtain ⟨d', hfind, hshared, -⟩ := hon.desc
    rw [hintno, hline.find] at hfind
    cases hfind
    by_contra hnot
    rw [hline.shared (by simpa using hnot)] at hshared
    cases hshared
  · obtain ⟨d', hfind, hnonshared, -⟩ := hon.desc
    rw [hintno, hline.find] at hfind
    cases hfind
    rw [hline.nonshared] at hnonshared
    cases hnonshared

theorem newHandle_node (h : Placed s) {intr : Nat} (hline : LineFor s a intr d) :
    ((s.connect a intr).newHandle a intr).sharedVectorDesc =
      if a.isShared then some s.next else none := by
  simp only [newHandle, connect_find, if_true, hline.find, Option.map_some,
    Option.bind_some, install]
  by_cases hs : a.isShared = true
  · simp [hs]
  · have hempty := (h.flags intr d hline.find).2 (hline.shared (by simpa using hs))
    simp [hs, hempty]

theorem connect_handles (s : IntrState) (a : AllocArgs) (intr : Nat) : (s.connect a intr).handles =
      update s.handles s.next (some ((s.connect a intr).newHandle a intr)) := rfl

theorem connect_offLine (h : Placed s) (a : AllocArgs) (intr : Nat) :
    OffLine intr s (s.connect a intr) := by
  refine ⟨fun m hm => ?_, fun m hm => update_of_ne hm _ _,
    fun m hm => update_of_ne hm _ _, ?_⟩
  · rw [connect_find, if_neg hm]
  · refine update_off (fun h' hk' => ?_) fun h' hx => ?_
    · exact absurd (h.lt_next hk') (lt_irrefl _)
    · rw [← Option.some.inj hx]
      rfl

theorem connect_handle {a : AllocArgs} {intr k : Nat} {hd : Handle}
    (hk : (s.connect a intr).handles k = some hd) :
    (k = s.next ∧ hd = (s.connect a intr).newHandle a intr) ∨ (k ≠ s.next ∧ s.handles k = some hd) := by
  rw [connect_handles] at hk
  by_cases hkn : k = s.next
  · rw [hkn, update_self] at hk
    exact .inl ⟨hkn, (Option.some.inj hk).symm⟩
  · rw [update_of_ne hkn] at hk
    exact .inr ⟨hkn, hk⟩

section Connect

variable {s : IntrState} {a : AllocArgs} {intr : Nat} {d : VectorDesc}

theorem Placed.connect_keeps (h : Placed s) (hk : s.handles k = some hd) :
    (s.connect a intr).handles k = some hd := by
  rw [connect_handles, update_of_ne (h.lt_next hk).ne, hk]

theorem connect_find_line (hline : LineFor s a intr d) :
    (s.connect a intr).findDescForInt intr = some (install a s.next d) := by
  rw [connect_find, if_pos rfl, hline.find]
  rfl

theorem connect_vector (s : IntrState) (a : AllocArgs) (intr : Nat) :
    (s.connect a intr).table intr = s.newVector a intr := update_self _ _ _

section

variable (h : Placed s) (hline : LineFor s a intr d)
include h hline

theorem install_list :
    (install a s.next d).sharedVecInfo =
      if a.isShared then ⟨s.next, false, a.source, a.handler, a.arg⟩ :: d.sharedVecInfo
      else [] := by
  unfold install
  split_ifs with hs
  · rfl
  · exact (h.flags intr d hline.find).2 (hline.shared (by simpa using hs))

theorem install_flags :
    ((install a s.next d).nonshared = true → (install a s.next d).shared = false) ∧
    ((install a s.next d).shared = false → (install a s.next d).sharedVecInfo = []) := by
  by_cases hs : a.isShared = true
  · simp [install, hs, hline.nonshared]
  · refine ⟨fun _ => by simp [install, hs], fun _ => ?_⟩
    rw [install_list h hline, if_neg hs]

theorem Placed.connect_nodes (hv : v ∈ (install a s.next d).sharedVecInfo) : ∃ h',
      (s.connect a intr).handles v.id = some h' ∧ h'.intno = intr ∧
      h'.sharedVectorDesc = some v.id ∧ v = ⟨v.id, h'.disabled, h'.source, h'.isr, h'.arg⟩ := by
  rw [install_list h hline] at hv
  split_ifs at hv with hs
  · rcases List.mem_cons.1 hv with rfl | hv
    · refine ⟨_, update_self _ _ _, rfl, ?_, rfl⟩
      exact (newHandle_node h hline).trans (if_pos hs)
    · obtain ⟨hd, hk, hrest⟩ := h.nodes intr d hline.find v hv
      exact ⟨hd, h.connect_keeps hk, hrest⟩
  · exact absurd hv List.not_mem_nil

theorem Placed.connect_nodup :
    ((install a s.next d).sharedVecInfo.map (·.id)).Nodup := by
  rw [install_list h hline]
  split_ifs
  · rw [List.map_cons, List.nodup_cons]
    refine ⟨fun hmem => ?_, h.nodup intr d hline.find⟩
    obtain ⟨v, hv, hid⟩ := List.mem_map.1 hmem
    obtain ⟨hd, hk, -⟩ := h.nodes intr d hline.find v hv
    exact (h.lt_next hk).ne hid
  · simp

theorem Placed.connect_self :
    OnShared (s.connect a intr) s.next ((s.connect a intr).newHandle a intr) ∨
      OnNonshared (s.connect a intr) s.next ((s.connect a intr).newHandle a intr) := by
  have hnode := newHandle_node h hline
  have hdesc := connect_find_line hline
  have hvector := connect_vector s a intr
  by_cases hs : a.isShared = true
  · refine .inl ⟨⟨_, hdesc, by simp [install, hs], ?_⟩, ?_, by rw [hnode, if_pos hs]⟩
    · rw [install_list h hline, if_pos hs]
      exact List.mem_cons_self
    · exact hvector.trans (by simp [IntrState.newVector, hs, newHandle])
  · refine .inr ⟨⟨_, hdesc, by simp [install, hs],
      by simp [install, hs, newHandle]⟩, fun hisr => ?_,
      by rw [hnode, if_neg hs], fun k' hd' hk' hintno => ?_⟩
    · have hisr' : a.handler ≠ 0 := hisr
      exact hvector.trans (by simp [IntrState.newVector, hs, hisr', newHandle])
    · rcases connect_handle hk' with ⟨hkn, -⟩ | ⟨-, hk'⟩
      · exact hkn
      · exact absurd (h.sharers hline hk' hintno).2 hs

theorem Placed.connect_sharer (hk : s.handles k = some hd)
    (hintno : hd.intno = intr) :
    OnShared (s.connect a intr) k hd := by
  obtain ⟨hon, hs⟩ := h.sharers hline hk hintno
  obtain ⟨d', hfind, -, hmem⟩ := hon.desc
  rw [hintno, hline.find] at hfind
  cases hfind
  refine ⟨⟨_, by rw [hintno]; exact connect_find_line hline, by simp [install, hs], ?_⟩,
    ?_, hon.node⟩
  · rw [install_list h hline, if_pos hs]
    exact List.mem_cons_of_mem _ hmem
  · rw [hintno, connect_vector]
    simp [IntrState.newVector, hs]

theorem Placed.connect : Placed (s.connect a intr) := by
  refine h.of_line (d := install a s.next d) (connect_offLine h a intr)
    (fun k hk => ?_) ⟨connect_find_line hline, install_flags h hline,
      fun v => h.connect_nodes hline, h.connect_nodup hline, fun k hd hk hintno => ?_,
      fun k hd _ hintno => ?_⟩
  · have hle : s.next + 1 ≤ k := hk
    rw [connect_handles, update_of_ne (by omega)]
    exact h.fresh k (by omega)
  · rcases connect_handle hk with ⟨rfl, rfl⟩ | ⟨-, hk⟩
    · exact h.connect_self hline
    · exact .inl (h.connect_sharer hline hk hintno)
  · rw [hintno]
    exact ⟨update_self _ _ _, hline.line⟩

end

end Connect

/-! ### Freeing -/

/-- What `esp_intr_free` leaves of the line: its list without the node, and either no flags and no
vector, when the list is empty, or both as they were. -/
structure Released (s s' : IntrState) (h : Handle) (d D : VectorDesc) : Prop where
  find : ∀ m, s'.findDescForInt m = if m = h.intno then some D else s.findDescForInt m
  list : D.sharedVecInfo = d.sharedVecInfo.eraseP fun n => some n.id = h.sharedVectorDesc
  flags : (D.shared = false ∧ D.nonshared = false ∧ D.sharedVecInfo = []) ∨
    (D.shared = true ∧ D.nonshared = false ∧ s'.table h.intno = s.table h.intno)
  table : ∀ n, n ≠ h.intno → s'.table n = s.table n

theorem clearFlags_intno (d : VectorDesc) : (clearFlags d).intno = d.intno := rfl

theorem removeShared_intno (h : Handle) (d : VectorDesc) : (removeShared h d).intno = d.intno := rfl

section ReleaseCases

variable {s : IntrState} {h : Handle} {d : VectorDesc} (k : Nat)

section

variable (hfind : s.findDescForInt h.intno = some d)
include hfind

theorem release_last (hshared : d.shared = true)
    (hempty : (removeShared h d).sharedVecInfo = []) :
    Released s (s.release k h) h d (clearFlags (removeShared h d)) := by
  have hdesc : s.descOrEmpty h.intno = d := by simp [descOrEmpty, hfind]
  have hrelease : s.release k h = { (s.modifyDesc h.intno (removeShared h)).modifyDesc h.intno
          clearFlags with
        table := update s.table h.intno .unhandled
        handles := update s.handles k none } := by
    simp only [IntrState.release, hdesc, hshared, hempty, List.isEmpty_nil, Bool.and_self,
      Bool.or_true, if_true]
    rfl
  have hremoved := IntrState.find_modifyDesc_some (removeShared_intno h) hfind
  rw [hrelease]
  refine ⟨fun m => ?_, rfl, .inl ⟨rfl, rfl, hempty⟩, fun n hn => update_of_ne hn _ _⟩
  refine (IntrState.find_modifyDesc_some clearFlags_intno
    ((hremoved h.intno).trans (if_pos rfl)) m).trans ?_
  rw [hremoved]
  split_ifs <;> rfl

theorem release_node (hshared : d.shared = true)
    (hnonshared : d.nonshared = false)
    (hempty : (removeShared h d).sharedVecInfo.isEmpty = false) :
    Released s (s.release k h) h d (removeShared h d) := by
  have hdesc : s.descOrEmpty h.intno = d := by simp [descOrEmpty, hfind]
  have hrelease : s.release k h = { s.modifyDesc h.intno (removeShared h) with
      handles := update s.handles k none } := by
    simp only [IntrState.release, hdesc, hshared, hempty, hnonshared, Bool.and_false,
      Bool.or_self, Bool.false_eq_true, if_false, if_true]
    rfl
  rw [hrelease]
  refine ⟨fun m => ?_, rfl, .inr ⟨hshared, hnonshared, rfl⟩, fun n hn => rfl⟩
  exact IntrState.find_modifyDesc_some (removeShared_intno h) hfind m

theorem release_alone (hshared : d.shared = false)
    (hnonshared : d.nonshared = true) (hlist : d.sharedVecInfo = []) :
    Released s (s.release k h) h d (clearFlags d) := by
  have hdesc : s.descOrEmpty h.intno = d := by simp [descOrEmpty, hfind]
  have hrelease : s.release k h = { s.modifyDesc h.intno clearFlags with
      table := update s.table h.intno .unhandled
      handles := update s.handles k none } := by
    simp only [IntrState.release, hdesc, hshared, hnonshared, Bool.false_and, Bool.or_false,
      Bool.false_eq_true, if_false, if_true]
    rfl
  rw [hrelease]
  refine ⟨fun m => ?_, ?_, .inl ⟨rfl, rfl, hlist⟩, fun n hn => update_of_ne hn _ _⟩
  · exact IntrState.find_modifyDesc_some clearFlags_intno hfind m
  · simp [clearFlags, hlist]

end

end ReleaseCases

theorem release_spec (hs : Placed s) (hk : s.handles k = some h) : ∃ d D, s.findDescForInt h.intno =
    some d ∧
      Released s (s.release k h) h d D := by
  rcases hs.placed k h hk with hon | hon
  · obtain ⟨d, hfind, hshared, -⟩ := hon.desc
    have hnonshared : d.nonshared = false := by
      by_contra hnot
      rw [(hs.flags _ d hfind).1 (by simpa using hnot)] at hshared
      cases hshared
    by_cases hempty : (removeShared h d).sharedVecInfo.isEmpty = true
    · exact ⟨d, _, hfind, release_last k hfind hshared (List.isEmpty_iff.1 hempty)⟩
    · rw [Bool.not_eq_true] at hempty
      exact ⟨d, _, hfind, release_node k hfind hshared hnonshared hempty⟩
  · obtain ⟨d, hfind, hnonshared, -⟩ := hon.desc
    obtain ⟨hshared, hlist⟩ := hs.flags _ d hfind
    exact ⟨d, _, hfind, release_alone k hfind (hshared hnonshared) hnonshared
      (hlist (hshared hnonshared))⟩

theorem release_handles (s : IntrState) (k : Nat) (h : Handle) :
    (s.release k h).handles = update s.handles k none ∧
    (s.release k h).matrix = s.matrix ∧ (s.release k h).intenable = s.intenable ∧
    (s.release k h).next = s.next := by
  unfold IntrState.release
  dsimp only
  split_ifs <;> exact ⟨rfl, rfl, rfl, rfl⟩

theorem id_ne_of_mem_eraseP {l : List SharedVectorDesc} (hnodup : (l.map (·.id)).Nodup) {k : Nat}
    {v : SharedVectorDesc} (hv : v ∈ l.eraseP (·.id = k)) : v.id ≠ k := by
  induction l with
  | nil => simp at hv
  | cons w l ih =>
    rw [List.map_cons, List.nodup_cons] at hnodup
    by_cases hw : w.id = k
    · rw [List.eraseP_cons_of_pos (by simpa using hw)] at hv
      intro hvk
      exact hnodup.1 (List.mem_map.2 ⟨v, hv, hvk.trans hw.symm⟩)
    · rw [List.eraseP_cons_of_neg (by simpa using hw)] at hv
      rcases List.mem_cons.1 hv with rfl | hv
      · exact hw
      · exact ih hnodup.2 hv

section Release

variable {s : IntrState} {k : Nat} {hd : Handle} {d D : VectorDesc}

theorem release_offLine (hk : s.handles k = some hd) (hrel : Released s (s.release k hd) hd d D) :
    OffLine hd.intno s (s.release k hd) := by
  obtain ⟨hhandles, -, hen, -⟩ := release_handles s k hd
  refine ⟨fun m hm => ?_, hrel.table, fun m _ => by rw [hen], ?_⟩
  · rw [hrel.find, if_neg hm]
  · rw [hhandles]
    refine update_off (fun h' hk' => ?_) fun h' hx => ?_
    · rw [hk] at hk'
      rw [Option.some.inj hk']
    · cases hx

theorem release_handle (hk' : (s.release k hd).handles k' = some h') :
    k' ≠ k ∧ s.handles k' = some h' := by
  rw [(release_handles s k hd).1] at hk'
  by_cases hkk : k' = k
  · rw [hkk, update_self] at hk'
    cases hk'
  · rw [update_of_ne hkk] at hk'
    exact ⟨hkk, hk'⟩

theorem Placed.release_stay (h : Placed s) (hk : s.handles k = some hd)
    (hfind : s.findDescForInt hd.intno = some d)
    (hrel : Released s (s.release k hd) hd d D) {v : SharedVectorDesc}
    (hv : v ∈ D.sharedVecInfo) : v ∈ d.sharedVecInfo ∧ v.id ≠ k := by
  rw [hrel.list] at hv
  have hmem := List.mem_of_mem_eraseP hv
  refine ⟨hmem, ?_⟩
  rcases h.placed k hd hk with hon | hon
  · simp only [hon.node, Option.some.injEq] at hv
    exact id_ne_of_mem_eraseP (h.nodup _ d hfind) hv
  · intro hvk
    have hnode := (h.node_iff hk hfind hmem).2 hvk
    rw [hon.node] at hnode
    cases hnode

theorem Placed.release_sharer (h : Placed s) (hk : s.handles k = some hd)
    (hfind : s.findDescForInt hd.intno = some d) (hrel : Released s (s.release k hd) hd d D)
    (hk' : s.handles k' = some h') (hne : k' ≠ k) (hintno : h'.intno = hd.intno) :
    OnShared (s.release k hd) k' h' := by
  have hon := h.sharer hk hk' hne hintno
  obtain ⟨d', hfind', -, hmem⟩ := hon.desc
  rw [hintno, hfind] at hfind'
  cases hfind'
  have hmemD : (⟨k', h'.disabled, h'.source, h'.isr, h'.arg⟩ : SharedVectorDesc) ∈ D.sharedVecInfo := by
    rw [hrel.list]
    refine (List.mem_eraseP_of_neg ?_).2 hmem
    rw [decide_eq_true_eq]
    exact fun heq => hne ((h.node_iff hk hfind hmem).1 heq)
  rcases hrel.flags with ⟨-, -, hlist⟩ | ⟨hshared, -, htable⟩
  · rw [hlist] at hmemD
    exact absurd hmemD List.not_mem_nil
  · refine ⟨⟨D, by rw [hrel.find, if_pos hintno], hshared, hmemD⟩, ?_, hon.node⟩
    rw [hintno, htable, ← hintno]
    exact hon.vector

theorem Released.flags_fit (hrel : Released s s' h d D) :
    (D.nonshared = true → D.shared = false) ∧ (D.shared = false → D.sharedVecInfo = []) := by
  rcases hrel.flags with ⟨hshared, -, hlist⟩ | ⟨hshared, hnon, -⟩
  · exact ⟨fun _ => hshared, fun _ => hlist⟩
  · exact ⟨fun hbad => by simp [hnon] at hbad, fun hbad => by simp [hshared] at hbad⟩

theorem Placed.release (h : Placed s) (hk : s.handles k = some hd) : Placed (s.release k hd) := by
  obtain ⟨d, D, hfind, hrel⟩ := release_spec h hk
  obtain ⟨hhandles, -, hen, hnext⟩ := release_handles s k hd
  refine h.of_line (d := D) (release_offLine hk hrel) (fun k' hk' => ?_)
    ⟨by rw [hrel.find, if_pos rfl], hrel.flags_fit, fun v hv => ?_, ?_,
      fun k' h' hk' hintno => ?_, fun k' h' hk' _ => ?_⟩
  · rw [hnext] at hk'
    have hlt := h.lt_next hk
    rw [hhandles, update_of_ne (by omega)]
    exact h.fresh k' hk'
  · obtain ⟨hmem, hid⟩ := h.release_stay hk hfind hrel hv
    obtain ⟨h', hk', hrest⟩ := h.nodes _ d hfind v hmem
    exact ⟨h', by rw [hhandles, update_of_ne hid]; exact hk', hrest⟩
  · rw [hrel.list]
    exact (h.nodup _ d hfind).sublist (List.eraseP_sublist.map _)
  · obtain ⟨hne, hk'⟩ := release_handle hk'
    exact .inl (h.release_sharer hk hfind hrel hk' hne hintno)
  · rw [hen]
    exact h.line k' h' (release_handle hk').2

end Release

end EspIdf.IntrAlloc
