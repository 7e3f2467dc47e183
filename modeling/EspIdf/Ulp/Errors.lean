import EspIdf.Ulp.Macros

/-! The errors of `ulp_process_macros_and_load`.  Relocations are walked in the order of their
labels, so the error returned is that of the smallest label with one.  The walk has to start with a
label: a branch to an undefined smallest label fails an assertion instead. -/

namespace EspIdf.Ulp

open EspIdf.Device

/-- A `B` or a `BX` to an immediate address. -/
def IsBranch (x : Insn) : Prop :=
  x.opcode = opcodeBranch ∧
    (x.branchSubOpcode = subOpcodeB ∨ x.branchSubOpcode = subOpcodeBx ∧ x.bxReg = 0)

/-- Each branch macro stands directly before a branch, and the last instruction is not a macro. -/
def WellPlaced : List Insn → Prop
  | [] => True
  | x :: xs => (isMacro x → xs ≠ [] ∧
      (relocType x = some .branch → ∃ y ∈ xs.head?, IsBranch y)) ∧ WellPlaced xs

instance : DecidablePred IsBranch := fun _ => inferInstanceAs (Decidable (_ ∧ _))

instance WellPlaced.decidable : DecidablePred WellPlaced
  | [] => inferInstanceAs (Decidable True)
  | _ :: xs => @instDecidableAnd _ _ inferInstance (WellPlaced.decidable xs)

/-- The macros are labels and branches. -/
def KnownMacros (program : List Insn) : Prop := ∀ x ∈ program, isMacro x → relocType x ≠ none

/-- The error of a label of the program. -/
def LabelError (program : List Insn) (label : Nat) : EspErr → Prop
  | .ulpUndefinedLabel => labelCount label program = 0 ∧ ∃ r, MacroBefore .branch label program r
  | .ulpDuplicateLabel => 2 ≤ labelCount label program
  | .ulpBranchOutOfRange => labelCount label program = 1 ∧ ∃ r target,
      MacroBefore .branch label program r ∧ MacroBefore .label label program target ∧
      ((realInsns program).getD r 0).branchSubOpcode = subOpcodeB ∧
        127 < ((target : Int) - r).natAbs
  | _ => False

/-- The result is the error of the smallest label with an error, or none has one. -/
def Outcome (error : Nat → EspErr → Prop) (rc : EspErr) : Prop :=
  (rc = .ok ∧ ∀ label e, ¬ error label e) ∨ ∃ label, error label rc ∧ ∀ l < label, ∀ e, ¬ error l e

/-- An undefined label is not the smallest one of the macros. -/
def FirstDefined (program : List Insn) : Prop :=
  ∀ label, LabelError program label .ulpUndefinedLabel →
    ∃ l < label, ∃ type r, MacroBefore type l program r

/-- The result is that of the smallest label with an error, and says that a label is undefined
exactly if one is. -/
def Reported (program : List Insn) (rc : EspErr) : Prop :=
  Outcome (LabelError program) rc ∧
    (rc = .ulpUndefinedLabel ↔ ∃ label, LabelError program label .ulpUndefinedLabel)

/-- If a label is undefined, then one that no smaller label with an error comes before. -/
def UndefinedFirst (program : List Insn) : Prop :=
  (∃ label, LabelError program label .ulpUndefinedLabel) →
    ∃ label, LabelError program label .ulpUndefinedLabel ∧ ∀ l < label, ∀ e,
      ¬ LabelError program l e

/-- An error before the macros are looked at. -/
def LoadError (memEnd : Nat) (memOk : Bool) (loadAddr : Nat) (program : List Insn) : EspErr → Prop
  | .ulpInvalidLoadAddr => memEnd < loadAddr
  | .ulpSizeTooBig => loadAddr ≤ memEnd ∧ memEnd < loadAddr + (realInsns program).length
  | .noMem => loadAddr + (realInsns program).length ≤ memEnd ∧ program.countP isMacro ≠ 0 ∧
      memOk = false
  | _ => False

/-! ### Relocations of one label -/

/-- The error of a label by its relocations `g`; `sub` gives the sub-opcodes of the instructions. -/
def GroupError (sub : Nat → Nat) (g : List RelocInfo) : EspErr → Prop
  | .ulpUndefinedLabel => g ≠ [] ∧ g.countP (·.type = .label) = 0
  | .ulpDuplicateLabel => 2 ≤ g.countP (·.type = .label)
  | .ulpBranchOutOfRange => g.countP (·.type = .label) = 1 ∧ ∃ c ∈ g, ∃ l ∈ g,
      c.type = .branch ∧ l.type = .label ∧ sub c.addr = subOpcodeB ∧
        127 < ((l.addr : Int) - c.addr).natAbs
  | _ => False

def group (label : Nat) (relocs : List RelocInfo) : List RelocInfo :=
  relocs.filter (·.label = label)

def RelocError (sub : Nat → Nat) (relocs : List RelocInfo) (label : Nat) : EspErr → Prop :=
  GroupError sub (group label relocs)

section Groups

variable {sub : Nat → Nat} {l c : RelocInfo} {rest : List RelocInfo} {label : Nat} {e : EspErr}

theorem Outcome.congr (h : Outcome error rc) (hiff : ∀ label e, error label e ↔ error' label e) :
    Outcome error' rc := by
  obtain rfl : error = error' := funext fun label => funext fun e => propext (hiff label e)
  exact h

theorem LabelError.unique {program : List Insn} {e' : EspErr} (h : LabelError program label e)
    (h' : LabelError program label e') : e = e' := by
  cases e <;> cases e' <;> simp only [LabelError] at h h' <;> first | rfl | omega

theorem Outcome.reported_iff {program : List Insn} (h : Outcome (LabelError program) rc) :
    Reported program rc ↔ UndefinedFirst program := by
  rw [Reported, and_iff_right h, UndefinedFirst]
  rcases h with ⟨rfl, hnone⟩ | ⟨first, hrc, hleast⟩
  · exact iff_of_true (iff_of_false (by decide) fun ⟨label, hlabel⟩ => hnone label _ hlabel)
      fun ⟨label, hlabel⟩ => absurd hlabel (hnone label _)
  constructor
  · intro hiff hundef
    exact ⟨first, hiff.mpr hundef ▸ hrc, hleast⟩
  · refine fun hfirst => ⟨fun heq => ⟨first, heq ▸ hrc⟩, fun hundef => ?_⟩
    obtain ⟨label, hlabel, hbefore⟩ := hfirst hundef
    -- both are the smallest label with an error
    have hsame : label = first := by
      rcases Nat.lt_trichotomy label first with hlt | heq | hgt
      · exact absurd hlabel (hleast label hlt _)
      · exact heq
      · exact absurd hrc (hbefore first hgt _)
    exact hrc.unique (hsame ▸ hlabel)

theorem not_groupError_nil : ¬ GroupError sub [] e := by
  cases e <;> simp [GroupError]

theorem not_groupError_label (hl : l.type = .label) : ¬ GroupError sub [l] e := by
  cases e <;> simp [GroupError, hl]

section

variable (h : (c :: rest).Pairwise (relocLe · ·))
include h

theorem sorted_cons : ∀ d ∈ c :: rest,
    c.label < d.label ∨ c.label = d.label ∧ (c.type = .branch → d.type = .branch) := by
  intro d hd
  rcases List.mem_cons.mp hd with rfl | hd
  · exact .inr ⟨rfl, id⟩
  · have hle := (List.pairwise_cons.mp h).1 d hd
    simp only [relocLe, decide_eq_true_eq] at hle
    refine hle.imp id fun hsame => ⟨hsame.1, fun hbranch => ?_⟩
    simpa [hbranch] using hsame.2

theorem group_of_lt (hlt : label < c.label) :
    group label (c :: rest) = [] := by
  rw [group, List.filter_eq_nil_iff]
  intro d hd
  have := sorted_cons h d hd
  simp only [decide_eq_true_eq]
  omega

theorem not_relocError_lt (hlt : label < c.label) :
    ¬ RelocError sub (c :: rest) label e := by
  rw [RelocError, group_of_lt h hlt]
  exact not_groupError_nil

theorem countP_group_branch (hc : c.type = .branch) :
    (group c.label (c :: rest)).countP (·.type = .label) = 0 := by
  rw [List.countP_eq_zero]
  intro d hd
  obtain ⟨hd, hlabel⟩ := List.mem_filter.mp hd
  rcases sorted_cons h d hd with hlt | ⟨-, htype⟩
  · simp only [decide_eq_true_eq] at hlabel
    omega
  · simp [htype hc]

end

theorem group_cons_self : group l.label (l :: rest) = l :: group l.label rest :=
  List.filter_cons_of_pos (by simp)

theorem group_cons_ne (h : l.label ≠ label) : group label (l :: rest) = group label rest :=
  List.filter_cons_of_neg (by simpa using h)

theorem error_drop_label (h : (l :: c :: rest).Pairwise (relocLe · ·)) (hl : l.type = .label)
    (hne : c.label ≠ l.label) : RelocError sub (l :: c :: rest) label e ↔
    RelocError sub (c :: rest) label e := by
  rw [RelocError, RelocError]
  have htail := (List.pairwise_cons.mp h).2
  have hlt : l.label < c.label := by
    rcases sorted_cons h c (List.mem_cons_of_mem _ List.mem_cons_self) with hlt | ⟨heq, -⟩
    · exact hlt
    · exact absurd heq.symm hne
  by_cases hlabel : l.label = label
  · subst hlabel
    rw [group_cons_self, group_of_lt htail hlt]
    exact iff_of_false (not_groupError_label hl) not_groupError_nil
  · rw [group_cons_ne hlabel]

theorem error_drop_branch (hl : l.type = .label) (hc : c.type = .branch) (hsame : c.label = l.label)
    (hrange : sub c.addr = subOpcodeB → ((l.addr : Int) - c.addr).natAbs ≤ 127) :
    RelocError sub (l :: c :: rest) label e ↔ RelocError sub (l :: rest) label e := by
  rw [RelocError, RelocError]
  by_cases hlabel : l.label = label
  · subst hlabel
    have hskip : group l.label (c :: rest) = c :: group l.label rest := hsame ▸ group_cons_self
    rw [group_cons_self, group_cons_self, hskip]
    generalize group l.label rest = g
    cases e <;> simp only [GroupError, List.countP_cons, hl, hc, decide_true, decide_false, if_true,
      reduceCtorEq, if_false, Bool.false_eq_true, Nat.add_zero, ne_eq, not_false_eq_true, true_and]
    refine and_congr_right fun hcount => ⟨?_, ?_⟩
    · rintro ⟨d, hd, m, hm, hd', hm', hsub, hfar⟩
      have hnone : ∀ m ∈ g, m.type ≠ .label := by
        have hzero : g.countP (·.type = .label) = 0 := by omega
        simpa [List.countP_eq_zero] using hzero
      have hml : m = l := by
        rcases List.mem_cons.mp hm with hml | hm
        · exact hml
        · rcases List.mem_cons.mp hm with rfl | hm
          · simp [hc] at hm'
          · exact absurd hm' (hnone m hm)
      subst hml
      rcases List.mem_cons.mp hd with rfl | hd
      · simp [hm'] at hd'
      · rcases List.mem_cons.mp hd with rfl | hd
        · exact absurd (hrange hsub) (by omega)
        · exact ⟨d, List.mem_cons_of_mem _ hd, m, List.mem_cons_self, hd', hm', hsub, hfar⟩
    · have hmem : ∀ d ∈ l :: g, d ∈ l :: c :: g := fun d hd =>
        (List.mem_cons.mp hd).elim (fun h => h ▸ List.mem_cons_self) fun h =>
          List.mem_cons_of_mem _ (List.mem_cons_of_mem _ h)
      rintro ⟨d, hd, m, hm, hrest⟩
      exact ⟨d, hmem d hd, m, hmem m hm, hrest⟩
  · rw [group_cons_ne hlabel, group_cons_ne hlabel, group_cons_ne (hsame ▸ hlabel)]

end Groups

/-! ### The walk -/

section Walk

variable {sub : Nat → Nat} {l c : RelocInfo} {rest : List RelocInfo} {rtc : Nat → Insn}

theorem IsBranch.retarget {addr target : Nat} (h : IsBranch x) :
    IsBranch (retarget x addr target) := by
  have hsub := @branchSubOpcode_retarget x addr target
  obtain ⟨hop, hkind⟩ := h
  refine ⟨?_, ?_⟩
  · rw [← hop, retarget_eq]
    split_ifs
    · exact field_setField_ge (by decide)
    · exact field_setField_ge (by decide)
  · rw [hsub]
    refine hkind.imp id fun hbx => ⟨hbx.1, ?_⟩
    have hnot : x.branchSubOpcode ≠ subOpcodeB := by rw [hbx.1]; decide
    rw [← hbx.2, retarget_eq, if_neg hnot]
    exact field_setField_ge (by decide)

theorem doSingleReloc_branch (h : IsBranch (rtc c.addr)) :
    doSingleReloc rtc l c = if (rtc c.addr).branchSubOpcode = subOpcodeB ∧
        127 < ((l.addr : Int) - c.addr).natAbs then some (.ulpBranchOutOfRange, rtc)
      else some (.ok, Function.update rtc c.addr (retarget (rtc c.addr) c.addr l.addr)) := by
  obtain ⟨hop, hb | ⟨hbx, hreg⟩⟩ := h
  · simp only [doSingleReloc, hop, ne_eq, not_true_eq_false, if_false, hb, if_true, true_and,
      gt_iff_lt]
  · have hnot : subOpcodeBx ≠ subOpcodeB := by decide
    simp only [doSingleReloc, hop, ne_eq, not_true_eq_false, if_false, hbx, hnot, if_true, hreg,
      false_and]

theorem fixLoop_outcome (hl : l.type = .label) (hsorted : (l :: rest).Pairwise (relocLe · ·))
    (hsub : ∀ x, (rtc x).branchSubOpcode = sub x)
    (hbranch : ∀ d ∈ rest, d.type = .branch → IsBranch (rtc d.addr)) :
    ∃ rc rtc', fixLoop (some l) rest rtc = some (rc, rtc') ∧
      Outcome (RelocError sub (l :: rest)) rc := by
  induction rest generalizing l rtc with
  | nil =>
    refine ⟨.ok, rtc, rfl, .inl ⟨rfl, fun label e => ?_⟩⟩
    rw [RelocError]
    by_cases hlabel : l.label = label
    · subst hlabel
      rw [group_cons_self]
      exact not_groupError_label hl
    · rw [group_cons_ne hlabel]
      exact not_groupError_nil
  | cons c rest ih =>
    have htail := (List.pairwise_cons.mp hsorted).2
    have hskip : (l :: rest).Pairwise (relocLe · ·) :=
      hsorted.sublist (List.cons_sublist_cons.mpr (List.sublist_cons_self c rest))
    have hsmaller : ∀ label < l.label, ∀ e, ¬ RelocError sub (l :: c :: rest) label e :=
      fun label hlt e => not_relocError_lt hsorted hlt
    have hrest : ∀ d ∈ rest, d.type = .branch → IsBranch (rtc d.addr) := fun d hd =>
      hbranch d (List.mem_cons_of_mem _ hd)
    rw [fixLoop]
    cases hc : c.type with
    | label =>
      by_cases hdup : c.label = l.label
      · refine ⟨_, _, if_pos hdup, .inr ⟨l.label, ?_, hsmaller⟩⟩
        rw [RelocError, group_cons_self, ← hdup, group_cons_self]
        simp [GroupError, hl, hc]
      · obtain ⟨rc, rtc', heq, hout⟩ := ih hc htail hsub hrest
        rw [if_neg hdup]
        exact ⟨rc, rtc', heq, hout.congr fun label e => (error_drop_label hsorted hl hdup).symm⟩
    | branch =>
      have hzero := countP_group_branch htail hc
      by_cases hsame : c.label = l.label
      · rw [if_neg (not_not.mpr hsame), doSingleReloc_branch (hbranch c List.mem_cons_self hc),
          hsub]
        by_cases hfar : sub c.addr = subOpcodeB ∧ 127 < ((l.addr : Int) - c.addr).natAbs
        · rw [if_pos hfar]
          refine ⟨.ulpBranchOutOfRange, rtc, rfl, .inr ⟨l.label, ?_, hsmaller⟩⟩
          rw [RelocError, group_cons_self, ← hsame]
          refine ⟨by rw [List.countP_cons, hzero]; simp [hl], c,
            List.mem_cons_of_mem _ (by rw [group_cons_self]; exact List.mem_cons_self), l,
            List.mem_cons_self, hc, hl, hfar⟩
        · rw [if_neg hfar]
          have hsub' : ∀ x, (Function.update rtc c.addr (retarget (rtc c.addr) c.addr l.addr)
              x).branchSubOpcode = sub x := by
            intro x
            by_cases hx : x = c.addr
            · rw [hx, Function.update_self, branchSubOpcode_retarget, hsub]
            · rw [Function.update_of_ne hx, hsub]
          have hrest' : ∀ d ∈ rest, d.type = .branch →
              IsBranch (Function.update rtc c.addr
                (retarget (rtc c.addr) c.addr l.addr) d.addr) := by
            intro d hd hd'
            by_cases hx : d.addr = c.addr
            · rw [hx, Function.update_self]
              exact (hbranch c List.mem_cons_self hc).retarget
            · rw [Function.update_of_ne hx]
              exact hrest d hd hd'
          obtain ⟨rc, rtc', heq, hout⟩ := ih hl hskip hsub' hrest'
          exact ⟨rc, rtc', heq, hout.congr fun label e =>
            (error_drop_branch hl hc hsame fun hb => by omega).symm⟩
      · rw [if_pos hsame]
        refine ⟨_, _, rfl, .inr ⟨c.label, ?_, fun label hlt e => ?_⟩⟩
        · rw [RelocError, group_cons_ne (Ne.symm hsame)]
          exact ⟨by rw [group_cons_self]; simp, hzero⟩
        · rw [error_drop_label hsorted hl hsame]
          exact not_relocError_lt htail hlt

theorem fixLoop_none_iff (hsorted : relocs.Pairwise (relocLe · ·))
    (hbranch : ∀ d ∈ relocs, d.type = .branch → IsBranch (rtc d.addr)) :
    (∃ rc rtc', fixLoop none relocs rtc = some (rc, rtc') ∧
      Outcome (RelocError (fun x => (rtc x).branchSubOpcode) relocs) rc) ↔
      ∀ label, RelocError (fun x => (rtc x).branchSubOpcode) relocs label .ulpUndefinedLabel →
        ∃ d ∈ relocs, d.label < label := by
  rcases relocs with _ | ⟨c, rest⟩
  · exact iff_of_true ⟨.ok, rtc, rfl, .inl ⟨rfl, fun _ _ => not_groupError_nil⟩⟩
      fun _ herr => absurd herr not_groupError_nil
  rw [fixLoop]
  cases hc : c.type with
  | label =>
    refine iff_of_true ?_ fun label herr => ⟨c, List.mem_cons_self, ?_⟩
    · exact fixLoop_outcome hc hsorted (fun _ => rfl) fun d hd =>
        hbranch d (List.mem_cons_of_mem _ hd)
    · by_contra hnot
      rcases Nat.eq_or_lt_of_le (not_lt.mp hnot) with rfl | hlt
      · rw [RelocError, group_cons_self] at herr
        exact absurd herr.2 (by simp [hc])
      · exact not_relocError_lt hsorted hlt herr
  | branch =>
    refine iff_of_false (by rintro ⟨rc, rtc', h, -⟩; cases h) fun hsmaller => ?_
    obtain ⟨d, hd, hlt⟩ := hsmaller c.label
      ⟨by rw [group_cons_self]; simp, countP_group_branch hsorted hc⟩
    have := sorted_cons hsorted d hd
    omega

end Walk

/-! ### Programs -/

section Programs

variable {program out : List Insn} {relocs sorted : List RelocInfo} {a label : Nat}
  {type : RelocType}

theorem WellPlaced.collect (h : WellPlaced program) (hknown : KnownMacros program) :
    ∃ out relocs, Ulp.collect program a = some (out, relocs) := by
  induction program generalizing a with
  | nil => exact ⟨[], [], rfl⟩
  | cons x xs ih =>
    have hknown' : KnownMacros xs := fun y hy => hknown y (List.mem_cons_of_mem _ hy)
    cases hx : isMacro x with
    | true =>
      obtain ⟨hne, -⟩ := h.1 hx
      obtain ⟨type, htype⟩ := Option.ne_none_iff_exists'.mp (hknown x List.mem_cons_self hx)
      obtain ⟨out, relocs, heq⟩ := @ih a h.2 hknown'
      exact ⟨_, _, by rw [Ulp.collect, if_pos hx, htype]; simp only [Option.bind_eq_bind,
        Option.bind_some, if_neg hne, heq]; rfl⟩
    | false =>
      obtain ⟨out, relocs, heq⟩ := @ih (a + 1) h.2 hknown'
      exact ⟨_, _, by rw [Ulp.collect, if_neg (by simp [hx]), heq]; rfl⟩

theorem knownMacros_of_collect (h : collect program a = some (out, relocs)) :
    KnownMacros program := by
  induction program generalizing a out relocs with
  | nil => exact fun x hx => absurd hx List.not_mem_nil
  | cons x xs ih =>
    intro y hy hreloc
    cases hx : isMacro x with
    | true =>
      obtain ⟨type, rest, htype, -, hrest, -⟩ := collect_macro hx h
      rcases List.mem_cons.mp hy with rfl | hy
      · simp [htype]
      · exact ih hrest y hy hreloc
    | false =>
      obtain ⟨out', hrest, -⟩ := collect_real hx h
      rcases List.mem_cons.mp hy with rfl | hy
      · simp [hx] at hreloc
      · exact ih hrest y hy hreloc

theorem WellPlaced.isBranch (h : WellPlaced program)
    (hbefore : MacroBefore .branch label program r) : IsBranch ((realInsns program).getD r 0) := by
  induction program generalizing r with
  | nil => exact hbefore.elim
  | cons x xs ih =>
    rw [MacroBefore] at hbefore
    cases hx : isMacro x with
    | true =>
      rw [if_pos hx] at hbefore
      rw [realInsns, List.filter_cons_of_neg (by simp [hx])]
      rcases hbefore with ⟨htype, -, rfl⟩ | hbefore
      · obtain ⟨y, hy, hbranch⟩ := (h.1 hx).2 htype
        obtain ⟨ys, rfl⟩ := List.head?_eq_some_iff.mp hy
        have hnot : isMacro y = false := by
          rw [isMacro, hbranch.1]
          decide
        rw [List.filter_cons_of_pos (by simp [hnot])]
        exact hbranch
      · exact ih h.2 hbefore
    | false =>
      rw [if_neg (by simp [hx])] at hbefore
      obtain ⟨r', rfl, hbefore⟩ := hbefore
      rw [realInsns, List.filter_cons_of_pos (by simp [hx])]
      exact ih h.2 hbefore

theorem countP_group (hcollect : collect program a = some (out, relocs))
    (hperm : sorted.Perm relocs) :
    (group label sorted).countP (·.type = .label) = labelCount label program := by
  rw [← countP_collect hcollect, ← hperm.countP_eq, group, List.countP_filter]
  exact List.countP_congr fun c _ => by simp

theorem mem_sorted (hcollect : collect program a = some (out, relocs)) (hperm : sorted.Perm relocs)
    (hfits : a + (realInsns program).length ≤ 2 ^ 11) {c : RelocInfo} :
    c ∈ sorted ↔ ∃ r, MacroBefore c.type c.label program r ∧ c.addr = a + r := by
  rw [hperm.mem_iff, mem_collect hcollect]
  refine exists_congr fun r => and_congr_right fun hbefore => ?_
  rw [Nat.mod_eq_of_lt (by have := hbefore.lt hcollect; omega)]

theorem mem_group (hcollect : collect program a = some (out, relocs)) (hperm : sorted.Perm relocs)
    (hfits : a + (realInsns program).length ≤ 2 ^ 11) {c : RelocInfo} : c ∈ group label sorted ↔
      c.label = label ∧ ∃ r, MacroBefore c.type label program r ∧ c.addr = a + r := by
  rw [group, List.mem_filter, mem_sorted hcollect hperm hfits, decide_eq_true_eq, and_comm]
  refine and_congr_right fun hlabel => ?_
  rw [hlabel]

theorem relocError_iff {rtc : Nat → Insn} (hcollect : collect program a = some (out, relocs))
    (hperm : sorted.Perm relocs) (hfits : a + (realInsns program).length ≤ 2 ^ 11) (e : EspErr) :
    RelocError (fun x => (copyTo rtc a (realInsns program) x).branchSubOpcode) sorted label e ↔
      LabelError program label e := by
  have hcount := @countP_group program out relocs sorted a label hcollect hperm
  have hmem := fun c => @mem_group program out relocs sorted a label hcollect hperm hfits c
  unfold RelocError
  cases e <;> simp only [GroupError, LabelError, hcount]
  case ulpUndefinedLabel =>
    rw [and_comm]
    refine and_congr_right fun hzero => ⟨fun hne => ?_, fun ⟨r, hbefore⟩ hnil => ?_⟩
    · obtain ⟨c, hc⟩ := List.exists_mem_of_ne_nil _ hne
      have htype : c.type = .branch := by
        have := List.countP_eq_zero.mp (hcount.trans hzero) c hc
        cases hc : c.type <;> simp_all
      obtain ⟨-, r, hbefore, -⟩ := (hmem c).mp hc
      exact ⟨r, htype ▸ hbefore⟩
    · exact List.not_mem_nil (hnil ▸ (hmem ⟨label, a + r, .branch⟩).mpr ⟨rfl, r, hbefore, rfl⟩)
  case ulpBranchOutOfRange =>
    refine and_congr_right fun _ => ⟨?_, ?_⟩
    · rintro ⟨c, hc, l, hl, hbranch, hlabel, hsub, hfar⟩
      obtain ⟨-, r, hbefore, haddr⟩ := (hmem c).mp hc
      obtain ⟨-, target, htarget, haddr'⟩ := (hmem l).mp hl
      rw [hbranch] at hbefore
      rw [hlabel] at htarget
      rw [haddr, copyTo_at (hbefore.lt hcollect)] at hsub
      exact ⟨r, target, hbefore, htarget, hsub, by omega⟩
    · rintro ⟨r, target, hbefore, htarget, hsub, hfar⟩
      refine ⟨⟨label, a + r, .branch⟩, (hmem _).mpr ⟨rfl, r, hbefore, rfl⟩,
        ⟨label, a + target, .label⟩,
        (hmem _).mpr ⟨rfl, target, htarget, rfl⟩, rfl, rfl, ?_, ?_⟩
      · rw [copyTo_at (hbefore.lt hcollect), hsub]
      · simp only
        omega

theorem labelCount_eq_zero_of_no_macros (h : program.countP isMacro = 0) :
    labelCount label program = 0 := by
  rw [labelCount, List.countP_eq_zero]
  intro x hx
  simp [List.countP_eq_zero.mp h x hx]

theorem not_labelError_of_no_macros (h : program.countP isMacro = 0) (e : EspErr) :
    ¬ LabelError program label e := by
  have hno := fun type => (@no_macros program label type h).2
  cases e <;> simp [LabelError, labelCount_eq_zero_of_no_macros h, hno]

end Programs

section Load

variable {memEnd loadAddr : Nat} {qsort : List RelocInfo → List RelocInfo} {memOk : Bool}
  {rtc : Nat → Insn} {program : List Insn}

theorem fits_of_no_error (h : ∀ e, ¬ LoadError memEnd memOk loadAddr program e) :
    loadAddr ≤ memEnd ∧ loadAddr + (realInsns program).length ≤ memEnd := by
  have hload : ¬ memEnd < loadAddr := h .ulpInvalidLoadAddr
  have hbig : ¬ (loadAddr ≤ memEnd ∧ memEnd < loadAddr + (realInsns program).length) :=
    h .ulpSizeTooBig
  omega

theorem load_of_no_macros (h : ∀ e, ¬ LoadError memEnd memOk loadAddr program e)
    (hcount : program.countP isMacro = 0) :
    ulpProcessMacrosAndLoad memEnd qsort memOk rtc loadAddr program =
      some (.ok, copyTo rtc loadAddr program, program.length) := by
  have hlen := @length_realInsns program
  obtain ⟨hload, hfits⟩ := fits_of_no_error h
  unfold ulpProcessMacrosAndLoad
  rw [if_neg (by omega), if_neg (by omega), if_pos hcount]

theorem load_of_no_error (hmem : memEnd ≤ 8192 / 4)
    (h : ∀ e, ¬ LoadError memEnd memOk loadAddr program e) (hcount : program.countP isMacro ≠ 0) :
    ulpProcessMacrosAndLoad memEnd qsort memOk rtc loadAddr program =
      (collect program loadAddr).bind fun res =>
        (fixLoop none (qsort res.2) (copyTo rtc loadAddr res.1)).map fun fixed =>
          (fixed.1, fixed.2, if fixed.1 = .ok then program.length - program.countP isMacro
            else program.length) := by
  have hlen := @length_realInsns program
  obtain ⟨hload, hfits⟩ := fits_of_no_error h
  have hmemOk : memOk = true := by
    have : ¬ (_ ∧ _ ∧ memOk = false) := h .noMem
    simpa [hfits, hcount] using this
  unfold ulpProcessMacrosAndLoad
  rw [if_neg (by omega), if_neg (by omega), if_neg hcount, if_neg (by simp [hmemOk])]
  cases collect program loadAddr with
  | none => rfl
  | some res =>
    simp only [Option.bind_some]
    cases fixLoop none (qsort res.2) (copyTo rtc loadAddr res.1) <;> rfl

theorem load_of_error (hmem : memEnd ≤ 8192 / 4) (hsize : 4 * program.length ≤ 2 ^ 32)
    (h : LoadError memEnd memOk loadAddr program e) :
    ulpProcessMacrosAndLoad memEnd qsort memOk rtc loadAddr program =
      some (e, rtc, program.length) := by
  have hlen := @length_realInsns program
  unfold ulpProcessMacrosAndLoad
  cases e <;> simp only [LoadError] at h
  case ulpInvalidLoadAddr => rw [if_pos h]
  case ulpSizeTooBig => rw [if_neg (by omega), if_pos (by omega)]
  case noMem => rw [if_neg (by omega), if_neg (by omega), if_neg h.2.1, if_pos (by simp [h.2.2])]

theorem load_outcome_iff (hmem : memEnd ≤ 8192 / 4) (hsize : 4 * program.length ≤ 2 ^ 32)
    (hperm : ∀ l, (qsort l).Perm l) (hsorted : ∀ l, (qsort l).Pairwise (relocLe · ·))
    (hplaced : WellPlaced program) :
    (∃ rc rtc' psize, ulpProcessMacrosAndLoad memEnd qsort memOk rtc loadAddr program =
        some (rc, rtc', psize) ∧
      (LoadError memEnd memOk loadAddr program rc ∨
        (∀ e, ¬ LoadError memEnd memOk loadAddr program e) ∧ Outcome (LabelError program) rc)) ↔
      (∃ e, LoadError memEnd memOk loadAddr program e) ∨ KnownMacros program ∧
        FirstDefined program := by
  by_cases hearly : ∃ e, LoadError memEnd memOk loadAddr program e
  · obtain ⟨e, he⟩ := hearly
    exact iff_of_true ⟨e, rtc, _, load_of_error hmem hsize he, .inl he⟩ (.inl ⟨e, he⟩)
  have hno : ∀ e, ¬ LoadError memEnd memOk loadAddr program e := fun e he => hearly ⟨e, he⟩
  have hleft : ∀ rc, (LoadError memEnd memOk loadAddr program rc ∨
      (∀ e, ¬ LoadError memEnd memOk loadAddr program e) ∧ Outcome (LabelError program) rc) ↔
      Outcome (LabelError program) rc := fun rc => by simp [hno]
  simp only [hleft, hearly, false_or]
  by_cases hcount : program.countP isMacro = 0
  · have hnone := fun label => @not_labelError_of_no_macros program label hcount
    exact iff_of_true ⟨.ok, _, _, load_of_no_macros hno hcount, .inl ⟨rfl, hnone⟩⟩
      ⟨fun x hx hreloc => absurd hreloc (List.countP_eq_zero.mp hcount x hx), fun label herr =>
        absurd herr (hnone label _)⟩
  cases hcollect : collect program loadAddr with
  | none =>
    refine iff_of_false ?_ fun hcond => ?_
    · rintro ⟨rc, rtc', psize, h, -⟩
      rw [load_of_no_error hmem hno hcount, hcollect] at h
      cases h
    · obtain ⟨out, relocs, h⟩ := @WellPlaced.collect program loadAddr hplaced hcond.1
      rw [hcollect] at h
      cases h
  | some res =>
  obtain ⟨out, relocs⟩ := res
  rw [and_iff_right (knownMacros_of_collect hcollect)]
  obtain rfl := collect_out hcollect
  have hfits : loadAddr + (realInsns program).length ≤ 2 ^ 11 := (fits_of_no_error hno).2.trans hmem
  have herr := fun label => @relocError_iff program _ relocs
    (qsort relocs) loadAddr label rtc hcollect
    (hperm relocs) hfits
  have hreloc := fun c => @mem_sorted program _ relocs (qsort relocs) loadAddr hcollect
    (hperm relocs) hfits c
  have hbranch : ∀ d ∈ qsort relocs, d.type = .branch →
      IsBranch (copyTo rtc loadAddr (realInsns program) d.addr) := by
    intro d hd htype
    obtain ⟨r, hbefore, haddr⟩ := (hreloc d).mp hd
    rw [htype] at hbefore
    rw [haddr, copyTo_at (hbefore.lt hcollect)]
    exact hplaced.isBranch hbefore
  have hwalk := fixLoop_none_iff (hsorted relocs) hbranch
  have hload : ∀ P : EspErr → Prop, (∃ rc rtc' psize, ulpProcessMacrosAndLoad memEnd qsort memOk rtc
      loadAddr program = some (rc, rtc', psize) ∧ P rc) ↔ ∃ rc rtc', fixLoop none (qsort relocs)
        (copyTo rtc loadAddr (realInsns program)) = some (rc, rtc') ∧ P rc := by
    intro P
    rw [load_of_no_error hmem hno hcount, hcollect, Option.bind_some]
    cases fixLoop none (qsort relocs) (copyTo rtc loadAddr (realInsns program)) <;>
      simp [Prod.ext_iff]
  rw [hload]
  have hsame : RelocError (fun x => (copyTo rtc loadAddr (realInsns program) x).branchSubOpcode)
      (qsort relocs) = LabelError program :=
    funext fun label => funext fun e => propext (herr label e)
  rw [hsame] at hwalk
  rw [hwalk]
  refine forall_congr' fun label => imp_congr_right fun _ => ⟨?_, ?_⟩
  · rintro ⟨d, hd, hlt⟩
    obtain ⟨r, hbefore, -⟩ := (hreloc d).mp hd
    exact ⟨d.label, hlt, d.type, r, hbefore⟩
  · rintro ⟨l, hlt, type, r, hbefore⟩
    exact ⟨⟨l, loadAddr + r, type⟩, (hreloc _).mpr ⟨r, hbefore, rfl⟩, hlt⟩

/-- For a program with each branch macro before a branch and no macro at its end, the call reports
the errors of the labels in their order, an undefined label exactly if there is one, if it knows the
macros, an undefined label is not the smallest of the macros, and no error of a smaller label comes
before it.  Errors of the load address, the size and the memory come before. -/
theorem load_reports_errors_iff (hmem : memEnd ≤ 8192 / 4) (hsize : 4 * program.length ≤ 2 ^ 32)
    (hperm : ∀ l, (qsort l).Perm l) (hsorted : ∀ l, (qsort l).Pairwise (relocLe · ·))
    (hplaced : WellPlaced program) :
    (∃ rc rtc' psize, ulpProcessMacrosAndLoad memEnd qsort memOk rtc loadAddr program =
        some (rc, rtc', psize) ∧
      (LoadError memEnd memOk loadAddr program rc ∨
        (∀ e, ¬ LoadError memEnd memOk loadAddr program e) ∧ Reported program rc)) ↔
      (∃ e, LoadError memEnd memOk loadAddr program e) ∨
        KnownMacros program ∧ FirstDefined program ∧ UndefinedFirst program := by
  have houtcome := @load_outcome_iff memEnd loadAddr qsort memOk rtc program hmem hsize hperm
    hsorted hplaced
  by_cases hearly : ∃ e, LoadError memEnd memOk loadAddr program e
  · obtain ⟨e, he⟩ := hearly
    exact iff_of_true ⟨e, rtc, _, load_of_error hmem hsize he, .inl he⟩ (.inl ⟨e, he⟩)
  have hno : ∀ e, ¬ LoadError memEnd memOk loadAddr program e := fun e he => hearly ⟨e, he⟩
  have hdrop : ∀ (rc : EspErr) (P : Prop), (LoadError memEnd memOk loadAddr program rc ∨
      (∀ e, ¬ LoadError memEnd memOk loadAddr program e) ∧ P) ↔ P := fun rc P => by simp [hno]
  simp only [hdrop, hearly, false_or] at houtcome ⊢
  constructor
  · rintro ⟨rc, rtc', psize, hload, hreported⟩
    obtain ⟨hknown, hfirst⟩ := houtcome.mp ⟨rc, rtc', psize, hload, hreported.1⟩
    exact ⟨hknown, hfirst, hreported.1.reported_iff.mp hreported⟩
  · rintro ⟨hknown, hfirst, hundefined⟩
    obtain ⟨rc, rtc', psize, hload, hout⟩ := houtcome.mpr ⟨hknown, hfirst⟩
    exact ⟨rc, rtc', psize, hload, hout.reported_iff.mpr hundefined⟩

/-- `M_BX(1)` with a label 1 on the jump itself, and a jump to label 2. -/
def jumpNowhere : List Insn := [0xf0000001, 0xf1000001, 0x80000000, 0xf1000002, 0x80000000]

theorem load_reports_errors_jumpNowhere :
    (∃ rc rtc' psize, ulpProcessMacrosAndLoad 128 sortRelocs true (fun _ => 0) 5 jumpNowhere =
        some (rc, rtc', psize) ∧
      (LoadError 128 true 5 jumpNowhere rc ∨
        (∀ e, ¬ LoadError 128 true 5 jumpNowhere e) ∧ Reported jumpNowhere rc)) ↔
      (∃ e, LoadError 128 true 5 jumpNowhere e) ∨
        KnownMacros jumpNowhere ∧ FirstDefined jumpNowhere ∧ UndefinedFirst jumpNowhere :=
  @load_reports_errors_iff 128 5 sortRelocs true (fun _ => 0) jumpNowhere (by decide) (by decide)
    sortRelocs_perm sortRelocs_pairwise (by decide)

theorem undefined_label_asserts : (∀ e, ¬ LoadError 128 true 5 [0xf1000001, 0x80000000] e) ∧
      WellPlaced [0xf1000001, 0x80000000] ∧
      LabelError [0xf1000001, 0x80000000] 1 .ulpUndefinedLabel ∧
      ulpProcessMacrosAndLoad 128 sortRelocs true (fun _ => 0) 5 [0xf1000001, 0x80000000] =
        none := by
  refine ⟨fun e => ?_, by decide, ⟨by decide, 0, .inl ⟨by decide, by decide, rfl⟩⟩, by decide +kernel⟩
  cases e <;> simp only [LoadError, not_false_eq_true] <;> decide

end Load

end EspIdf.Ulp
