import EspIdf.Device.BitField
import EspIdf.EspErr
import Mathlib.Data.List.Sort

/-! Loading a program for the ULP coprocessor: `ulp_process_macros_and_load` of `ulp_macro.c` takes
the macros for labels and branches out of the program and gives each branch the address of its
label.  RTC memory is a function from word addresses to words. -/

namespace EspIdf.Ulp

open EspIdf.Device

/-! ### Instructions -/

abbrev Insn := Nat

namespace Insn

def opcode (x : Insn) : Nat := field 28 4 x

def macroSubOpcode (x : Insn) : Nat := field 24 4 x

def macroLabel (x : Insn) : Nat := field 0 16 x

def branchSubOpcode (x : Insn) : Nat := field 25 3 x

def bOffset (x : Insn) : Nat := field 17 7 x

def bSign (x : Insn) : Nat := field 24 1 x

def bxAddr (x : Insn) : Nat := field 2 11 x

def bxReg (x : Insn) : Nat := field 21 1 x

end Insn

def opcodeBranch : Nat := 8

def opcodeMacro : Nat := 15

def subOpcodeBx : Nat := 0

def subOpcodeB : Nat := 1

def subOpcodeMacroLabel : Nat := 0

def subOpcodeMacroBranch : Nat := 1

def isMacro (x : Insn) : Bool := x.opcode = opcodeMacro

/-! ### Relocations -/

inductive RelocType where
  | label
  | branch
  deriving DecidableEq, Repr

structure RelocInfo where
  label : Nat
  addr : Nat
  type : RelocType
  deriving DecidableEq, Repr

/-- `reloc_sort_func` is not positive. -/
def relocLe (a b : RelocInfo) : Bool :=
  a.label < b.label ∨ a.label = b.label ∧ (a.type = .label ∨ b.type = .branch)

/-- The type of a macro by its sub-opcode; `none` is the failed assertion. -/
def relocType (x : Insn) : Option RelocType :=
  if x.macroSubOpcode = subOpcodeMacroLabel then some .label
  else if x.macroSubOpcode = subOpcodeMacroBranch then some .branch
  else none

/-- Step 2: the instructions without the macros, and the macros with the address of the instruction
after them.  `none` is a failed assertion. -/
def collect : List Insn → Nat → Option (List Insn × List RelocInfo)
  | [], _ => some ([], [])
  | x :: xs, curInsnAddr =>
    if isMacro x then do
      let type ← relocType x
      if xs = [] then none
      else do
        let (out, relocs) ← collect xs curInsnAddr
        some (out, ⟨x.macroLabel, curInsnAddr % 2 ^ 11, type⟩ :: relocs)
    else do
      let (out, relocs) ← collect xs (curInsnAddr + 1)
      some (x :: out, relocs)

def retarget (x : Insn) (addr target : Nat) : Insn :=
  if x.branchSubOpcode = subOpcodeB then
    setField 24 1 (if target ≥ addr then 0 else 1)
      (setField 17 7 ((target : Int) - addr).natAbs x)
  else setField 2 11 target x

/-- `none` is a failed assertion. -/
def doSingleReloc (rtc : Nat → Insn) (labelInfo branchInfo : RelocInfo) :
    Option (EspErr × (Nat → Insn)) :=
  let insn := rtc branchInfo.addr
  if insn.opcode ≠ opcodeBranch then none
  else if insn.branchSubOpcode = subOpcodeB then
    if ((labelInfo.addr : Int) - branchInfo.addr).natAbs > 127 then some (.ulpBranchOutOfRange, rtc)
    else some (.ok, Function.update rtc branchInfo.addr
      (retarget insn branchInfo.addr labelInfo.addr))
  else if insn.branchSubOpcode = subOpcodeBx then
    if insn.bxReg ≠ 0 then none
    else some (.ok, Function.update rtc branchInfo.addr
      (retarget insn branchInfo.addr labelInfo.addr))
  else none

def fixLoop : Option RelocInfo → List RelocInfo → (Nat → Insn) → Option (EspErr × (Nat → Insn))
  | _, [], rtc => some (.ok, rtc)
  | none, cur :: rest, rtc => if cur.type = .label then fixLoop (some cur) rest rtc else none
  | some labelInfo, cur :: rest, rtc =>
    if cur.type = .label then
      if cur.label = labelInfo.label then some (.ulpDuplicateLabel, rtc)
      else fixLoop (some cur) rest rtc
    else if cur.label ≠ labelInfo.label then some (.ulpUndefinedLabel, rtc)
    else
      match doSingleReloc rtc labelInfo cur with
      | none => none
      | some (rc, rtc) => if rc ≠ .ok then some (rc, rtc) else fixLoop (some labelInfo) rest rtc

def copyTo (rtc : Nat → Insn) (a : Nat) (out : List Insn) : Nat → Insn :=
  fun x => if a ≤ x ∧ x < a + out.length then out.getD (x - a) 0 else rtc x

/-- `ulp_process_macros_and_load` with `memEnd` words of reserved memory: the result, RTC memory and
`*psize`.  `memOk` says whether `malloc` succeeds, and `none` is a failed assertion. -/
def ulpProcessMacrosAndLoad (memEnd : Nat) (qsort : List RelocInfo → List RelocInfo) (memOk : Bool)
    (rtc : Nat → Insn) (loadAddr : Nat) (program : List Insn) :
    Option (EspErr × (Nat → Insn) × Nat) :=
  let macroCount := program.countP isMacro
  let realProgramSize := program.length - macroCount
  if loadAddr > memEnd then some (.ulpInvalidLoadAddr, rtc, program.length)
  else if (realProgramSize + loadAddr) % 2 ^ 32 > memEnd then
    some (.ulpSizeTooBig, rtc, program.length)
  else if macroCount = 0 then some (.ok, copyTo rtc loadAddr program, program.length)
  else if ¬ memOk then some (.noMem, rtc, program.length)
  else
    match collect program loadAddr with
    | none => none
    | some (out, relocs) =>
      match fixLoop none (qsort relocs) (copyTo rtc loadAddr out) with
      | none => none
      | some (rc, rtc) => some (rc, rtc, if rc = .ok then realProgramSize else program.length)

/-! ### What loading should do -/

def realInsns (program : List Insn) : List Insn := program.filter (¬ isMacro ·)

/-- A macro of the type for the label stands before real instruction `r`, with at most other macros
between them. -/
def MacroBefore (type : RelocType) (label : Nat) : List Insn → Nat → Prop
  | [], _ => False
  | x :: xs, r =>
    if isMacro x then (relocType x = some type ∧ x.macroLabel = label ∧ r = 0) ∨
      MacroBefore type label xs r
    else ∃ r', r = r' + 1 ∧ MacroBefore type label xs r'

def labelCount (label : Nat) (program : List Insn) : Nat :=
  program.countP fun x => isMacro x ∧ relocType x = some .label ∧ x.macroLabel = label

def Targets (x x' : Insn) (addr target : Nat) : Prop :=
  if x.branchSubOpcode = subOpcodeB then
    x'.bOffset = ((target : Int) - addr).natAbs ∧ ((target : Int) - addr).natAbs ≤ 127 ∧
      x'.bSign = (if target ≥ addr then 0 else 1) ∧ x' % 2 ^ 17 = x % 2 ^ 17 ∧
        x' / 2 ^ 25 = x / 2 ^ 25
  else x'.bxAddr = target ∧ x' % 2 ^ 2 = x % 2 ^ 2 ∧ x' / 2 ^ 13 = x / 2 ^ 13

structure Loaded (a : Nat) (program : List Insn) (rtc rtc' : Nat → Insn) (psize : Nat) : Prop where
  size : psize = (realInsns program).length
  outside : ∀ x, ¬ (a ≤ x ∧ x < a + (realInsns program).length) → rtc' x = rtc x
  plain : ∀ r < (realInsns program).length, (∀ label, ¬ MacroBefore .branch label program r) →
    rtc' (a + r) = (realInsns program).getD r 0
  branch : ∀ r label, MacroBefore .branch label program r → labelCount label program = 1 ∧
    ∃ target, MacroBefore .label label program target ∧
      Targets ((realInsns program).getD r 0) (rtc' (a + r)) (a + r) (a + target)

/-! ### Target fields -/

section Fields

variable {x x' : Insn} {addr target target' : Nat}

def relative (addr target : Nat) : Nat :=
  ((target : Int) - addr).natAbs % 2 ^ 7 + (if target ≥ addr then 0 else 1) % 2 ^ 1 * 2 ^ 7

theorem retarget_eq : retarget x addr target =
    if x.branchSubOpcode = subOpcodeB then setField 17 8 (relative addr target) x
    else setField 2 11 target x := by
  by_cases hb : x.branchSubOpcode = subOpcodeB
  · rw [retarget, if_pos hb, if_pos hb]
    exact @setField_adjacent 17 7 _ _ x 1
  · rw [retarget, if_neg hb, if_neg hb]

theorem branchSubOpcode_retarget : (retarget x addr target).branchSubOpcode =
    x.branchSubOpcode := by
  rw [retarget_eq]
  split_ifs
  · exact field_setField_ge (by decide)
  · exact field_setField_ge (by decide)

theorem retarget_retarget : retarget (retarget x addr target) addr target' =
    retarget x addr target' := by
  rw [retarget_eq, branchSubOpcode_retarget]
  rw [@retarget_eq x addr target, @retarget_eq x addr target']
  split_ifs
  · exact setField_setField
  · exact setField_setField

theorem targets_retarget (h11 : target < 2 ^ 11)
    (hrange : x.branchSubOpcode = subOpcodeB → ((target : Int) - addr).natAbs ≤ 127) :
    Targets x (retarget x addr target) addr target := by
  rw [Targets, retarget_eq]
  by_cases hb : x.branchSubOpcode = subOpcodeB
  · rw [if_pos hb, if_pos hb]
    have hle := hrange hb
    have hfield : field 17 8 (setField 17 8 (relative addr target) x) =
        relative addr target % 2 ^ 8 :=
      field_setField
    have hmod : setField 17 8 (relative addr target) x % 2 ^ 17 = x % 2 ^ 17 := setField_mod
    have hdiv : setField 17 8 (relative addr target) x / 2 ^ 25 = x / 2 ^ 25 := setField_div
    generalize setField 17 8 (relative addr target) x = y at hfield hmod hdiv
    rw [field, relative] at hfield
    refine ⟨?_, hle, ?_, hmod, hdiv⟩
    · rw [Insn.bOffset, field]
      split_ifs at hfield <;> omega
    · rw [Insn.bSign, field]
      split_ifs at hfield ⊢ <;> omega
  · rw [if_neg hb, if_neg hb]
    refine ⟨?_, setField_mod, setField_div⟩
    rw [Insn.bxAddr, field_setField, Nat.mod_eq_of_lt h11]

theorem targets_inj (h : Targets x x' addr target) (h' : Targets x x' addr target') :
    target = target' := by
  unfold Targets at h h'
  split_ifs at h h' <;> omega

end Fields

/-! ### Collecting the macros -/

section Collect

variable {program : List Insn} {relocs : List RelocInfo} {out : List Insn} {a label : Nat}
  {type : RelocType}

theorem collect_macro (hx : isMacro x = true) (h : collect (x :: xs) a = some (out, relocs)) :
    ∃ type rest, relocType x = some type ∧ xs ≠ [] ∧
      collect xs a = some (out, rest) ∧ relocs = ⟨x.macroLabel, a % 2 ^ 11, type⟩ :: rest := by
  rw [collect, if_pos hx] at h
  cases htype : relocType x with
  | none =>
    rw [htype] at h
    cases h
  | some type =>
    rw [htype] at h
    simp only [Option.bind_eq_bind, Option.bind_some] at h
    by_cases hxs : xs = []
    · rw [if_pos hxs] at h
      cases h
    · rw [if_neg hxs] at h
      obtain ⟨⟨out', rest⟩, hcollect, heq⟩ := Option.bind_eq_some_iff.mp h
      cases heq
      exact ⟨type, rest, rfl, hxs, hcollect, rfl⟩

theorem collect_real (hx : isMacro x = false) (h : collect (x :: xs) a = some (out, relocs)) :
    ∃ out', collect xs (a + 1) = some (out', relocs) ∧
      out = x :: out' := by
  rw [collect, if_neg (by simp [hx])] at h
  obtain ⟨⟨out', rest⟩, hcollect, heq⟩ := Option.bind_eq_some_iff.mp h
  cases heq
  exact ⟨out', hcollect, rfl⟩

section

variable (h : collect program a = some (out, relocs))
include h

theorem collect_out : out = realInsns program := by
  induction program generalizing a out relocs with
  | nil =>
    cases h
    rfl
  | cons x xs ih =>
    cases hx : isMacro x with
    | true =>
      obtain ⟨type, rest, -, -, hrest, -⟩ := collect_macro hx h
      rw [ih hrest, realInsns, realInsns, List.filter_cons_of_neg (by simp [hx])]
    | false =>
      obtain ⟨out', hrest, rfl⟩ := collect_real hx h
      rw [ih hrest, realInsns, realInsns, List.filter_cons_of_pos (by simp [hx])]

theorem collect_ne_nil (hne : program ≠ []) :
    realInsns program ≠ [] := by
  induction program generalizing relocs with
  | nil => exact absurd rfl hne
  | cons x xs ih =>
    cases hx : isMacro x with
    | true =>
      obtain ⟨type, rest, -, hxs, hrest, -⟩ := collect_macro hx h
      rw [realInsns, List.filter_cons_of_neg (by simp [hx])]
      exact ih hrest hxs
    | false =>
      rw [realInsns, List.filter_cons_of_pos (by simp [hx])]
      exact List.cons_ne_nil _ _

theorem MacroBefore.lt
    (hbefore : MacroBefore type label program r) : r < (realInsns program).length := by
  induction program generalizing a out relocs r with
  | nil => exact hbefore.elim
  | cons x xs ih =>
    rw [MacroBefore] at hbefore
    cases hx : isMacro x with
    | true =>
      obtain ⟨type, rest, -, hxs, hrest, -⟩ := collect_macro hx h
      rw [if_pos hx] at hbefore
      rw [realInsns, List.filter_cons_of_neg (by simp [hx])]
      rcases hbefore with ⟨-, -, rfl⟩ | hbefore
      · exact List.length_pos_iff.mpr (collect_ne_nil hrest hxs)
      · exact ih hrest hbefore
    | false =>
      obtain ⟨out', hrest, rfl⟩ := collect_real hx h
      rw [if_neg (by simp [hx])] at hbefore
      obtain ⟨r', rfl, hbefore⟩ := hbefore
      rw [realInsns, List.filter_cons_of_pos (by simp [hx])]
      exact Nat.succ_lt_succ (ih hrest hbefore)

theorem mem_collect (reloc : RelocInfo) :
    reloc ∈ relocs ↔ ∃ r, MacroBefore reloc.type reloc.label program r ∧
      reloc.addr = (a + r) % 2 ^ 11 := by
  induction program generalizing a out relocs with
  | nil =>
    cases h
    simp [MacroBefore]
  | cons x xs ih =>
    cases hx : isMacro x with
    | true =>
      obtain ⟨type, rest, htype, -, hrest, rfl⟩ := collect_macro hx h
      simp only [List.mem_cons, ih hrest, MacroBefore, if_pos hx]
      constructor
      · rintro (rfl | ⟨r, hbefore, haddr⟩)
        · exact ⟨0, .inl ⟨htype, rfl, rfl⟩, rfl⟩
        · exact ⟨r, .inr hbefore, haddr⟩
      · rintro ⟨r, ⟨hkind, hlabel, rfl⟩ | hbefore, haddr⟩
        · left
          cases reloc
          simp_all
        · exact .inr ⟨r, hbefore, haddr⟩
    | false =>
      obtain ⟨out', hrest, rfl⟩ := collect_real hx h
      simp only [ih hrest, MacroBefore, hx, Bool.false_eq_true, if_false]
      constructor
      · rintro ⟨r, hbefore, haddr⟩
        exact ⟨r + 1, ⟨r, rfl, hbefore⟩, by omega⟩
      · rintro ⟨r, ⟨r', rfl, hbefore⟩, haddr⟩
        exact ⟨r', hbefore, by omega⟩

theorem countP_collect (label : Nat) :
    relocs.countP (fun c => c.type = .label ∧ c.label = label) = labelCount label program := by
  unfold labelCount
  induction program generalizing a out relocs with
  | nil =>
    cases h
    rfl
  | cons x xs ih =>
    cases hx : isMacro x with
    | true =>
      obtain ⟨type, rest, htype, -, hrest, rfl⟩ := collect_macro hx h
      rw [List.countP_cons, List.countP_cons, ih hrest]
      simp [hx, htype]
    | false =>
      obtain ⟨out', hrest, rfl⟩ := collect_real hx h
      rw [ih hrest]
      simp [hx]

end

theorem length_realInsns : (realInsns program).length =
    program.length - program.countP isMacro := by
  have h := List.length_eq_countP_add_countP isMacro (l := program)
  rw [realInsns, ← List.countP_eq_length_filter]
  omega

theorem no_macros (h : program.countP isMacro = 0) :
    realInsns program = program ∧ ∀ r, ¬ MacroBefore type label program r := by
  induction program with
  | nil => exact ⟨rfl, fun _ => id⟩
  | cons x xs ih =>
    rw [List.countP_cons] at h
    have hx : isMacro x = false := by
      by_contra hx
      rw [if_pos (by simpa using hx)] at h
      omega
    obtain ⟨hreal, hno⟩ := ih (by omega)
    refine ⟨?_, fun r hbefore => ?_⟩
    · rw [realInsns, List.filter_cons_of_pos (by simp [hx])]
      exact congrArg (x :: ·) hreal
    · rw [MacroBefore, if_neg (by simp [hx])] at hbefore
      obtain ⟨r', -, hbefore⟩ := hbefore
      exact hno r' hbefore

end Collect

/-! ### Fixing the branches -/

def InRange (x : Insn) (addr target : Nat) : Prop :=
  x.branchSubOpcode = subOpcodeB → ((target : Int) - addr).natAbs ≤ 127

section Fix

variable {rtc rtc' : Nat → Insn} {labelInfo branchInfo : RelocInfo}

theorem doSingleReloc_ok (h : doSingleReloc rtc labelInfo branchInfo = some (.ok, rtc')) :
    InRange (rtc branchInfo.addr) branchInfo.addr labelInfo.addr ∧ rtc' =
      Function.update rtc branchInfo.addr
        (retarget (rtc branchInfo.addr) branchInfo.addr labelInfo.addr) := by
  unfold doSingleReloc at h
  simp only at h
  split_ifs at h with h1 h2 h3 h4 h5
  · simp at h
  · cases h
    exact ⟨fun _ => by omega, rfl⟩
  · cases h
    exact ⟨fun hb => absurd hb h2, rfl⟩

structure Fixed (labels branches : List RelocInfo) (rtc rtc' : Nat → Insn) : Prop where
  defined : ∀ c ∈ branches, c.type = .branch → ∃ l ∈ labels, l.type = .label ∧ l.label = c.label
  unique : ∀ label, labels.countP (fun c => c.type = .label ∧ c.label = label) ≤ 1
  other : ∀ x, (∀ c ∈ branches, c.type = .branch → c.addr ≠ x) → rtc' x = rtc x
  last : ∀ x, (∃ c ∈ branches, c.type = .branch ∧ c.addr = x) → ∃ c ∈ branches, ∃ l ∈ labels,
    c.type = .branch ∧ c.addr = x ∧ l.type = .label ∧ l.label = c.label ∧
      InRange (rtc x) x l.addr ∧ rtc' x = retarget (rtc x) x l.addr

theorem countP_of_lt (hsorted : (l :: c :: rest).Pairwise (relocLe · ·)) (hne : c.label ≠ l.label) :
    (c :: rest).countP (fun c => c.type = .label ∧ c.label = l.label) = 0 := by
  have hc := (List.pairwise_cons.mp hsorted).1 c List.mem_cons_self
  have hrest := (List.pairwise_cons.mp (List.pairwise_cons.mp hsorted).2).1
  rw [List.countP_eq_zero]
  intro d hd
  simp only [relocLe, decide_eq_true_eq] at hc hrest ⊢
  rintro ⟨-, hlabel⟩
  rcases List.mem_cons.mp hd with rfl | hd
  · exact hne hlabel
  · have := hrest d hd
    omega

theorem Fixed.label {c : RelocInfo} {labels labels' rest : List RelocInfo}
    (h : Fixed labels rest rtc rtc') (hlabel : c.type = .label) (hsub : labels ⊆ labels')
    (hunique : ∀ label, labels'.countP (fun c => c.type = .label ∧ c.label = label) ≤ 1) :
    Fixed labels' (c :: rest) rtc rtc' := by
  have hmem : ∀ d ∈ c :: rest, d.type = .branch → d ∈ rest := by
    intro d hd hbranch
    rcases List.mem_cons.mp hd with rfl | hd
    · rw [hlabel] at hbranch
      cases hbranch
    · exact hd
  refine ⟨fun d hd hbranch => ?_, hunique, fun x hx => ?_, ?_⟩
  · obtain ⟨l, hl, hdef⟩ := h.defined d (hmem d hd hbranch) hbranch
    exact ⟨l, hsub hl, hdef⟩
  · exact h.other x fun d hd => hx d (List.mem_cons_of_mem _ hd)
  · rintro x ⟨d, hd, hbranch, haddr⟩
    obtain ⟨e, he, l, hl, hlast⟩ := h.last x ⟨d, hmem d hd hbranch, hbranch, haddr⟩
    exact ⟨e, List.mem_cons_of_mem _ he, l, hsub hl, hlast⟩

theorem Fixed.branch (hbranch : c.type = .branch) (hlabel : l.type = .label)
    (hsame : l.label = c.label)
    (hrange : InRange (rtc c.addr) c.addr l.addr)
    (h : Fixed (l :: rest) rest (Function.update rtc c.addr (retarget (rtc c.addr) c.addr l.addr))
    rtc') :
    Fixed (l :: c :: rest) (c :: rest) rtc rtc' := by
  have hsub : l :: rest ⊆ l :: c :: rest :=
    List.cons_subset_cons l (List.subset_cons_self c rest)
  refine ⟨fun d hd hd' => ?_, fun label => ?_, fun x hx => ?_, fun x hx => ?_⟩
  · rcases List.mem_cons.mp hd with rfl | hd
    · exact ⟨l, List.mem_cons_self, hlabel, hsame⟩
    · obtain ⟨m, hm, hdef⟩ := h.defined d hd hd'
      exact ⟨m, hsub hm, hdef⟩
  · have hunique := h.unique label
    rw [List.countP_cons] at hunique ⊢
    rwa [List.countP_cons_of_neg (by simp [hbranch])]
  · have hne : c.addr ≠ x := hx c List.mem_cons_self hbranch
    rw [h.other x fun d hd => hx d (List.mem_cons_of_mem _ hd),
      Function.update_of_ne (Ne.symm hne)]
  · by_cases hlater : ∃ d ∈ rest, d.type = .branch ∧ d.addr = x
    · -- a later branch entry for the instruction overwrites the target
      obtain ⟨e, he, m, hm, he', haddr, hm', hem, hmrange, heq⟩ := h.last x hlater
      refine ⟨e, List.mem_cons_of_mem _ he, m, hsub hm, he', haddr, hm', hem, ?_⟩
      by_cases hcx : c.addr = x
      · subst hcx
        rw [Function.update_self] at hmrange heq
        rw [InRange, branchSubOpcode_retarget] at hmrange
        exact ⟨hmrange, heq.trans retarget_retarget⟩
      · rw [Function.update_of_ne (Ne.symm hcx)] at hmrange heq
        exact ⟨hmrange, heq⟩
    · obtain ⟨d, hd, hd', haddr⟩ := hx
      have hdc : d = c := by
        rcases List.mem_cons.mp hd with hdc | hd
        · exact hdc
        · exact absurd ⟨d, hd, hd', haddr⟩ hlater
      subst hdc haddr
      refine ⟨d, List.mem_cons_self, l, List.mem_cons_self, hbranch, rfl, hlabel, hsame, hrange, ?_⟩
      rw [h.other _ fun e he he' heq => hlater ⟨e, he, he', heq⟩, Function.update_self]

theorem fixLoop_fixed : ∀ {cur : Option RelocInfo} {rtc : Nat → Insn},
    (cur.toList ++ rest).Pairwise (relocLe · ·) → (∀ l, cur = some l → l.type = .label) →
    fixLoop cur rest rtc = some (.ok, rtc') → Fixed (cur.toList ++ rest) rest rtc rtc' := by
  induction rest with
  | nil =>
    intro cur rtc _ _ h
    cases h
    refine ⟨by simp, fun label => ?_, fun _ _ => rfl, by simp⟩
    refine List.countP_le_length.trans ?_
    cases cur <;> simp
  | cons c rest ih =>
    intro cur rtc hsorted hcur h
    cases cur with
    | none =>
      rw [fixLoop] at h
      split_ifs at h with hlabel
      have hfixed := @ih (some c) rtc hsorted (fun l hl => by cases hl; exact hlabel) h
      exact hfixed.label hlabel (List.Subset.refl _) hfixed.unique
    | some l =>
      have hl : l.type = .label := hcur l rfl
      rw [fixLoop] at h
      split_ifs at h with hlabel hdup hundef
      · simp at h
      · have htail := (List.pairwise_cons.mp hsorted).2
        have hfixed := @ih (some c) rtc htail (fun l hl => by cases hl; exact hlabel) h
        refine hfixed.label hlabel (List.subset_cons_self l _) fun label => ?_
        by_cases heq : l.label = label
        · subst heq
          have hzero := countP_of_lt hsorted hdup
          simp only [Option.toList_some, List.singleton_append] at hzero ⊢
          rw [List.countP_cons, hzero]
          split_ifs <;> omega
        · have hunique := hfixed.unique label
          simp only [Option.toList_some, List.singleton_append] at hunique ⊢
          rwa [List.countP_cons_of_neg (by simp [heq])]
      · simp at h
      · have hbranch : c.type = .branch := by
          cases htype : c.type with
          | label => exact absurd htype hlabel
          | branch => rfl
        have hsame : l.label = c.label := (not_not.mp hundef).symm
        cases hreloc : doSingleReloc rtc l c with
        | none => simp [hreloc] at h
        | some res =>
          obtain ⟨rc, rtc₁⟩ := res
          simp only [hreloc] at h
          split_ifs at h with hrc
          · cases h
            exact absurd rfl hrc
          · have hrc' : rc = .ok := not_not.mp hrc
            subst hrc'
            obtain ⟨hrange, rfl⟩ := doSingleReloc_ok hreloc
            have hskip : ((some l).toList ++ rest).Pairwise (relocLe · ·) :=
              hsorted.sublist (List.cons_sublist_cons.mpr (List.sublist_cons_self c rest))
            exact Fixed.branch hbranch hl hsame hrange (ih hskip hcur h)

end Fix

/-! ### Loading -/

section Load

variable {memEnd loadAddr psize : Nat} {qsort : List RelocInfo → List RelocInfo} {memOk : Bool}
  {rtc rtc' : Nat → Insn} {program : List Insn}

def SameTarget (program : List Insn) : Prop :=
  ∀ r l l' target target', MacroBefore .branch l program r → MacroBefore .branch l' program r →
    MacroBefore .label l program target → MacroBefore .label l' program target' → target = target'

theorem copyTo_at (hr : r < out.length) : copyTo rtc a out (a + r) = out.getD r 0 := by
  rw [copyTo, if_pos ⟨by omega, by omega⟩, Nat.add_sub_cancel_left]

structure Relocated (a : Nat) (program : List Insn) (rtc rtc' : Nat → Insn) : Prop where
  fits : a + (realInsns program).length ≤ 2 ^ 11
  lt : ∀ type label r, MacroBefore type label program r → r < (realInsns program).length
  unique : ∀ label target target', MacroBefore .label label program target →
    MacroBefore .label label program target' → target = target'
  defined : ∀ label r, MacroBefore .branch label program r → labelCount label program = 1 ∧
    ∃ target, MacroBefore .label label program target
  other : ∀ x, (∀ label r, MacroBefore .branch label program r → a + r ≠ x) →
    rtc' x = copyTo rtc a (realInsns program) x
  last : ∀ label r, MacroBefore .branch label program r → ∃ label' target,
    MacroBefore .branch label' program r ∧ MacroBefore .label label' program target ∧
      Targets ((realInsns program).getD r 0) (rtc' (a + r)) (a + r) (a + target)

theorem eq_of_countP_le_one {α : Type} {p : α → Bool} {l : List α} (h : l.countP p ≤ 1) {x y : α}
    (hx : x ∈ l) (hy : y ∈ l) (hpx : p x) (hpy : p y) : x = y := by
  rw [List.countP_eq_length_filter] at h
  have hx' := List.mem_filter.mpr ⟨hx, hpx⟩
  have hy' := List.mem_filter.mpr ⟨hy, hpy⟩
  match hfilter : l.filter p with
  | [] => simp [hfilter] at hx'
  | [z] =>
    rw [hfilter, List.mem_singleton] at hx' hy'
    rw [hx', hy']
  | _ :: _ :: _ =>
    rw [hfilter] at h
    simp at h

theorem Fixed.relocated {out : List Insn} {relocs sorted : List RelocInfo}
    (hcollect : collect program loadAddr = some (out, relocs)) (hperm : sorted.Perm relocs)
    (hfits : loadAddr + (realInsns program).length ≤ 2 ^ 11)
    (h : Fixed sorted sorted (copyTo rtc loadAddr out) rtc') :
    Relocated loadAddr program rtc rtc' := by
  have hout := collect_out hcollect
  subst hout
  have hlt : ∀ type label r, MacroBefore type label program r → r < (realInsns program).length :=
    fun _ _ _ hbefore => hbefore.lt hcollect
  have hmod : ∀ type label r, MacroBefore type label program r →
      (loadAddr + r) % 2 ^ 11 = loadAddr + r := by
    intro type label r hbefore
    have := hlt type label r hbefore
    exact Nat.mod_eq_of_lt (by omega)
  have hmem : ∀ c, c ∈ sorted ↔ ∃ r, MacroBefore c.type c.label program r ∧
      c.addr = loadAddr + r := by
    intro c
    rw [hperm.mem_iff, mem_collect hcollect]
    refine exists_congr fun r => and_congr_right fun hbefore => ?_
    rw [hmod _ _ _ hbefore]
  have hcount : ∀ label, labelCount label program ≤ 1 := by
    intro label
    rw [← countP_collect hcollect, ← hperm.countP_eq]
    exact h.unique label
  refine ⟨hfits, hlt, ?_, ?_, ?_, ?_⟩
  · intro label target target' htarget htarget'
    have heq := eq_of_countP_le_one (h.unique label)
      ((hmem ⟨label, loadAddr + target, .label⟩).mpr ⟨target, htarget, rfl⟩)
      ((hmem ⟨label, loadAddr + target', .label⟩).mpr ⟨target', htarget', rfl⟩) (by simp) (by simp)
    have := congrArg RelocInfo.addr heq
    simpa using this
  · intro label r hbefore
    obtain ⟨⟨l, addr, type⟩, hl, rfl, rfl⟩ := h.defined ⟨label, loadAddr + r, .branch⟩
      ((hmem _).mpr ⟨r, hbefore, rfl⟩) rfl
    obtain ⟨target, htarget, -⟩ := (hmem _).mp hl
    have hpos : 0 < labelCount l program := by
      rw [← countP_collect hcollect, ← hperm.countP_eq]
      exact List.countP_pos_iff.mpr ⟨_, hl, by simp⟩
    exact ⟨Nat.le_antisymm (hcount l) hpos, target, htarget⟩
  · intro x hx
    refine h.other x fun c hc hbranch haddr => ?_
    obtain ⟨r, hbefore, hr⟩ := (hmem c).mp hc
    rw [hbranch] at hbefore
    exact hx _ r hbefore (hr.symm.trans haddr)
  · intro label r hbefore
    obtain ⟨⟨l', addr, ctype⟩, hc, ⟨l, target, ltype⟩, hl, hbranch, haddr, hlabel, hsame,
        hrange, heq⟩ :=
      h.last (loadAddr + r) ⟨⟨label, loadAddr + r, .branch⟩, (hmem _).mpr ⟨r, hbefore, rfl⟩,
        rfl, rfl⟩
    simp only at hbranch haddr hlabel hsame hrange heq
    subst hbranch hlabel hsame haddr
    obtain ⟨r', hbefore', hr'⟩ := (hmem _).mp hc
    obtain ⟨t, ht, rfl⟩ := (hmem _).mp hl
    have hrr : r = r' := by
      simp only at hr'
      omega
    subst hrr
    have htlt := hlt _ _ _ ht
    rw [copyTo_at (hlt _ _ _ hbefore)] at hrange heq
    refine ⟨l, t, hbefore', ht, ?_⟩
    rw [heq]
    exact targets_retarget (by omega) hrange

theorem Relocated.loaded_iff (h : Relocated loadAddr program rtc rtc') :
    Loaded loadAddr program rtc rtc' (realInsns program).length ↔ SameTarget program := by
  constructor
  · intro hloaded r l l' target target' hb hb' ht ht'
    obtain ⟨-, t, hlt, htargets⟩ := hloaded.branch r l hb
    obtain ⟨-, t', hlt', htargets'⟩ := hloaded.branch r l' hb'
    rw [h.unique l _ _ hlt ht] at htargets
    rw [h.unique l' _ _ hlt' ht'] at htargets'
    have := targets_inj htargets htargets'
    omega
  · intro hsame
    refine ⟨rfl, fun x hx => ?_, fun r hr hplain => ?_, fun r label hbefore => ?_⟩
    · rw [h.other x fun label r hbefore hrx => hx ?_, copyTo, if_neg hx]
      have := h.lt _ _ _ hbefore
      omega
    · rw [h.other (loadAddr + r) fun label r' hbefore heq => hplain label ?_, copyTo_at hr]
      rwa [← Nat.add_left_cancel heq]
    · obtain ⟨hcount, target, htarget⟩ := h.defined label r hbefore
      obtain ⟨label', target', hbefore', htarget', htargets⟩ := h.last label r hbefore
      rw [hsame r label' label target' target hbefore' hbefore htarget' htarget] at htargets
      exact ⟨hcount, target, htarget, htargets⟩

theorem loaded_of_no_macros (h : program.countP isMacro = 0) :
    Loaded loadAddr program rtc (copyTo rtc loadAddr program) program.length ∧
      SameTarget program := by
  have hno := fun type label => @no_macros program label type h
  have hreal := (hno .label 0).1
  refine ⟨⟨by rw [hreal], fun x hx => ?_, fun r hr _ => ?_, fun r label hbefore => ?_⟩, ?_⟩
  · rw [hreal] at hx
    rw [copyTo, if_neg hx]
  · rw [hreal] at hr ⊢
    exact copyTo_at hr
  · exact absurd hbefore ((hno .branch label).2 r)
  · intro r l _ _ _ hbefore
    exact absurd hbefore ((hno .branch l).2 r)

/-- A program that is accepted is loaded as its macros say, exactly when no two branch macros give
one instruction different targets. -/
theorem loaded_iff_sameTarget (hmem : memEnd ≤ 8192 / 4) (hsize : 4 * program.length ≤ 2 ^ 32)
    (hperm : ∀ l, (qsort l).Perm l) (hsorted : ∀ l, (qsort l).Pairwise (relocLe · ·))
    (h : ulpProcessMacrosAndLoad memEnd qsort memOk rtc loadAddr program =
    some (.ok, rtc', psize)) :
    Loaded loadAddr program rtc rtc' psize ↔ SameTarget program := by
  unfold ulpProcessMacrosAndLoad at h
  simp only at h
  split_ifs at h with hload hbig hcount hmemOk
  · simp at h
  · simp at h
  · cases h
    have hloaded := @loaded_of_no_macros loadAddr rtc program hcount
    exact ⟨fun _ => hloaded.2, fun _ => hloaded.1⟩
  · cases hcollect : collect program loadAddr with
    | none => simp [hcollect] at h
    | some res =>
      obtain ⟨out, relocs⟩ := res
      simp only [hcollect] at h
      cases hfix : fixLoop none (qsort relocs) (copyTo rtc loadAddr out) with
      | none => simp [hfix] at h
      | some res =>
        obtain ⟨rc, rtc₁⟩ := res
        simp only [hfix, Option.some.injEq, Prod.mk.injEq] at h
        obtain ⟨rfl, rfl, hpsize⟩ := h
        subst hpsize
        have hlen := @length_realInsns program
        have hfits : loadAddr + (realInsns program).length ≤ 2 ^ 11 := by omega
        rw [← hlen]
        have hfixed := fixLoop_fixed (hsorted relocs) (fun _ hl => by cases hl) hfix
        exact (Fixed.relocated hcollect (hperm relocs) hfits hfixed).loaded_iff
  · simp at h

end Load

/-! ### Programs -/

instance : Std.Total fun a b => relocLe a b = true where
  total a b := by
    simp only [relocLe, decide_eq_true_eq]
    rcases a with ⟨l, _, _ | _⟩ <;> rcases b with ⟨l', _, _ | _⟩ <;> simp <;> omega

instance : IsTrans RelocInfo fun a b => relocLe a b = true where
  trans a b c := by
    simp only [relocLe, decide_eq_true_eq]
    rcases a with ⟨l, _, _ | _⟩ <;> rcases b with ⟨l', _, _ | _⟩ <;>
      rcases c with ⟨l'', _, _ | _⟩ <;>
      simp <;> omega

/-- One of the sorting functions that `qsort` may be. -/
def sortRelocs : List RelocInfo → List RelocInfo := List.insertionSort fun a b => relocLe a b = true

theorem sortRelocs_perm (l : List RelocInfo) : (sortRelocs l).Perm l := List.perm_insertionSort _ l

theorem sortRelocs_pairwise (l : List RelocInfo) : (sortRelocs l).Pairwise (relocLe · ·) :=
  List.pairwise_insertionSort _ l

/-- `M_LABEL(1)`, `I_HALT()`, `M_BX(1)`. -/
def jumpBack : List Insn := [0xf0000001, 0xb0000000, 0xf1000001, 0x80000000]

theorem loaded_iff_jumpBack : ∃ rtc', ulpProcessMacrosAndLoad 128 sortRelocs true
    (fun _ => 0) 5 jumpBack =
    some (.ok, rtc', 2) ∧ (Loaded 5 jumpBack (fun _ => 0) rtc' 2 ↔ SameTarget jumpBack) :=
  ⟨_, rfl, @loaded_iff_sameTarget 128 5 2 sortRelocs true _ _ jumpBack (by decide) (by decide)
    sortRelocs_perm sortRelocs_pairwise rfl⟩

/-- `M_BRANCH(2)`, `M_BRANCH(1)`, `I_BXI(0)`, `M_LABEL(1)`, `I_HALT()`, `M_LABEL(2)`, `I_HALT()`. -/
def twoBranches : List Insn :=
  [0xf1000002, 0xf1000001, 0x80000000, 0xf0000001, 0xb0000000, 0xf0000002, 0xb0000000]

theorem larger_label_wins : ∃ rtc', ulpProcessMacrosAndLoad 128 sortRelocs true
    (fun _ => 0) 0 twoBranches =
    some (.ok, rtc', 3) ∧ (rtc' 0).bxAddr = 2 ∧ ¬ Loaded 0 twoBranches (fun _ => 0) rtc' 3 := by
  refine ⟨_, rfl, by decide, fun hloaded => ?_⟩
  have hbefore : MacroBefore .branch 1 twoBranches 0 := .inr (.inl (by decide))
  obtain ⟨-, target, htarget, htargets⟩ := hloaded.branch 0 1 hbefore
  have hone : target = 1 := by
    simpa [twoBranches, MacroBefore, isMacro, relocType, Insn.opcode, Insn.macroSubOpcode,
      Insn.macroLabel, field, opcodeMacro, subOpcodeMacroLabel, subOpcodeMacroBranch] using htarget
  subst hone
  exact absurd htargets.1 (by decide)

end EspIdf.Ulp
