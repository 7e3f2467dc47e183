import EspIdf.EspErr
import Mathlib.Data.List.GetD
import Mathlib.Data.List.TakeWhile
import Mathlib.Data.List.Nodup

/-! The table of file systems of `vfs.c`, registered under path prefixes.  A path is the characters
of a C string, without the terminating zero. -/

namespace EspIdf.Vfs

abbrev Path := List UInt8

def slash : UInt8 := 47

def pathMax : Nat := 15

def vfsMaxCount : Nat := 7

structure VfsEntry where
  pathPrefix : Path
  vfs : Nat
  deriving DecidableEq, Repr

/-- `s_vfs`, as far as `s_vfs_count`. -/
abbrev Slots := List (Option VfsEntry)

/-- `memcmp(path, e.path_prefix, e.path_prefix_len) == 0`.  The comparison ends at the latest at the
zero after `path`. -/
def VfsEntry.comparesEqual (e : VfsEntry) (path : Path) : Bool :=
  (path ++ [0]).take e.pathPrefix.length = e.pathPrefix

def place (entry : VfsEntry) : Slots → Slots
  | [] => [some entry]
  | none :: rest => some entry :: rest
  | some e :: rest => some e :: place entry rest

/-- `memory` says whether `malloc` succeeds. -/
def espVfsRegister (slots : Slots) (basePath : Path) (vfs : Nat) (memory : Bool) : EspErr × Slots :=
  if basePath.length < 2 ∨ basePath.length > pathMax then (.invalidArg, slots)
  else if basePath.head? ≠ some slash ∨ basePath.getLast? = some slash then (.invalidArg, slots)
  else if ¬ memory then (.noMem, slots)
  else if none ∉ slots ∧ slots.length ≥ vfsMaxCount then (.noMem, slots)
  else (.ok, place ⟨basePath, vfs⟩ slots)

/-- A loop over the slots up to the first entry with `hit`, whose index it gives.  The loops read
the entry of each slot on the way: the outer `none` is a null pointer that is dereferenced. -/
def scan (hit : VfsEntry → Bool) : Slots → Option (Option Nat)
  | [] => some none
  | none :: _ => none
  | some e :: rest => if hit e then some (some 0) else (scan hit rest).map (·.map (· + 1))

def espVfsUnregister (slots : Slots) (basePath : Path) : Option (EspErr × Slots) :=
  match scan (·.comparesEqual basePath) slots with
  | none => none
  | some none => some (.invalidState, slots)
  | some (some i) => some (.ok, slots.set i none)

def VfsEntry.serves (path : Path) (e : VfsEntry) : Bool :=
  ¬ path.length < e.pathPrefix.length + 1 ∧ e.comparesEqual path ∧
    path.getD e.pathPrefix.length 0 = slash

def getVfsForPath (slots : Slots) (path : Path) : Option (Option VfsEntry) :=
  (scan (·.serves path) slots).map fun i => i.bind fun i => (slots.getD i none)

/-- Where an operation on a path goes: it fails with `ENOENT`, or it is passed to an entry with the
rest of the path. -/
inductive Routed where
  | enoent
  | call (e : VfsEntry) (pathWithinVfs : Path)
  deriving DecidableEq, Repr

/-- The start of the functions that take a path: `get_vfs_for_path` and `translate_path`, whose
assertion is the condition here. -/
def routePath (slots : Slots) (path : Path) : Option Routed :=
  match getVfsForPath slots path with
  | none => none
  | some none => some .enoent
  | some (some e) =>
    if path.take e.pathPrefix.length = e.pathPrefix then
      some (.call e (path.drop e.pathPrefix.length))
    else none

/-! ### Scans -/

section Scan

variable {slots : Slots} {hit : VfsEntry → Bool}

def Misses (hit : VfsEntry → Bool) (slots : Slots) : Prop :=
  ∀ x ∈ slots, ∃ e, x = some e ∧ hit e = false

theorem scan_cases (hit : VfsEntry → Bool) (slots : Slots) :
    (scan hit slots = some none ∧ Misses hit slots) ∨
    (∃ before e after, slots = before ++ some e :: after ∧ Misses hit before ∧ hit e = true ∧
      scan hit slots = some (some before.length)) ∨
    (∃ before after, slots = before ++ none :: after ∧ Misses hit before ∧ scan hit slots =
    none) := by
  have hcons : ∀ {e : VfsEntry} {l : Slots}, hit e = false → Misses hit l →
      Misses hit (some e :: l) := by
    intro e l he hl x hx
    rcases List.mem_cons.mp hx with rfl | hx
    · exact ⟨e, rfl, he⟩
    · exact hl x hx
  induction slots with
  | nil => exact .inl ⟨rfl, by simp [Misses]⟩
  | cons x rest ih =>
    cases x with
    | none => exact .inr (.inr ⟨[], rest, rfl, by simp [Misses], rfl⟩)
    | some e =>
      cases he : hit e with
      | true => exact .inr (.inl ⟨[], e, rest, rfl, by simp [Misses], he, by simp [scan, he]⟩)
      | false =>
        rcases ih with ⟨heq, hmiss⟩ | ⟨before, e', after, rfl, hmiss, he', heq⟩ | ⟨before, after,
          rfl, hmiss, heq⟩
        · exact .inl ⟨by simp [scan, he, heq], hcons he hmiss⟩
        · exact .inr (.inl ⟨some e :: before, e', after, rfl, hcons he hmiss, he',
            by simp [scan, he, heq]⟩)
        · exact .inr (.inr ⟨some e :: before, after, rfl, hcons he hmiss, by simp [scan, he, heq]⟩)

end Scan

/-! ### The table as a map -/

def entries (slots : Slots) : List VfsEntry := slots.filterMap id

theorem mem_entries : e ∈ entries slots ↔ some e ∈ slots := by
  simp [entries]

/-- The tables that calls lead to, where no prefix is registered twice. -/
inductive Reach : Slots → Prop
  | empty : Reach []
  | register {slots : Slots} {basePath : Path} {vfs : Nat} {memory : Bool} (h : Reach slots)
      (hzero : 0 ∉ basePath) (hnew : ∀ e ∈ entries slots, e.pathPrefix ≠ basePath) :
      Reach (espVfsRegister slots basePath vfs memory).2
  | unregister {slots slots' : Slots} {basePath : Path} {err : EspErr} (h : Reach slots)
      (hres : espVfsUnregister slots basePath = some (err, slots')) : Reach slots'

structure TableOk (slots : Slots) : Prop where
  nodup : ((entries slots).map VfsEntry.pathPrefix).Nodup
  zero : ∀ e ∈ entries slots, 0 ∉ e.pathPrefix

theorem entries_place {entry : VfsEntry} (slots : Slots) :
    (entries (place entry slots)).Perm (entry :: entries slots) := by
  induction slots with
  | nil => simp [place, entries]
  | cons x rest ih =>
    cases x with
    | none => simp [place, entries]
    | some e =>
      have hstep : (e :: entries (place entry rest)).Perm (entry :: e :: entries rest) :=
        (ih.cons e).trans (.swap _ _ _)
      simpa [place, entries] using hstep

theorem TableOk.register {slots : Slots} {basePath : Path} {vfs : Nat} {memory : Bool}
    (h : TableOk slots) (hzero : 0 ∉ basePath)
    (hnew : ∀ e ∈ entries slots, e.pathPrefix ≠ basePath) :
    TableOk (espVfsRegister slots basePath vfs memory).2 := by
  unfold espVfsRegister
  split_ifs <;> first | exact h | skip
  · have hperm := @entries_place ⟨basePath, vfs⟩ slots
    refine ⟨?_, fun e he => ?_⟩
    · rw [(hperm.map VfsEntry.pathPrefix).nodup_iff, List.map_cons, List.nodup_cons]
      refine ⟨fun hmem => ?_, h.nodup⟩
      obtain ⟨e, he, heq⟩ := List.mem_map.mp hmem
      exact hnew e he heq
    · rcases List.mem_cons.mp (hperm.mem_iff.mp he) with rfl | he
      · exact hzero
      · exact h.zero e he

variable {before after : Slots}

theorem entries_hit :
    entries (before ++ some e :: after) = entries before ++ e :: entries after := by
  simp [entries]

variable {e : VfsEntry}

theorem entries_cleared :
    entries ((before ++ some e :: after).set before.length none) =
      entries before ++ entries after := by
  simp [entries]

theorem TableOk.unregister (h : TableOk slots)
    (hres : espVfsUnregister slots basePath = some (err, slots')) : TableOk slots' := by
  unfold espVfsUnregister at hres
  rcases scan_cases (·.comparesEqual basePath) slots with
    ⟨heq, -⟩ | ⟨before, e, after, rfl, -, -, heq⟩ | ⟨before, after, -, -, heq⟩
  · rw [heq] at hres
    cases hres
    exact h
  · rw [heq] at hres
    cases hres
    have hsub : (entries before ++ entries after).Sublist
        (entries (before ++ some e :: after)) := by
      rw [entries_hit]
      exact (List.sublist_cons_self _ _).append_left _
    rw [← @entries_cleared before after e] at hsub
    exact ⟨h.nodup.sublist (hsub.map _), fun e' he' => h.zero e' (hsub.subset he')⟩
  · rw [heq] at hres
    cases hres

theorem Reach.tableOk (h : Reach slots) : TableOk slots := by
  induction h with
  | empty => exact ⟨by simp [entries], by simp [entries]⟩
  | register _ hzero hnew ih => exact ih.register hzero hnew
  | unregister _ hres ih => exact ih.unregister hres

/-- `esp_vfs_unregister` removes the entry of the prefix, or gives an error if there is none. -/
def UnregisterRight (slots : Slots) (q : Path) : Prop :=
  ∃ err slots', espVfsUnregister slots q = some (err, slots') ∧
    ((∃ e ∈ entries slots, e.pathPrefix = q) →
      err = .ok ∧ entries slots' = (entries slots).filter (·.pathPrefix ≠ q)) ∧
    ((¬ ∃ e ∈ entries slots, e.pathPrefix = q) → err ≠ .ok ∧ slots' = slots)

/-- The slots before the entry of the prefix, or all if there is none, hold entries whose prefixes
are not prefixes of it. -/
def UnregisterOk (slots : Slots) (q : Path) : Prop :=
  ∀ x ∈ slots.takeWhile fun x => x.all (·.pathPrefix ≠ q), ∃ e, x = some e ∧ ¬ e.pathPrefix <+: q

instance (slots : Slots) (q : Path) : Decidable (UnregisterOk slots q) :=
  decidable_of_iff ((slots.takeWhile fun x => x.all (·.pathPrefix ≠ q)).all
      (fun x => x.any fun e => ¬ e.pathPrefix <+: q) = true) (by
    simp only [UnregisterOk, List.all_eq_true, Option.any_eq_true, decide_eq_true_eq])

def Below (path : Path) (e : VfsEntry) : Prop := ∃ rest, path = e.pathPrefix ++ slash :: rest

/-- A path operation goes to an entry the path is below, with the rest of the path, or fails with
`ENOENT` if there is none. -/
def RouteRight (slots : Slots) (path : Path) : Prop :=
  ((∃ e ∈ entries slots, Below path e) → ∃ e ∈ entries slots, ∃ rest,
    path = e.pathPrefix ++ slash :: rest ∧ routePath slots path = some (.call e (slash :: rest))) ∧
  ((¬ ∃ e ∈ entries slots, Below path e) → routePath slots path = some .enoent)

def RouteOk (slots : Slots) (path : Path) : Prop :=
  ∀ before after, slots = before ++ none :: after → ∃ e ∈ entries before, Below path e

section Right

variable {slots : Slots}

theorem comparesEqual_iff (hzero : 0 ∉ e.pathPrefix) (path : Path) :
    e.comparesEqual path = true ↔ e.pathPrefix <+: path := by
  unfold VfsEntry.comparesEqual
  rw [decide_eq_true_iff]
  constructor
  · intro h
    have hpre : e.pathPrefix <+: path ++ [0] := h ▸ List.take_prefix _ _
    rcases List.prefix_concat_iff.mp hpre with heq | hpre
    · exact absurd (heq ▸ List.mem_append_right path List.mem_cons_self) hzero
    · exact hpre
  · intro h
    exact (List.prefix_iff_eq_take.mp (h.trans (List.prefix_append path [0]))).symm

theorem serves_iff (hzero : 0 ∉ e.pathPrefix) (path : Path) :
    e.serves path = true ↔ Below path e := by
  unfold VfsEntry.serves
  rw [decide_eq_true_iff, comparesEqual_iff hzero]
  constructor
  · rintro ⟨hlen, ⟨rest, rfl⟩, hslash⟩
    cases rest with
    | nil => simp at hlen
    | cons c rest =>
      rw [List.getD_append_right _ _ _ _ (Nat.le_refl _), Nat.sub_self,
        List.getD_cons_zero] at hslash
      exact ⟨rest, by rw [hslash]⟩
  · rintro ⟨rest, rfl⟩
    refine ⟨by simp, List.prefix_append _ _, ?_⟩
    rw [List.getD_append_right _ _ _ _ (Nat.le_refl _), Nat.sub_self, List.getD_cons_zero]

theorem Misses.entries (h : Misses hit slots) : ∀ e ∈ entries slots, hit e = false := by
  intro e he
  obtain ⟨e', heq, hmiss⟩ := h _ (mem_entries.mp he)
  cases heq
  exact hmiss

theorem TableOk.passed (h : TableOk slots) {q : Path} {l : Slots}
    (hl : ∀ e ∈ entries l, e ∈ entries slots) (hmiss : Misses (·.comparesEqual q) l) :
    ∀ x ∈ l, (x.all (·.pathPrefix ≠ q)) = true ∧ ∃ e, x = some e ∧ ¬ e.pathPrefix <+: q := by
  intro x hx
  obtain ⟨e, rfl, he⟩ := hmiss x hx
  have hno : ¬ e.pathPrefix <+: q := by
    rw [← comparesEqual_iff (h.zero e (hl e (mem_entries.mpr hx))) q]
    exact fun htrue => Bool.false_ne_true (he.symm.trans htrue)
  exact ⟨by simpa using fun heq : e.pathPrefix = q => hno (heq ▸ List.prefix_refl _), e, rfl, hno⟩

theorem TableOk.cleared (h : TableOk (before ++ some e :: after))
    (hq : e.pathPrefix = q) :
    entries ((before ++ some e :: after).set before.length none) =
      (entries (before ++ some e :: after)).filter (·.pathPrefix ≠ q) := by
  have hnodup := h.nodup
  rw [entries_hit, List.map_append, List.map_cons, List.nodup_middle, List.nodup_cons] at hnodup
  have hothers : ∀ e' ∈ entries before ++ entries after, e'.pathPrefix ≠ q := by
    intro e' he' heq'
    refine hnodup.1 ?_
    rw [← List.map_append, hq, ← heq']
    exact List.mem_map_of_mem he'
  rw [entries_cleared, entries_hit, List.filter_append, List.filter_cons_of_neg (by simpa using hq),
    ← List.filter_append, List.filter_eq_self.mpr]
  intro e' he'
  simpa using hothers e' he'

theorem mem_cleared (he' : e' ∈ entries (before ++ some e :: after)) (hne : e' ≠ e) :
    e' ∈ entries ((before ++ some e :: after).set before.length none) := by
  rw [entries_cleared]
  rw [entries_hit] at he'
  rcases List.mem_append.mp he' with he' | he'
  · exact List.mem_append_left _ he'
  · rcases List.mem_cons.mp he' with rfl | he'
    · exact absurd rfl hne
    · exact List.mem_append_right _ he'

theorem not_unregisterRight_of_shorter
    (heq : scan (·.comparesEqual q) (before ++ some e :: after) = some (some before.length))
    (hq : e.pathPrefix ≠ q) : ¬ UnregisterRight (before ++ some e :: after) q := by
  unfold UnregisterRight espVfsUnregister
  rw [heq]
  rintro ⟨err, slots', hres, hreg, hnot⟩
  cases hres
  by_cases hex : ∃ e' ∈ entries (before ++ some e :: after), e'.pathPrefix = q
  · obtain ⟨e', he', hq'⟩ := hex
    have hkept := mem_cleared he' fun heq' => hq (heq' ▸ hq')
    rw [(hreg ⟨e', he', hq'⟩).2] at hkept
    simp [hq'] at hkept
  · exact (hnot hex).1 rfl

theorem unregister_right_iff_of_hit {q : Path}
    (h : TableOk (before ++ some e :: after)) (hmiss : Misses (·.comparesEqual q) before)
    (he : e.comparesEqual q = true)
    (heq : scan (·.comparesEqual q) (before ++ some e :: after) = some (some before.length)) :
    UnregisterRight (before ++ some e :: after) q ↔ UnregisterOk (before ++ some e :: after) q := by
  have hbefore := h.passed (fun e' he' => by rw [entries_hit]; exact List.mem_append_left _ he')
    hmiss
  have hmem : e ∈ entries (before ++ some e :: after) := by simp [entries_hit]
  have hpre := (comparesEqual_iff (h.zero e hmem) q).mp he
  have htake : (before ++ some e :: after).takeWhile (fun x => x.all (·.pathPrefix ≠ q)) =
      before ++ (some e :: after).takeWhile fun x => x.all (·.pathPrefix ≠ q) :=
    List.takeWhile_append_of_pos fun x hx => (hbefore x hx).1
  by_cases hq : e.pathPrefix = q
  · refine iff_of_true ?_ ?_
    · unfold UnregisterRight espVfsUnregister
      rw [heq]
      exact ⟨_, _, rfl, fun _ => ⟨rfl, h.cleared hq⟩, fun hnone => absurd ⟨e, hmem, hq⟩ hnone⟩
    · rw [UnregisterOk, htake, List.takeWhile_cons_of_neg (by simpa using hq), List.append_nil]
      exact fun x hx => (hbefore x hx).2
  · refine iff_of_false (not_unregisterRight_of_shorter heq hq) fun hall => ?_
    rw [UnregisterOk, htake, List.takeWhile_cons_of_pos (by simpa using hq)] at hall
    obtain ⟨e', heq', hno⟩ := hall (some e) (by simp)
    cases heq'
    exact hno hpre

theorem unregister_right_iff (h : TableOk slots) (q : Path) :
    UnregisterRight slots q ↔ UnregisterOk slots q := by
  rcases scan_cases (·.comparesEqual q) slots with
    ⟨heq, hmiss⟩ | ⟨before, e, after, rfl, hmiss, he, heq⟩ | ⟨before, after, rfl, hmiss, heq⟩
  · have hall := h.passed (fun _ he => he) hmiss
    unfold UnregisterRight espVfsUnregister
    rw [heq]
    refine iff_of_true ⟨_, _, rfl, ?_, fun _ => ⟨by decide, rfl⟩⟩
      fun x hx => (hall x ((List.takeWhile_sublist _).subset hx)).2
    rintro ⟨e, he, hq⟩
    obtain ⟨-, e', heq', hno⟩ := hall _ (mem_entries.mp he)
    cases heq'
    exact absurd (hq ▸ List.prefix_refl _) hno
  · exact unregister_right_iff_of_hit h hmiss he heq
  · have hbefore := h.passed (fun e' he' => by
      rw [mem_entries] at he' ⊢
      exact List.mem_append_left _ he') hmiss
    unfold UnregisterRight UnregisterOk espVfsUnregister
    rw [heq]
    refine iff_of_false (by simp) fun hall => ?_
    rw [List.takeWhile_append_of_pos fun x hx => (hbefore x hx).1] at hall
    obtain ⟨e, heq', -⟩ := hall none (by simp)
    cases heq'

theorem route_right_iff (h : TableOk slots) (path : Path) :
    RouteRight slots path ↔ RouteOk slots path := by
  have hserves : ∀ e ∈ entries slots, (e.serves path = true ↔ Below path e) :=
    fun e he => serves_iff (h.zero e he) path
  unfold RouteRight routePath getVfsForPath
  rcases scan_cases (·.serves path) slots with
    ⟨heq, hmiss⟩ | ⟨before, e, after, rfl, hmiss, he, heq⟩ | ⟨before, after, rfl, hmiss, heq⟩
  · rw [heq]
    have hnone : ¬ ∃ e ∈ entries slots, Below path e := by
      rintro ⟨e, he, hb⟩
      rw [← hserves e he, hmiss.entries e he] at hb
      cases hb
    refine iff_of_true ⟨fun hex => absurd hex hnone, fun _ => rfl⟩ ?_
    rintro before after rfl
    obtain ⟨e, heq', -⟩ := hmiss none (by simp)
    cases heq'
  · have hmem : e ∈ entries (before ++ some e :: after) := by simp [entries_hit]
    obtain ⟨rest, hrest⟩ := (hserves e hmem).mp he
    have hget : (before ++ some e :: after).getD before.length none = some e := by simp
    have hroute : (match (scan (·.serves path) (before ++ some e :: after)).map fun i =>
          i.bind fun i => (before ++ some e :: after).getD i none with
        | none => none
        | some none => some Routed.enoent
        | some (some e) =>
          if path.take e.pathPrefix.length = e.pathPrefix then
            some (.call e (path.drop e.pathPrefix.length))
          else none) = some (.call e (slash :: rest)) := by
      rw [heq]
      simp only [Option.map_some, Option.bind_some, hget, hrest, List.take_left, List.drop_left,
        if_true]
    refine iff_of_true ⟨fun _ => ⟨e, hmem, rest, hrest, hroute⟩,
      fun hnone => absurd ⟨e, hmem, rest, hrest⟩ hnone⟩ ?_
    intro before' after' hsplit
    -- an empty slot is not among those that the scan passed
    refine ⟨e, ?_, rest, hrest⟩
    rw [mem_entries]
    rcases List.append_eq_append_iff.mp hsplit with ⟨l, hl, hl'⟩ | ⟨l, hl, hl'⟩
    · cases l with
      | nil => simp at hl'
      | cons x l =>
        rw [List.cons_append, List.cons.injEq] at hl'
        rw [hl, ← hl'.1]
        simp
    · obtain ⟨e', heq', -⟩ := hmiss none (by
        rw [hl]
        cases l with
        | nil => simp at hl'
        | cons x l =>
          rw [List.cons_append, List.cons.injEq] at hl'
          rw [← hl'.1]
          simp)
      cases heq'
  · rw [heq]
    refine iff_of_false (fun hright => ?_) fun hall => ?_
    · by_cases hex : ∃ e ∈ entries (before ++ none :: after), Below path e
      · obtain ⟨e, -, rest, -, hres⟩ := hright.1 hex
        cases hres
      · cases hright.2 hex
    · obtain ⟨e, he, hb⟩ := hall before after rfl
      have hmem : e ∈ entries (before ++ none :: after) := by
        rw [mem_entries] at he ⊢
        exact List.mem_append_left _ he
      rw [← hserves e hmem, hmiss.entries e he] at hb
      cases hb

end Right

/-- In every table that calls lead to, an unregistration and a path operation do what they should
exactly under their conditions. -/
theorem mounts_right_iff {slots : Slots} (h : Reach slots) :
    (∀ q, UnregisterRight slots q ↔ UnregisterOk slots q) ∧
      ∀ path, RouteRight slots path ↔ RouteOk slots path :=
  ⟨unregister_right_iff h.tableOk, route_right_iff h.tableOk⟩

/-- The prefix `"/a"`. -/
def prefixA : Path := [slash, 97]

/-- The prefix `"/ab"`. -/
def prefixAB : Path := [slash, 97, 98]

/-- Three drivers: at `/ab`, at `/a` and at `/c`. -/
def threeMounts : Slots := [some ⟨prefixAB, 1⟩, some ⟨prefixA, 2⟩, some ⟨[slash, 99], 3⟩]

theorem mounts_right_three : Reach threeMounts ∧ UnregisterRight threeMounts prefixA ∧
    UnregisterRight threeMounts [slash, 98] ∧
    RouteRight threeMounts (prefixA ++ [slash, 120]) := by
  have hreach : Reach threeMounts :=
    @Reach.register _ [slash, 99] 3 true
      (@Reach.register _ prefixA 2 true
        (@Reach.register [] prefixAB 1 true .empty (by decide) (by simp [entries]))
        (by decide) (by decide))
      (by decide) (by decide)
  obtain ⟨hunregister, hroute⟩ := mounts_right_iff hreach
  refine ⟨hreach, (hunregister _).mpr (by decide), (hunregister _).mpr (by decide),
    (hroute _).mpr fun before after hsplit => ?_⟩
  have hnone : none ∈ threeMounts := hsplit ▸ by simp
  exact absurd hnone (by decide)

theorem unregister_removes_shorter :
    (espVfsRegister [] prefixA 1 true) = (.ok, [some ⟨prefixA, 1⟩]) ∧
    espVfsUnregister [some ⟨prefixA, 1⟩] prefixAB = some (.ok, [none]) ∧
    espVfsUnregister [none] prefixA = none ∧ routePath [none] prefixA = none := by
  decide

end EspIdf.Vfs
