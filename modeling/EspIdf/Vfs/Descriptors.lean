import EspIdf.Device.Runs
import EspIdf.Vfs.Mounts

/-! The file descriptors of `vfs.c`: the low bits are the driver's own descriptor, those above the
slot of the driver.  Along any calls, a descriptor leads to the driver that opened it while that
keeps its slot. -/

namespace EspIdf.Vfs

open EspIdf.Runs

def fdCount : Int := 4096

section Descriptors

variable (fdOffset : Nat → Int)

def getVfsForFd (slots : Slots) (fd : Int) : Option VfsEntry :=
  slots.getD (fd / fdCount % 8).toNat none

def translateFd (e : VfsEntry) (fd : Int) : Int := fd % fdCount + fdOffset e.vfs

/-- The start of the functions that take a descriptor; `none` is `EBADF`. -/
def routeFd (slots : Slots) (fd : Int) : Option (VfsEntry × Int) :=
  (getVfsForFd slots fd).map fun e => (e, translateFd fdOffset e fd)

/-- `esp_vfs_open` with the driver's result `ret`, which is negative also if the driver has no
`open`: what it returns, and the slot and the entry of the driver if there is a file.  `none` stands
for a null pointer that is read or an assertion that fails. -/
def espVfsOpen (slots : Slots) (path : Path) (ret : Int) : Option (Int × Option (Nat × VfsEntry)) :=
  match routePath slots path, scan (·.serves path) slots with
  | some .enoent, _ => some (-1, none)
  | some (.call e _), some (some i) =>
    if ret < 0 then some (ret, none)
    else if fdOffset e.vfs ≤ ret then some (ret - fdOffset e.vfs + i * fdCount, some (i, e))
    else none
  | _, _ => none

structure Opened where
  fd : Int
  slot : Nat
  entry : VfsEntry
  localFd : Int
  deriving DecidableEq, Repr

/-- The slot of the driver that is registered with a prefix. -/
def registeredAt (slots : Slots) (basePath : Path) : Option Nat :=
  slots.findIdx? fun x => x.any (·.pathPrefix = basePath)

/-- The table, and the files of drivers that have been registered since they opened them. -/
structure Session where
  slots : Slots
  live : List Opened
  deriving DecidableEq, Repr

inductive Call where
  | register (basePath : Path) (vfs : Nat) (memory : Bool)
  | unregister (basePath : Path)
  | open (path : Path) (ret : Int)
  deriving DecidableEq, Repr

def step (s : Session) : Call → Option Session
  | .register basePath vfs memory =>
    some { s with slots := (espVfsRegister s.slots basePath vfs memory).2 }
  | .unregister basePath => (espVfsUnregister s.slots basePath).map fun r =>
    -- the call ends the files of the driver with this prefix, whichever slot it clears
    ⟨r.2, s.live.filter fun o => registeredAt s.slots basePath ≠ some o.slot⟩
  | .open path ret => (espVfsOpen fdOffset s.slots path ret).map fun r =>
    { s with live := (r.2.map fun x => ⟨r.1, x.1, x.2, ret⟩).toList ++ s.live }

/-- The condition on a call.  Paths are C strings; `esp_vfs_unregister` does not come upon another
entry; and a driver's descriptor is less than `fdCount` above its `fd_offset`. -/
def CallOk (s : Session) : Call → Prop
  | .register basePath _ _ => 0 ∉ basePath
  | .unregister basePath => UnregisterOk s.slots basePath
  | .open path ret => ∀ fd i e, espVfsOpen fdOffset s.slots path ret = some (fd, some (i, e)) →
    ret - fdOffset e.vfs < fdCount

structure Opened.Routed (slots : Slots) (o : Opened) : Prop where
  entry : slots[o.slot]? = some (some o.entry)
  fd : o.fd = o.localFd - fdOffset o.entry.vfs + o.slot * fdCount
  range : 0 ≤ o.localFd - fdOffset o.entry.vfs ∧ o.localFd - fdOffset o.entry.vfs < fdCount

structure Session.Ok (s : Session) : Prop where
  count : s.slots.length ≤ vfsMaxCount
  zero : ∀ e, some e ∈ s.slots → 0 ∉ e.pathPrefix
  live : ∀ o ∈ s.live, o.Routed fdOffset s.slots

end Descriptors

section Steps

variable {fdOffset : Nat → Int} {s s' : Session} {slots : Slots}

theorem getElem?_place {entry e : VfsEntry} {i : Nat} (h : slots[i]? = some (some e)) :
    (place entry slots)[i]? = some (some e) := by
  induction slots generalizing i with
  | nil => simp at h
  | cons x rest ih =>
    cases x with
    | none =>
      cases i with
      | zero => simp at h
      | succ i => exact h
    | some e' =>
      cases i with
      | zero => exact h
      | succ i => exact ih h

theorem length_place (entry : VfsEntry) (slots : Slots) :
    (place entry slots).length = if none ∈ slots then slots.length else slots.length + 1 := by
  induction slots with
  | nil => rfl
  | cons x rest ih =>
    cases x with
    | none => simp [place]
    | some e =>
      simp only [place, List.length_cons, ih, List.mem_cons, reduceCtorEq, false_or]
      split_ifs <;> rfl

theorem espVfsRegister_cases (slots : Slots) (basePath : Path) (vfs : Nat) (memory : Bool) :
    (espVfsRegister slots basePath vfs memory).2 = slots ∨
      (espVfsRegister slots basePath vfs memory).2 = place ⟨basePath, vfs⟩ slots ∧
        (none ∈ slots ∨ slots.length < vfsMaxCount) := by
  unfold espVfsRegister
  split_ifs with _ _ _ hfull
  · exact .inl rfl
  · exact .inl rfl
  · exact .inl rfl
  · refine .inr ⟨rfl, ?_⟩
    by_cases hnone : none ∈ slots
    · exact .inl hnone
    · exact .inr (Nat.lt_of_not_ge fun hge => hfull ⟨hnone, hge⟩)
  · exact .inl rfl

theorem mem_place {entry e : VfsEntry} (h : some e ∈ place entry slots) :
    e = entry ∨ some e ∈ slots := by
  induction slots with
  | nil => exact .inl (by simpa [place] using h)
  | cons x rest ih =>
    cases x with
    | none =>
      rcases List.mem_cons.mp h with heq | hmem
      · exact .inl (Option.some.inj heq)
      · exact .inr (List.mem_cons_of_mem _ hmem)
    | some e' =>
      rcases List.mem_cons.mp h with heq | hmem
      · exact .inr (heq ▸ List.mem_cons_self)
      · exact (ih hmem).imp_right (List.mem_cons_of_mem _)

/-- A call that meets the condition clears the slot of its prefix, or none. -/
theorem espVfsUnregister_cases (hzero : ∀ e, some e ∈ slots → 0 ∉ e.pathPrefix)
    (hok : UnregisterOk slots basePath) (h : espVfsUnregister slots basePath = some (err, slots')) :
    slots' = slots ∨ ∃ i, registeredAt slots basePath = some i ∧ slots' = slots.set i none := by
  unfold espVfsUnregister at h
  rcases scan_cases (·.comparesEqual basePath) slots with
    ⟨heq, -⟩ | ⟨before, e, after, rfl, hmiss, hhit, heq⟩ | ⟨before, after, -, -, heq⟩
  · rw [heq] at h
    cases h
    exact .inl rfl
  · rw [heq] at h
    cases h
    refine .inr ⟨before.length, ?_, rfl⟩
    have hbefore : ∀ x ∈ before, ∃ e, x = some e ∧ e.pathPrefix ≠ basePath := by
      intro x hx
      obtain ⟨e', rfl, hne⟩ := hmiss x hx
      refine ⟨e', rfl, ?_⟩
      rintro rfl
      simp [VfsEntry.comparesEqual] at hne
    have hself : e.pathPrefix = basePath := by
      by_contra hne
      have hmem : some e ∈ (before ++ some e :: after).takeWhile
          fun x => x.all (·.pathPrefix ≠ basePath) := by
        rw [List.takeWhile_append_of_pos]
        · simp [hne]
        · intro x hx
          obtain ⟨e', rfl, hne'⟩ := hbefore x hx
          simpa using hne'
      obtain ⟨e', he', hno⟩ := hok _ hmem
      cases he'
      exact hno ((comparesEqual_iff (hzero e (by simp)) basePath).1 hhit)
    have hnone : before.findIdx? (fun x => x.any (·.pathPrefix = basePath)) = none := by
      rw [List.findIdx?_eq_none_iff]
      intro x hx
      obtain ⟨e', rfl, hne'⟩ := hbefore x hx
      simpa using hne'
    simp [registeredAt, List.findIdx?_append, hnone, List.findIdx?_cons, hself]
  · rw [heq] at h
    cases h

theorem espVfsOpen_some (h : espVfsOpen fdOffset slots path ret = some (fd, some (i, e))) :
    slots[i]? = some (some e) ∧ fd = ret - fdOffset e.vfs + i * fdCount ∧ fdOffset e.vfs ≤ ret := by
  unfold espVfsOpen routePath getVfsForPath at h
  rcases scan_cases (·.serves path) slots with
    ⟨heq, -⟩ | ⟨before, e', after, rfl, -, -, heq⟩ | ⟨before, after, -, -, heq⟩
  · simp [heq] at h
  · have hslot : (before ++ some e' :: after).getD before.length none = some e' := by simp
    simp only [heq, Option.map_some, Option.bind_some, hslot] at h
    by_cases hpath : path.take e'.pathPrefix.length = e'.pathPrefix
    · simp only [if_pos hpath] at h
      split_ifs at h with hneg hoffset
      · simp at h
      · cases h
        exact ⟨by simp, rfl, hoffset⟩
    · simp [if_neg hpath] at h
  · simp [heq] at h

variable {o : Opened}

theorem Opened.Routed.register (h : o.Routed fdOffset slots) (basePath : Path) (vfs : Nat)
    (memory : Bool) : o.Routed fdOffset (espVfsRegister slots basePath vfs memory).2 := by
  rcases espVfsRegister_cases slots basePath vfs memory with heq | ⟨heq, -⟩
  · rw [heq]
    exact h
  · rw [heq]
    exact ⟨getElem?_place h.entry, h.fd, h.range⟩

theorem Opened.Routed.cleared (h : o.Routed fdOffset slots) (hne : i ≠ o.slot) :
    o.Routed fdOffset (slots.set i none) :=
  ⟨(List.getElem?_set_ne hne).trans h.entry, h.fd, h.range⟩

theorem Session.Ok.step {c : Call} (h : s.Ok fdOffset) (hok : CallOk fdOffset s c)
    (hstep : step fdOffset s c = some s') : s'.Ok fdOffset := by
  cases c with
  | register basePath vfs memory =>
    cases hstep
    refine ⟨?_, ?_, fun o ho => (h.live o ho).register basePath vfs memory⟩
    all_goals rcases espVfsRegister_cases s.slots basePath vfs memory with heq | ⟨heq, hroom⟩
    · rw [heq]
      exact h.count
    · rw [heq, length_place]
      split_ifs with hnone
      · exact h.count
      · exact hroom.resolve_left hnone
    · rw [heq]
      exact h.zero
    · rw [heq]
      intro e he
      rcases mem_place he with rfl | hmem
      · exact hok
      · exact h.zero e hmem
  | unregister basePath =>
    obtain ⟨⟨err, slots'⟩, hres, rfl⟩ := Option.map_eq_some_iff.mp hstep
    rcases espVfsUnregister_cases h.zero hok hres with rfl | ⟨i, hat, rfl⟩
    · exact ⟨h.count, h.zero, fun o ho => h.live o (List.mem_of_mem_filter ho)⟩
    · refine ⟨?_, fun e he => h.zero e ?_, fun o ho => ?_⟩
      · rw [List.length_set]
        exact h.count
      · exact (List.mem_or_eq_of_mem_set he).resolve_right (by simp)
      · obtain ⟨ho, hslot⟩ := List.mem_filter.mp ho
        refine (h.live o ho).cleared ?_
        rintro rfl
        simp [hat] at hslot
  | «open» path ret =>
    obtain ⟨⟨fd, file⟩, hres, rfl⟩ := Option.map_eq_some_iff.mp hstep
    refine ⟨h.count, h.zero, fun o ho => ?_⟩
    rcases List.mem_append.mp ho with ho | ho
    · cases file with
      | none => simp at ho
      | some file =>
        obtain ⟨i, e⟩ := file
        obtain rfl : o = ⟨fd, i, e, ret⟩ := by simpa using ho
        obtain ⟨hslot, hfd, hle⟩ := espVfsOpen_some hres
        exact ⟨hslot, hfd, by dsimp only; omega, hok fd i e hres⟩
    · exact h.live o ho

theorem Opened.Routed.slot_eq (h : o.Routed fdOffset slots)
    (hcount : slots.length ≤ vfsMaxCount) :
    (o.fd / fdCount % 8).toNat = o.slot ∧ o.fd % fdCount = o.localFd - fdOffset o.entry.vfs := by
  have hslot : o.slot < slots.length := (List.getElem?_eq_some_iff.mp h.entry).1
  have hrange := h.range
  simp only [h.fd, fdCount, vfsMaxCount] at hcount hrange ⊢
  omega

theorem Opened.Routed.routeFd (h : o.Routed fdOffset slots)
    (hcount : slots.length ≤ vfsMaxCount) : routeFd fdOffset slots o.fd =
    some (o.entry, o.localFd) := by
  obtain ⟨hslot, hlocal⟩ := h.slot_eq hcount
  rw [Vfs.routeFd, getVfsForFd, hslot, List.getD_eq_getElem?_getD, h.entry, Option.getD_some,
    Option.map_some, translateFd, hlocal, Int.sub_add_cancel]

end Steps

/-- After any calls that meet the condition, a descriptor that a driver opened leads to that driver
with the driver's own descriptor while the driver is registered, and no two of them are the same
number. -/
theorem descriptor_identifies (fdOffset : Nat → Int) {calls : List Call} {s : Session}
    (hok : Along (step fdOffset) (CallOk fdOffset) ⟨[], []⟩ calls)
    (hrun : run (step fdOffset) ⟨[], []⟩ calls = some s) :
    (∀ o ∈ s.live, routeFd fdOffset s.slots o.fd = some (o.entry, o.localFd)) ∧
      ∀ o ∈ s.live, ∀ o' ∈ s.live, o.fd = o'.fd →
        o.slot = o'.slot ∧ o.entry = o'.entry ∧ o.localFd = o'.localFd := by
  have hs : s.Ok fdOffset :=
    (always_of_step (fun _ _ _ hs hc hstep => hs.step hc hstep)
      (show Session.Ok fdOffset ⟨[], []⟩ from ⟨by decide, by simp, by simp⟩) hok).final hrun
  have hroute := fun o ho => (hs.live o ho).routeFd hs.count
  refine ⟨hroute, fun o ho o' ho' hfd => ?_⟩
  have hboth := hroute o ho
  rw [hfd, hroute o' ho', Option.some.injEq, Prod.mk.injEq] at hboth
  refine ⟨?_, hboth.1.symm, hboth.2.symm⟩
  rw [← ((hs.live o ho).slot_eq hs.count).1, ← ((hs.live o' ho').slot_eq hs.count).1, hfd]

instance (fdOffset : Nat → Int) (s : Session) : (c : Call) → Decidable (CallOk fdOffset s c)
  | .register basePath _ _ => inferInstanceAs (Decidable (0 ∉ basePath))
  | .unregister basePath => inferInstanceAs (Decidable (UnregisterOk s.slots basePath))
  | .open path ret => decidable_of_iff (((espVfsOpen fdOffset s.slots path ret).bind (·.2)).all
      (fun x => ret - fdOffset x.2.vfs < fdCount) = true) (by
    simp only [CallOk, Option.all_eq_true, Option.bind_eq_some_iff, decide_eq_true_eq, Prod.forall,
      Prod.exists, forall_exists_index, and_imp]
    exact ⟨fun h fd i e hres => h i e fd _ hres rfl, fun h i e fd _ hres hf =>
      h fd i e (hf ▸ hres)⟩)

/-- Two drivers with open files; a third takes the slot of the one that is unregistered. -/
def twoDrivers : List Call :=
  [.register [47, 97] 0 true, .register [47, 98] 1 true, .open [47, 97, 47, 120] 3,
    .open [47, 98, 47, 120] 53, .unregister [47, 97], .register [47, 99] 2 true,
    .open [47, 99, 47, 120] 103]

theorem descriptor_identifies_two : ∃ s, run (step fun vfs => vfs * 50) ⟨[], []⟩ twoDrivers =
    some s ∧
    s.live = [⟨3, 0, ⟨[47, 99], 2⟩, 103⟩, ⟨4099, 1, ⟨[47, 98], 1⟩, 53⟩] ∧
    ∀ o ∈ s.live, routeFd (fun vfs => vfs * 50) s.slots o.fd = some (o.entry, o.localFd) := by
  have hrun : run (step fun vfs => vfs * 50) ⟨[], []⟩ twoDrivers = some
      ⟨[some ⟨[47, 99], 2⟩, some ⟨[47, 98], 1⟩],
        [⟨3, 0, ⟨[47, 99], 2⟩, 103⟩, ⟨4099, 1, ⟨[47, 98], 1⟩, 53⟩]⟩ := by decide +kernel
  exact ⟨_, hrun, rfl, (descriptor_identifies _ (by decide +kernel) hrun).1⟩

/-- Unregistering `"/ab"` clears the slot of `"/a"`, which the next driver takes: the descriptor of
a file of `"/a"` now leads there. -/
theorem descriptor_changes_driver : ∃ s, run (step fun _ => 0) ⟨[], []⟩
      [.register prefixA 0 true, .register prefixAB 1 true, .open [47, 97, 47, 120] 3,
        .unregister prefixAB, .register [47, 99] 2 true] = some s ∧
    s.live = [⟨3, 0, ⟨prefixA, 0⟩, 3⟩] ∧
    routeFd (fun _ => 0) s.slots 3 = some (⟨[47, 99], 2⟩, 3) :=
  ⟨_, rfl, by decide +kernel, by decide +kernel⟩

end EspIdf.Vfs
