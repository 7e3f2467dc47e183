import EspIdf.Device.Runs

/-! Installing the channels of the RMT driver (`rmt.c`): one flag and one interrupt handle stand for
all channels.  The allocations that `esp_intr_alloc` makes are numbered; each is for the core that
makes it, and `esp_intr_free` refuses the other core. -/

namespace EspIdf.Rmt

open EspIdf.Runs
open Function (update update_of_ne update_self)

structure Driver where
  /-- `p_rmt_obj[channel] != NULL` -/
  obj : Nat → Bool
  /-- `s_rmt_driver_installed` -/
  installed : Bool
  /-- `s_rmt_driver_intr_handle`, with the core of its interrupt -/
  intrHandle : Option (Nat × Fin 2)
  /-- the registrations of the handler, and the handles that were freed -/
  registered : List Nat
  freed : List Nat
  allocated : Nat

def initial : Driver := ⟨fun _ => false, false, none, [], [], 0⟩

inductive Call where
  | install (core : Fin 2) (channel : Nat) (mallocOk allocOk : Bool)
  | uninstall (core : Fin 2) (channel : Nat)
  deriving DecidableEq, Repr

namespace Driver

def rmtIsrRegister (s : Driver) (core : Fin 2) (allocOk : Bool) : Driver :=
  if s.installed = false ∧ allocOk = true then
    { s with
      intrHandle := some (s.allocated, core)
      registered := s.allocated :: s.registered
      allocated := s.allocated + 1 }
  else s

def rmtIsrDeregister (s : Driver) (core : Fin 2) : Driver :=
  match s.intrHandle with
  | none => s
  | some (handle, cpu) =>
    if cpu ≠ core then s
    else { s with registered := s.registered.erase handle, freed := handle :: s.freed }

def rmtDriverInstall (s : Driver) (core : Fin 2) (channel : Nat) (mallocOk allocOk : Bool) :
    Driver :=
  if channel < 8 ∧ s.obj channel = false ∧ mallocOk = true then
    if s.installed = false then
      { s.rmtIsrRegister core allocOk with obj := update s.obj channel true, installed := true }
    else { s with obj := update s.obj channel true }
  else s

def rmtDriverUninstall (s : Driver) (core : Fin 2) (channel : Nat) : Driver :=
  if channel < 8 ∧ s.obj channel = true then
    { s with obj := update s.obj channel false, installed := false }.rmtIsrDeregister core
  else s

end Driver

def step (s : Driver) : Call → Option Driver
  | .install core channel mallocOk allocOk =>
    some (s.rmtDriverInstall core channel mallocOk allocOk)
  | .uninstall core channel => some (s.rmtDriverUninstall core channel)

structure Independent (s : Driver) : Prop where
  serves : s.registered ≠ [] ↔ ∃ channel, s.obj channel = true
  once : s.registered.length ≤ 1
  freedOnce : s.freed.Nodup

/-- With the flag clear, the handler is registered exactly if no channel is installed; and a channel
is uninstalled on the core of the handler exactly while no other channel is installed. -/
def Alone (s : Driver) : Call → Prop
  | .install _ channel mallocOk allocOk => channel < 8 → s.obj channel = false → mallocOk = true →
      s.installed = false → (allocOk = true ↔ ∀ other, s.obj other = false)
  | .uninstall core channel => channel < 8 → s.obj channel = true →
      ((∀ handle cpu, s.intrHandle = some (handle, cpu) → cpu = core) ↔
        ∀ other, s.obj other = true → other = channel)

structure Inv (s : Driver) : Prop where
  serving : (∃ channel, s.obj channel = true) →
    ∃ handle cpu, s.intrHandle = some (handle, cpu) ∧ s.registered = [handle]
  idle : (∀ channel, s.obj channel = false) → s.installed = false ∧ s.registered = []
  known : ∀ handle, handle ∈ s.registered ∨ handle ∈ s.freed → handle < s.allocated
  apart : ∀ handle ∈ s.registered, handle ∉ s.freed
  nodup : s.freed.Nodup

theorem inv_initial : Inv initial :=
  ⟨by simp [initial], fun _ => ⟨rfl, rfl⟩, by simp [initial], by simp [initial], List.nodup_nil⟩

theorem Inv.independent (h : Inv s) : Independent s := by
  by_cases hobj : ∃ channel, s.obj channel = true
  · obtain ⟨handle, cpu, -, hreg⟩ := h.serving hobj
    exact ⟨by simp [hreg, hobj], by simp [hreg], h.nodup⟩
  · have hreg := (h.idle (by simpa using hobj)).2
    exact ⟨by simp [hreg, hobj], by simp [hreg], h.nodup⟩

/-! ### Installing -/

theorem install_clear {s : Driver} (hnew : channel < 8 ∧ s.obj channel = false ∧ mallocOk = true)
    (hclear : s.installed = false) : s.rmtDriverInstall core channel mallocOk allocOk =
      { s.rmtIsrRegister core allocOk with
        obj := update s.obj channel true, installed := true } := by
  rw [Driver.rmtDriverInstall, if_pos hnew, if_pos hclear]

theorem Inv.withChannel (h : Inv s) (hobj : ∃ c, s.obj c = true) (channel : Nat)
    (installed : Bool) :
    Inv { s with obj := update s.obj channel true, installed := installed } :=
  ⟨fun _ => h.serving hobj, fun hnone => by simpa using hnone channel, h.known, h.apart, h.nodup⟩

theorem Inv.install (h : Inv s) (hok : s.installed = false →
    (allocOk = true ↔ ∀ c, s.obj c = false)) :
    Inv (s.rmtDriverInstall core channel mallocOk allocOk) := by
  by_cases hnew : channel < 8 ∧ s.obj channel = false ∧ mallocOk = true
  · by_cases hobj : ∃ c, s.obj c = true
    · by_cases hclear : s.installed = false
      · -- the flag was cleared on the other core: the allocation fails and nothing is registered
        have halloc : allocOk ≠ true := by
          rw [ne_eq, hok hclear]
          push Not
          simpa using hobj
        rw [install_clear hnew hclear, Driver.rmtIsrRegister, if_neg fun hand => halloc hand.2]
        exact h.withChannel hobj channel true
      · rw [Driver.rmtDriverInstall, if_pos hnew, if_neg hclear]
        exact h.withChannel hobj channel s.installed
    · have hidle : ∀ c, s.obj c = false := by simpa using hobj
      obtain ⟨hclear, hreg⟩ := h.idle hidle
      have hfresh : s.allocated ∉ s.freed := fun hmem => Nat.lt_irrefl _ (h.known _ (.inr hmem))
      rw [install_clear hnew hclear, Driver.rmtIsrRegister,
        if_pos ⟨hclear, (hok hclear).2 hidle⟩, hreg]
      refine ⟨fun _ => ⟨_, core, rfl, rfl⟩, fun hnone => by simpa using hnone channel,
        fun handle hmem => ?_, by simpa using hfresh, h.nodup⟩
      rcases hmem with hmem | hmem
      · rw [List.mem_singleton.1 hmem]
        exact Nat.lt_succ_self _
      · exact Nat.lt_succ_of_lt (h.known handle (.inr hmem))
  · rw [Driver.rmtDriverInstall, if_neg hnew]
    exact h

/-! ### Uninstalling -/

theorem uninstall_eq {s : Driver} (hnow : channel < 8 ∧ s.obj channel = true)
    (hh : s.intrHandle = some (handle, cpu)) (hreg : s.registered = [handle]) :
    s.rmtDriverUninstall core channel =
      { s with obj := update s.obj channel false, installed := false,
               registered := if cpu = core then [] else [handle],
               freed := if cpu = core then handle :: s.freed else s.freed } := by
  rw [Driver.rmtDriverUninstall, if_pos hnow]
  simp only [Driver.rmtIsrDeregister, hh, hreg, ne_eq, ite_not]
  split_ifs <;> simp

theorem alone_iff {s : Driver} (hnow : channel < 8 ∧ s.obj channel = true)
    (hh : s.intrHandle = some (handle, cpu)) : Alone s (.uninstall core channel) ↔
      (cpu = core ↔ ∀ other, update s.obj channel false other = false) := by
  have hcore : (∀ handle' cpu', s.intrHandle = some (handle', cpu') → cpu' = core) ↔
      cpu = core := by
    simp [hh]
  have hothers : (∀ other, s.obj other = true → other = channel) ↔
      ∀ other, update s.obj channel false other = false := by
    refine forall_congr' fun other => ?_
    by_cases hc : other = channel
    · simp [hc]
    · rw [update_of_ne hc]
      simp [hc]
  simp only [Alone, hnow.1, hnow.2, hcore, hothers, true_imp_iff]

theorem Inv.uninstall (h : Inv s) (halone : Alone s (.uninstall core channel)) :
    Inv (s.rmtDriverUninstall core channel) := by
  by_cases hnow : channel < 8 ∧ s.obj channel = true
  · obtain ⟨handle, cpu, hh, hreg⟩ := h.serving ⟨channel, hnow.2⟩
    have hknown := h.known handle (.inl (by simp [hreg]))
    rw [alone_iff hnow hh] at halone
    rw [uninstall_eq hnow hh hreg]
    by_cases hcore : cpu = core
    · have hnone := halone.1 hcore
      simp only [hcore, if_true]
      refine ⟨fun ⟨c, hc⟩ => by simp [hnone c] at hc, fun _ => ⟨rfl, rfl⟩, fun other hmem => ?_,
        by simp, List.nodup_cons.2 ⟨h.apart handle (by simp [hreg]), h.nodup⟩⟩
      rcases List.mem_cons.1 (hmem.resolve_left (by simp)) with rfl | hmem
      · exact hknown
      · exact h.known _ (.inr hmem)
    · simp only [hcore, if_false, ← hreg]
      exact ⟨fun _ => ⟨handle, cpu, hh, hreg⟩, fun hnone => absurd (halone.2 hnone) hcore, h.known,
        h.apart, h.nodup⟩
  · rw [Driver.rmtDriverUninstall, if_neg hnow]
    exact h

/-! ### Runs -/

theorem Inv.step (s : Driver) (call : Call) (s' : Driver) (h : Inv s) (halone : Alone s call)
    (hs' : step s call = some s') : Inv s' := by
  cases call with
  | install core channel mallocOk allocOk =>
    cases hs'
    by_cases hnew : channel < 8 ∧ s.obj channel = false ∧ mallocOk = true
    · exact h.install (halone hnew.1 hnew.2.1 hnew.2.2)
    · rw [Driver.rmtDriverInstall, if_neg hnew]
      exact h
  | uninstall core channel =>
    cases hs'
    exact h.uninstall halone

theorem Inv.breaks (s : Driver) (call : Call) (s' : Driver) (h : Inv s) (hnot : ¬ Alone s call)
    (hs' : EspIdf.Rmt.step s call = some s') : ¬ Independent s' := by
  intro hind
  cases call with
  | install core channel mallocOk allocOk =>
    cases hs'
    simp only [Alone, Classical.not_imp] at hnot
    obtain ⟨hchannel, hobj, hmalloc, hclear, hiff⟩ := hnot
    rw [install_clear ⟨hchannel, hobj, hmalloc⟩ hclear] at hind
    by_cases hsome : ∃ c, s.obj c = true
    · obtain ⟨handle, cpu, -, hreg⟩ := h.serving hsome
      have halloc : allocOk = true := by
        by_contra halloc
        exact hiff (iff_of_false halloc (by push Not; simpa using hsome))
      have := hind.once
      simp [Driver.rmtIsrRegister, hclear, halloc, hreg] at this
    · have hidle : ∀ c, s.obj c = false := by simpa using hsome
      have halloc : ¬ allocOk = true := fun halloc => hiff (iff_of_true halloc hidle)
      refine hind.serves.2 ⟨channel, by simp⟩ ?_
      simp [Driver.rmtIsrRegister, halloc, (h.idle hidle).2]
  | uninstall core channel =>
    cases hs'
    by_cases hnow : channel < 8 ∧ s.obj channel = true
    · obtain ⟨handle, cpu, hh, hreg⟩ := h.serving ⟨channel, hnow.2⟩
      rw [alone_iff hnow hh] at hnot
      rw [uninstall_eq hnow hh hreg] at hind
      have hserves := hind.serves
      by_cases hcore : cpu = core
      · simp only [hcore, if_true, ne_eq, not_true_eq_false, false_iff, not_exists] at hserves
        exact hnot (iff_of_true hcore (by simpa using hserves))
      · simp only [hcore, if_false, ne_eq, List.cons_ne_nil, not_false_eq_true, true_iff] at hserves
        obtain ⟨c, hc⟩ := hserves
        exact hnot (iff_of_false hcore fun hnone => by simp [hnone c] at hc)
    · exact hnot fun hchannel hobj => absurd ⟨hchannel, hobj⟩ hnow

/-- After every call of a run the handler is registered exactly while a channel is installed, once,
and no handle is freed twice, if and only if the calls meet `Alone`. -/
theorem channels_independent_iff (calls : List Call) :
    Always step Independent initial calls ↔ Along step Alone initial calls :=
  always_iff_along (fun _ => Inv.independent) Inv.step Inv.breaks inv_initial calls

/-- Two channels are installed; uninstalling the first leaves the second without its handler. -/
theorem uninstall_stops_other : ¬ Always step Independent initial
    [.install 0 0 true true, .install 0 1 true true, .uninstall 0 0] := by
  intro h
  obtain ⟨-, h0⟩ := h
  obtain ⟨-, h1⟩ := h0 _ rfl
  obtain ⟨-, h2⟩ := h1 _ rfl
  exact (h2 _ rfl).serves.2 ⟨1, by decide⟩ (by decide)

end EspIdf.Rmt
