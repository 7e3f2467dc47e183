import Mathlib.Algebra.Ring.Nat
import Mathlib.Data.Fin.Basic
import EspIdf.Device.Runs
import EspIdf.EspErr

/-! Inter-processor calls (`ipc.c`): the tasks that call and the two ipc tasks, interleaved, with
every access to a shared variable and every semaphore operation as one step. -/

namespace EspIdf.Ipc

open EspIdf.Runs
open Function (update update_of_ne update_self)

inductive IpcWait where
  | waitForStart
  | waitForEnd
  deriving DecidableEq, Repr

abbrev Cpu := Fin 2

structure Job where
  cpu : Cpu
  func : Nat
  arg : Nat
  deriving DecidableEq, Repr

/-- The arguments of `esp_ipc_call_and_wait`. -/
structure Call where
  cpuId : Nat
  func : Nat
  arg : Nat
  waitFor : IpcWait
  deriving DecidableEq, Repr

def espIpcCall (cpuId func arg : Nat) : Call := ⟨cpuId, func, arg, .waitForStart⟩

def espIpcCallBlocking (cpuId func arg : Nat) : Call := ⟨cpuId, func, arg, .waitForEnd⟩

inductive TaskPc where
  | idle
  | takeMutex (j : Job) (waitFor : IpcWait)
  | setFunc (j : Job) (waitFor : IpcWait)
  | setArg (j : Job) (waitFor : IpcWait)
  | setWait (j : Job) (waitFor : IpcWait)
  | giveSem (j : Job) (waitFor : IpcWait)
  | takeAck (j : Job) (waitFor : IpcWait)
  | giveMutex (j : Job) (waitFor : IpcWait)
  deriving DecidableEq, Repr

/-- Where an ipc task stands in its loop.  From the fetch on it has its copies of the function and
of the argument; `k` numbers the fetches. -/
inductive IpcPc where
  | takeSem
  | readFunc
  | readArg (func : Nat)
  | testStart (k func arg : Nat)
  | call (k func arg : Nat)
  | inside (k func arg : Nat)
  | testEnd (k func arg : Nat)
  deriving DecidableEq, Repr

/-- The variables of `ipc.c`, the places of all tasks, and what has happened so far. -/
structure State where
  ipcMutex : Bool
  ipcSem : Cpu → Bool
  ipcAck : Bool
  func : Nat
  funcArg : Nat
  ipcWait : IpcWait
  task : Nat → TaskPc
  ipc : Cpu → IpcPc
  /-- the jobs in the order in which the ipc tasks fetched them -/
  fetched : List Job
  /-- the calls of functions, each with the number of its fetch -/
  started : List (Nat × Job)
  /-- the fetches whose function has returned -/
  finished : List Nat
  /-- the calls that returned `ESP_OK`, in this order -/
  returned : List (Job × IpcWait)

/-- The state after `esp_ipc_init`. -/
def initial : State where
  ipcMutex := true
  ipcSem _ := false
  ipcAck := false
  func := 0
  funcArg := 0
  ipcWait := .waitForStart
  task _ := .idle
  ipc _ := .takeSem
  fetched := []
  started := []
  finished := []
  returned := []

namespace State

def setTask (s : State) (t : Nat) (pc : TaskPc) : State :=
  { s with task := Function.update s.task t pc }

def setIpc (s : State) (cpu : Cpu) (pc : IpcPc) : State :=
  { s with ipc := Function.update s.ipc cpu pc }

/-- The checks of `esp_ipc_call_and_wait`: the code of a call that is refused. -/
def refused (c : Call) (schedulerRunning : Bool) : Option EspErr :=
  if 2 ≤ c.cpuId then some .invalidArg
  else if !schedulerRunning then some .invalidState
  else none

/-- The library's instance by one name, for the numbers of `Fin 2` below. -/
theorem neZero_2 : NeZero 2 := Nat.instNeZeroSucc

attribute [local instance] neZero_2

/-- A task enters `esp_ipc_call_and_wait`. -/
def enter (s : State) (t : Nat) (c : Call) (schedulerRunning : Bool) : Option State :=
  match s.task t with
  | .idle =>
    if (refused c schedulerRunning).isSome then some s
    else some (s.setTask t (.takeMutex ⟨Fin.ofNat 2 c.cpuId, c.func, c.arg⟩ c.waitFor))
  | _ => none

def taskStep (s : State) (t : Nat) : Option State :=
  match s.task t with
  | .idle => none
  | .takeMutex j w =>
    if s.ipcMutex then some { s.setTask t (.setFunc j w) with ipcMutex := false } else none
  | .setFunc j w => some { s.setTask t (.setArg j w) with func := j.func }
  | .setArg j w => some { s.setTask t (.setWait j w) with funcArg := j.arg }
  -- the source stores the constant, not `wait_for`
  | .setWait j w => some { s.setTask t (.giveSem j w) with ipcWait := .waitForStart }
  | .giveSem j w =>
    some { s.setTask t (.takeAck j w) with ipcSem := Function.update s.ipcSem j.cpu true }
  | .takeAck j w =>
    if s.ipcAck then some { s.setTask t (.giveMutex j w) with ipcAck := false } else none
  | .giveMutex j w =>
    some { s.setTask t .idle with ipcMutex := true, returned := s.returned ++ [(j, w)] }

def ipcStep (s : State) (cpu : Cpu) : Option State :=
  match s.ipc cpu with
  | .takeSem =>
    if s.ipcSem cpu then
      some { s.setIpc cpu .readFunc with ipcSem := Function.update s.ipcSem cpu false }
    else none
  | .readFunc => some (s.setIpc cpu (.readArg s.func))
  | .readArg func =>
    some { s.setIpc cpu (.testStart s.fetched.length func s.funcArg) with
      fetched := s.fetched ++ [⟨cpu, func, s.funcArg⟩] }
  | .testStart k func arg =>
    some { s.setIpc cpu (.call k func arg) with
      ipcAck := s.ipcAck || s.ipcWait = .waitForStart }
  | .call k func arg =>
    some { s.setIpc cpu (.inside k func arg) with
      started := s.started ++ [(k, ⟨cpu, func, arg⟩)] }
  | .inside k func arg =>
    some { s.setIpc cpu (.testEnd k func arg) with finished := s.finished ++ [k] }
  | .testEnd _ _ _ =>
    some { s.setIpc cpu .takeSem with ipcAck := s.ipcAck || s.ipcWait = .waitForEnd }

end State

inductive Event where
  | enter (t : Nat) (c : Call) (schedulerRunning : Bool)
  | task (t : Nat)
  | ipc (cpu : Cpu)
  deriving DecidableEq, Repr

def step (s : State) : Event → Option State
  | .enter t c running => s.enter t c running
  | .task t => s.taskStep t
  | .ipc cpu => s.ipcStep cpu

/-- What callers rely on: the `k`-th call that returned is the `k`-th fetch; each fetch starts its
function at most once and, if it has not yet, within two steps of its ipc task; nothing else is
started; and a blocking call that returned has its function behind it. -/
structure CallsRight (s : State) : Prop where
  own : ∀ (k : Nat) (j : Job) (w : IpcWait), s.returned[k]? = some (j, w) → s.fetched[k]? = some j
  once : (s.started.map (·.1)).Nodup
  starts : ∀ (k : Nat) (j : Job), s.fetched[k]? = some j → (k, j) ∈ s.started ∨
    ∃ s', run step s [.ipc j.cpu, .ipc j.cpu] = some s' ∧ (k, j) ∈ s'.started
  only : ∀ (k : Nat) (j : Job), (k, j) ∈ s.started → s.fetched[k]? = some j
  blocks : ∀ (k : Nat) (j : Job), s.returned[k]? = some (j, .waitForEnd) → k ∈ s.finished

/-! ### The handshake -/

def TaskPc.Inside : TaskPc → Prop
  | .idle => False
  | .takeMutex _ _ => False
  | _ => True

def TaskPc.waitFor : TaskPc → Option IpcWait
  | .idle => none
  | .takeMutex _ w | .setFunc _ w | .setArg _ w | .setWait _ w | .giveSem _ w | .takeAck _ w
  | .giveMutex _ w => some w

def IpcPc.Quiet : IpcPc → Prop
  | .readFunc => False
  | .readArg _ => False
  | .testStart _ _ _ => False
  | _ => True

variable {s s' : State} {t : Nat} {pc : TaskPc} {cpu : Cpu} {j : Job}

namespace State

structure Still (s : State) : Prop where
  sem : ∀ cpu, s.ipcSem cpu = false
  ack : s.ipcAck = false
  quiet : ∀ cpu, (s.ipc cpu).Quiet

inductive Shakes (s : State) (j : Job) : Prop
  | given (hsem : s.ipcSem j.cpu = true) (hack : s.ipcAck = false) (hquiet : (s.ipc j.cpu).Quiet)
      (hfetched : s.fetched = s.returned.map (·.1))
  | taken (hsem : s.ipcSem j.cpu = false) (hack : s.ipcAck = false)
      (hipc : s.ipc j.cpu = .readFunc ∨ s.ipc j.cpu = .readArg j.func)
      (hfetched : s.fetched = s.returned.map (·.1))
  | fetched (k : Nat) (hsem : s.ipcSem j.cpu = false) (hack : s.ipcAck = false)
      (hipc : s.ipc j.cpu = .testStart k j.func j.arg)
      (hfetched : s.fetched = s.returned.map (·.1) ++ [j])
  | acked (hsem : s.ipcSem j.cpu = false) (hack : s.ipcAck = true) (hquiet : (s.ipc j.cpu).Quiet)
      (hfetched : s.fetched = s.returned.map (·.1) ++ [j])

def Holder (s : State) : TaskPc → Prop
  | .idle => False
  | .takeMutex _ _ => False
  | .setFunc _ _ => s.Still ∧ s.fetched = s.returned.map (·.1)
  | .setArg j _ => s.Still ∧ s.fetched = s.returned.map (·.1) ∧ s.func = j.func
  | .setWait j _ => s.Still ∧ s.fetched = s.returned.map (·.1) ∧ s.func = j.func ∧
      s.funcArg = j.arg
  | .giveSem j _ => s.Still ∧ s.fetched = s.returned.map (·.1) ∧ s.func = j.func ∧
      s.funcArg = j.arg
  | .takeAck j _ => s.func = j.func ∧ s.funcArg = j.arg ∧
      (∀ cpu, cpu ≠ j.cpu → s.ipcSem cpu = false ∧ (s.ipc cpu).Quiet) ∧ s.Shakes j
  | .giveMutex j _ => s.Still ∧ s.fetched = s.returned.map (·.1) ++ [j]

inductive Locked (s : State) : Prop
  | free (hmutex : s.ipcMutex = true) (hout : ∀ t, ¬ (s.task t).Inside) (hstill : s.Still)
      (hfetched : s.fetched = s.returned.map (·.1))
  | held (t : Nat) (hmutex : s.ipcMutex = false) (hout : ∀ u, u ≠ t → ¬ (s.task u).Inside)
      (hholder : s.Holder (s.task t))

def pending (s : State) (cpu : Cpu) : Option (Nat × Job) :=
  match s.ipc cpu with
  | .testStart k func arg => some (k, ⟨cpu, func, arg⟩)
  | .call k func arg => some (k, ⟨cpu, func, arg⟩)
  | _ => none

structure Logged (s : State) : Prop where
  mode : s.ipcWait = .waitForStart
  once : (s.started.map (·.1)).Nodup
  only : ∀ (k : Nat) (j : Job), (k, j) ∈ s.started → s.fetched[k]? = some j
  covered : ∀ (k : Nat) (j : Job), s.fetched[k]? = some j → (k, j) ∈ s.started ∨ s.pending j.cpu =
    some (k, j)
  waiting : ∀ (cpu : Cpu) (k : Nat) (j : Job), s.pending cpu = some (k, j) → s.fetched[k]? = some j ∧
    k ∉ s.started.map (·.1)

theorem locked_initial : initial.Locked :=
  .free rfl (fun _ h => h) ⟨fun _ => rfl, rfl, fun _ => trivial⟩ rfl

theorem logged_initial : initial.Logged :=
  ⟨rfl, List.nodup_nil, by simp [initial], by simp [initial], by simp [initial, pending]⟩

theorem Locked.holder (h : s.Locked) (hin : (s.task t).Inside) :
    s.ipcMutex = false ∧ (∀ u, u ≠ t → ¬ (s.task u).Inside) ∧ s.Holder (s.task t) := by
  cases h with
  | free hmutex hout hstill hfetched => exact absurd hin (hout t)
  | held u hmutex hout hholder =>
    by_cases htu : t = u
    · subst htu
      exact ⟨hmutex, hout, hholder⟩
    · exact absurd hin (hout t htu)

theorem Locked.holder_at (h : s.Locked) (hpc : s.task t = pc)
    (hin : pc.Inside) :
    s.ipcMutex = false ∧ (∀ u, u ≠ t → ¬ (s.task u).Inside) ∧ s.Holder pc := by
  subst hpc
  exact h.holder hin

theorem out_update {task : Nat → TaskPc}
    (hout : ∀ u, u ≠ t → ¬ (task u).Inside) (u : Nat) (hu : u ≠ t) :
    ¬ (update task t pc u).Inside := by
  rw [update_of_ne hu]
  exact hout u hu

theorem out_update_all {task : Nat → TaskPc}
    (hout : ∀ u, u ≠ t → ¬ (task u).Inside) (hpc : ¬ pc.Inside) (u : Nat) :
    ¬ (update task t pc u).Inside := by
  by_cases hu : u = t
  · subst hu
    rwa [update_self]
  · exact out_update hout u hu

theorem locked_of_task (htask : s'.task = update s.task t pc) (hmutex : s'.ipcMutex = false)
    (hout : ∀ u, u ≠ t → ¬ (s.task u).Inside) (hholder : s'.Holder pc) : s'.Locked := by
  refine .held t hmutex ?_ ?_
  · rw [htask]
    exact out_update hout
  · rw [htask, update_self]
    exact hholder

theorem Locked.enter {c : Call} {running : Bool} (h : s.Locked)
    (hs' : s.enter t c running = some s') : s'.Locked := by
  unfold State.enter at hs'
  split at hs'
  case h_2 => simp at hs'
  case h_1 hidle =>
    split_ifs at hs'
    · cases hs'
      exact h
    · cases hs'
      cases h with
      | free hmutex hout hstill hfetched =>
        exact .free hmutex (out_update_all (fun u _ => hout u) id)
          ⟨hstill.sem, hstill.ack, hstill.quiet⟩ hfetched
      | held u hmutex hout hholder =>
        have hut : u ≠ t := by
          rintro rfl
          rw [hidle] at hholder
          exact hholder
        refine .held u hmutex (fun v hv => ?_) ?_
        · by_cases hvt : v = t
          · subst hvt
            simp [setTask, TaskPc.Inside]
          · simpa [setTask, update_of_ne hvt] using hout v hv
        · have hsame : (s.setTask t (.takeMutex ⟨Fin.ofNat 2 c.cpuId, c.func, c.arg⟩
              c.waitFor)).task u = s.task u := by
            simp [setTask, update_of_ne hut]
          rw [hsame]
          cases hpc : s.task u <;> rw [hpc] at hholder
          case idle | takeMutex => exact hholder
          case setFunc | setArg | setWait | giveSem | giveMutex =>
            exact ⟨⟨hholder.1.sem, hholder.1.ack, hholder.1.quiet⟩, hholder.2⟩
          case takeAck j w =>
            obtain ⟨hfunc, harg, hothers, hshakes⟩ := hholder
            refine ⟨hfunc, harg, hothers, ?_⟩
            cases hshakes with
            | given hsem hack hquiet hfetched => exact .given hsem hack hquiet hfetched
            | taken hsem hack hipc hfetched => exact .taken hsem hack hipc hfetched
            | fetched k hsem hack hipc hfetched => exact .fetched k hsem hack hipc hfetched
            | acked hsem hack hquiet hfetched => exact .acked hsem hack hquiet hfetched

theorem Locked.taskStep (h : s.Locked)
    (hs' : s.taskStep t = some s') : s'.Locked := by
  unfold State.taskStep at hs'
  split at hs'
  case h_1 => simp at hs'
  case h_2 j w hpc =>
    split_ifs at hs' with hmutex
    cases hs'
    cases h with
    | held u hheld _ _ => simp [hheld] at hmutex
    | free _ hout hstill hfetched =>
      exact locked_of_task rfl rfl (fun u _ => hout u) ⟨⟨hstill.sem, hstill.ack, hstill.quiet⟩, hfetched⟩
  case h_3 j w hpc =>
    cases hs'
    obtain ⟨hmutex, hout, hholder⟩ := h.holder_at hpc trivial
    obtain ⟨hstill, hfetched⟩ := hholder
    exact locked_of_task rfl hmutex hout ⟨⟨hstill.sem, hstill.ack, hstill.quiet⟩, hfetched, rfl⟩
  case h_4 j w hpc =>
    cases hs'
    obtain ⟨hmutex, hout, hholder⟩ := h.holder_at hpc trivial
    obtain ⟨hstill, hfetched, hfunc⟩ := hholder
    exact locked_of_task rfl hmutex hout ⟨⟨hstill.sem, hstill.ack, hstill.quiet⟩, hfetched, hfunc, rfl⟩
  case h_5 j w hpc =>
    cases hs'
    obtain ⟨hmutex, hout, hholder⟩ := h.holder_at hpc trivial
    obtain ⟨hstill, hfetched, hfunc, harg⟩ := hholder
    exact locked_of_task rfl hmutex hout ⟨⟨hstill.sem, hstill.ack, hstill.quiet⟩, hfetched, hfunc, harg⟩
  case h_6 j w hpc =>
    cases hs'
    obtain ⟨hmutex, hout, hholder⟩ := h.holder_at hpc trivial
    obtain ⟨hstill, hfetched, hfunc, harg⟩ := hholder
    refine locked_of_task rfl hmutex hout ⟨hfunc, harg, fun cpu hcpu => ⟨?_, hstill.quiet cpu⟩, ?_⟩
    · simpa [update_of_ne hcpu] using hstill.sem cpu
    · exact .given (by simp) hstill.ack (hstill.quiet j.cpu) hfetched
  case h_7 j w hpc =>
    split_ifs at hs' with hack
    cases hs'
    obtain ⟨hmutex, hout, hholder⟩ := h.holder_at hpc trivial
    obtain ⟨-, -, hothers, hshakes⟩ := hholder
    -- the acknowledge is there only at the end of the handshake
    cases hshakes with
    | given _ hno _ _ => simp [hno] at hack
    | taken _ hno _ _ => simp [hno] at hack
    | fetched _ _ hno _ _ => simp [hno] at hack
    | acked hsem _ hquiet hfetched =>
      refine locked_of_task rfl hmutex hout ⟨⟨fun cpu => ?_, rfl, fun cpu => ?_⟩, hfetched⟩
      · by_cases hcpu : cpu = j.cpu
        · rw [hcpu]
          exact hsem
        · exact (hothers cpu hcpu).1
      · by_cases hcpu : cpu = j.cpu
        · rw [hcpu]
          exact hquiet
        · exact (hothers cpu hcpu).2
  case h_8 j w hpc =>
    cases hs'
    obtain ⟨hmutex, hout, hholder⟩ := h.holder_at hpc trivial
    obtain ⟨hstill, hfetched⟩ := hholder
    exact .free rfl (out_update_all hout id) ⟨hstill.sem, hstill.ack, hstill.quiet⟩
      (by simpa [setTask] using hfetched)

theorem ipcStep_quiet (hmode : s.ipcWait = .waitForStart)
    (hquiet : (s.ipc cpu).Quiet) (hsem : s.ipcSem cpu = false) (hs' : s.ipcStep cpu = some s') :
    ∃ pc started finished, pc.Quiet ∧
      s' = { s.setIpc cpu pc with started := started, finished := finished } := by
  unfold State.ipcStep at hs'
  split at hs'
  case h_1 => simp [hsem] at hs'
  case h_2 hpc | h_3 hpc | h_4 hpc =>
    rw [hpc] at hquiet
    exact absurd hquiet id
  case h_5 | h_6 =>
    cases hs'
    refine ⟨_, _, _, ?_, rfl⟩
    trivial
  case h_7 =>
    cases hs'
    exact ⟨.takeSem, s.started, s.finished, trivial, by simp [setIpc, hmode]⟩

structure IpcFrame (s s' : State) (cpu : Cpu) : Prop where
  mutex : s'.ipcMutex = s.ipcMutex
  task : s'.task = s.task
  func : s'.func = s.func
  funcArg : s'.funcArg = s.funcArg
  others : ∀ c, c ≠ cpu → s'.ipc c = s.ipc c
  sems : ∀ c, c ≠ cpu → s'.ipcSem c = s.ipcSem c

theorem ipcStep_frame (hs' : s.ipcStep cpu = some s') : IpcFrame s s' cpu := by
  unfold State.ipcStep at hs'
  split at hs'
  case h_1 =>
    split_ifs at hs'
    cases hs'
    exact ⟨rfl, rfl, rfl, rfl, fun c hc => update_of_ne hc _ _,
      fun c hc => update_of_ne hc _ _⟩
  case h_2 | h_3 | h_4 | h_5 | h_6 | h_7 =>
    cases hs'
    exact ⟨rfl, rfl, rfl, rfl, fun c hc => update_of_ne hc _ _, fun _ _ => rfl⟩

theorem Still.update (h : s.Still) (cpu : Cpu) {pc : IpcPc} (hpc : pc.Quiet)
    (started : List (Nat × Job)) (finished : List Nat) :
    { s.setIpc cpu pc with started := started, finished := finished }.Still := by
  refine ⟨h.sem, h.ack, fun c => ?_⟩
  by_cases hc : c = cpu
  · subst hc
    simpa [setIpc] using hpc
  · simpa [setIpc, update_of_ne hc] using h.quiet c

theorem Shakes.update (h : s.Shakes j) {pc : IpcPc}
    (hquiet : (s.ipc cpu).Quiet) (hpc : pc.Quiet) (started : List (Nat × Job))
    (finished : List Nat) :
    { s.setIpc cpu pc with started := started, finished := finished }.Shakes j := by
  have hstays : cpu ≠ j.cpu → (s.setIpc cpu pc).ipc j.cpu = s.ipc j.cpu := fun hne => by
    simp [setIpc, update_of_ne (Ne.symm hne)]
  have hkeeps : (s.ipc j.cpu).Quiet → ((s.setIpc cpu pc).ipc j.cpu).Quiet := fun hq => by
    by_cases hne : cpu = j.cpu
    · subst hne
      simpa [setIpc] using hpc
    · rwa [hstays hne]
  have hother : ¬ (s.ipc j.cpu).Quiet → cpu ≠ j.cpu := fun hnot heq => hnot (heq ▸ hquiet)
  cases h with
  | given hsem hack hq hfetched => exact .given hsem hack (hkeeps hq) hfetched
  | taken hsem hack hipc hfetched =>
    have hne := hother (by rcases hipc with hipc | hipc <;> rw [hipc] <;> exact id)
    exact .taken hsem hack (by simpa [hstays hne] using hipc) hfetched
  | fetched k hsem hack hipc hfetched =>
    have hne := hother (by rw [hipc]; exact id)
    exact .fetched k hsem hack (by simpa [hstays hne] using hipc) hfetched
  | acked hsem hack hq hfetched => exact .acked hsem hack (hkeeps hq) hfetched

theorem Shakes.serve (h : s.Shakes j)
    (hmode : s.ipcWait = .waitForStart) (hfunc : s.func = j.func) (harg : s.funcArg = j.arg)
    (hs' : s.ipcStep j.cpu = some s') : s'.Shakes j := by
  cases h with
  | given hsem hack hq hfetched =>
    by_cases hpc : s.ipc j.cpu = .takeSem
    · simp only [State.ipcStep, hpc, hsem, if_true] at hs'
      cases hs'
      exact .taken (by simp) hack (.inl (by simp [setIpc])) hfetched
    · unfold State.ipcStep at hs'
      split at hs'
      case h_1 heq => exact absurd heq hpc
      case h_2 heq | h_3 heq | h_4 heq =>
        rw [heq] at hq
        exact absurd hq id
      case h_5 | h_6 | h_7 =>
        cases hs'
        exact .given hsem (by simp [setIpc, hack, hmode]) (by simp [setIpc, IpcPc.Quiet]) hfetched
  | taken hsem hack hipc hfetched =>
    rcases hipc with hpc | hpc
    · simp only [State.ipcStep, hpc] at hs'
      cases hs'
      exact .taken hsem hack (.inr (by simp [setIpc, hfunc])) hfetched
    · simp only [State.ipcStep, hpc] at hs'
      cases hs'
      exact .fetched s.fetched.length hsem hack (by simp [setIpc, harg])
        (by simp [setIpc, hfetched, harg])
  | fetched k hsem hack hpc hfetched =>
    simp only [State.ipcStep, hpc] at hs'
    cases hs'
    exact .acked hsem (by simp [hmode]) (by simp [setIpc, IpcPc.Quiet]) hfetched
  | acked hsem hack hq hfetched =>
    obtain ⟨pc, started, finished, hpc, rfl⟩ := ipcStep_quiet hmode hq hsem hs'
    exact (Shakes.acked hsem hack hq hfetched).update hq hpc started finished

theorem Locked.ipcStep (h : s.Locked)
    (hmode : s.ipcWait = .waitForStart) (hs' : s.ipcStep cpu = some s') : s'.Locked := by
  cases h with
  | free hmutex hout hstill hfetched =>
    obtain ⟨pc, started, finished, hpc, rfl⟩ :=
      ipcStep_quiet hmode (hstill.quiet cpu) (hstill.sem cpu) hs'
    exact .free hmutex hout (hstill.update cpu hpc started finished) hfetched
  | held t hmutex hout hholder =>
    cases htask : s.task t <;> rw [htask] at hholder
    case idle | takeMutex => exact absurd hholder id
    case setFunc | setArg | setWait | giveSem | giveMutex =>
      obtain ⟨hstill, hrest⟩ := hholder
      obtain ⟨pc, started, finished, hpc, rfl⟩ :=
        ipcStep_quiet hmode (hstill.quiet cpu) (hstill.sem cpu) hs'
      refine .held t hmutex hout ?_
      simp only [setIpc, htask]
      exact ⟨hstill.update cpu hpc started finished, hrest⟩
    case takeAck j w =>
      obtain ⟨hfunc, harg, hothers, hshakes⟩ := hholder
      have hsame := ipcStep_frame hs'
      refine .held t (hsame.mutex ▸ hmutex) (hsame.task ▸ hout) ?_
      rw [hsame.task, htask]
      refine ⟨hsame.func ▸ hfunc, hsame.funcArg ▸ harg, fun c hc => ?_, ?_⟩
      · by_cases hcpu : c = cpu
        · subst hcpu
          obtain ⟨pc, started, finished, hpc, rfl⟩ :=
            ipcStep_quiet hmode (hothers c hc).2 (hothers c hc).1 hs'
          exact ⟨(hothers c hc).1, by simpa [setIpc] using hpc⟩
        · rw [hsame.others c hcpu, hsame.sems c hcpu]
          exact hothers c hc
      · by_cases hcpu : cpu = j.cpu
        · subst hcpu
          exact hshakes.serve hmode hfunc harg hs'
        · obtain ⟨pc, started, finished, hpc, rfl⟩ :=
            ipcStep_quiet hmode (hothers cpu hcpu).2 (hothers cpu hcpu).1 hs'
          exact hshakes.update (hothers cpu hcpu).2 hpc started finished

/-! ### The logs -/

theorem Logged.taskStep (h : s.Logged) (hs' : s.taskStep t = some s') :
    s'.Logged := by
  unfold State.taskStep at hs'
  split at hs'
  case h_1 => simp at hs'
  case h_2 =>
    split_ifs at hs'
    cases hs'
    exact ⟨h.mode, h.once, h.only, h.covered, h.waiting⟩
  case h_7 =>
    split_ifs at hs'
    cases hs'
    exact ⟨h.mode, h.once, h.only, h.covered, h.waiting⟩
  case h_5 =>
    cases hs'
    exact ⟨rfl, h.once, h.only, h.covered, h.waiting⟩
  case h_3 | h_4 | h_6 | h_8 =>
    cases hs'
    exact ⟨h.mode, h.once, h.only, h.covered, h.waiting⟩

theorem Logged.enter {c : Call} {running : Bool} (h : s.Logged)
    (hs' : s.enter t c running = some s') : s'.Logged := by
  unfold State.enter at hs'
  split at hs'
  case h_2 => simp at hs'
  case h_1 =>
    split_ifs at hs'
    · cases hs'
      exact h
    · cases hs'
      exact ⟨h.mode, h.once, h.only, h.covered, h.waiting⟩

theorem pending_of_ne {cpu c : Cpu} {pc : IpcPc} (h : c ≠ cpu) :
    (s.setIpc cpu pc).pending c = s.pending c := by
  simp [pending, setIpc, update_of_ne h]

theorem Logged.samePending (h : s.Logged) (hmode : s'.ipcWait = s.ipcWait)
    (hfetched : s'.fetched = s.fetched) (hstarted : s'.started = s.started)
    (hpending : ∀ cpu, s'.pending cpu = s.pending cpu) : s'.Logged := by
  refine ⟨hmode.trans h.mode, hstarted ▸ h.once, ?_, ?_, ?_⟩
  · rw [hfetched, hstarted]
    exact h.only
  · intro k j hk
    rw [hstarted, hpending]
    exact h.covered k j (hfetched ▸ hk)
  · intro cpu k j hk
    rw [hstarted, hfetched]
    exact h.waiting cpu k j (hpending cpu ▸ hk)

theorem pending_setIpc_eq {pc : IpcPc}
    (h : (s.setIpc cpu pc).pending cpu = s.pending cpu) (c : Cpu) :
    (s.setIpc cpu pc).pending c = s.pending c := by
  by_cases hc : c = cpu
  · subst hc
    exact h
  · exact pending_of_ne hc

theorem pending_cpu {k : Nat} (h : s.pending cpu = some (k, j)) : j.cpu = cpu := by
  unfold pending at h
  split at h
  case h_3 => simp at h
  case h_1 | h_2 =>
    obtain ⟨-, rfl⟩ := Prod.mk.inj (Option.some.inj h)
    rfl

theorem getElem?_append_of_some {α : Type*} {l m : List α} {k : Nat} {x : α}
    (h : l[k]? = some x) : (l ++ m)[k]? = some x := by
  rw [List.getElem?_append_left (List.getElem?_eq_some_iff.1 h).1]
  exact h

theorem Logged.fetch {func : Nat} (h : s.Logged) (hpc : s.ipc cpu = .readArg func) :
    Logged { s.setIpc cpu (.testStart s.fetched.length func s.funcArg) with
      fetched := s.fetched ++ [⟨cpu, func, s.funcArg⟩] } := by
  have hnone : s.pending cpu = none := by simp [pending, hpc]
  refine ⟨h.mode, h.once, fun k j hk => getElem?_append_of_some (h.only k j hk), ?_, ?_⟩
  · intro k j hk
    rcases Nat.lt_or_ge k s.fetched.length with hlt | hge
    · rw [List.getElem?_append_left hlt] at hk
      refine (h.covered k j hk).imp_right fun hpend => ?_
      have hne : j.cpu ≠ cpu := by
        intro heq
        rw [heq, hnone] at hpend
        cases hpend
      exact (pending_of_ne hne).trans hpend
    · rw [List.getElem?_append_right hge, List.getElem?_singleton] at hk
      split_ifs at hk with hzero
      cases hk
      obtain rfl : k = s.fetched.length := by omega
      simp [pending, setIpc]
  · intro c k j hpend
    by_cases hc : c = cpu
    · subst hc
      have hkj : s.fetched.length = k ∧ ⟨c, func, s.funcArg⟩ = j := by
        simpa [pending, setIpc] using hpend
      obtain ⟨rfl, rfl⟩ := hkj
      refine ⟨by simp, fun hmem => ?_⟩
      obtain ⟨⟨k, j⟩, hkj, hk⟩ := List.mem_map.1 hmem
      have hlt := (List.getElem?_eq_some_iff.1 (h.only k j hkj)).1
      exact absurd hk (Nat.ne_of_lt hlt)
    · obtain ⟨hfetched, hfree⟩ := h.waiting c k j ((pending_of_ne hc).symm.trans hpend)
      exact ⟨getElem?_append_of_some hfetched, hfree⟩

theorem Logged.start {k func arg : Nat} (h : s.Logged)
    (hpc : s.ipc cpu = .call k func arg) :
    Logged { s.setIpc cpu (.inside k func arg) with
      started := s.started ++ [(k, ⟨cpu, func, arg⟩)] } := by
  have hpend : s.pending cpu = some (k, ⟨cpu, func, arg⟩) := by simp [pending, hpc]
  obtain ⟨hfetched, hfree⟩ := h.waiting cpu k _ hpend
  refine ⟨h.mode, ?_, ?_, ?_, ?_⟩
  · rw [List.map_append, List.nodup_append]
    refine ⟨h.once, by simp, fun a ha b hb => ?_⟩
    obtain rfl : b = k := by simpa using hb
    exact fun heq => hfree (heq ▸ ha)
  · intro k' j' hmem
    rcases List.mem_append.1 hmem with hmem | hmem
    · exact h.only k' j' hmem
    · obtain ⟨rfl, rfl⟩ := Prod.mk.inj (List.mem_singleton.1 hmem)
      exact hfetched
  · intro k' j' hk'
    rcases h.covered k' j' hk' with hmem | hother
    · exact .inl (List.mem_append_left _ hmem)
    · by_cases hc : j'.cpu = cpu
      · rw [hc, hpend] at hother
        obtain ⟨rfl, rfl⟩ := Prod.mk.inj (Option.some.inj hother)
        exact .inl (by simp)
      · exact .inr ((pending_of_ne hc).trans hother)
  · intro c k' j' hother
    by_cases hc : c = cpu
    · subst hc
      simp [pending, setIpc] at hother
    · have hold : s.pending c = some (k', j') := (pending_of_ne hc).symm.trans hother
      obtain ⟨hfetched', hfree'⟩ := h.waiting c k' j' hold
      refine ⟨hfetched', fun hmem => ?_⟩
      rw [List.map_append, List.mem_append] at hmem
      rcases hmem with hmem | hmem
      · exact hfree' hmem
      · -- one number belongs to one fetch, and the fetch to one processor
        obtain rfl : k' = k := by simpa using hmem
        obtain rfl := Option.some.inj (hfetched'.symm.trans hfetched)
        exact hc (pending_cpu hold).symm

theorem Logged.ipcStep (h : s.Logged)
    (hs' : s.ipcStep cpu = some s') : s'.Logged := by
  unfold State.ipcStep at hs'
  split at hs'
  case h_1 hpc =>
    split_ifs at hs'
    cases hs'
    exact h.samePending rfl rfl rfl (pending_setIpc_eq (by simp [pending, setIpc, hpc]))
  case h_2 hpc | h_4 hpc | h_6 hpc | h_7 hpc =>
    cases hs'
    exact h.samePending rfl rfl rfl (pending_setIpc_eq (by simp [pending, setIpc, hpc]))
  case h_3 func hpc =>
    cases hs'
    exact h.fetch hpc
  case h_5 k func arg hpc =>
    cases hs'
    exact h.start hpc

/-! ### What the callers see -/

theorem Locked.own (h : s.Locked) {k : Nat} {w : IpcWait}
    (hk : s.returned[k]? = some (j, w)) : s.fetched[k]? = some j := by
  have hmap : (s.returned.map (·.1))[k]? = some j := by simp [hk]
  have hall : s.fetched = s.returned.map (·.1) ∨ ∃ j', s.fetched = s.returned.map (·.1) ++ [j'] := by
    cases h with
    | free _ _ _ hfetched => exact .inl hfetched
    | held t _ _ hholder =>
      cases htask : s.task t <;> rw [htask] at hholder
      case idle | takeMutex => exact absurd hholder id
      case setFunc => exact .inl hholder.2
      case setArg | setWait | giveSem => exact .inl hholder.2.1
      case giveMutex => exact .inr ⟨_, hholder.2⟩
      case takeAck =>
        cases hholder.2.2.2 with
        | given _ _ _ hfetched => exact .inl hfetched
        | taken _ _ _ hfetched => exact .inl hfetched
        | fetched _ _ _ _ hfetched => exact .inr ⟨_, hfetched⟩
        | acked _ _ _ hfetched => exact .inr ⟨_, hfetched⟩
  rcases hall with hall | ⟨j', hall⟩
  · rw [hall]
    exact hmap
  · rw [hall]
    exact getElem?_append_of_some hmap

theorem ipcStep_call {k func arg : Nat} (hpc : s.ipc cpu = .call k func arg) :
    ∃ s', s.ipcStep cpu = some s' ∧ s'.ipc cpu = .inside k func arg ∧ (k, ⟨cpu, func, arg⟩) ∈
      s'.started := by
  simp [ipcStep, hpc, setIpc]

theorem starts_of_pending {k : Nat} (h : s.pending cpu = some (k, j)) :
    ∃ s', run step s [.ipc cpu, .ipc cpu] = some s' ∧ (k, j) ∈ s'.started := by
  unfold pending at h
  split at h
  case h_3 => simp at h
  case h_1 k func arg hpc =>
    obtain ⟨rfl, rfl⟩ := Prod.mk.inj (Option.some.inj h)
    obtain ⟨s₁, hs₁, hpc₁⟩ : ∃ s₁, s.ipcStep cpu = some s₁ ∧ s₁.ipc cpu = .call k func arg := by
      simp [ipcStep, hpc, setIpc]
    obtain ⟨s₂, hs₂, -, hstarted⟩ := ipcStep_call hpc₁
    exact ⟨s₂, run_cons.2 ⟨s₁, hs₁, run_cons.2 ⟨s₂, hs₂, rfl⟩⟩, hstarted⟩
  case h_2 k func arg hpc =>
    obtain ⟨rfl, rfl⟩ := Prod.mk.inj (Option.some.inj h)
    obtain ⟨s₁, hs₁, hpc₁, hstarted⟩ := ipcStep_call hpc
    obtain ⟨s₂, hs₂, hkeep⟩ : ∃ s₂, s₁.ipcStep cpu = some s₂ ∧ s₂.started = s₁.started := by
      simp [ipcStep, hpc₁, setIpc]
    exact ⟨s₂, run_cons.2 ⟨s₁, hs₁, run_cons.2 ⟨s₂, hs₂, rfl⟩⟩, hkeep ▸ hstarted⟩

structure NoneBlocking (s : State) : Prop where
  returned : ∀ c ∈ s.returned, c.2 = .waitForStart
  tasks : ∀ t, (s.task t).waitFor ≠ some .waitForEnd

theorem NoneBlocking.update (h : s.NoneBlocking) (t : Nat)
    (hpc : pc.waitFor ≠ some .waitForEnd) (u : Nat) :
    (update s.task t pc u).waitFor ≠ some .waitForEnd := by
  by_cases hu : u = t
  · subst hu
    simpa using hpc
  · rw [update_of_ne hu]
    exact h.tasks u

theorem NoneBlocking.taskStep (h : s.NoneBlocking)
    (hs' : s.taskStep t = some s') : s'.NoneBlocking := by
  have htask := h.tasks t
  unfold State.taskStep at hs'
  split at hs'
  case h_1 => simp at hs'
  case h_2 hpc | h_7 hpc =>
    rw [hpc] at htask
    split_ifs at hs'
    cases hs'
    exact ⟨h.returned, h.update t htask⟩
  case h_3 hpc | h_4 hpc | h_5 hpc | h_6 hpc =>
    rw [hpc] at htask
    cases hs'
    exact ⟨h.returned, h.update t htask⟩
  case h_8 j w hpc =>
    rw [hpc] at htask
    cases hs'
    refine ⟨fun c hc => ?_, h.update t (by simp [TaskPc.waitFor])⟩
    rcases List.mem_append.1 hc with hc | hc
    · exact h.returned c hc
    · obtain rfl := List.mem_singleton.1 hc
      cases w with
      | waitForStart => rfl
      | waitForEnd => exact absurd rfl htask

theorem ipcStep_returned (hs' : s.ipcStep cpu = some s') :
    s'.returned = s.returned := by
  unfold State.ipcStep at hs'
  split at hs'
  case h_1 =>
    split_ifs at hs'
    cases hs'
    rfl
  case h_2 | h_3 | h_4 | h_5 | h_6 | h_7 =>
    cases hs'
    rfl

end State

/-- The calls of the event list satisfy `allowed`. -/
def OnlyCalls (allowed : Call → Prop) : Event → Prop
  | .enter _ c _ => allowed c
  | .task _ => True
  | .ipc _ => True

/-- No call asks a processor that exists to wait for the end of the function. -/
def Unblocking (c : Call) : Prop := c.waitFor = .waitForEnd → 2 ≤ c.cpuId

structure Sound (s : State) : Prop where
  locked : s.Locked
  logged : s.Logged
  none : s.NoneBlocking

theorem sound_initial : Sound initial :=
  ⟨State.locked_initial, State.logged_initial, by simp [initial], by simp [initial, TaskPc.waitFor]⟩

theorem Sound.step {e : Event} (h : Sound s) (he : OnlyCalls Unblocking e)
    (hs' : step s e = some s') : Sound s' := by
  cases e with
  | task t => exact ⟨h.locked.taskStep hs', h.logged.taskStep hs', h.none.taskStep hs'⟩
  | ipc cpu =>
    refine ⟨h.locked.ipcStep h.logged.mode hs', h.logged.ipcStep hs', ?_⟩
    exact ⟨State.ipcStep_returned hs' ▸ h.none.returned, (State.ipcStep_frame hs').task ▸ h.none.tasks⟩
  | enter t c running =>
    refine ⟨h.locked.enter hs', h.logged.enter hs', ?_⟩
    simp only [EspIdf.Ipc.step, State.enter] at hs'
    split at hs'
    case h_2 => simp at hs'
    case h_1 =>
      split_ifs at hs' with hrefused
      · cases hs'
        exact h.none
      · cases hs'
        refine ⟨h.none.returned, h.none.update t fun hwait => ?_⟩
        have hcpu := he (Option.some.inj hwait)
        simp [State.refused, hcpu] at hrefused

theorem Sound.right (h : Sound s) : CallsRight s where
  own _ _ _ := h.locked.own
  once := h.logged.once
  starts k j hk := (h.logged.covered k j hk).imp_right State.starts_of_pending
  only := h.logged.only
  blocks k j hk := by
    have hmem := List.mem_of_getElem? hk
    cases h.none.returned _ hmem

def earlyReturn (c : Call) (cpu : Cpu) : List Event :=
  [.enter 0 c true, .task 0, .task 0, .task 0, .task 0, .task 0,
    .ipc cpu, .ipc cpu, .ipc cpu, .ipc cpu, .task 0, .task 0]

theorem earlyReturn_run (func arg : Nat) (cpu : Cpu) :
    ∃ s, run step initial (earlyReturn ⟨cpu, func, arg, .waitForEnd⟩ cpu) = some s ∧
      s.returned = [(⟨cpu, func, arg⟩, .waitForEnd)] ∧ s.finished = [] := by
  obtain rfl | rfl : cpu = 0 ∨ cpu = 1 := by revert cpu; decide
  · exact ⟨_, rfl, rfl, rfl⟩
  · exact ⟨_, rfl, rfl, rfl⟩

/-- Every interleaving of the allowed calls runs each function as promised exactly if none of these
calls asks a processor that exists to wait for the end of the function. -/
theorem calls_right_iff (allowed : Call → Prop) :
    (∀ events : List Event, (∀ e ∈ events, OnlyCalls allowed e) →
      Always step CallsRight initial events) ↔ ∀ c, allowed c → Unblocking c := by
  constructor
  · intro h c hc hwait
    by_contra hcpu
    obtain ⟨s, hs, hreturned, hfinished⟩ := earlyReturn_run c.func c.arg ⟨c.cpuId, by omega⟩
    have hcall : (⟨c.cpuId, c.func, c.arg, .waitForEnd⟩ : Call) = c := by
      rw [← hwait]
    have hright := (h (earlyReturn c ⟨c.cpuId, by omega⟩) (by
      intro e he
      simp only [earlyReturn, List.mem_cons, List.not_mem_nil, or_false] at he
      rcases he with rfl | rfl | rfl | rfl | rfl | rfl | rfl | rfl | rfl | rfl | rfl | rfl <;>
        first | exact hc | trivial)).final (hcall ▸ hs)
    have hdone := hright.blocks 0 ⟨⟨c.cpuId, by omega⟩, c.func, c.arg⟩ (by rw [hreturned]; rfl)
    rw [hfinished] at hdone
    exact absurd hdone List.not_mem_nil
  · intro h events hevents
    have halong : Along step (fun _ => OnlyCalls Unblocking) initial events :=
        along_of_forall fun e he => by
        have hallowed := hevents e he
        cases e with
        | enter t c running => exact h c hallowed
        | task t => trivial
        | ipc cpu => trivial
    exact (always_of_step (fun _ _ _ hs he => hs.step he) sound_initial halong).imp
      fun _ => Sound.right

theorem blocking_call_returns_early :
    ∃ s, run step initial (earlyReturn (espIpcCallBlocking 1 7 8) 1) = some s ∧
      s.returned = [(⟨1, 7, 8⟩, .waitForEnd)] ∧ s.finished = [] ∧ ¬ CallsRight s := by
  obtain ⟨s, hs, hreturned, hfinished⟩ := earlyReturn_run 7 8 1
  refine ⟨s, hs, hreturned, hfinished, fun hright => ?_⟩
  have hdone := hright.blocks 0 ⟨1, 7, 8⟩ (by rw [hreturned]; rfl)
  rw [hfinished] at hdone
  exact absurd hdone List.not_mem_nil

/-- In every interleaving, blocking calls included: at most one task is past the mutex, the `k`-th
call that returned is the `k`-th fetch, and only fetches are started, each at most once. -/
theorem calls_exclusive (events : List Event) :
    Always step (fun s => (∀ t u, (s.task t).Inside → (s.task u).Inside → t = u) ∧
      (∀ (k : Nat) (j : Job) (w : IpcWait), s.returned[k]? = some (j, w) → s.fetched[k]? = some j) ∧
      (s.started.map (·.1)).Nodup ∧ ∀ k j, (k, j) ∈ s.started → s.fetched[k]? = some j)
      initial events := by
  refine (always_of_step (I := fun s => s.Locked ∧ s.Logged) (C := fun _ _ => True) ?_
    ⟨State.locked_initial, State.logged_initial⟩ (along_of_forall fun _ _ => trivial)).imp ?_
  · rintro s e s' ⟨hlocked, hlogged⟩ - hs'
    cases e with
    | enter => exact ⟨hlocked.enter hs', hlogged.enter hs'⟩
    | task => exact ⟨hlocked.taskStep hs', hlogged.taskStep hs'⟩
    | ipc => exact ⟨hlocked.ipcStep hlogged.mode hs', hlogged.ipcStep hs'⟩
  · rintro s ⟨hlocked, hlogged⟩
    refine ⟨fun t u ht hu => ?_, fun _ _ _ => hlocked.own, hlogged.once, hlogged.only⟩
    by_contra hne
    exact (hlocked.holder hu).2.1 t hne ht

end EspIdf.Ipc
