import EspIdf.Device.Runs

/-! The locks of the SHA engines (`hwcrypto/sha.c`): tasks that lock and unlock them, interleaved,
with each lock operation and each assignment between lock operations as one step.

The three `in_use` flags, read under `state_change_lock`, switch the unit on and off; but a task
that locks an engine sets its flag only after it has given that lock back.  Every user has power as
long as nobody finds all engines idle while a task stands in that gap. -/

namespace EspIdf.Sha

open EspIdf.Runs
open Function (update update_of_ne update_self)

inductive ShaType where
  | sha1
  | sha2_256
  | sha2_384
  | sha2_512
  deriving DecidableEq, Repr

inductive Engine where
  | sha1
  | sha256
  | sha512
  deriving DecidableEq, Repr

def shaEngineIndex : ShaType → Engine
  | .sha1 => .sha1
  | .sha2_256 => .sha256
  | _ => .sha512

inductive InnerPc where
  | takeState
  | testIdle
  | enableClk
  | clearReset
  | giveState
  | setInUse
  deriving DecidableEq, Repr

inductive UnlockPc where
  | takeState
  | clearInUse
  | testIdle
  | setReset
  | disableClk
  | giveState
  | giveEngine
  deriving DecidableEq, Repr

inductive Pc where
  | idle
  | acquire (e : Engine)
  | tryAcquire (e : Engine)
  | inner (e : Engine) (pc : InnerPc)
  | unlock (e : Engine) (pc : UnlockPc)
  deriving DecidableEq, Repr

/-- The variables of `sha.c`, the bits of the two DPORT registers that it writes, and the places of
all tasks. -/
structure State where
  lock : Engine → Option Nat
  stateChangeLock : Option Nat
  inUse : Engine → Bool
  clkEn : Bool
  rstSha : Bool
  rstSecureboot : Bool
  task : Nat → Pc
  /-- the task whose lock call has returned and whose unlock call has not started -/
  user : Engine → Option Nat
  assertFailed : Bool

def initial (clkEn rstSha rstSecureboot : Bool) : State where
  lock _ := none
  stateChangeLock := none
  inUse _ := false
  clkEn := clkEn
  rstSha := rstSha
  rstSecureboot := rstSecureboot
  task _ := .idle
  user _ := none
  assertFailed := false

namespace State

def shaEnginesAllIdle (s : State) : Bool :=
  !s.inUse .sha1 && !s.inUse .sha256 && !s.inUse .sha512

def setTask (s : State) (t : Nat) (pc : Pc) : State :=
  { s with task := Function.update s.task t pc }

/-- `ets_sha_enable`, which only sets up the registers of the engine, is left out of `enableClk`. -/
def lockEngineInner (s : State) (t : Nat) (e : Engine) : InnerPc → Option State
  | .takeState =>
    if s.stateChangeLock = none then
      some { s.setTask t (.inner e .testIdle) with stateChangeLock := some t }
    else none
  | .testIdle =>
    some (s.setTask t (.inner e (if s.shaEnginesAllIdle then .enableClk else .giveState)))
  | .enableClk => some { s.setTask t (.inner e .clearReset) with clkEn := true }
  | .clearReset =>
    some { s.setTask t (.inner e .giveState) with rstSha := false, rstSecureboot := false }
  | .giveState => some { s.setTask t (.inner e .setInUse) with stateChangeLock := none }
  | .setInUse =>
    if s.inUse e then some { s with assertFailed := true }
    else some { s.setTask t .idle with
      inUse := Function.update s.inUse e true
      user := Function.update s.user e (some t) }

def unlockEngine (s : State) (t : Nat) (e : Engine) : UnlockPc → Option State
  | .takeState =>
    if s.stateChangeLock = none then
      some { s.setTask t (.unlock e .clearInUse) with stateChangeLock := some t }
    else none
  | .clearInUse =>
    if s.inUse e then
      some { s.setTask t (.unlock e .testIdle) with inUse := Function.update s.inUse e false }
    else some { s with assertFailed := true }
  | .testIdle =>
    some (s.setTask t (.unlock e (if s.shaEnginesAllIdle then .setReset else .giveState)))
  | .setReset => some { s.setTask t (.unlock e .disableClk) with rstSha := true }
  | .disableClk => some { s.setTask t (.unlock e .giveState) with clkEn := false }
  | .giveState => some { s.setTask t (.unlock e .giveEngine) with stateChangeLock := none }
  | .giveEngine => some { s.setTask t .idle with lock := Function.update s.lock e none }

def taskStep (s : State) (t : Nat) : Option State :=
  match s.task t with
  | .idle => none
  | .acquire e =>
    if s.lock e = none then
      some { s.setTask t (.inner e .takeState) with lock := Function.update s.lock e (some t) }
    else none
  | .tryAcquire e =>
    if s.lock e = none then
      some { s.setTask t (.inner e .takeState) with lock := Function.update s.lock e (some t) }
    else some (s.setTask t .idle)
  | .inner e pc => s.lockEngineInner t e pc
  | .unlock e pc => s.unlockEngine t e pc

end State

/-- A task enters one of the three functions, or takes its next step there. -/
inductive Event where
  | lockEngine (t : Nat) (type : ShaType)
  | tryLockEngine (t : Nat) (type : ShaType)
  | unlockEngine (t : Nat) (type : ShaType)
  | task (t : Nat)
  deriving DecidableEq, Repr

/-- A task is in one call at a time and unlocks what it has locked; after a failed assertion
nothing happens. -/
def step (s : State) (ev : Event) : Option State :=
  if s.assertFailed then none
  else match ev with
    | .lockEngine t type =>
      if s.task t = .idle then some (s.setTask t (.acquire (shaEngineIndex type))) else none
    | .tryLockEngine t type =>
      if s.task t = .idle then some (s.setTask t (.tryAcquire (shaEngineIndex type))) else none
    | .unlockEngine t type =>
      if s.task t = .idle ∧ s.user (shaEngineIndex type) = some t then
        some { s.setTask t (.unlock (shaEngineIndex type) .takeState) with
          user := Function.update s.user (shaEngineIndex type) none }
      else none
    | .task t => s.taskStep t

namespace State

structure Powered (s : State) : Prop where
  clk : s.clkEn = true
  rst : s.rstSha = false
  secureboot : s.rstSecureboot = false

structure UsersPowered (s : State) : Prop where
  powered : ∀ (e : Engine) (t : Nat), s.user e = some t → s.Powered
  asserts : s.assertFailed = false

end State

/-- The condition on a step: no unlock finds all engines idle while a task has given
`state_change_lock` back and has not set its flag yet. -/
def NoneInGap (s : State) : Event → Prop
  | .task t => (∃ e, s.task t = .unlock e .testIdle) → s.shaEnginesAllIdle = true →
      ∀ (u : Nat) (e : Engine), s.task u ≠ .inner e .setInUse
  | _ => True

/-! ### Who has which lock -/

def Pc.Owns (pc : Pc) (e : Engine) : Prop :=
  (∃ p, pc = .inner e p) ∨ ∃ p, pc = .unlock e p

def Pc.HasState : Pc → Prop
  | .inner _ .testIdle | .inner _ .enableClk | .inner _ .clearReset | .inner _ .giveState => True
  | .unlock _ .clearInUse | .unlock _ .testIdle | .unlock _ .setReset | .unlock _ .disableClk
  | .unlock _ .giveState => True
  | _ => False

def Pc.Flagged (pc : Pc) (e : Engine) : Prop :=
  pc = .unlock e .takeState ∨ pc = .unlock e .clearInUse

theorem Pc.owns_inner : (Pc.inner e p).Owns e' ↔ e = e' := by
  simp [Pc.Owns]

theorem Pc.owns_unlock : (Pc.unlock e p).Owns e' ↔ e = e' := by
  simp [Pc.Owns]

theorem Pc.not_owns_idle : ¬ Pc.idle.Owns e := by
  simp [Pc.Owns]

theorem Pc.Flagged.owns {pc : Pc} (h : pc.Flagged e) : pc.Owns e :=
  h.elim (fun h => .inr ⟨_, h⟩) fun h => .inr ⟨_, h⟩

variable {s s' : State} {t u : Nat} {e : Engine}

namespace State

structure Locks (s : State) : Prop where
  owner : ∀ (t : Nat) (e : Engine), (s.task t).Owns e → s.lock e = some t
  user : ∀ (t : Nat) (e : Engine), s.user e = some t → s.lock e = some t ∧ ¬ (s.task t).Owns e
  state : ∀ t : Nat, (s.task t).HasState → s.stateChangeLock = some t

def Flags (s : State) : Prop :=
  ∀ e, s.inUse e = true ↔ (∃ t, s.user e = some t) ∨ ∃ t, (s.task t).Flagged e

def Needed (s : State) : Prop :=
  (∃ e, s.inUse e = true) ∨ ∃ t e, s.task t = .inner e .setInUse

structure Power (s : State) : Prop where
  on : s.Needed → s.Powered
  ready : ∀ (t : Nat) (e : Engine), s.task t = .inner e .giveState → s.Powered
  clk : ∀ (t : Nat) (e : Engine), s.task t = .inner e .clearReset → s.clkEn = true
  off : ∀ (t : Nat) (e : Engine),
    s.task t = .unlock e .setReset ∨ s.task t = .unlock e .disableClk → ¬ s.Needed

structure Inv (s : State) : Prop where
  locks : s.Locks
  flags : s.Flags
  power : s.Power
  asserts : s.assertFailed = false

theorem inv_initial (clkEn rstSha rstSecureboot : Bool) :
    (initial clkEn rstSha rstSecureboot).Inv where
  locks := ⟨fun _ _ h => absurd h Pc.not_owns_idle, by simp [initial], fun _ h => h.elim⟩
  flags := by simp [Flags, initial, Pc.Flagged]
  power := ⟨by simp [Needed, initial], by simp [initial], by simp [initial], by simp [initial]⟩
  asserts := rfl

theorem Inv.usersPowered (h : s.Inv) : s.UsersPowered where
  powered e t ht := h.power.on (.inl ⟨e, (h.flags e).2 (.inl ⟨t, ht⟩)⟩)
  asserts := h.asserts

theorem Locks.state_unique (h : s.Locks) (ht : (s.task t).HasState)
    (hu : (s.task u).HasState) : u = t :=
  Option.some.inj ((h.state u hu).symm.trans (h.state t ht))

theorem Locks.owner_unique (h : s.Locks)
    (ht : (s.task t).Owns e) (hu : (s.task u).Owns e) : u = t :=
  Option.some.inj ((h.owner u e hu).symm.trans (h.owner t e ht))

theorem Locks.no_user (h : s.Locks) {t : Nat} (ht : (s.task t).Owns e)
    (u : Nat) : s.user e ≠ some u := by
  intro hu
  obtain ⟨hlock, hnot⟩ := h.user u e hu
  obtain rfl : u = t := Option.some.inj (hlock.symm.trans (h.owner t e ht))
  exact hnot ht

section Moves

variable {pc : Pc}

theorem Locks.state_other (h : s.Locks) (hpc : ¬pc.HasState)
    (hu : (update s.task t pc u).HasState) : s.stateChangeLock = some u := by
  by_cases hut : u = t
  · subst hut
    rw [update_self] at hu
    exact absurd hu hpc
  · rw [update_of_ne hut] at hu
    exact h.state u hu

theorem Locks.move (h : s.Locks) (htask : s'.task = update s.task t pc)
    (hlock : s'.lock = s.lock) (huser : s'.user = s.user)
    (hstate : ∀ u, u ≠ t → s.stateChangeLock = some u → s'.stateChangeLock = some u)
    (howns : ∀ e, pc.Owns e ↔ (s.task t).Owns e)
    (hhas : pc.HasState → s'.stateChangeLock = some t) : s'.Locks := by
  refine ⟨fun u e hu => ?_, fun u e hu => ?_, fun u hu => ?_⟩
  · rw [htask] at hu
    rw [hlock]
    by_cases hut : u = t
    · subst hut
      rw [update_self, howns] at hu
      exact h.owner u e hu
    · rw [update_of_ne hut] at hu
      exact h.owner u e hu
  · rw [huser] at hu
    obtain ⟨hl, hnot⟩ := h.user u e hu
    refine ⟨hlock ▸ hl, ?_⟩
    rw [htask]
    by_cases hut : u = t
    · subst hut
      rwa [update_self, howns]
    · rwa [update_of_ne hut]
  · rw [htask] at hu
    by_cases hut : u = t
    · subst hut
      rw [update_self] at hu
      exact hhas hu
    · rw [update_of_ne hut] at hu
      exact hstate u hut (h.state u hu)

theorem Flags.move (h : s.Flags) (htask : s'.task = update s.task t pc)
    (hinUse : s'.inUse = s.inUse) (huser : s'.user = s.user)
    (hflag : ∀ e, pc.Flagged e ↔ (s.task t).Flagged e) : s'.Flags := by
  have hsame : ∀ (u : Nat) (e : Engine), (s'.task u).Flagged e ↔ (s.task u).Flagged e := by
    intro u e
    rw [htask]
    by_cases hut : u = t
    · subst hut
      rw [update_self, hflag]
    · rw [update_of_ne hut]
  intro e
  simp only [hinUse, huser, hsame]
  exact h e

theorem Powered.same (h : s.Powered) (hclk : s'.clkEn = s.clkEn) (hrst : s'.rstSha = s.rstSha)
    (hboot : s'.rstSecureboot = s.rstSecureboot) : s'.Powered :=
  ⟨hclk ▸ h.clk, hrst ▸ h.rst, hboot ▸ h.secureboot⟩

theorem Power.move (h : s.Power) (htask : s'.task = update s.task t pc)
    (hneeded : s'.Needed → s.Needed)
    (hclk : s'.clkEn = s.clkEn) (hrst : s'.rstSha = s.rstSha)
    (hboot : s'.rstSecureboot = s.rstSecureboot)
    (hready : ∀ e, pc = .inner e .giveState → s.Powered)
    (hreset : ∀ e, pc ≠ .inner e .clearReset)
    (hoff : ∀ e, pc = .unlock e .setReset ∨ pc = .unlock e .disableClk → ¬ s.Needed) :
    s'.Power := by
  refine ⟨fun hn => (h.on (hneeded hn)).same hclk hrst hboot, fun u e hu => ?_, fun u e hu => ?_,
    fun u e hu => ?_⟩
  all_goals
    rw [htask] at hu
    by_cases hut : u = t
    on_goal 1 => rw [hut, update_self] at hu
    on_goal 2 => rw [update_of_ne hut] at hu
  · exact (hready e hu).same hclk hrst hboot
  · exact (h.ready u e hu).same hclk hrst hboot
  · exact absurd hu (hreset e)
  · exact hclk ▸ h.clk u e hu
  · exact fun hn => hoff e hu (hneeded hn)
  · exact fun hn => h.off u e hu (hneeded hn)

theorem Needed.of_move (hn : s'.Needed) (htask : s'.task = update s.task t pc)
    (hinUse : ∀ e, s'.inUse e = true → s.inUse e = true) (hpc : ∀ e, pc ≠ .inner e .setInUse) :
    s.Needed := by
  rcases hn with ⟨e, he⟩ | ⟨u, e, hu⟩
  · exact .inl ⟨e, hinUse e he⟩
  · rw [htask] at hu
    by_cases hut : u = t
    · rw [hut, update_self] at hu
      exact absurd hu (hpc e)
    · rw [update_of_ne hut] at hu
      exact .inr ⟨u, e, hu⟩

theorem Power.elsewhere (h : s.Power) (htask : s'.task = update s.task t pc)
    (hinUse : ∀ e, s'.inUse e = true → s.inUse e = true) (hclk : s'.clkEn = s.clkEn)
    (hrst : s'.rstSha = s.rstSha) (hboot : s'.rstSecureboot = s.rstSecureboot)
    (hpc : ∀ e, pc ≠ .inner e .setInUse ∧ pc ≠ .inner e .giveState ∧ pc ≠ .inner e .clearReset ∧
      pc ≠ .unlock e .setReset ∧ pc ≠ .unlock e .disableClk) : s'.Power :=
  h.move htask (fun hn => hn.of_move htask hinUse fun e => (hpc e).1) hclk hrst hboot
    (fun e he => absurd he (hpc e).2.1) (fun e => (hpc e).2.2.1)
    fun e he => he.elim (fun he => absurd he (hpc e).2.2.2.1) fun he => absurd he (hpc e).2.2.2.2

end Moves

theorem not_allIdle_needed (h : s.shaEnginesAllIdle = false) : s.Needed := by
  unfold shaEnginesAllIdle at h
  by_cases h1 : s.inUse .sha1 = true
  · exact .inl ⟨_, h1⟩
  by_cases h2 : s.inUse .sha256 = true
  · exact .inl ⟨_, h2⟩
  by_cases h3 : s.inUse .sha512 = true
  · exact .inl ⟨_, h3⟩
  simp [h1, h2, h3] at h

theorem allIdle_inUse (h : s.shaEnginesAllIdle = true) (e : Engine) : s.inUse e = false := by
  simp only [shaEnginesAllIdle, Bool.and_eq_true, Bool.not_eq_true'] at h
  cases e
  · exact h.1.1
  · exact h.1.2
  · exact h.2

/-! ### The steps -/

section Steps

theorem flagged_update (h : pc.Flagged e' ↔ (s.task t).Flagged e') (u : Nat) :
    (update s.task t pc u).Flagged e' ↔ (s.task u).Flagged e' := by
  by_cases hut : u = t
  · rw [hut, update_self, h]
  · rw [update_of_ne hut]

theorem Inv.move (h : s.Inv) (howns : ∀ e, pc.Owns e ↔ (s.task t).Owns e)
    (hflag : ∀ e, pc.Flagged e ↔ (s.task t).Flagged e) (htask : s'.task = update s.task t pc)
    (hlock : s'.lock = s.lock) (huser : s'.user = s.user) (hinUse : s'.inUse = s.inUse)
    (hasserts : s'.assertFailed = s.assertFailed)
    (hstate : ∀ u, u ≠ t → s.stateChangeLock = some u → s'.stateChangeLock = some u)
    (hhas : pc.HasState → s'.stateChangeLock = some t) (hpower : s'.Power) : s'.Inv where
  locks := h.locks.move htask hlock huser hstate howns hhas
  flags := h.flags.move htask hinUse huser hflag
  power := hpower
  asserts := hasserts.trans h.asserts

theorem Locks.holds (h : s.Locks) (ht : s.task t = pc) (hpc : pc.HasState) : s.stateChangeLock =
    some t :=
  h.state t (ht ▸ hpc)

theorem Locks.others_free (h : s.Locks) (ht : (s.task t).HasState) (u : Nat) (hut : u ≠ t)
    (hu : s.stateChangeLock = some u) : v = some u :=
  absurd (Option.some.inj (hu.symm.trans (h.state t ht))) hut

theorem Power.enableClk (h : s.Power) : Power { s.setTask t (.inner e .clearReset) with
    clkEn := true } := by
  have hn : Needed { s.setTask t (.inner e .clearReset) with clkEn := true } → s.Needed :=
    fun hn => hn.of_move rfl (fun _ he => he) (by simp)
  refine ⟨fun hn' => ?_, fun u e' hu => ?_, fun _ _ _ => rfl, fun u e' hu hn' => ?_⟩
  · exact ⟨rfl, (h.on (hn hn')).rst, (h.on (hn hn')).secureboot⟩
  · by_cases hut : u = t
    · simp [setTask, hut] at hu
    · have hu' : s.task u = .inner e' .giveState := by simpa [setTask, hut] using hu
      exact ⟨rfl, (h.ready u e' hu').rst, (h.ready u e' hu').secureboot⟩
  · by_cases hut : u = t
    · simp [setTask, hut] at hu
    · exact h.off u e' (by simpa [setTask, hut] using hu) (hn hn')

theorem Power.clearReset (h : s.Power) (ht : s.task t = .inner e .clearReset) :
    Power { s.setTask t (.inner e .giveState) with rstSha := false, rstSecureboot := false } := by
  have hclk : s.clkEn = true := h.clk t e ht
  refine ⟨fun _ => ⟨hclk, rfl, rfl⟩, fun _ _ _ => ⟨hclk, rfl, rfl⟩, fun _ _ _ => hclk,
    fun u e' hu hn => ?_⟩
  by_cases hut : u = t
  · simp [setTask, hut] at hu
  · exact h.off u e' (by simpa [setTask, hut] using hu)
      (hn.of_move rfl (fun _ he => he) (by simp))

theorem Power.giveState (h : s.Power) (hlocks : s.Locks) (ht : s.task t = .inner e .giveState) :
    Power { s.setTask t (.inner e .setInUse) with stateChangeLock := none } := by
  have hon : s.Powered := h.ready t e ht
  have hhas : (s.task t).HasState := by rw [ht]; trivial
  refine ⟨fun _ => ⟨hon.clk, hon.rst, hon.secureboot⟩, fun _ _ _ =>
    ⟨hon.clk, hon.rst, hon.secureboot⟩,
    fun _ _ _ => hon.clk, fun u e' hu => ?_⟩
  by_cases hut : u = t
  · simp [setTask, hut] at hu
  · have hu' : s.task u = .unlock e' .setReset ∨ s.task u = .unlock e' .disableClk := by
      simpa [setTask, hut] using hu
    have huhas : (s.task u).HasState := by
      rcases hu' with hu' | hu' <;> rw [hu'] <;> trivial
    exact absurd (hlocks.state_unique hhas huhas) hut

theorem Inv.setInUse (h : s.Inv) (ht : s.task t = .inner e .setInUse) : Inv { s.setTask t .idle with
      inUse := update s.inUse e true
      user := update s.user e (some t) } := by
  have howns : (s.task t).Owns e := by rw [ht, Pc.owns_inner]
  have hneeded : s.Needed := .inr ⟨t, e, ht⟩
  refine ⟨⟨fun u e' hu => ?_, fun u e' hu => ?_, fun u hu => ?_⟩, fun e' => ?_, ?_, h.asserts⟩
  · by_cases hut : u = t
    · simp [setTask, hut, Pc.not_owns_idle] at hu
    · exact h.locks.owner u e' (by simpa [setTask, hut] using hu)
  · by_cases hee : e' = e
    · subst hee
      obtain rfl : t = u := by simpa using hu
      exact ⟨h.locks.owner t e' howns, by simp [setTask, Pc.not_owns_idle]⟩
    · have hu' : s.user e' = some u := by simpa [hee] using hu
      refine ⟨(h.locks.user u e' hu').1, ?_⟩
      by_cases hut : u = t
      · simp [setTask, hut, Pc.not_owns_idle]
      · simpa [setTask, hut] using (h.locks.user u e' hu').2
  · exact h.locks.state_other (by simp [Pc.HasState]) hu
  · by_cases hee : e' = e
    · subst hee
      simp
    · have hsame : Pc.idle.Flagged e' ↔ (s.task t).Flagged e' := by simp [ht, Pc.Flagged]
      simp only [setTask, update_of_ne hee, flagged_update hsame]
      exact h.flags e'
  · exact h.power.move rfl (fun _ => hneeded) rfl rfl rfl (by simp) (by simp) (by simp)

theorem Inv.lockEngineInner {p : InnerPc} (h : s.Inv) (ht : s.task t = .inner e p)
    (hs' : s.lockEngineInner t e p = some s') : s'.Inv := by
  have howns : ∀ q e', (Pc.inner e q).Owns e' ↔ (s.task t).Owns e' := by simp [ht, Pc.owns_inner]
  have hflag : ∀ q e', (Pc.inner e q).Flagged e' ↔ (s.task t).Flagged e' := by simp [ht, Pc.Flagged]
  cases p with
  | takeState =>
    simp only [State.lockEngineInner, Option.ite_none_right_eq_some] at hs'
    obtain ⟨hfree, hs'⟩ := hs'
    cases hs'
    refine h.move (howns _) (hflag _) rfl rfl rfl rfl rfl (fun u _ hu => by simp [hfree] at hu)
      (fun _ => rfl) ?_
    exact h.power.elsewhere rfl (fun _ he => he) rfl rfl rfl (by simp)
  | testIdle =>
    cases hs'
    have hhas := h.locks.holds ht trivial
    refine h.move (howns _) (hflag _) rfl rfl rfl rfl rfl (fun _ _ hu => hu) (fun _ => hhas) ?_
    cases hidle : s.shaEnginesAllIdle with
    | true =>
      exact h.power.elsewhere rfl (fun _ he => he) rfl rfl rfl (by simp)
    | false =>
      have hon : s.Powered := h.power.on (not_allIdle_needed hidle)
      exact h.power.move rfl (fun hn => hn.of_move rfl (fun _ he => he) (by simp)) rfl rfl rfl
        (fun _ _ => hon) (by simp) (by simp)
  | enableClk =>
    cases hs'
    have hhas := h.locks.holds ht trivial
    exact h.move (howns _) (hflag _) rfl rfl rfl rfl rfl (fun _ _ hu => hu)
      (fun _ => hhas) h.power.enableClk
  | clearReset =>
    cases hs'
    have hhas := h.locks.holds ht trivial
    exact h.move (howns _) (hflag _) rfl rfl rfl rfl rfl (fun _ _ hu => hu) (fun _ => hhas)
      (h.power.clearReset ht)
  | giveState =>
    cases hs'
    exact h.move (howns _) (hflag _) rfl rfl rfl rfl rfl (h.locks.others_free (by rw [ht]; trivial))
      (fun hno => hno.elim) (h.power.giveState h.locks ht)
  | setInUse =>
    have hclear : s.inUse e = false := by
      have howns : (s.task t).Owns e := by rw [ht, Pc.owns_inner]
      rw [Bool.eq_false_iff]
      intro hflag
      rcases (h.flags e).1 hflag with ⟨u, hu⟩ | ⟨u, hu⟩
      · exact h.locks.no_user howns u hu
      · obtain rfl := h.locks.owner_unique howns hu.owns
        simp [ht, Pc.Flagged] at hu
    rw [State.lockEngineInner, if_neg (by simp [hclear])] at hs'
    cases hs'
    exact h.setInUse ht

theorem Power.switchOff {q : UnlockPc} (h : s.Power) (hlocks : s.Locks)
    (ht : s.task t = .unlock e .setReset ∨ s.task t = .unlock e .disableClk)
    (htask : s'.task = update s.task t (.unlock e q)) (hinUse : s'.inUse = s.inUse) :
    s'.Power := by
  have hhas : (s.task t).HasState := by
    rcases ht with ht | ht <;> rw [ht] <;> trivial
  have hn : ¬ s'.Needed := fun hn =>
    h.off t e ht (hn.of_move htask (fun _ he => hinUse ▸ he) (by simp))
  refine ⟨fun hn' => absurd hn' hn, fun u e' hu => ?_, fun u e' hu => ?_, fun _ _ _ => hn⟩
  all_goals
    rw [htask] at hu
    by_cases hut : u = t
    on_goal 1 => simp [hut] at hu
    rw [update_of_ne hut] at hu
    exact absurd (hlocks.state_unique hhas (by rw [hu]; trivial)) hut

section

variable (h : s.Inv)
include h

theorem Inv.clearInUse (ht : s.task t = .unlock e .clearInUse) :
    Inv { s.setTask t (.unlock e .testIdle) with inUse := update s.inUse e false } := by
  have howns : (s.task t).Owns e := by rw [ht, Pc.owns_unlock]
  have hhas := h.locks.holds ht trivial
  refine ⟨?_, fun e' => ?_, ?_, h.asserts⟩
  · exact h.locks.move rfl rfl rfl (fun _ _ hu => hu)
      (fun e' => by rw [ht, Pc.owns_unlock, Pc.owns_unlock]) fun _ => hhas
  · by_cases hee : e' = e
    · subst hee
      have hflag : ∀ u, ¬ (update s.task t (.unlock e' .testIdle) u).Flagged e' := by
        intro u hu
        by_cases hut : u = t
        · simp [hut, Pc.Flagged] at hu
        · rw [update_of_ne hut] at hu
          exact hut (h.locks.owner_unique howns hu.owns)
      simp [setTask, hflag, h.locks.no_user howns]
    · have hsame : (Pc.unlock e .testIdle).Flagged e' ↔ (s.task t).Flagged e' := by
        simp [ht, Pc.Flagged, Ne.symm hee]
      simp only [setTask, update_of_ne hee, flagged_update hsame]
      exact h.flags e'
  · refine h.power.elsewhere rfl (fun e' he => ?_) rfl rfl rfl (by simp)
    by_cases hee : e' = e
    · simp [hee] at he
    · simpa [hee] using he

theorem Inv.giveEngine (ht : s.task t = .unlock e .giveEngine) :
    Inv { s.setTask t .idle with lock := update s.lock e none } := by
  have howns : (s.task t).Owns e := by rw [ht, Pc.owns_unlock]
  refine ⟨⟨fun u e' hu => ?_, fun u e' hu => ?_, fun u hu => ?_⟩, ?_, ?_, h.asserts⟩
  · by_cases hut : u = t
    · simp [setTask, hut, Pc.not_owns_idle] at hu
    · have hu' : (s.task u).Owns e' := by simpa [setTask, hut] using hu
      have hee : e' ≠ e := by
        rintro rfl
        exact hut (h.locks.owner_unique howns hu')
      simpa [hee] using h.locks.owner u e' hu'
  · obtain ⟨hlock, hnot⟩ := h.locks.user u e' hu
    have hee : e' ≠ e := by
      rintro rfl
      exact h.locks.no_user howns u hu
    refine ⟨by simpa [hee] using hlock, ?_⟩
    by_cases hut : u = t
    · simp [setTask, hut, Pc.not_owns_idle]
    · simpa [setTask, hut] using hnot
  · exact h.locks.state_other (by simp [Pc.HasState]) hu
  · exact h.flags.move rfl rfl rfl (fun e' => by simp [ht, Pc.Flagged])
  · exact h.power.elsewhere rfl (fun _ he => he) rfl rfl rfl (by simp)

theorem Inv.unlockEngine {p : UnlockPc} (ht : s.task t = .unlock e p)
    (hgap : NoneInGap s (.task t)) (hs' : s.unlockEngine t e p = some s') : s'.Inv := by
  have howns : ∀ q e', (Pc.unlock e q).Owns e' ↔ (s.task t).Owns e' := by simp [ht, Pc.owns_unlock]
  cases p with
  | takeState =>
    simp only [State.unlockEngine, Option.ite_none_right_eq_some] at hs'
    obtain ⟨hfree, hs'⟩ := hs'
    cases hs'
    refine h.move (howns _) (by simp [ht, Pc.Flagged]) rfl rfl rfl rfl rfl
      (fun u _ hu => by simp [hfree] at hu) (fun _ => rfl) ?_
    exact h.power.elsewhere rfl (fun _ he => he) rfl rfl rfl (by simp)
  | clearInUse =>
    have hset : s.inUse e = true := (h.flags e).2 (.inr ⟨t, by rw [ht]; exact .inr rfl⟩)
    rw [State.unlockEngine, if_pos hset] at hs'
    cases hs'
    exact h.clearInUse ht
  | testIdle =>
    cases hs'
    have hhas := h.locks.holds ht trivial
    refine h.move (howns _) ?_ rfl rfl rfl rfl rfl (fun _ _ hu => hu) (fun _ => hhas) ?_
    · split_ifs <;> simp [ht, Pc.Flagged]
    · cases hidle : s.shaEnginesAllIdle with
      | true =>
        -- the condition and the flags: nobody needs the unit
        have hn : ¬ s.Needed := by
          rintro (⟨e', he'⟩ | ⟨u, e', hu⟩)
          · simp [allIdle_inUse hidle e'] at he'
          · exact hgap ⟨e, ht⟩ hidle u e' hu
        exact h.power.move rfl (fun hn => hn.of_move rfl (fun _ he => he) (by simp)) rfl rfl rfl
          (by simp) (by simp) (fun _ _ => hn)
      | false =>
        exact h.power.elsewhere rfl (fun _ he => he) rfl rfl rfl (by simp)
  | setReset =>
    cases hs'
    have hhas := h.locks.holds ht trivial
    exact h.move (howns _) (by simp [ht, Pc.Flagged]) rfl rfl rfl rfl rfl (fun _ _ hu => hu)
      (fun _ => hhas) (h.power.switchOff h.locks (.inl ht) rfl rfl)
  | disableClk =>
    cases hs'
    have hhas := h.locks.holds ht trivial
    exact h.move (howns _) (by simp [ht, Pc.Flagged]) rfl rfl rfl rfl rfl (fun _ _ hu => hu)
      (fun _ => hhas) (h.power.switchOff h.locks (.inr ht) rfl rfl)
  | giveState =>
    cases hs'
    refine h.move (howns _) (by simp [ht, Pc.Flagged]) rfl rfl rfl rfl rfl
      (h.locks.others_free (by rw [ht]; trivial)) (fun hno => hno.elim) ?_
    exact h.power.elsewhere rfl (fun _ he => he) rfl rfl rfl (by simp)
  | giveEngine =>
    cases hs'
    exact h.giveEngine ht

theorem Inv.outside_move {pc : Pc} (ht : ∀ e, ¬ (s.task t).Owns e)
    (hpc : ∀ e, ¬ pc.Owns e) : (s.setTask t pc).Inv := by
  have hhas : ¬ pc.HasState := by
    cases pc with
    | inner e p => exact absurd (.inl ⟨p, rfl⟩) (hpc e)
    | unlock e p => exact absurd (.inr ⟨p, rfl⟩) (hpc e)
    | _ => exact fun hno => hno
  have hinner : ∀ e p, pc ≠ .inner e p := fun e p hp => hpc e (.inl ⟨p, hp⟩)
  have hunlock : ∀ e p, pc ≠ .unlock e p := fun e p hp => hpc e (.inr ⟨p, hp⟩)
  refine ⟨h.locks.move rfl rfl rfl (fun _ _ hu => hu) (fun e => iff_of_false (hpc e) (ht e))
    (fun hno => absurd hno hhas), h.flags.move rfl rfl rfl fun e => ?_, ?_, h.asserts⟩
  · exact iff_of_false (fun hf => hpc e hf.owns) fun hf => ht e hf.owns
  · exact h.power.elsewhere rfl (fun _ he => he) rfl rfl rfl fun e =>
      ⟨hinner e _, hinner e _, hinner e _, hunlock e _, hunlock e _⟩

theorem Inv.acquired (ht : ∀ e, ¬ (s.task t).Owns e) (hfree : s.lock e = none) :
    Inv { s.setTask t (.inner e .takeState) with lock := update s.lock e (some t) } := by
  refine ⟨⟨fun u e' hu => ?_, fun u e' hu => ?_, fun u hu => ?_⟩, ?_, ?_, h.asserts⟩
  · by_cases hut : u = t
    · obtain rfl : e = e' := by simpa [setTask, hut, Pc.owns_inner] using hu
      simp [hut]
    · have hu' : (s.task u).Owns e' := by simpa [setTask, hut] using hu
      have hlock := h.locks.owner u e' hu'
      have hee : e' ≠ e := by
        rintro rfl
        simp [hfree] at hlock
      simpa [hee] using hlock
  · obtain ⟨hlock, hnot⟩ := h.locks.user u e' hu
    have hee : e' ≠ e := by
      rintro rfl
      simp [hfree] at hlock
    refine ⟨by simpa [hee] using hlock, ?_⟩
    by_cases hut : u = t
    · simp [setTask, hut, Pc.owns_inner, Ne.symm hee]
    · simpa [setTask, hut] using hnot
  · exact h.locks.state_other (by simp [Pc.HasState]) hu
  · refine h.flags.move rfl rfl rfl fun e' => iff_of_false (by simp [Pc.Flagged]) ?_
    exact fun hf => ht e' hf.owns
  · exact h.power.elsewhere rfl (fun _ he => he) rfl rfl rfl (by simp)

theorem Inv.unlock_start (ht : s.task t = .idle) (huser : s.user e = some t) :
    Inv { s.setTask t (.unlock e .takeState) with user := update s.user e none } := by
  refine ⟨⟨fun u e' hu => ?_, fun u e' hu => ?_, fun u hu => ?_⟩, fun e' => ?_, ?_, h.asserts⟩
  · by_cases hut : u = t
    · obtain rfl : e = e' := by simpa [setTask, hut, Pc.owns_unlock] using hu
      exact hut ▸ (h.locks.user t e huser).1
    · exact h.locks.owner u e' (by simpa [setTask, hut] using hu)
  · have hee : e' ≠ e := by
      rintro rfl
      simp at hu
    have hu' : s.user e' = some u := by simpa [hee] using hu
    refine ⟨(h.locks.user u e' hu').1, ?_⟩
    by_cases hut : u = t
    · simp [setTask, hut, Pc.owns_unlock, Ne.symm hee]
    · simpa [setTask, hut] using (h.locks.user u e' hu').2
  · exact h.locks.state_other (by simp [Pc.HasState]) hu
  · by_cases hee : e' = e
    · subst hee
      have hset : s.inUse e' = true := (h.flags e').2 (.inl ⟨t, huser⟩)
      refine iff_of_true hset (.inr ⟨t, ?_⟩)
      simp [setTask, Pc.Flagged]
    · have hsame : (Pc.unlock e .takeState).Flagged e' ↔ (s.task t).Flagged e' := by
        simp [ht, Pc.Flagged, Ne.symm hee]
      simp only [setTask, update_of_ne hee, flagged_update hsame]
      exact h.flags e'
  · exact h.power.elsewhere rfl (fun _ he => he) rfl rfl rfl (by simp)

end

end Steps

theorem Inv.taskStep (h : s.Inv) (hgap : NoneInGap s (.task t)) (hs' : s.taskStep t = some s') :
    s'.Inv := by
  cases hpc : s.task t with
  | idle => simp [State.taskStep, hpc] at hs'
  | acquire e =>
    simp only [State.taskStep, hpc, Option.ite_none_right_eq_some] at hs'
    obtain ⟨hfree, hs'⟩ := hs'
    cases hs'
    exact h.acquired (by simp [hpc, Pc.Owns]) hfree
  | tryAcquire e =>
    simp only [State.taskStep, hpc] at hs'
    by_cases hfree : s.lock e = none
    · rw [if_pos hfree] at hs'
      cases hs'
      exact h.acquired (by simp [hpc, Pc.Owns]) hfree
    · rw [if_neg hfree] at hs'
      cases hs'
      exact h.outside_move (by simp [hpc, Pc.Owns]) fun _ => Pc.not_owns_idle
  | inner e p =>
    simp only [State.taskStep, hpc] at hs'
    exact h.lockEngineInner hpc hs'
  | unlock e p =>
    simp only [State.taskStep, hpc] at hs'
    exact h.unlockEngine hpc hgap hs'

theorem Inv.step (h : s.Inv) (hgap : NoneInGap s ev) (hs' : Sha.step s ev = some s') : s'.Inv := by
  unfold Sha.step at hs'
  rw [if_neg (by simp [h.asserts])] at hs'
  cases ev with
  | lockEngine t type =>
    simp only [Option.ite_none_right_eq_some] at hs'
    obtain ⟨hidle, hs'⟩ := hs'
    cases hs'
    exact h.outside_move (by simp [hidle, Pc.Owns]) (by simp [Pc.Owns])
  | tryLockEngine t type =>
    simp only [Option.ite_none_right_eq_some] at hs'
    obtain ⟨hidle, hs'⟩ := hs'
    cases hs'
    exact h.outside_move (by simp [hidle, Pc.Owns]) (by simp [Pc.Owns])
  | unlockEngine t type =>
    simp only [Option.ite_none_right_eq_some] at hs'
    obtain ⟨⟨hidle, huser⟩, hs'⟩ := hs'
    cases hs'
    exact h.unlock_start hidle huser
  | task t => exact h.taskStep hgap hs'

end State

/-! ### Whole runs -/

/-- In every run in which no unlock finds all engines idle while a task stands in the gap, the unit
is powered for every user in every state, and no assertion fails. -/
theorem users_powered_of_none_in_gap (clkEn rstSha rstSecureboot : Bool) (es : List Event)
    (hes : Along step NoneInGap (initial clkEn rstSha rstSecureboot) es) :
    Always step State.UsersPowered (initial clkEn rstSha rstSecureboot) es :=
  (always_of_step (fun _ _ _ h hgap hs' => h.step hgap hs')
    (State.inv_initial clkEn rstSha rstSecureboot) hes).imp fun _ h => h.usersPowered

theorem gap_breaks {e e' : Engine} (h : s.Inv)
    (ht : s.task t = .unlock e .testIdle) (hidle : s.shaEnginesAllIdle = true)
    (hu : s.task u = .inner e' .setInUse) :
    ∃ s', run step s [.task t, .task t, .task u] = some s' ∧ ¬ s'.UsersPowered := by
  have hut : u ≠ t := by
    rintro rfl
    simp [ht] at hu
  have hclear := State.allIdle_inUse hidle e'
  refine ⟨_, by simp [run, step, State.taskStep, State.unlockEngine, State.lockEngineInner,
    State.setTask, h.asserts, ht, hidle, hut, hu, hclear]; rfl, fun hbad => ?_⟩
  have hrst := (hbad.powered e' u (by simp)).rst
  simp at hrst

def Event.caller : Event → Nat
  | .lockEngine t _ | .tryLockEngine t _ | .unlockEngine t _ | .task t => t

theorem task_of_lockEngineInner {p : InnerPc}
    (hs' : s.lockEngineInner t e p = some s') (hu : u ≠ t) : s'.task u = s.task u := by
  cases p with
  | takeState =>
    obtain ⟨-, hs'⟩ := Option.ite_none_right_eq_some.1 hs'
    cases hs'
    exact update_of_ne hu _ _
  | setInUse =>
    simp only [State.lockEngineInner] at hs'
    split_ifs at hs'
    · cases hs'
      rfl
    · cases hs'
      exact update_of_ne hu _ _
  | _ =>
    cases hs'
    exact update_of_ne hu _ _

theorem task_of_unlockEngine {p : UnlockPc}
    (hs' : s.unlockEngine t e p = some s') (hu : u ≠ t) : s'.task u = s.task u := by
  cases p with
  | takeState =>
    obtain ⟨-, hs'⟩ := Option.ite_none_right_eq_some.1 hs'
    cases hs'
    exact update_of_ne hu _ _
  | clearInUse =>
    simp only [State.unlockEngine] at hs'
    split_ifs at hs'
    · cases hs'
      exact update_of_ne hu _ _
    · cases hs'
      rfl
  | _ =>
    cases hs'
    exact update_of_ne hu _ _

theorem task_of_taskStep (hs' : s.taskStep t = some s') (hu : u ≠ t) :
    s'.task u = s.task u := by
  cases hpc : s.task t with
  | idle => simp [State.taskStep, hpc] at hs'
  | acquire e =>
    simp only [State.taskStep, hpc, Option.ite_none_right_eq_some] at hs'
    cases hs'.2
    exact update_of_ne hu _ _
  | tryAcquire e =>
    simp only [State.taskStep, hpc] at hs'
    split_ifs at hs'
    all_goals
      cases hs'
      exact update_of_ne hu _ _
  | inner e p =>
    simp only [State.taskStep, hpc] at hs'
    exact task_of_lockEngineInner hs' hu
  | unlock e p =>
    simp only [State.taskStep, hpc] at hs'
    exact task_of_unlockEngine hs' hu

theorem task_of_step {ev : Event} (hs' : step s ev = some s') {u : Nat}
    (hu : u ≠ ev.caller) : s'.task u = s.task u := by
  unfold step at hs'
  split_ifs at hs'
  cases ev with
  | task t => exact task_of_taskStep hs' hu
  | _ =>
    obtain ⟨-, hs'⟩ := Option.ite_none_right_eq_some.1 hs'
    cases hs'
    exact update_of_ne hu _ _

def NoneOfTwoInGap (s : State) (ev : Event) : Prop :=
  ev.caller < 2 ∧ (s.task ev.caller ∈ [Engine.sha1, .sha256, .sha512].map (Pc.unlock · .testIdle) →
    s.shaEnginesAllIdle = true →
      ∀ u < 2, s.task u ∉ [Engine.sha1, .sha256, .sha512].map (Pc.inner · .setInUse))

instance (s : State) (ev : Event) : Decidable (NoneOfTwoInGap s ev) :=
  inferInstanceAs (Decidable (_ ∧ _))

theorem noneInGap_of_two (hes : Along step NoneOfTwoInGap (initial clkEn rstSha rstSecureboot) es) :
    Along step NoneInGap (initial clkEn rstSha rstSecureboot) es := by
  refine along_of_step (I := fun s => ∀ u, 2 ≤ u → s.task u = .idle)
    (fun s ev s' h hC hs' u hu => ?_)
    (fun s ev s' h hC _ => ?_) (fun _ _ => rfl) hes
  · have hne : u ≠ ev.caller := by have := hC.1; omega
    rw [task_of_step hs' hne]
    exact h u hu
  · cases ev with
    | task t =>
      rintro ⟨e, ht⟩ hidle u e' hu
      have hu2 : u < 2 := by
        by_contra hlt
        simp [h u (by omega)] at hu
      have hnot := hC.2 (by simp only [Event.caller, ht]; cases e <;> decide) hidle u hu2
      rw [hu] at hnot
      cases e' <;> exact hnot (by decide)
    | _ => trivial

/-- Task 1 is refused an engine that task 0 has, gets it after task 0 has unlocked it, and takes a
second one. -/
def takingTurns : List Event :=
  [.lockEngine 0 .sha2_384] ++ List.replicate 7 (.task 0) ++
    [.tryLockEngine 1 .sha2_512, .task 1, .unlockEngine 0 .sha2_384] ++
    List.replicate 7 (.task 0) ++ [.tryLockEngine 1 .sha2_512] ++ List.replicate 7 (.task 1) ++
    [.lockEngine 1 .sha1] ++ List.replicate 5 (.task 1)

theorem users_powered_takingTurns : Always step State.UsersPowered
    (initial false true true) takingTurns ∧
      (run step (initial false true true) takingTurns).any
        (fun s => s.user .sha512 = some 1 ∧ s.user .sha1 = some 1) = true :=
  ⟨users_powered_of_none_in_gap false true true takingTurns
    (noneInGap_of_two (by decide +kernel)), by decide +kernel⟩

/-- Task 0 unlocks the engine for SHA-1 while task 1 locks the one for SHA-256. -/
def crossing : List Event :=
  [.lockEngine 0 .sha1] ++ List.replicate 7 (.task 0) ++
    [.lockEngine 1 .sha2_256] ++ List.replicate 4 (.task 1) ++
    [.unlockEngine 0 .sha1] ++ List.replicate 7 (.task 0) ++ [.task 1]

theorem crossing_unpowered : ¬ Always step State.UsersPowered
    (initial false true true) crossing := by
  intro h
  have hrun : (run step (initial false true true) crossing).any
      (fun s => s.user .sha256 = some 1 ∧ s.clkEn = false ∧ s.rstSha = true) = true := by
    decide +kernel
  obtain ⟨s, hs, hbad⟩ := (Option.any_eq_true _ _).1 hrun
  simp only [decide_eq_true_eq] at hbad
  have hon := ((h.final hs).powered .sha256 1 hbad.1).clk
  simp [hbad.2.1] at hon

end EspIdf.Sha
