import Mathlib.Data.List.FinRange
import EspIdf.Device.Runs
import EspIdf.EspErr

/-! Adding devices to an SPI host and removing them (`spi_master.c`): what the device table holds
between the calls. -/

namespace EspIdf.SpiMaster

open EspIdf.Runs

abbrev Cs := Fin 3

/-- The members of `spi_device_interface_config_t` but the two callbacks. -/
structure DeviceConfig where
  commandBits : Nat
  addressBits : Nat
  dummyBits : Nat
  mode : Nat
  dutyCyclePos : Nat
  csEnaPretrans : Nat
  csEnaPosttrans : Nat
  clockSpeedHz : Int
  spicsIoNum : Int
  flags : Nat
  queueSize : Nat
  deriving DecidableEq, Repr

namespace DeviceConfig

def positiveCs (cfg : DeviceConfig) : Bool := cfg.flags.testBit 3

def halfduplex (cfg : DeviceConfig) : Bool := cfg.flags.testBit 4

def clkAsCs (cfg : DeviceConfig) : Bool := cfg.flags.testBit 5

end DeviceConfig

def apbClkFreq : Int := 80 * 1000000

def gpioIsValidOutputGpio (gpioNum : Int) : Bool :=
  0 ≤ gpioNum && gpioNum < 34 && !([20, 24, 28, 29, 30, 31] : List Int).contains gpioNum

abbrev DevicePtr := Nat

/-- The members of `spi_host_t` that adding and removing use, with the fields of the register
`pin`. -/
structure SpiHost where
  device : Cs → DevicePtr
  noGpioMatrix : Bool
  masterCkSel : Nat
  masterCsPol : Nat

/-- A host and the devices that successful calls returned and that are not removed yet. -/
structure Bus where
  host : SpiHost
  live : List (DevicePtr × DeviceConfig)

namespace Bus

def handles (s : Bus) : List DevicePtr := s.live.map (·.1)

def setDevice (s : Bus) (cs : Cs) (dev : DevicePtr) : Bus :=
  { s with host := { s.host with device := Function.update s.host.device cs dev } }

def freecs (s : Bus) : Option Cs := (List.finRange 3).find? fun cs => s.host.device cs = 0

def pinField (set : Bool) (reg : Nat) (cs : Cs) : Nat :=
  if set then reg ||| 1 <<< cs.val else reg &&& 1 <<< cs.val

def configured (s : Bus) (cs : Cs) (dev : DevicePtr) (cfg : DeviceConfig) : Bus where
  host := { s.host with
    masterCkSel := pinField cfg.clkAsCs s.host.masterCkSel cs
    masterCsPol := pinField cfg.positiveCs s.host.masterCsPol cs }
  live := (dev, { cfg with
    dutyCyclePos := if cfg.dutyCyclePos = 0 then 128 else cfg.dutyCyclePos }) :: s.live

structure Alloc where
  dev : Option DevicePtr
  transQueue : Bool
  retQueue : Bool
  deriving DecidableEq, Repr

def earlyChecks (cfg : DeviceConfig) : Bool :=
  (cfg.spicsIoNum < 0 || gpioIsValidOutputGpio cfg.spicsIoNum) && 0 < cfg.clockSpeedHz

def pretransFits (cfg : DeviceConfig) : Bool := cfg.csEnaPretrans == 0 || cfg.halfduplex

def speedFits (s : Bus) (cfg : DeviceConfig) : Bool :=
  !(!cfg.halfduplex && apbClkFreq * 2 / 5 < cfg.clockSpeedHz && !s.host.noGpioMatrix)

def spiBusAddDevice (s : Bus) (cfg : DeviceConfig) (a : Alloc) : EspErr × Bus :=
  if !earlyChecks cfg then (.invalidArg, s)
  else match s.freecs with
    | none => (.notFound, s)
    | some cs =>
      -- from here on the slot is reserved
      let s := s.setDevice cs 1
      if !pretransFits cfg then (.invalidArg, s)
      else if !s.speedFits cfg then (.invalidArg, s)
      else match a.dev with
        | none => (.noMem, s)
        | some dev =>
          let s := s.setDevice cs dev
          if !a.transQueue || !a.retQueue then (.noMem, s)
          else (.ok, s.configured cs dev cfg)

/-- What `spi_bus_remove_device` finds unfinished: waiting transactions, one under way, and results
that were not fetched. -/
structure Unfinished where
  transWaiting : Bool
  current : Bool
  retWaiting : Bool
  deriving DecidableEq, Repr

def spiBusRemoveDevice (s : Bus) (handle : DevicePtr) (u : Unfinished) : EspErr × Bus :=
  if handle = 0 then (.invalidArg, s)
  else if u.transWaiting then (.invalidState, s)
  else if u.current then (.invalidState, s)
  else if u.retWaiting then (.invalidState, s)
  else (.ok,
    { host := { s.host with
        device := fun cs => if s.host.device cs = handle then 0 else s.host.device cs }
      live := s.live.filter (·.1 ≠ handle) })

def spiBusFree (s : Bus) : EspErr :=
  if (List.finRange 3).all fun cs => s.host.device cs = 0 then .ok else .invalidState

end Bus

/-! ### Calls -/

inductive BusCall where
  | add (cfg : DeviceConfig) (a : Bus.Alloc)
  | remove (handle : DevicePtr) (u : Bus.Unfinished)
  deriving DecidableEq, Repr

/-- `malloc` gives the address of no device in use, and the handle of a removal is in use or
`NULL`. -/
def BusCall.Allowed (s : Bus) : BusCall → Prop
  | add _ a => ∀ dev ∈ a.dev, 1 < dev ∧ dev ∉ s.handles
  | remove handle _ => handle = 0 ∨ handle ∈ s.handles

instance (s : Bus) (c : BusCall) : Decidable (c.Allowed s) := by
  cases c <;> unfold BusCall.Allowed <;> infer_instance

def BusCall.answer (s : Bus) : BusCall → EspErr × Bus
  | add cfg a => s.spiBusAddDevice cfg a
  | remove handle u => s.spiBusRemoveDevice handle u

def busStep (s : Bus) (c : BusCall) : Option Bus :=
  if c.Allowed s then some (c.answer s).2 else none

/-- A host as `spi_bus_initialize` leaves it. -/
def Bus.initial (noGpioMatrix : Bool) : Bus := ⟨⟨fun _ => 0, noGpioMatrix, 0, 0⟩, []⟩

/-- Each slot is empty or holds a device in use, and the bus can be freed when no device is. -/
structure BusUsable (s : Bus) : Prop where
  table : ∀ cs, s.host.device cs = 0 ∨ s.host.device cs ∈ s.handles
  free : s.live = [] → s.spiBusFree = .ok

def ErrorKeepsTable (s : Bus) (c : BusCall) : Prop :=
  (c.answer s).1 ≠ .ok → (c.answer s).2.host.device = s.host.device

/-- An `spi_bus_add_device` that passes the early checks and finds a free slot also passes the later
checks and gets its memory. -/
def SlotKept (s : Bus) : BusCall → Prop
  | .add cfg a => Bus.earlyChecks cfg = true → s.freecs.isSome → Bus.pretransFits cfg = true ∧
      s.speedFits cfg = true ∧ a.dev.isSome ∧ a.transQueue = true ∧ a.retQueue = true
  | .remove _ _ => True

namespace Bus

@[simp]
theorem setDevice_device (s : Bus) (cs : Cs) (dev : DevicePtr) :
    (s.setDevice cs dev).host.device = Function.update s.host.device cs dev := rfl

@[simp]
theorem setDevice_handles (s : Bus) (cs : Cs) (dev : DevicePtr) :
    (s.setDevice cs dev).handles = s.handles := rfl

@[simp]
theorem setDevice_speedFits (s : Bus) (cs : Cs) (dev : DevicePtr) (cfg : DeviceConfig) :
    (s.setDevice cs dev).speedFits cfg = s.speedFits cfg := rfl

theorem add_cases (s : Bus) (cfg : DeviceConfig) (a : Alloc) :
    (SlotKept s (.add cfg a) ∧ ∃ err, err ≠ .ok ∧ s.spiBusAddDevice cfg a = (err, s)) ∨
    (¬ SlotKept s (.add cfg a) ∧ ∃ err cs dev, s.freecs = some cs ∧ (dev = 1 ∨ a.dev = some dev) ∧
      err ≠ .ok ∧ s.spiBusAddDevice cfg a = (err, s.setDevice cs dev)) ∨
    (SlotKept s (.add cfg a) ∧ ∃ cs dev, s.freecs = some cs ∧ a.dev = some dev ∧
      s.spiBusAddDevice cfg a = (.ok, (s.setDevice cs dev).configured cs dev cfg)) := by
  have htwice : ∀ cs dev, (s.setDevice cs 1).setDevice cs dev = s.setDevice cs dev := by
    intro cs dev
    simp [setDevice]
  by_cases hearly : earlyChecks cfg = true
  swap
  · exact .inl ⟨fun h => absurd h hearly, .invalidArg, by decide,
      by simp [spiBusAddDevice, hearly]⟩
  cases hfree : s.freecs with
  | none =>
    exact .inl ⟨fun _ h => by simp [hfree] at h, .notFound, by decide,
      by simp [spiBusAddDevice, hearly, hfree]⟩
  | some cs =>
    by_cases hpre : pretransFits cfg = true
    swap
    · exact .inr (.inl ⟨fun h => hpre (h hearly (by simp [hfree])).1, .invalidArg, cs, 1, rfl,
        .inl rfl, by decide, by simp [spiBusAddDevice, hearly, hfree, hpre]⟩)
    by_cases hspeed : s.speedFits cfg = true
    swap
    · exact .inr (.inl ⟨fun h => hspeed (h hearly (by simp [hfree])).2.1, .invalidArg, cs, 1, rfl,
        .inl rfl, by decide, by simp [spiBusAddDevice, hearly, hfree, hpre, hspeed]⟩)
    cases hdev : a.dev with
    | none =>
      exact .inr (.inl ⟨fun h => by simpa [hdev] using (h hearly (by simp [hfree])).2.2.1, .noMem,
        cs, 1, rfl, .inl rfl, by decide,
        by simp [spiBusAddDevice, hearly, hfree, hpre, hspeed, hdev]⟩)
    | some dev =>
      by_cases hqueues : a.transQueue = true ∧ a.retQueue = true
      · exact .inr (.inr ⟨fun _ _ => ⟨hpre, hspeed, by simp [hdev], hqueues⟩, cs, dev, rfl, rfl,
          by simp [spiBusAddDevice, hearly, hfree, hpre, hspeed, hdev, hqueues, htwice]⟩)
      · refine .inr (.inl ⟨fun h => hqueues (h hearly (by simp [hfree])).2.2.2, .noMem, cs,
          dev, rfl,
          .inr rfl, by decide, ?_⟩)
        have hnot : (!a.transQueue || !a.retQueue) = true := by
          simpa [Classical.or_iff_not_imp_left] using hqueues
        simp [spiBusAddDevice, hearly, hfree, hpre, hspeed, hdev, hnot, htwice]

theorem remove_cases (s : Bus) (handle : DevicePtr) (u : Unfinished) :
    (∃ err, err ≠ .ok ∧ s.spiBusRemoveDevice handle u = (err, s)) ∨
    (s.spiBusRemoveDevice handle u = (.ok,
      { host := { s.host with
          device := fun cs => if s.host.device cs = handle then 0 else s.host.device cs }
        live := s.live.filter (·.1 ≠ handle) })) := by
  unfold spiBusRemoveDevice
  split_ifs
  · exact .inl ⟨.invalidArg, by decide, rfl⟩
  · exact .inl ⟨.invalidState, by decide, rfl⟩
  · exact .inl ⟨.invalidState, by decide, rfl⟩
  · exact .inl ⟨.invalidState, by decide, rfl⟩
  · exact .inr rfl

end Bus

/-! ### The table -/

structure TableHolds (s : Bus) : Prop where
  table : ∀ cs, s.host.device cs = 0 ∨ s.host.device cs ∈ s.handles
  real : 1 ∉ s.handles

theorem TableHolds.usable (h : TableHolds s) : BusUsable s := by
  refine ⟨h.table, fun hnone => ?_⟩
  have hnull : ∀ cs, s.host.device cs = 0 := by
    intro cs
    rcases h.table cs with hcs | hcs
    · exact hcs
    · simp [Bus.handles, hnone] at hcs
  simp [Bus.spiBusFree, hnull]

theorem tableHolds_initial (noGpioMatrix : Bool) : TableHolds (Bus.initial noGpioMatrix) :=
  ⟨fun _ => .inl rfl, by simp [Bus.handles, Bus.initial]⟩

theorem TableHolds.added (h : TableHolds s) (cs : Cs) (dev : DevicePtr) (cfg : DeviceConfig)
    (hdev : 1 < dev) :
    TableHolds ((s.setDevice cs dev).configured cs dev cfg) := by
  refine ⟨fun cs' => ?_, ?_⟩
  · by_cases hcs : cs' = cs
    · right
      simp [hcs, Bus.configured, Bus.setDevice, Bus.handles]
    · rcases h.table cs' with htable | htable
      · left
        simpa [Bus.configured, hcs] using htable
      · right
        have hkeep : ((s.setDevice cs dev).configured cs dev cfg).host.device cs' =
            s.host.device cs' := by simp [Bus.configured, Bus.setDevice, hcs]
        rw [hkeep]
        exact List.mem_cons_of_mem _ htable
  · have hreal := h.real
    simp only [Bus.handles, Bus.configured, Bus.setDevice, List.map_cons, List.mem_cons,
      not_or] at hreal ⊢
    exact ⟨Nat.ne_of_lt hdev, hreal⟩

theorem TableHolds.removed (h : TableHolds s) (handle : DevicePtr) :
    TableHolds
      { host := { s.host with
          device := fun cs => if s.host.device cs = handle then 0 else s.host.device cs }
        live := s.live.filter (·.1 ≠ handle) } := by
  have hmem : ∀ p, p ∈ (s.live.filter (·.1 ≠ handle)).map (·.1) ↔ p ∈ s.handles ∧ p ≠ handle := by
    intro p
    simp only [Bus.handles, List.mem_map, List.mem_filter, decide_eq_true_eq]
    constructor
    · rintro ⟨d, ⟨hd, hne⟩, rfl⟩
      exact ⟨⟨d, hd, rfl⟩, hne⟩
    · rintro ⟨⟨d, hd, rfl⟩, hne⟩
      exact ⟨d, ⟨hd, hne⟩, rfl⟩
  refine ⟨fun cs => ?_, fun hone => h.real ((hmem 1).1 hone).1⟩
  simp only [Bus.handles]
  split_ifs with hcs
  · exact .inl rfl
  · exact (h.table cs).imp_right fun hin => (hmem _).2 ⟨hin, hcs⟩

theorem TableHolds.step (h : TableHolds s) (hkept : SlotKept s c) (hs' : busStep s c = some s') :
    TableHolds s' ∧ ErrorKeepsTable s c := by
  unfold busStep at hs'
  split_ifs at hs' with hallowed
  cases hs'
  cases c with
  | add cfg a =>
    simp only [ErrorKeepsTable, BusCall.answer]
    obtain ⟨-, err, -, heq⟩ | ⟨hnot, -⟩ | ⟨-, cs, dev, -, hdev, heq⟩ := s.add_cases cfg a
    · rw [heq]
      exact ⟨h, fun _ => rfl⟩
    · exact absurd hkept hnot
    · rw [heq]
      exact ⟨h.added cs dev cfg (hallowed dev hdev).1, fun hne => absurd rfl hne⟩
  | remove handle u =>
    simp only [ErrorKeepsTable, BusCall.answer]
    obtain ⟨err, -, heq⟩ | heq := s.remove_cases handle u
    · rw [heq]
      exact ⟨h, fun _ => rfl⟩
    · rw [heq]
      exact ⟨h.removed handle, fun hne => absurd rfl hne⟩

theorem TableHolds.broken (h : TableHolds s) (hlost : ¬ SlotKept s c)
    (hs' : busStep s c = some s') : ¬ BusUsable s' := by
  unfold busStep at hs'
  split_ifs at hs' with hallowed
  cases hs'
  cases c with
  | remove handle u => exact absurd trivial hlost
  | add cfg a =>
    obtain ⟨hkept, -⟩ | ⟨-, err, cs, dev, -, hdev, -, heq⟩ | ⟨hkept, -⟩ := s.add_cases cfg a
    · exact absurd hkept hlost
    · intro husable
      have hslot := husable.table cs
      simp only [BusCall.answer, heq, Bus.setDevice_device, Bus.setDevice_handles,
        Function.update_self] at hslot
      rcases hdev with rfl | hdev
      · exact hslot.elim (by decide) h.real
      · have hfresh := hallowed dev hdev
        exact hslot.elim (Nat.ne_of_gt (Nat.lt_trans Nat.zero_lt_one hfresh.1)) hfresh.2
    · exact absurd hkept hlost

/-- The bus stays usable and no error changes the table exactly if no call of `spi_bus_add_device`
fails after it has reserved a slot. -/
theorem bus_usable_iff (noGpioMatrix : Bool) (calls : List BusCall) :
    (Always busStep BusUsable (Bus.initial noGpioMatrix) calls ∧
      Along busStep ErrorKeepsTable (Bus.initial noGpioMatrix) calls) ↔
    Along busStep SlotKept (Bus.initial noGpioMatrix) calls := by
  have hiff : Always busStep BusUsable (Bus.initial noGpioMatrix) calls ↔
      Along busStep SlotKept (Bus.initial noGpioMatrix) calls :=
    always_iff_along (fun _ => TableHolds.usable)
      (fun _ _ _ h hkept hs' => (h.step hkept hs').1) (fun _ _ _ => TableHolds.broken)
      (tableHolds_initial noGpioMatrix) calls
  refine ⟨fun h => hiff.1 h.1, fun h => ⟨hiff.2 h, ?_⟩⟩
  exact along_of_step (fun _ _ _ h hkept hs' => (h.step hkept hs').1)
    (fun _ _ _ h hkept hs' => (h.step hkept hs').2) (tableHolds_initial noGpioMatrix) h

def pretransConfig : DeviceConfig := ⟨0, 0, 0, 0, 0, 1, 0, 1000000, -1, 0, 1⟩

theorem refused_device_keeps_slot :
    ((Bus.initial true).spiBusAddDevice pretransConfig ⟨some 16, true, true⟩).1 = .invalidArg ∧
    ¬ Always busStep BusUsable (Bus.initial true)
      [.add pretransConfig ⟨some 16, true, true⟩] := by
  refine ⟨by decide, fun h => ?_⟩
  obtain ⟨s', hs', hslot⟩ : ∃ s', busStep (Bus.initial true)
      (.add pretransConfig ⟨some 16, true, true⟩) = some s' ∧
      ¬ (s'.host.device 0 = 0 ∨ s'.host.device 0 ∈ s'.handles) := ⟨_, rfl, by decide⟩
  exact hslot ((h.2 s' hs').table 0)

end EspIdf.SpiMaster
