import Mathlib.Algebra.Group.Int.Defs
import EspIdf.Driver.SpiBus

/-! Queued SPI transactions (`spi_master.c`): `spi_device_queue_trans`,
`spi_device_get_trans_result` and `spi_intr` over the devices of a host. -/

namespace EspIdf.SpiMaster

open EspIdf.Runs

/-! ### The registers of a device -/

def fieldBits (w : Nat) (x : Int) : Nat := (x % 2 ^ w).toNat

structure ClockRegs where
  clkcntL : Nat
  clkcntH : Nat
  clkcntN : Nat
  clkdivPre : Nat
  clkEquSysclk : Bool
  deriving DecidableEq, Inhabited, Repr

/-- A divider that the loop over `n` has found, and its error. -/
structure Divider where
  n : Int
  pre : Int
  err : Nat

def spiFreqForPreN (fapb pre n : Int) : Int := fapb / (pre * n)

def tryDivider (fapb hz : Int) (best : Option Divider) (n : Int) : Option Divider :=
  let pre := (fapb / n + hz / 2) / hz
  let pre := if pre ≤ 0 then 1 else pre
  let pre := if 8192 < pre then 8192 else pre
  let err := (spiFreqForPreN fapb pre n - hz).natAbs
  if best.all fun b => err ≤ b.err then some ⟨n, pre, err⟩ else best

def spiSetClock (fapb hz dutyCycle : Int) : Int × ClockRegs :=
  if fapb / 4 * 3 < hz then (fapb, ⟨0, 0, 0, 0, true⟩)
  else
    let best := ((List.range 63).foldl (fun b k => tryDivider fapb hz b (k + 2)) none).getD
      ⟨-1, -1, 0⟩
    let h := (dutyCycle * best.n + 127) / 256
    let h := if h ≤ 0 then 1 else h
    (spiFreqForPreN fapb best.pre best.n,
      ⟨fieldBits 6 (best.n - 1), fieldBits 6 (h - 1), fieldBits 6 (best.n - 1),
        fieldBits 13 (best.pre - 1), false⟩)

/-- The register fields that `spi_intr` sets when the device changes. -/
structure DeviceRegs where
  clock : ClockRegs
  rdBitOrder : Bool
  wrBitOrder : Bool
  ckIdleEdge : Bool
  ckOutEdge : Bool
  misoDelayMode : Nat
  usrDummy : Bool
  usrAddr : Bool
  usrCommand : Bool
  usrAddrBitlen : Nat
  usrDummyCyclelen : Nat
  usrCommandBitlen : Nat
  doutdin : Bool
  sio : Bool
  setupTime : Nat
  csSetup : Bool
  holdTime : Nat
  csHold : Bool
  cs0Dis : Bool
  cs1Dis : Bool
  cs2Dis : Bool
  deriving DecidableEq, Inhabited, Repr

def delays (noGpioMatrix : Bool) (effclk : Int) : Bool × Nat :=
  if noGpioMatrix then (apbClkFreq / 2 ≤ effclk, 0)
  else if apbClkFreq / 2 ≤ effclk then (true, 1)
  else (apbClkFreq / 4 ≤ effclk, 0)

def modeRegs (mode : Nat) (nodelay : Bool) (old : DeviceRegs) : Bool × Bool × Nat :=
  match mode with
  | 0 => (false, false, if nodelay then 0 else 2)
  | 1 => (false, true, if nodelay then 0 else 1)
  | 2 => (true, true, if nodelay then 0 else 1)
  | 3 => (true, false, if nodelay then 0 else 2)
  | _ => (old.ckIdleEdge, old.ckOutEdge, old.misoDelayMode)

def reconfigure (noGpioMatrix : Bool) (cfg : DeviceConfig) (i : Cs) (old : DeviceRegs) :
    DeviceRegs :=
  let (effclk, clock) := spiSetClock apbClkFreq cfg.clockSpeedHz cfg.dutyCyclePos
  let (nodelay, extraDummy) := delays noGpioMatrix effclk
  let (ckIdleEdge, ckOutEdge, misoDelayMode) := modeRegs cfg.mode nodelay old
  { clock, ckIdleEdge, ckOutEdge, misoDelayMode
    rdBitOrder := cfg.flags.testBit 1
    wrBitOrder := cfg.flags.testBit 0
    usrDummy := cfg.dummyBits + extraDummy ≠ 0
    usrAddr := cfg.addressBits ≠ 0
    usrCommand := cfg.commandBits ≠ 0
    usrAddrBitlen := fieldBits 6 (cfg.addressBits - 1)
    usrDummyCyclelen := fieldBits 8 (cfg.dummyBits + extraDummy - 1)
    usrCommandBitlen := fieldBits 4 (cfg.commandBits - 1)
    doutdin := !cfg.halfduplex
    sio := cfg.flags.testBit 2
    setupTime := fieldBits 4 (cfg.csEnaPretrans - 1)
    csSetup := cfg.csEnaPretrans ≠ 0
    holdTime := fieldBits 4 (cfg.csEnaPosttrans - 1)
    csHold := cfg.csEnaPosttrans ≠ 0
    cs0Dis := i ≠ 0
    cs1Dis := i ≠ 1
    cs2Dis := i ≠ 2 }

/-! ### The host -/

/-- The devices of a host, added in the order of their CS lines, with the `cfg` of each. -/
structure Devices where
  device : Cs → Option DeviceConfig
  noGpioMatrix : Bool
  maxTransferSz : Nat

namespace Devices

variable (d : Devices)

def queueSize (cs : Cs) : Nat := (d.device cs).elim 0 (·.queueSize)

def pinReg (flag : DeviceConfig → Bool) : Nat :=
  (List.finRange 3).foldl
    (fun reg cs => (d.device cs).elim reg fun cfg => Bus.pinField (flag cfg) reg cs) 0

def FlagKept (flag : DeviceConfig → Bool) (cs : Cs) : Prop :=
  ∀ cfg, d.device cs = some cfg → flag cfg = true →
    ∀ cs' > cs, ∀ cfg', d.device cs' = some cfg' → flag cfg' = true

def PinsKept (cs : Cs) : Prop :=
  d.FlagKept DeviceConfig.positiveCs cs ∧ d.FlagKept DeviceConfig.clkAsCs cs

end Devices

/-- The members of an `spi_transaction_t` that are checked, with the address of the descriptor. -/
structure Trans where
  desc : Nat
  flags : Nat
  length : Nat
  rxlength : Nat
  deriving DecidableEq, Repr

structure Transfer where
  cs : Cs
  trans : Trans
  regs : DeviceRegs

/-- The queues of the devices, the transfer under way and the SPI peripheral.  `enabling` counts the
calls of `spi_device_queue_trans` between `xQueueSend` and `esp_intr_enable`; the last three members
record what was queued, fetched and started. -/
structure SpiState where
  trans : Cs → List Trans
  ret : Cs → List Trans
  curTrans : Option Trans
  curCs : Cs
  regs : DeviceRegs
  transDone : Bool
  usr : Bool
  intrEnabled : Bool
  enabling : Nat
  queued : Cs → List Trans
  returned : Cs → List Trans
  log : List Transfer

/-- The host as `spi_bus_initialize` leaves it: the interrupt is forced but disabled. -/
def SpiState.initial (regs : DeviceRegs) : SpiState where
  trans := fun _ => []
  ret := fun _ => []
  curTrans := none
  curCs := 0
  regs := regs
  transDone := true
  usr := false
  intrEnabled := false
  enabling := 0
  queued := fun _ => []
  returned := fun _ => []
  log := []

namespace Devices

variable (d : Devices)

def transChecks (cfg : DeviceConfig) (t : Trans) : Bool :=
  (!t.flags.testBit 2 || t.rxlength ≤ 32) && (!t.flags.testBit 3 || t.length ≤ 32) &&
  !((t.flags.testBit 0 || t.flags.testBit 1) && cfg.flags.testBit 2) &&
  !((t.flags.testBit 0 || t.flags.testBit 1) && !cfg.halfduplex) &&
  t.length ≤ d.maxTransferSz * 8 && t.rxlength ≤ d.maxTransferSz * 8

def queueTrans (s : SpiState) (cs : Cs) (t : Trans) : EspErr × SpiState :=
  match d.device cs with
  | none => (.invalidArg, s)
  | some cfg =>
    if !d.transChecks cfg t then (.invalidArg, s)
    else if (s.trans cs).length < cfg.queueSize then
      (.ok, { s with
        trans := Function.update s.trans cs (s.trans cs ++ [t])
        queued := Function.update s.queued cs (s.queued cs ++ [t])
        enabling := s.enabling + 1 })
    else (.timeout, s)

def getTransResult (s : SpiState) (cs : Cs) : EspErr × SpiState :=
  match s.ret cs with
  | [] => (.timeout, s)
  | t :: rest => (.ok, { s with
      ret := Function.update s.ret cs rest
      returned := Function.update s.returned cs (s.returned cs ++ [t]) })

/-- The first half of `spi_intr`: the descriptor of the transfer that is done goes to the return
queue, if that has room. -/
def finish (s : SpiState) : SpiState :=
  match s.curTrans with
  | none => s
  | some t => { s with
      ret := if (s.ret s.curCs).length < d.queueSize s.curCs then
          Function.update s.ret s.curCs (s.ret s.curCs ++ [t])
        else s.ret
      curTrans := none }

def nextCs (s : SpiState) : Option Cs :=
  (List.finRange 3).find? fun cs => (d.device cs).isSome && !(s.trans cs).isEmpty

/-- The transfer of `t` on CS `i` is set up and started; the registers stay as they are if the last
device was the same. -/
def start (s : SpiState) (prevCs : Option Cs) (i : Cs) (cfg : DeviceConfig) (t : Trans)
    (rest : List Trans) : SpiState :=
  let regs := if prevCs = some i then s.regs else reconfigure d.noGpioMatrix cfg i s.regs
  { s with
    trans := Function.update s.trans i rest
    curTrans := some t
    curCs := i
    regs := regs
    transDone := false
    usr := true
    log := s.log ++ [⟨i, t, regs⟩] }

def spiIntr (s : SpiState) : SpiState :=
  if !s.transDone then s
  else
    let prevCs := s.curTrans.map fun _ => s.curCs
    let s := d.finish s
    match d.nextCs s with
    | none => { s with intrEnabled := false }
    | some i =>
      match d.device i, s.trans i with
      | some cfg, t :: rest => d.start s prevCs i cfg t rest
      | _, _ => s

def transferDone (s : SpiState) : SpiState := { s with usr := false, transDone := true }

def machine (s : SpiState) : SpiState :=
  if s.usr then transferDone s
  else if s.intrEnabled && s.transDone then d.spiIntr s
  else s

end Devices

inductive SpiEvent where
  | send (cs : Cs) (t : Trans)
  | enable
  | intr
  | done
  | result (cs : Cs)
  deriving DecidableEq, Repr

/-- The interrupt needs `trans_done` and `esp_intr_enable`; the hardware ends what was started. -/
def spiStep (d : Devices) (s : SpiState) : SpiEvent → Option SpiState
  | .send cs t => some (d.queueTrans s cs t).2
  | .enable =>
    if 0 < s.enabling then some { s with enabling := s.enabling - 1, intrEnabled := true }
    else none
  | .intr => if s.intrEnabled && s.transDone then some (d.spiIntr s) else none
  | .done => if s.usr then some (Devices.transferDone s) else none
  | .result cs => some (Devices.getTransResult s cs).2

theorem spiStep_intr {d : Devices} {s s' : SpiState} (hs' : spiStep d s .intr = some s') :
    s.intrEnabled = true ∧ s.transDone = true ∧ s' = d.spiIntr s := by
  simp only [spiStep] at hs'
  split_ifs at hs' with hintr
  rw [Bool.and_eq_true] at hintr
  exact ⟨hintr.1, hintr.2, (Option.some.inj hs').symm⟩

/-! ### What is asked of a run -/

namespace SpiState

def executed (s : SpiState) (cs : Cs) : List Trans := (s.log.filter (·.cs = cs)).map (·.trans)

def current (s : SpiState) (cs : Cs) : List Trans :=
  if s.curCs = cs then s.curTrans.toList else []

end SpiState

def Devices.RegsFor (d : Devices) (cs : Cs) (regs : DeviceRegs) : Prop :=
  ∃ cfg, d.device cs = some cfg ∧ ∃ old, regs = reconfigure d.noGpioMatrix cfg cs old

/-- The transfer ran with the registers of its device, and the CS polarity and clock selection of
the device's CS line are those of its flags. -/
structure Transfer.Configured (d : Devices) (x : Transfer) : Prop where
  regs : d.RegsFor x.cs x.regs
  csPol : ∀ cfg, d.device x.cs = some cfg →
    (d.pinReg DeviceConfig.positiveCs).testBit x.cs = cfg.positiveCs
  ckSel : ∀ cfg, d.device x.cs = some cfg →
    (d.pinReg DeviceConfig.clkAsCs).testBit x.cs = cfg.clkAsCs

/-- Each queued transaction is executed once, in order and with its own device's configuration; its
descriptor is returned once and in the same order; and when no call is in progress, the hardware and
the interrupt execute all that is queued. -/
structure Completes (d : Devices) (s : SpiState) : Prop where
  inOrder : ∀ cs, s.queued cs = s.executed cs ++ s.trans cs
  returned : ∀ cs, s.executed cs = s.returned cs ++ s.ret cs ++ s.current cs
  configured : ∀ x ∈ s.log, x.Configured d
  progress : s.enabling = 0 → ∃ n, (d.machine^[n] s).curTrans = none ∧
    ∀ cs, (d.machine^[n] s).executed cs = s.queued cs

/-- When `spi_intr` runs, the return queue of the device whose transfer is done has room, and the
device that is next has its pins. -/
def TransferFits (d : Devices) (s : SpiState) : SpiEvent → Prop
  | .intr => (∀ t, s.curTrans = some t → (s.ret s.curCs).length < d.queueSize s.curCs) ∧
      ∀ cs, d.nextCs s = some cs → d.PinsKept cs
  | _ => True

end EspIdf.SpiMaster
