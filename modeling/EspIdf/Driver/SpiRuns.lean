import Mathlib.Algebra.Ring.Nat
import Mathlib.Data.Fin.VecNotation
import Mathlib.Data.Fintype.Option
import Mathlib.Tactic.FinCases
import EspIdf.Driver.SpiQueue

/-! Runs of queued SPI transactions: the ledgers of each device, the registers of each transfer, and
the progress of the hardware and the interrupt. -/

namespace EspIdf.SpiMaster

open EspIdf.Runs
open Function (update update_of_ne update_self)
open SpiState (current executed)

namespace Devices

theorem pinReg_testBit (d : Devices) (flag : DeviceConfig → Bool) (cs : Cs) {cfg : DeviceConfig}
    (hcfg : d.device cs = some cfg) :
    (d.pinReg flag).testBit cs = flag cfg ↔ d.FlagKept flag cs := by
  have hfold : ∀ (a b c : Option Bool) (i : Cs) (x : Bool), ![a, b, c] i = some x →
      (((List.finRange 3).foldl (fun reg j => (![a, b, c] j).elim reg fun y =>
        Bus.pinField y reg j) 0).testBit i = x ↔
        (x = true → ∀ j > i, ∀ y, ![a, b, c] j = some y → y = true)) := by
    decide
  have hflags : ∀ j, ![(d.device 0).map flag, (d.device 1).map flag, (d.device 2).map flag] j =
      (d.device j).map flag := by
    intro j
    fin_cases j <;> rfl
  have hbit := hfold ((d.device 0).map flag) ((d.device 1).map flag) ((d.device 2).map flag) cs
    (flag cfg) (by rw [hflags, hcfg]; rfl)
  simp only [hflags, Option.elim_map, Option.map_eq_some_iff] at hbit
  unfold pinReg
  rw [show ((fun reg j => (d.device j).elim reg ((fun y => Bus.pinField y reg j) ∘ flag)) =
    fun (reg : Nat) (j : Cs) => (d.device j).elim reg fun cfg => Bus.pinField (flag cfg) reg j)
    from rfl] at hbit
  rw [hbit]
  constructor
  · intro h cfg' hcfg' hflag j hj y hy
    obtain rfl := Option.some.inj (hcfg.symm.trans hcfg')
    exact h hflag j hj _ ⟨y, hy, rfl⟩
  · rintro h hflag j hj - ⟨y, hy, rfl⟩
    exact h cfg hcfg hflag j hj y hy

theorem PinsKept.iff_testBit {d : Devices} {cs : Cs} {cfg : DeviceConfig}
    (hcfg : d.device cs = some cfg) :
    d.PinsKept cs ↔ (d.pinReg DeviceConfig.positiveCs).testBit cs = cfg.positiveCs ∧
      (d.pinReg DeviceConfig.clkAsCs).testBit cs = cfg.clkAsCs :=
  and_congr (d.pinReg_testBit _ cs hcfg).symm (d.pinReg_testBit _ cs hcfg).symm

/-! ### The interrupt -/

@[simp]
theorem finish_trans (d : Devices) (s : SpiState) : (d.finish s).trans = s.trans := by
  unfold finish
  split <;> rfl

theorem nextCs_finish (d : Devices) (s : SpiState) : d.nextCs (d.finish s) = d.nextCs s := by
  simp [nextCs]

theorem nextCs_spec {d : Devices} {s : SpiState} {i : Cs} (h : d.nextCs s = some i) :
    ∃ cfg t rest, d.device i = some cfg ∧ s.trans i = t :: rest := by
  have hi := List.find?_some h
  simp only [Bool.and_eq_true, Bool.not_eq_true', Option.isSome_iff_exists] at hi
  obtain ⟨⟨cfg, hcfg⟩, hne⟩ := hi
  cases ht : s.trans i with
  | nil => simp [ht] at hne
  | cons t rest => exact ⟨cfg, t, rest, hcfg, rfl⟩

theorem nextCs_none {d : Devices} {s : SpiState} (h : d.nextCs s = none)
    (hknown : ∀ cs, s.trans cs ≠ [] → (d.device cs).isSome) (cs : Cs) : s.trans cs = [] := by
  by_contra hne
  have := List.find?_eq_none.1 h cs (List.mem_finRange cs)
  simp [hknown cs hne, hne] at this

theorem spiIntr_cases (d : Devices) {s : SpiState} (hdone : s.transDone = true) :
    (d.nextCs s = none ∧ d.spiIntr s = { d.finish s with intrEnabled := false }) ∨
    ∃ i cfg t rest, d.nextCs s = some i ∧ d.device i = some cfg ∧ s.trans i = t :: rest ∧
      d.spiIntr s =
        d.start (d.finish s) (s.curTrans.map fun _ => s.curCs) i cfg t rest := by
  unfold spiIntr
  simp only [hdone, Bool.not_true, Bool.false_eq_true, if_false, nextCs_finish, finish_trans]
  cases hnext : d.nextCs s with
  | none => exact .inl ⟨rfl, rfl⟩
  | some i =>
    obtain ⟨cfg, t, rest, hcfg, ht⟩ := nextCs_spec hnext
    refine .inr ⟨i, cfg, t, rest, rfl, hcfg, ht, ?_⟩
    simp only [hcfg, ht]

theorem finish_frame (d : Devices) (s : SpiState) :
    (d.finish s).curTrans = none ∧ (d.finish s).regs = s.regs ∧ (d.finish s).log = s.log ∧
      (d.finish s).queued = s.queued ∧ (d.finish s).returned = s.returned ∧
      (d.finish s).enabling = s.enabling ∧ (d.finish s).usr = s.usr ∧
      (d.finish s).transDone = s.transDone ∧ (d.finish s).intrEnabled = s.intrEnabled := by
  unfold finish
  split
  · rename_i h
    exact ⟨h, rfl, rfl, rfl, rfl, rfl, rfl, rfl, rfl⟩
  · exact ⟨rfl, rfl, rfl, rfl, rfl, rfl, rfl, rfl, rfl⟩

end Devices

structure Running (d : Devices) (s : SpiState) : Prop where
  usr : s.usr = !s.transDone
  current : s.usr = true → s.curTrans.isSome
  on : s.curTrans.isSome → s.intrEnabled = true
  wake : ∀ cs, s.trans cs ≠ [] → s.intrEnabled = true ∨ 0 < s.enabling
  known : ∀ cs, s.trans cs ≠ [] → (d.device cs).isSome
  inOrder : ∀ cs, s.queued cs = s.executed cs ++ s.trans cs

namespace Devices

variable {d : Devices} {s : SpiState}

theorem executed_of_log {s t : SpiState} (h : t.log = s.log) (cs : Cs) : t.executed cs =
    s.executed cs := by
  simp [executed, h]

theorem stop_executed (d : Devices) (s : SpiState) (cs : Cs) :
    executed { d.finish s with intrEnabled := false } cs = s.executed cs ∧
      current { d.finish s with intrEnabled := false } cs = [] := by
  obtain ⟨hcur, -, hlog, -⟩ := d.finish_frame s
  exact ⟨executed_of_log hlog cs, by simp [current, hcur]⟩

theorem start_executed (s : SpiState) (prevCs : Option Cs) (i : Cs) (cfg : DeviceConfig) (t : Trans)
    (rest : List Trans) (cs : Cs) :
    (d.start s prevCs i cfg t rest).executed cs = s.executed cs ++ if i = cs then [t] else [] := by
  simp only [executed, start, List.filter_append, List.map_append]
  by_cases hi : i = cs
  · simp [hi]
  · simp [hi]

theorem update_cons_append (ht : q i = t :: rest) (cs : Cs) :
    q cs = (if i = cs then [t] else []) ++ update q i rest cs := by
  by_cases hi : i = cs
  · subst hi
    simp [ht]
  · simp [hi, update_of_ne (Ne.symm hi)]

end Devices

namespace Running

variable {d : Devices} {s : SpiState}

theorem intr (h : Running d s) (hon : s.intrEnabled = true) (hdone : s.transDone = true) :
    Running d (d.spiIntr s) := by
  obtain ⟨hcur, -, hlog, hqueued, -, henabling, husr, -, hintr⟩ := d.finish_frame s
  obtain ⟨hnext, heq⟩ | ⟨i, cfg, t, rest, hnext, hcfg, ht, heq⟩ := d.spiIntr_cases hdone
  · have hempty := Devices.nextCs_none hnext h.known
    rw [heq]
    refine ⟨?_, ?_, ?_, ?_, ?_, ?_⟩
    · simp [husr, h.usr, hdone, (d.finish_frame s).2.2.2.2.2.2.2.1]
    · simp [husr, h.usr, hdone]
    · simp [hcur]
    · exact fun cs hne => absurd (by simp [hempty cs]) hne
    · exact fun cs hne => absurd (by simp [hempty cs]) hne
    · intro cs
      rw [(d.stop_executed s cs).1]
      simp only [hqueued, Devices.finish_trans]
      exact h.inOrder cs
  · rw [heq]
    refine ⟨rfl, fun _ => rfl, fun _ => ?_, fun cs _ => .inl ?_, fun cs hne => ?_, fun cs => ?_⟩
    · exact hintr.trans hon
    · exact hintr.trans hon
    · by_cases hi : cs = i
      · rw [hi, hcfg]
        rfl
      · refine h.known cs fun hnil => hne ?_
        simp [Devices.start, update_of_ne hi, hnil]
    · have hq : (d.start (d.finish s) (s.curTrans.map fun _ => s.curCs) i cfg t rest).queued cs =
          s.queued cs := by rw [← hqueued]; rfl
      have htrans : (d.start (d.finish s) (s.curTrans.map fun _ => s.curCs) i cfg t rest).trans =
          update s.trans i rest := by simp [Devices.start]
      rw [hq, htrans, Devices.start_executed, Devices.executed_of_log hlog, List.append_assoc,
        ← Devices.update_cons_append ht, h.inOrder]

theorem done (h : Running d s) : Running d (Devices.transferDone s) :=
  ⟨rfl, fun hf => Bool.noConfusion hf, h.on, h.wake, h.known, h.inOrder⟩

theorem machine (h : Running d s) : Running d (d.machine s) := by
  unfold Devices.machine
  split_ifs with husr hintr
  · exact h.done
  · rw [Bool.and_eq_true] at hintr
    exact h.intr hintr.1 hintr.2
  · exact h

end Running

/-- The library's instance by one name, for the numbers of `Fin 3` below. -/
theorem neZero_3 : NeZero 3 := Nat.instNeZeroSucc

attribute [local instance] neZero_3

def SpiState.waiting (s : SpiState) : Nat :=
  (s.trans 0).length + (s.trans 1).length + (s.trans 2).length

def SpiState.work (s : SpiState) : Nat :=
  3 * s.waiting + if s.usr then 2 else if s.curTrans.isSome then 1 else 0

namespace Running

variable {d : Devices} {s : SpiState}

theorem waiting_update {q : Cs → List Trans} {i : Cs} {t : Trans} {rest : List Trans}
    (ht : q i = t :: rest) :
    (update q i rest 0).length + (update q i rest 1).length +
      (update q i rest 2).length + 1 =
      (q 0).length + (q 1).length + (q 2).length := by
  fin_cases i <;> simp_all [update] <;> omega

theorem machine_work (h : Running d s) (hcalls : s.enabling = 0)
    (hleft : s.curTrans.isSome ∨ ∃ cs, s.trans cs ≠ []) :
    (d.machine s).work < s.work := by
  unfold Devices.machine
  by_cases husr : s.usr = true
  · have hcur := h.current husr
    simp [SpiState.work, SpiState.waiting, Devices.transferDone, husr, hcur]
  · have hdone : s.transDone = true := by
      have := h.usr
      simp_all
    have hon : s.intrEnabled = true := by
      rcases hleft with hcur | ⟨cs, hne⟩
      · exact h.on hcur
      · exact (h.wake cs hne).resolve_right (by omega)
    rw [if_neg husr, if_pos (by simp [hon, hdone])]
    obtain ⟨hcur, -, -, -, -, -, hu, -, -⟩ := d.finish_frame s
    obtain ⟨hnext, heq⟩ | ⟨i, cfg, t, rest, hnext, hcfg, ht, heq⟩ := d.spiIntr_cases hdone
    · have hempty := Devices.nextCs_none hnext h.known
      have hsome : s.curTrans.isSome := by
        rcases hleft with hcur | ⟨cs, hne⟩
        · exact hcur
        · exact absurd (hempty cs) hne
      rw [heq]
      simp [SpiState.work, SpiState.waiting, hu, husr, hcur, hsome]
    · rw [heq]
      have hwait := waiting_update ht
      simp only [SpiState.work, SpiState.waiting, Devices.start, Devices.finish_trans, if_true]
      omega

theorem machine_queued (d : Devices) (s : SpiState) :
    (d.machine s).queued = s.queued ∧ (d.machine s).enabling = s.enabling := by
  unfold Devices.machine
  split_ifs with husr hintr
  · exact ⟨rfl, rfl⟩
  · rw [Bool.and_eq_true] at hintr
    obtain ⟨-, -, -, hqueued, -, henabling, -⟩ := d.finish_frame s
    obtain ⟨-, heq⟩ | ⟨i, cfg, t, rest, -, -, -, heq⟩ := d.spiIntr_cases hintr.2
    · rw [heq]
      exact ⟨hqueued, henabling⟩
    · rw [heq]
      exact ⟨hqueued, henabling⟩
  · exact ⟨rfl, rfl⟩

theorem progress (h : Running d s) (hcalls : s.enabling = 0) : ∃ n,
    (d.machine^[n] s).curTrans = none ∧
      ∀ cs, (d.machine^[n] s).executed cs = s.queued cs := by
  induction hw : s.work using Nat.strong_induction_on generalizing s with
  | _ w ih =>
    by_cases hleft : s.curTrans.isSome ∨ ∃ cs, s.trans cs ≠ []
    · obtain ⟨hqueued, henabling⟩ := machine_queued d s
      obtain ⟨n, hn⟩ := ih _ (hw ▸ h.machine_work hcalls hleft) h.machine
        (henabling.trans hcalls) rfl
      rw [hqueued] at hn
      exact ⟨n + 1, hn⟩
    · simp only [not_or, Bool.not_eq_true, Option.isSome_eq_false_iff, Option.isNone_iff_eq_none,
        not_exists, not_not] at hleft
      refine ⟨0, hleft.1, fun cs => ?_⟩
      rw [h.inOrder cs, hleft.2 cs, List.append_nil]
      rfl

end Running

/-! ### Runs -/

structure SpiHolds (d : Devices) (s : SpiState) : Prop where
  running : Running d s
  returned : ∀ cs, s.executed cs = s.returned cs ++ s.ret cs ++ s.current cs
  configured : ∀ x ∈ s.log, x.Configured d
  regs : s.curTrans.isSome → d.RegsFor s.curCs s.regs

namespace SpiHolds

variable {d : Devices} {s : SpiState}

theorem completes (h : SpiHolds d s) : Completes d s :=
  ⟨h.running.inOrder, h.returned, h.configured, h.running.progress⟩

theorem initial (d : Devices) (regs : DeviceRegs) : SpiHolds d (SpiState.initial regs) := by
  refine ⟨⟨rfl, by simp [SpiState.initial], by simp [SpiState.initial], ?_, ?_, fun _ => rfl⟩, ?_,
    by simp [SpiState.initial], by simp [SpiState.initial]⟩
  · exact fun _ hne => absurd rfl hne
  · exact fun _ hne => absurd rfl hne
  · intro cs
    have hcurrent : (SpiState.initial regs).current cs = [] := by
      unfold current
      split_ifs <;> rfl
    rw [hcurrent]
    rfl

section

variable (h : SpiHolds d s)
include h

theorem send (cs : Cs) (t : Trans) : SpiHolds d (d.queueTrans s cs t).2 := by
  unfold Devices.queueTrans
  cases hcfg : d.device cs with
  | none => exact h
  | some cfg =>
    dsimp only
    split_ifs with hchecks hroom
    · exact h
    · refine ⟨⟨h.running.usr, h.running.current, h.running.on, ?_, ?_, ?_⟩, h.returned,
        h.configured, h.regs⟩
      · exact fun _ _ => .inr (Nat.succ_pos _)
      · intro cs' hne
        by_cases hcs : cs' = cs
        · rw [hcs, hcfg]
          rfl
        · simp only [update_of_ne hcs] at hne
          exact h.running.known cs' hne
      · intro cs'
        have hord := h.running.inOrder cs'
        by_cases hcs : cs' = cs
        · subst hcs
          simp only [update_self]
          rw [hord, List.append_assoc]
          rfl
        · simp only [update_of_ne hcs]
          exact hord
    · exact h

theorem enable : SpiHolds d { s with enabling := s.enabling - 1, intrEnabled := true } :=
  ⟨⟨h.running.usr, h.running.current, fun _ => rfl, fun _ _ => .inl rfl, h.running.known,
    h.running.inOrder⟩, h.returned, h.configured, h.regs⟩

theorem result (cs : Cs) : SpiHolds d (Devices.getTransResult s cs).2 := by
  unfold Devices.getTransResult
  cases hret : s.ret cs with
  | nil => exact h
  | cons t rest =>
    refine ⟨⟨h.running.usr, h.running.current, h.running.on, h.running.wake, h.running.known,
      h.running.inOrder⟩, fun cs' => ?_, h.configured, h.regs⟩
    have hord := h.returned cs'
    by_cases hcs : cs' = cs
    · subst hcs
      have hnew : s.executed cs' = s.returned cs' ++ [t] ++ rest ++ s.current cs' := by
        rw [hord, hret]
        simp
      simp only [update_self]
      exact hnew
    · simp only [update_of_ne hcs]
      exact hord

theorem finish_returned
    (hroom : ∀ t, s.curTrans = some t → (s.ret s.curCs).length < d.queueSize s.curCs) (cs : Cs) :
    s.executed cs = s.returned cs ++ (d.finish s).ret cs := by
  rw [h.returned cs]
  unfold Devices.finish current
  cases hcur : s.curTrans with
  | none => simp
  | some t =>
    simp only [hroom t hcur, if_true, Option.toList_some]
    by_cases hcs : s.curCs = cs
    · subst hcs
      simp
    · simp [hcs, update_of_ne (Ne.symm hcs)]

theorem intr (hon : s.intrEnabled = true) (hdone : s.transDone = true)
    (hfits : TransferFits d s .intr) : SpiHolds d (d.spiIntr s) := by
  have hrun := h.running.intr hon hdone
  have hfin := h.finish_returned hfits.1
  obtain ⟨hcur, hregs, hlog, -, hreturned, -⟩ := d.finish_frame s
  obtain ⟨-, heq⟩ | ⟨i, cfg, t, rest, hnext, hcfg, ht, heq⟩ := d.spiIntr_cases hdone
  · rw [heq] at hrun ⊢
    refine ⟨hrun, fun cs => ?_, fun x hx => h.configured x (hlog ▸ hx), by simp [hcur]⟩
    obtain ⟨hexec, hcurrent⟩ := d.stop_executed s cs
    rw [hcurrent, List.append_nil, hexec, hfin cs, ← hreturned]
  · rw [heq] at hrun ⊢
    have hfor : d.RegsFor i (d.start (d.finish s)
        (s.curTrans.map fun _ => s.curCs) i cfg t rest).regs := by
      simp only [Devices.start]
      split_ifs with hprev
      · -- the registers are still those of the transfer that has just ended
        obtain ⟨t', ht', hi⟩ := Option.map_eq_some_iff.1 hprev
        rw [hregs, ← hi]
        exact h.regs (by rw [ht']; rfl)
      · exact ⟨cfg, hcfg, _, rfl⟩
    refine ⟨hrun, fun cs => ?_, fun x hx => ?_, fun _ => hfor⟩
    · rw [Devices.start_executed, Devices.executed_of_log hlog, hfin cs, ← hreturned]
      rfl
    · rcases List.mem_append.1 hx with hx | hx
      · exact h.configured x (hlog ▸ hx)
      · obtain rfl := List.mem_singleton.1 hx
        obtain ⟨hpol, hsel⟩ := (Devices.PinsKept.iff_testBit hcfg).1 (hfits.2 i hnext)
        refine ⟨hfor, fun cfg' hcfg' => ?_, fun cfg' hcfg' => ?_⟩
        · obtain rfl := Option.some.inj (hcfg.symm.trans hcfg')
          exact hpol
        · obtain rfl := Option.some.inj (hcfg.symm.trans hcfg')
          exact hsel

theorem step (hfits : TransferFits d s e) (hs' : spiStep d s e = some s') : SpiHolds d s' := by
  cases e with
  | send cs t =>
    cases hs'
    exact h.send cs t
  | enable =>
    simp only [spiStep] at hs'
    split_ifs at hs'
    cases hs'
    exact h.enable
  | intr =>
    obtain ⟨hon, hdone, rfl⟩ := spiStep_intr hs'
    exact h.intr hon hdone hfits
  | done =>
    simp only [spiStep] at hs'
    split_ifs at hs'
    cases hs'
    exact ⟨h.running.done, h.returned, h.configured, h.regs⟩
  | result cs =>
    cases hs'
    exact h.result cs

theorem finish_lost (hcur : s.curTrans = some t)
    (hfull : ¬ (s.ret s.curCs).length < d.queueSize s.curCs) :
    (s.executed s.curCs).length = (s.returned s.curCs ++ (d.finish s).ret s.curCs).length + 1 := by
  rw [h.returned]
  simp [Devices.finish, current, hcur, hfull]
  omega

theorem not_completes (hdone : s.transDone = true)
    (hfits : ¬ TransferFits d s .intr) : ¬ Completes d (d.spiIntr s) := by
  intro hcomp
  obtain ⟨hcur, hregs, hlog, -, hreturned, -⟩ := d.finish_frame s
  apply hfits
  obtain ⟨hnext, heq⟩ | ⟨i, cfg, t, rest, hnext, hcfg, ht, heq⟩ := d.spiIntr_cases hdone
  · rw [heq] at hcomp
    refine ⟨fun t ht => ?_, fun cs hcs => by rw [hnext] at hcs; cases hcs⟩
    by_contra hfull
    have hlost := h.finish_lost ht hfull
    have hret := hcomp.returned s.curCs
    obtain ⟨hexec, hcurrent⟩ := d.stop_executed s s.curCs
    rw [hcurrent, List.append_nil, hexec] at hret
    rw [← hreturned, ← show s.executed s.curCs = (d.finish s).returned s.curCs ++
      (d.finish s).ret s.curCs from hret] at hlost
    omega
  · rw [heq] at hcomp
    refine ⟨fun t' ht' => ?_, fun cs hcs => ?_⟩
    · by_contra hfull
      have hlost := h.finish_lost ht' hfull
      have hret := hcomp.returned s.curCs
      rw [Devices.start_executed, Devices.executed_of_log hlog] at hret
      rw [← hreturned, ← show s.executed s.curCs = (d.finish s).returned s.curCs ++
        (d.finish s).ret s.curCs from List.append_cancel_right hret] at hlost
      omega
    · obtain rfl := Option.some.inj (hnext.symm.trans hcs)
      have hconf := hcomp.configured _ (List.mem_append.2 (.inr (List.mem_singleton.2 rfl)))
      exact (Devices.PinsKept.iff_testBit hcfg).2 ⟨hconf.csPol cfg hcfg, hconf.ckSel cfg hcfg⟩

end

end SpiHolds

/-- Every queued transaction completes exactly if each `spi_intr` finds room in the return queue for
the descriptor of the transfer that is done, and no device with a transfer has lost its pins to one
that was added later. -/
theorem transactions_complete_iff (d : Devices) (regs : DeviceRegs) (events : List SpiEvent) :
    Always (spiStep d) (Completes d) (SpiState.initial regs) events ↔
      Along (spiStep d) (TransferFits d) (SpiState.initial regs) events := by
  refine always_iff_along (fun _ h => h.completes) (fun _ _ _ h hfits => h.step hfits) ?_
    (SpiHolds.initial d regs) events
  intro s e s' h hfits hs'
  cases e with
  | intr =>
    obtain ⟨-, hdone, rfl⟩ := spiStep_intr hs'
    exact h.not_completes hdone hfits
  | send | enable | done | result => exact absurd trivial hfits

theorem second_descriptor_lost :
    let cfg : DeviceConfig := ⟨0, 0, 0, 0, 128, 0, 0, 1000000, 5, 0, 1⟩
    let d : Devices := ⟨fun cs => if cs = 0 then some cfg else none, true, 32⟩
    let first : Trans := ⟨1, 0, 8, 0⟩
    let second : Trans := ⟨2, 0, 8, 0⟩
    ∃ s, run (spiStep d) (SpiState.initial default)
        [.send 0 first, .enable, .intr, .send 0 second, .enable, .done, .intr, .done, .intr] =
          some s ∧
      s.queued 0 = [first, second] ∧ s.executed 0 = [first, second] ∧ s.ret 0 = [first] ∧
      s.returned 0 = [] ∧ s.curTrans = none ∧ ¬ Completes d s := by
  intro cfg d first second
  have hrun : (run (spiStep d) (SpiState.initial default)
      [.send 0 first, .enable, .intr, .send 0 second, .enable, .done, .intr, .done, .intr]).map
        (fun s => [s.queued 0, s.executed 0, s.ret 0, s.returned 0, s.current 0,
          s.curTrans.toList]) = some [[first, second], [first, second], [first], [], [], []] := by
    decide +kernel
  obtain ⟨s, hs, hparts⟩ := Option.map_eq_some_iff.1 hrun
  simp only [List.cons.injEq, Option.toList_eq_nil_iff, and_true] at hparts
  obtain ⟨hqueued, hexecuted, hret, hreturned, hcurrent, hcur⟩ := hparts
  refine ⟨s, hs, hqueued, hexecuted, hret, hreturned, hcur, fun h => ?_⟩
  have hlost := h.returned 0
  rw [hexecuted, hreturned, hret, hcurrent] at hlost
  exact absurd hlost (by decide)

end EspIdf.SpiMaster
