import Mathlib.Algebra.Group.Nat.Defs
import Mathlib.Data.List.Flatten
import EspIdf.Device.Runs

/-! Writing to a UART port with a TX ring buffer (`uart_tx_all` of `uart.c`), interleaved: which
tasks are inside the region of `tx_mux`, and how the items of the calls lie in the ring buffer. -/

namespace EspIdf.Uart

open EspIdf.Runs
open Function (update update_of_ne update_self)

structure TxCall where
  src : List UInt8
  brkEn : Bool
  brkLen : Int
  deriving DecidableEq, Repr

inductive TxItem where
  | header (size : Nat) (brkEn : Bool) (brkLen : Int)
  | data (bytes : List UInt8)
  deriving DecidableEq, Repr

def headerSize : Nat := 12

def TxItem.size : TxItem → Nat
  | header _ _ _ => headerSize
  | data bytes => bytes.length

/-- `evt` of `uart_tx_all`. -/
def TxCall.header (c : TxCall) : TxItem := .header c.src.length c.brkEn c.brkLen

def uartWriteBytes (src : List UInt8) : Option TxCall := some ⟨src, false, 0⟩

def uartWriteBytesWithBreak (src : List UInt8) (brkLen : Int) : Option TxCall :=
  if 0 < src.length ∧ 0 < brkLen ∧ brkLen < 256 then some ⟨src, true, brkLen⟩ else none

def halfMaxSize (maxItemSize : Nat) : Nat :=
  if maxItemSize < 2 ^ 31 then maxItemSize / 2 else 2 ^ 32 - (2 ^ 32 - maxItemSize) / 2

def sendSize (maxItemSize size : Nat) : Nat :=
  if halfMaxSize maxItemSize < size then halfMaxSize maxItemSize else size

/-- Where a task stands in `uart_tx_all`.  The mutex is given twice, after the loop and at the end
of the function. -/
inductive TxPc where
  | idle
  | take (c : TxCall)
  | sendHeader (c : TxCall)
  | sendData (c : TxCall) (rest : List UInt8)
  | give (c : TxCall)
  | giveAgain (c : TxCall)
  deriving DecidableEq, Repr

/-- The counter of `tx_mux`, the tasks, all items that the ring buffer accepted, in their order, and
the calls that have sent all their bytes. -/
structure TxState where
  txMux : Bool
  task : Nat → TxPc
  items : List TxItem
  sent : List TxCall

def TxState.initial : TxState := ⟨true, fun _ => .idle, [], []⟩

namespace TxState

def setTask (s : TxState) (t : Nat) (pc : TxPc) : TxState :=
  { s with task := Function.update s.task t pc }

/-- `xRingbufferSend` without a limit in time: an item over the maximum is refused, any other is
accepted. -/
def xRingbufferSend (maxItemSize : Nat) (s : TxState) (item : TxItem) : TxState :=
  if item.size ≤ maxItemSize then { s with items := s.items ++ [item] } else s

def enter (s : TxState) (t : Nat) (c : TxCall) : Option TxState :=
  match s.task t with
  | .idle => if c.src.length = 0 then some s else some (s.setTask t (.take c))
  | _ => none

def taskStep (maxItemSize : Nat) (s : TxState) (t : Nat) : Option TxState :=
  match s.task t with
  | .idle => none
  | .take c => if s.txMux then some { s.setTask t (.sendHeader c) with txMux := false } else none
  | .sendHeader c => some ((s.xRingbufferSend maxItemSize c.header).setTask t (.sendData c c.src))
  | .sendData c rest =>
    if rest.length = 0 then some { s.setTask t (.give c) with sent := s.sent ++ [c] }
    else
      let n := sendSize maxItemSize rest.length
      some ((s.xRingbufferSend maxItemSize (.data (rest.take n))).setTask t
        (.sendData c (rest.drop n)))
  | .give c => some { s.setTask t (.giveAgain c) with txMux := true }
  | .giveAgain _ => some { s.setTask t .idle with txMux := true }

end TxState

inductive TxEvent where
  | writeBytes (t : Nat) (src : List UInt8)
  | writeBytesWithBreak (t : Nat) (src : List UInt8) (brkLen : Int)
  | task (t : Nat)
  deriving DecidableEq, Repr

def txStep (maxItemSize : Nat) (s : TxState) : TxEvent → Option TxState
  | .writeBytes t src => (uartWriteBytes src).bind (s.enter t)
  | .writeBytesWithBreak t src brkLen => (uartWriteBytesWithBreak src brkLen).bind (s.enter t)
  | .task t => s.taskStep maxItemSize t

def TxPc.Inside : TxPc → Prop
  | .idle => False
  | .take _ => False
  | _ => True

def TxPc.Owns : TxPc → Prop
  | .sendHeader _ => True
  | .sendData _ _ => True
  | .give _ => True
  | _ => False

def Exclusive (s : TxState) : Prop :=
  ∀ t u, (s.task t).Inside → (s.task u).Inside → t = u

def callItems (r : TxCall × List (List UInt8)) : List TxItem := r.1.header :: r.2.map .data

/-- The items are those of the calls that have sent all their bytes, one call after the other, each
with its header, followed by those of the call that is in its loop. -/
def Contiguous (s : TxState) : Prop :=
  ∃ (runs : List (TxCall × List (List UInt8))) (current : List TxItem),
    runs.map (·.1) = s.sent ∧ (∀ r ∈ runs, r.2.flatten = r.1.src) ∧
    s.items = runs.flatMap callItems ++ current ∧
    (∀ t c rest, s.task t = .sendData c rest →
      ∃ pieces, current = callItems (c, pieces) ∧ pieces.flatten ++ rest = c.src) ∧
    ((∀ t c rest, s.task t ≠ .sendData c rest) → current = [])

def TakesClear (s : TxState) : TxEvent → Prop
  | .task t => ∀ c, s.task t = .take c → ∀ u d, s.task u ≠ .giveAgain d
  | _ => True

def SendFits (maxItemSize : Nat) (s : TxState) : TxEvent → Prop
  | .task t => (∀ c, s.task t = .sendHeader c → headerSize ≤ maxItemSize) ∧
      ∀ c rest, s.task t = .sendData c rest → sendSize maxItemSize rest.length ≤ maxItemSize
  | _ => True

/-! ### Mutual exclusion -/

structure Guarded (s : TxState) : Prop where
  alone : Exclusive s
  taken : ∀ t, (s.task t).Owns → s.txMux = false

theorem TxPc.Owns.inside {pc : TxPc} (h : pc.Owns) : pc.Inside := by
  cases pc <;> first | exact absurd h id | trivial

theorem guarded_initial : Guarded TxState.initial :=
  ⟨fun _ _ h => absurd h id, fun _ h => absurd h id⟩

theorem Guarded.stepInside {pc : TxPc} (h : Guarded s) (hin : (s.task t).Inside)
    (htask : s'.task = update s.task t pc) (hmux : pc.Owns → s'.txMux = false) : Guarded s' := by
  have hout : ∀ u, u ≠ t → ¬ (s.task u).Inside := fun u hu hu' => hu (h.alone u t hu' hin)
  have hpc : ∀ u, (s'.task u).Inside → u = t := by
    intro u hu
    by_contra hne
    rw [htask, update_of_ne hne] at hu
    exact hout u hne hu
  refine ⟨fun u v hu hv => (hpc u hu).trans (hpc v hv).symm, fun u hu => ?_⟩
  obtain rfl := hpc u hu.inside
  rw [htask, update_self] at hu
  exact hmux hu

theorem Guarded.enter {s s' : TxState} {t : Nat} {c : TxCall} (h : Guarded s)
    (hs' : s.enter t c = some s') : Guarded s' := by
  unfold TxState.enter at hs'
  split at hs'
  case h_2 => simp at hs'
  case h_1 =>
    split_ifs at hs'
    · cases hs'
      exact h
    · cases hs'
      have hpc : ∀ u, ((s.setTask t (.take c)).task u).Inside →
          (s.setTask t (.take c)).task u = s.task u := by
        intro u hu
        by_cases hut : u = t
        · subst hut
          simp [TxState.setTask, TxPc.Inside] at hu
        · simp [TxState.setTask, update_of_ne hut]
      refine ⟨fun u v hu hv => h.alone u v (hpc u hu ▸ hu) (hpc v hv ▸ hv), fun u hu => ?_⟩
      exact h.taken u (hpc u hu.inside ▸ hu)

theorem xRingbufferSend_task (maxItemSize : Nat) (s : TxState) (item : TxItem) :
    (s.xRingbufferSend maxItemSize item).task = s.task := by
  unfold TxState.xRingbufferSend
  split_ifs <;> rfl

theorem xRingbufferSend_txMux (maxItemSize : Nat) (s : TxState) (item : TxItem) :
    (s.xRingbufferSend maxItemSize item).txMux = s.txMux := by
  unfold TxState.xRingbufferSend
  split_ifs <;> rfl

variable {maxItemSize : Nat}

theorem Guarded.taskStep (h : Guarded s) (hclear : TakesClear s (.task t))
    (hs' : s.taskStep maxItemSize t = some s') : Guarded s' := by
  unfold TxState.taskStep at hs'
  split at hs'
  case h_1 => simp at hs'
  case h_2 c hpc =>
    split_ifs at hs' with hmux
    cases hs'
    -- the mutex is free, so nobody owns it, and nobody is between its two gives
    have hout : ∀ u, ¬ (s.task u).Inside := by
      intro u hu
      have howns : ¬ (s.task u).Owns := fun howns => by simp [h.taken u howns] at hmux
      have hagain := hclear c hpc u
      cases hu' : s.task u <;> simp_all [TxPc.Inside, TxPc.Owns]
    have hpc : ∀ u, ((s.setTask t (.sendHeader c)).task u).Inside → u = t := by
      intro u hu
      by_contra hne
      simp only [TxState.setTask, update_of_ne hne] at hu
      exact hout u hu
    exact ⟨fun u v hu hv => (hpc u hu).trans (hpc v hv).symm, fun _ _ => rfl⟩
  case h_3 c hpc =>
    cases hs'
    have howns : (s.task t).Owns := by rw [hpc]; trivial
    refine h.stepInside howns.inside (by simp only [TxState.setTask, xRingbufferSend_task]; rfl) ?_
    intro _
    simp only [TxState.setTask, xRingbufferSend_txMux]
    exact h.taken t howns
  case h_4 c rest hpc =>
    have howns : (s.task t).Owns := by rw [hpc]; trivial
    split_ifs at hs'
    · cases hs'
      exact h.stepInside howns.inside rfl fun _ => h.taken t howns
    · cases hs'
      refine h.stepInside howns.inside (by simp only [TxState.setTask, xRingbufferSend_task]; rfl)
        ?_
      intro _
      simp only [TxState.setTask, xRingbufferSend_txMux]
      exact h.taken t howns
  case h_5 c hpc =>
    cases hs'
    exact h.stepInside (by rw [hpc]; trivial) rfl fun howns => absurd howns id
  case h_6 c hpc =>
    cases hs'
    exact h.stepInside (by rw [hpc]; trivial) rfl fun howns => absurd howns id

theorem Guarded.step (h : Guarded s) (hclear : TakesClear s e)
    (hs' : txStep maxItemSize s e = some s') : Guarded s' := by
  cases e with
  | writeBytes t src => exact h.enter hs'
  | writeBytesWithBreak t src brkLen =>
    obtain ⟨c, -, hs'⟩ := Option.bind_eq_some_iff.1 hs'
    exact h.enter hs'
  | task t => exact h.taskStep hclear hs'

theorem not_exclusive_of_take (hclear : ¬ TakesClear s e)
    (hs' : txStep maxItemSize s e = some s') : ¬ Exclusive s' := by
  cases e with
  | writeBytes t src => exact absurd trivial hclear
  | writeBytesWithBreak t src brkLen => exact absurd trivial hclear
  | task t =>
    simp only [TakesClear, not_forall, not_not] at hclear
    obtain ⟨c, hpc, u, d, hu⟩ := hclear
    simp only [txStep, TxState.taskStep, hpc] at hs'
    split_ifs at hs'
    cases hs'
    have hne : u ≠ t := by
      rintro rfl
      rw [hpc] at hu
      cases hu
    intro hexcl
    refine hne (hexcl u t ?_ ?_)
    · simp [TxState.setTask, update_of_ne hne, hu, TxPc.Inside]
    · simp [TxState.setTask, TxPc.Inside]

/-! ### The items of a call -/

theorem contiguous_initial : Contiguous TxState.initial :=
  ⟨[], [], rfl, by simp, rfl, by simp [TxState.initial], fun _ => rfl⟩

theorem Contiguous.same (h : Contiguous s) (hitems : s'.items = s.items) (hsent : s'.sent = s.sent)
    (hloop : ∀ t c rest, s'.task t = .sendData c rest ↔ s.task t = .sendData c rest) :
    Contiguous s' := by
  obtain ⟨runs, current, hruns, hbytes, hall, hcurrent, hnone⟩ := h
  refine ⟨runs, current, hruns.trans hsent.symm, hbytes, hitems.trans hall, fun t c rest ht => ?_,
    fun hout => ?_⟩
  · exact hcurrent t c rest ((hloop t c rest).1 ht)
  · exact hnone fun t c rest ht => hout t c rest ((hloop t c rest).2 ht)

theorem loop_update {pc : TxPc} (hold : ∀ c rest, task t ≠ .sendData c rest)
    (hnew : ∀ c rest, pc ≠ .sendData c rest) (u : Nat) (c : TxCall) (rest : List UInt8) :
    update task t pc u = .sendData c rest ↔ task u = .sendData c rest := by
  by_cases hu : u = t
  · subst hu
    simp [hold, hnew]
  · rw [update_of_ne hu]

theorem Contiguous.enter {s s' : TxState} {t : Nat} {c : TxCall} (h : Contiguous s)
    (hs' : s.enter t c = some s') : Contiguous s' := by
  unfold TxState.enter at hs'
  split at hs'
  case h_2 => simp at hs'
  case h_1 hpc =>
    split_ifs at hs'
    · cases hs'
      exact h
    · cases hs'
      exact h.same rfl rfl (loop_update (by simp [hpc]) (by simp))

theorem Guarded.loop_unique (h : Guarded s) (hin : (s.task t).Inside)
    (hu : update s.task t pc u = .sendData c rest) : u = t := by
  by_contra hne
  rw [update_of_ne hne] at hu
  exact hne (h.alone u t (by rw [hu]; trivial) hin)

theorem Contiguous.sendHeader (h : Contiguous s) (hguard : Guarded s)
    (hpc : s.task t = .sendHeader c) :
    Contiguous { s.setTask t (.sendData c c.src) with items := s.items ++ [c.header] } := by
  have hin : (s.task t).Inside := by rw [hpc]; trivial
  obtain ⟨runs, current, hruns, hbytes, hall, -, hnone⟩ := h
  have hempty : current = [] := hnone fun u d rest hu => by
    obtain rfl := hguard.alone u t (by rw [hu]; trivial) hin
    rw [hpc] at hu
    cases hu
  refine ⟨runs, [c.header], hruns, hbytes, by simp [hall, hempty], ?_, ?_⟩
  · intro u d rest hu
    obtain rfl := hguard.loop_unique hin hu
    simp only [TxState.setTask, update_self, TxPc.sendData.injEq] at hu
    obtain ⟨rfl, rfl⟩ := hu
    exact ⟨[], rfl, rfl⟩
  · intro hout
    exact absurd (by simp [TxState.setTask]) (hout t c c.src)

theorem Contiguous.sendPiece (h : Contiguous s) (hguard : Guarded s)
    (hpc : s.task t = .sendData c rest) :
    Contiguous { s.setTask t (.sendData c (rest.drop n)) with
      items := s.items ++ [.data (rest.take n)] } := by
  have hin : (s.task t).Inside := by rw [hpc]; trivial
  obtain ⟨runs, current, hruns, hbytes, hall, hcurrent, -⟩ := h
  obtain ⟨pieces, rfl, hpieces⟩ := hcurrent t c rest hpc
  refine ⟨runs, callItems (c, pieces ++ [rest.take n]), hruns, hbytes, ?_, ?_, ?_⟩
  · simp [hall, callItems]
  · intro u d rest' hu
    obtain rfl := hguard.loop_unique hin hu
    simp only [TxState.setTask, update_self, TxPc.sendData.injEq] at hu
    obtain ⟨rfl, rfl⟩ := hu
    exact ⟨pieces ++ [rest.take n], rfl, by simp [hpieces]⟩
  · intro hout
    exact absurd (by simp [TxState.setTask]) (hout t c (rest.drop n))

theorem Contiguous.finish (h : Contiguous s) (hguard : Guarded s)
    (hpc : s.task t = .sendData c []) :
    Contiguous { s.setTask t (.give c) with sent := s.sent ++ [c] } := by
  have hin : (s.task t).Inside := by rw [hpc]; trivial
  obtain ⟨runs, current, hruns, hbytes, hall, hcurrent, -⟩ := h
  obtain ⟨pieces, rfl, hpieces⟩ := hcurrent t c [] hpc
  refine ⟨runs ++ [(c, pieces)], [], by simp [hruns], ?_, ?_, ?_, fun _ => rfl⟩
  · intro r hr
    rcases List.mem_append.1 hr with hr | hr
    · exact hbytes r hr
    · obtain rfl := List.mem_singleton.1 hr
      simpa using hpieces
  · simp [hall, TxState.setTask]
  · intro u d rest hu
    obtain rfl := hguard.loop_unique hin hu
    simp [TxState.setTask] at hu

theorem xRingbufferSend_fits {item : TxItem} (h : item.size ≤ maxItemSize) (s : TxState) :
    s.xRingbufferSend maxItemSize item = { s with items := s.items ++ [item] } := if_pos h

theorem Contiguous.taskStep (h : Contiguous s) (hguard : Guarded s)
    (hfits : SendFits maxItemSize s (.task t)) (hs' : s.taskStep maxItemSize t = some s') :
    Contiguous s' := by
  unfold TxState.taskStep at hs'
  split at hs'
  case h_1 => simp at hs'
  case h_2 c hpc =>
    split_ifs at hs'
    cases hs'
    exact h.same rfl rfl (loop_update (by simp [hpc]) (by simp))
  case h_3 c hpc =>
    rw [xRingbufferSend_fits (hfits.1 c hpc)] at hs'
    cases hs'
    exact h.sendHeader hguard hpc
  case h_4 c rest hpc =>
    split_ifs at hs' with hrest
    · cases hs'
      obtain rfl := List.length_eq_zero_iff.1 hrest
      exact h.finish hguard hpc
    · have hsize : TxItem.size (.data (rest.take (sendSize maxItemSize rest.length))) ≤
          maxItemSize := Nat.le_trans (List.length_take_le _ _) (hfits.2 c rest hpc)
      simp only [xRingbufferSend_fits hsize] at hs'
      cases hs'
      exact h.sendPiece hguard hpc
  case h_5 c hpc | h_6 c hpc =>
    cases hs'
    exact h.same rfl rfl (loop_update (by simp [hpc]) (by simp))

theorem Contiguous.step (h : Contiguous s) (hguard : Guarded s)
    (hfits : SendFits maxItemSize s e) (hs' : txStep maxItemSize s e = some s') :
    Contiguous s' := by
  cases e with
  | writeBytes t src => exact h.enter hs'
  | writeBytesWithBreak t src brkLen =>
    obtain ⟨c, -, hs'⟩ := Option.bind_eq_some_iff.1 hs'
    exact h.enter hs'
  | task t => exact h.taskStep hguard hfits hs'

/-- At most one task is inside in every state exactly if no task takes the mutex while another is
between its two gives; and then, if the ring buffer takes the items, the calls do not mix. -/
theorem writes_apart_iff (maxItemSize : Nat) (events : List TxEvent) :
    (Always (txStep maxItemSize) Exclusive TxState.initial events ↔
      Along (txStep maxItemSize) TakesClear TxState.initial events) ∧
    (Along (txStep maxItemSize) (fun s e => TakesClear s e ∧ SendFits maxItemSize s e)
      TxState.initial events →
      Always (txStep maxItemSize) (fun s => Exclusive s ∧ Contiguous s) TxState.initial
        events) := by
  constructor
  · exact always_iff_along (fun _ h => h.alone) (fun _ _ _ h hclear => h.step hclear)
      (fun _ _ _ _ => not_exclusive_of_take) guarded_initial events
  · intro halong
    have hboth : Always (txStep maxItemSize) (fun s => Guarded s ∧ Contiguous s) TxState.initial
        events :=
      always_of_step (fun s e s' h he hs' => ⟨h.1.step he.1 hs', h.2.step h.1 he.2 hs'⟩)
        ⟨guarded_initial, contiguous_initial⟩ halong
    exact hboth.imp fun s h => ⟨h.1.alone, h.2⟩

theorem three_writers_mix : ∃ s, run (txStep 100) TxState.initial
        ([.writeBytes 0 [10], .writeBytes 1 [20], .writeBytes 2 [30]] ++
          [.task 0, .task 0, .task 0, .task 0, .task 0, .task 1, .task 0, .task 2, .task 1,
            .task 2, .task 1, .task 2]) = some s ∧
      ¬ Exclusive s ∧
      s.items = [.header 1 false 0, .data [10], .header 1 false 0, .header 1 false 0,
        .data [20], .data [30]] := by
  refine ⟨_, rfl, fun h => ?_, rfl⟩
  exact absurd (h 1 2 trivial trivial) (by decide)

end EspIdf.Uart
