import Mathlib.Algebra.Ring.Nat
import Mathlib.Data.List.Nodup
import EspIdf.Device.Runs

/-! The receive ring of the Ethernet driver (`emac_main.c`, without receive copy): the DMA, the
interrupt handler, `emac_task` and `esp_eth_free_rx_buf`, interleaved.  Each read of the DMA's
descriptor register and each turn of a loop of the task is one step, so that frames can arrive in
between; `esp_eth_free_rx_buf` runs under the mutex that the loops hold. -/

namespace EspIdf.Emac

open EspIdf.Runs

inductive Sig where
  | rxUnavail
  | rxDone
  deriving DecidableEq, Repr

inductive Pc where
  | idle
  | received (sig : Sig)
  | rxRead
  | rxTake (cur : Nat)
  | rxIf (cur : Nat)
  | rxWhile (cur : Nat)
  | rxReread
  | rxOwn
  | rxFill
  | unavailTake
  | unavailFill
  deriving DecidableEq, Repr

def Pc.hasMutex : Pc → Bool
  | .rxIf _ | .rxWhile _ | .rxReread | .rxOwn | .rxFill | .unavailFill => true
  | _ => false

/-- The descriptors, the DMA and the driver's indices, and what has happened to the frames.  Buffers
and frames are numbered, a frame by its arrival. -/
structure RxRing where
  /-- `EMAC_DESC_RX_OWN` -/
  own : Nat → Bool
  /-- the buffer of `desc2` -/
  buf : Nat → Nat
  /-- the frame that a buffer has in it -/
  frame : Nat → Nat
  /-- the descriptor register of the DMA -/
  dma : Nat
  curRx : Nat
  dirtyRx : Nat
  cntRx : Int
  received : Nat
  /-- what was passed to `emac_tcpip_input`: the frame, and whether the DMA had the descriptor -/
  passed : List (Nat × Bool)
  /-- the buffers that the stack has -/
  held : List Nat
  freed : Nat

structure State extends RxRing where
  recvInt : Bool
  recvBufUnavail : Bool
  rxIntrEnabled : Bool
  unavailIntrEnabled : Bool
  emacSigCnt : Sig → Bool
  queue : List Sig
  task : Pc

/-- After `emac_init_dma_chain` and with the interrupts enabled. -/
def initial : State where
  own _ := true
  buf i := i
  frame _ := 0
  dma := 0
  curRx := 0
  dirtyRx := 0
  cntRx := 0
  received := 0
  passed := []
  held := []
  freed := 0
  recvInt := false
  recvBufUnavail := false
  rxIntrEnabled := true
  unavailIntrEnabled := true
  emacSigCnt _ := false
  queue := []
  task := .idle

namespace RxRing

def store (s : RxRing) (num : Nat) : RxRing :=
  { s with
    own := Function.update s.own s.dma false
    frame := Function.update s.frame (s.buf s.dma) s.received
    received := s.received + 1
    dma := (s.dma + 1) % num }

def espEthFreeRxBuf (s : RxRing) (num buf : Nat) : RxRing :=
  { s with
    own := Function.update s.own s.curRx true
    buf := Function.update s.buf s.curRx buf
    curRx := (s.curRx + 1) % num
    cntRx := s.cntRx - 1
    held := s.held.erase buf
    freed := s.freed + 1 }

def passUp (s : RxRing) (num : Nat) : RxRing :=
  { s with
    passed := s.passed ++ [(s.frame (s.buf s.dirtyRx), s.own s.dirtyRx)]
    held := s.held ++ [s.buf s.dirtyRx]
    cntRx := s.cntRx + 1
    dirtyRx := (s.dirtyRx + 1) % num }

end RxRing

namespace State

/-- A frame comes in: the DMA stores it, or finds that it does not own its descriptor. -/
def arrive (s : State) (num : Nat) : State :=
  if s.own s.dma then { s with toRxRing := s.store num, recvInt := true }
  else { s with recvBufUnavail := true }

def emacPost (s : State) (sig : Sig) : State :=
  if s.emacSigCnt sig then s
  else { s with emacSigCnt := Function.update s.emacSigCnt sig true, queue := s.queue ++ [sig] }

def recvEvent (s : State) (event : Bool) : State :=
  if event then { s with rxIntrEnabled := false }.emacPost .rxDone else s

def unavailEvent (s : State) (event : Bool) : State :=
  if event then { s with unavailIntrEnabled := false }.emacPost .rxUnavail else s

/-- `emac_process_intr` for reception: the status is read and cleared, and what it says is served
whether or not its interrupt is enabled. -/
def emacProcessIntr (s : State) : State :=
  ({ s with recvInt := false, recvBufUnavail := false }.recvEvent s.recvInt).unavailEvent
    s.recvBufUnavail

def taskStep (s : State) (num : Nat) : Option State :=
  match s.task with
  | .idle =>
    match s.queue with
    | [] => none
    | sig :: rest => some { s with task := .received sig, queue := rest }
  | .received sig =>
    some { s with
      emacSigCnt := Function.update s.emacSigCnt sig false
      task := match sig with
        | .rxDone => .rxRead
        | .rxUnavail => .unavailTake }
  | .rxRead => some { s with task := .rxTake s.dma }
  | .rxTake cur => some { s with task := .rxIf cur }
  | .rxIf cur => some { s with task := if s.dirtyRx ≠ cur then .rxWhile cur else .rxOwn }
  | .rxWhile cur =>
    if s.dirtyRx ≠ cur ∧ s.cntRx < num then
      some { s with toRxRing := s.passUp num, task := .rxReread }
    else some { s with rxIntrEnabled := true, task := .idle }
  | .rxReread => some { s with task := .rxWhile s.dma }
  | .rxOwn =>
    if s.cntRx < num ∧ s.own s.dirtyRx = false then some { s with task := .rxFill }
    else some { s with rxIntrEnabled := true, task := .idle }
  | .rxFill =>
    if s.cntRx < num then some { s with toRxRing := s.passUp num }
    else some { s with rxIntrEnabled := true, task := .idle }
  | .unavailTake => some { s with task := .unavailFill }
  | .unavailFill =>
    if s.cntRx < num then some { s with toRxRing := s.passUp num }
    else some { s with rxIntrEnabled := true, unavailIntrEnabled := true, task := .idle }

end State

inductive Event where
  | arrive
  | intr
  | free (buf : Nat)
  | task
  deriving DecidableEq, Repr

/-- An interrupt needs an enabled cause; a buffer is freed by the stack that has it, while the task
does not have the mutex. -/
def step (num : Nat) (s : State) : Event → Option State
  | .arrive => some (s.arrive num)
  | .intr =>
    if s.recvInt ∧ s.rxIntrEnabled ∨ s.recvBufUnavail ∧ s.unavailIntrEnabled then
      some s.emacProcessIntr
    else none
  | .free buf =>
    if buf ∈ s.held ∧ s.task.hasMutex = false then
      some { s with toRxRing := s.espEthFreeRxBuf num buf }
    else none
  | .task => s.taskStep num

/-- What the stack relies on.  The frames passed up so far are the first ones that arrived, each
once and in order; the others are still to come, since the task is at work, or has a signal, or an
enabled interrupt is pending. -/
structure FramesRight (num : Nat) (s : State) : Prop where
  order : s.passed.map (·.1) = List.range s.passed.length
  arrived : s.passed.length ≤ s.received
  comes : s.passed.length < s.received →
    s.task ≠ .idle ∨ .rxDone ∈ s.queue ∨ s.recvInt = true ∧ s.rxIntrEnabled = true
  notOwned : ∀ p ∈ s.passed, p.2 = false
  count : 0 ≤ s.cntRx ∧ s.cntRx ≤ num
  buffers : ∀ i < num, ∀ j < num, s.buf i = s.buf j → i = j

/-- The condition on a step.  Buffers are given back in the order in which they were passed up; and
when the task starts to pass up descriptors by the counter alone, in `emac_process_rx_unavail` or
because it found its descriptor filled, the DMA owns none of them. -/
def Sound (num : Nat) (s : State) : Event → Prop
  | .free buf => buf = s.buf s.curRx
  | .task => s.task = .unavailTake ∨ s.task = .rxOwn ∧ s.own s.dirtyRx = false →
      s.cntRx < num → ∀ i < num, s.own i = false
  | _ => True

instance (num : Nat) (s : State) : (ev : Event) → Decidable (Sound num s ev)
  | .free buf => inferInstanceAs (Decidable (buf = s.buf s.curRx))
  | .task => inferInstanceAs (Decidable (_ → _))
  | .arrive => inferInstanceAs (Decidable True)
  | .intr => inferInstanceAs (Decidable True)

/-! ### The ring -/

section Window

variable {num f i j : Nat}

theorem eq_of_mod_eq (hi : f ≤ i) (hi' : i < f + num) (hj : f ≤ j) (hj' : j < f + num)
    (h : i % num = j % num) : i = j := by
  rcases Nat.le_total i j with hij | hij
  · have hz := Nat.sub_mod_eq_zero_of_mod_eq h.symm
    rw [Nat.mod_eq_of_lt (by omega)] at hz
    omega
  · have hz := Nat.sub_mod_eq_zero_of_mod_eq h
    rw [Nat.mod_eq_of_lt (by omega)] at hz
    omega

end Window

/-- The ring through three counters: `freed` buffers were given back, the frames up to
`passed.length` were passed up and those up to `received` have arrived; the DMA has the rest of the
window of `num` that begins at `freed`. -/
structure Ring (num : Nat) (s : RxRing) : Prop where
  freed_le : s.freed ≤ s.passed.length
  passed_le : s.passed.length ≤ s.received
  received_le : s.received ≤ s.freed + num
  curRx : s.curRx = s.freed % num
  dirtyRx : s.dirtyRx = s.passed.length % num
  dma : s.dma = s.received % num
  cntRx : s.cntRx = s.passed.length - s.freed
  own : ∀ j, s.freed ≤ j → j < s.freed + num → (s.own (j % num) = true ↔ s.received ≤ j)
  buf : ∀ i < num, s.buf i = i
  frame : ∀ j, s.freed ≤ j → j < s.received → s.frame (j % num) = j
  passed : s.passed = (List.range s.passed.length).map (·, false)
  held : s.held = (List.range' s.freed (s.passed.length - s.freed)).map (· % num)

structure Signals (s : State) : Prop where
  counted : ∀ sig, s.emacSigCnt sig = true ↔ sig ∈ s.queue ∨ s.task = .received sig
  once : s.queue.Nodup
  taken : ∀ sig, s.task = .received sig → sig ∉ s.queue

def Pending (s : State) : Prop := s.recvInt = true ∨ .rxDone ∈ s.queue

def HasRead (num : Nat) (s : State) (cur : Nat) : Prop :=
  ∃ c, cur = c % num ∧ s.passed.length ≤ c ∧ c ≤ s.received ∧ (c < s.received → Pending s)

def AtPlace (num : Nat) (s : State) : Pc → Prop
  | .idle => s.passed.length < s.received → Pending s
  | .rxTake cur | .rxIf cur => HasRead num s cur
  | .rxWhile cur => HasRead num s cur ∧ (s.dirtyRx ≠ cur ∨ s.freed < s.passed.length)
  | .rxReread => s.freed < s.passed.length
  | .rxOwn => (s.passed.length < s.received → Pending s) ∨ s.received = s.freed + num
  | .rxFill | .unavailFill => s.received = s.freed + num
  | _ => True

structure Inv (num : Nat) (s : State) : Prop where
  ring : Ring num s.toRxRing
  signals : Signals s
  enabled : s.rxIntrEnabled = false → s.task ≠ .idle ∨ .rxDone ∈ s.queue
  place : AtPlace num s s.task

theorem inv_initial (num : Nat) : Inv num initial where
  ring := ⟨Nat.le_refl 0, Nat.le_refl 0, Nat.zero_le _, (Nat.zero_mod num).symm,
    (Nat.zero_mod num).symm, (Nat.zero_mod num).symm, rfl, fun _ _ _ => iff_of_true rfl (Nat.zero_le _),
    fun _ _ => rfl, fun _ _ h => absurd h (Nat.not_lt_zero _), rfl, rfl⟩
  signals := ⟨by simp [initial], List.nodup_nil, by simp [initial]⟩
  enabled := by simp [initial]
  place := fun h => absurd h (Nat.lt_irrefl 0)

theorem Inv.framesRight (h : Inv num s) : FramesRight num s where
  order := by
    conv_lhs => rw [h.ring.passed, List.map_map]
    exact List.map_id _
  arrived := h.ring.passed_le
  comes hlt := by
    by_cases hidle : s.task = .idle
    · have hplace := h.place
      rw [hidle] at hplace
      rcases hplace hlt with hrecv | hqueue
      · cases hen : s.rxIntrEnabled with
        | true => exact .inr (.inr ⟨hrecv, rfl⟩)
        | false => exact (h.enabled hen).imp id .inl
      · exact .inr (.inl hqueue)
    · exact .inl hidle
  notOwned p hp := by
    rw [h.ring.passed] at hp
    obtain ⟨k, -, rfl⟩ := List.mem_map.1 hp
    rfl
  count := by
    have h1 := h.ring.freed_le
    have h2 := h.ring.passed_le
    have h3 := h.ring.received_le
    rw [h.ring.cntRx]
    omega
  buffers i hi j hj hij := by rwa [h.ring.buf i hi, h.ring.buf j hj] at hij

section RingSteps

variable {num : Nat} {s : RxRing}

section

variable (h : Ring num s)
include h

theorem Ring.own_dma (hnum : 0 < num) : s.own s.dma = true ↔ s.received < s.freed + num := by
  have h1 := h.freed_le
  have h2 := h.passed_le
  have h3 := h.received_le
  rw [h.dma]
  constructor
  · intro hown
    by_contra hge
    obtain hfull : s.received = s.freed + num := by omega
    rw [hfull, Nat.add_mod_right, h.own s.freed (by omega) (by omega)] at hown
    omega
  · intro hlt
    exact (h.own s.received (by omega) hlt).2 (Nat.le_refl _)

theorem Ring.own_dirty (hlt : s.passed.length < s.freed + num) :
    s.own s.dirtyRx = false ↔ s.passed.length < s.received := by
  rw [← Bool.not_eq_true, h.dirtyRx, h.own s.passed.length h.freed_le hlt]
  omega

theorem Ring.full_of_none_owned (hnum : 0 < num)
    (hnone : ∀ i < num, s.own i = false) : s.received = s.freed + num := by
  by_contra hne
  have h3 := h.received_le
  have hown := (h.own_dma hnum).2 (by omega)
  rw [hnone s.dma (h.dma ▸ Nat.mod_lt _ hnum)] at hown
  simp at hown

theorem Ring.store (hnum : 0 < num) (hlt : s.received < s.freed + num) :
    Ring num (s.store num) := by
  have h1 := h.freed_le
  have h2 := h.passed_le
  have hne : ∀ j, s.freed ≤ j → j < s.freed + num → j ≠ s.received → j % num ≠ s.dma := by
    intro j hj hj' hjr heq
    rw [h.dma] at heq
    exact hjr (eq_of_mod_eq hj hj' (by omega) hlt heq)
  refine ⟨h1, by simp only [RxRing.store]; omega, by simp only [RxRing.store]; omega, h.curRx,
    h.dirtyRx, ?_, h.cntRx, fun j hj hj' => ?_, h.buf, fun j hj hj' => ?_, h.passed, h.held⟩
  · simp only [RxRing.store, h.dma]
    rw [Nat.mod_add_mod]
  · simp only [RxRing.store] at hj hj' ⊢
    by_cases hjr : j = s.received
    · subst hjr
      rw [← h.dma]
      simp
    · rw [Function.update_of_ne (hne j hj hj' hjr), h.own j hj hj']
      omega
  · simp only [RxRing.store] at hj hj' ⊢
    rw [h.buf s.dma (h.dma ▸ Nat.mod_lt _ hnum)]
    by_cases hjr : j = s.received
    · subst hjr
      rw [← h.dma, Function.update_self]
    · rw [Function.update_of_ne (hne j hj (by omega) hjr)]
      exact h.frame j hj (by omega)

theorem Ring.held_cons {buf : Nat} (hbuf : buf ∈ s.held) :
    s.freed < s.passed.length ∧ s.held = s.freed % num ::
      (List.range' (s.freed + 1) (s.passed.length - (s.freed + 1))).map (· % num) := by
  have hlt : s.freed < s.passed.length := by
    by_contra hge
    rw [h.held, Nat.sub_eq_zero_of_le (Nat.not_lt.1 hge)] at hbuf
    simp at hbuf
  refine ⟨hlt, ?_⟩
  rw [h.held, show s.passed.length - s.freed = s.passed.length - (s.freed + 1) + 1 by omega,
    List.range'_succ, List.map_cons]

theorem Ring.free (hnum : 0 < num) {buf : Nat} (hheld : buf ∈ s.held)
    (hbuf : buf = s.buf s.curRx) : Ring num (s.espEthFreeRxBuf num buf) := by
  obtain ⟨hlt, hcons⟩ := h.held_cons hheld
  have h2 := h.passed_le
  have h3 := h.received_le
  have hcur : s.curRx < num := h.curRx ▸ Nat.mod_lt _ hnum
  have hbuf' : buf = s.freed % num := by rw [hbuf, h.buf _ hcur, h.curRx]
  refine ⟨hlt, h2, by simp only [RxRing.espEthFreeRxBuf]; omega, ?_, h.dirtyRx, h.dma, ?_,
    fun j hj hj' => ?_, fun i hi => ?_, fun j hj hj' => h.frame j (Nat.le_of_succ_le hj) hj',
    h.passed, ?_⟩
  · simp only [RxRing.espEthFreeRxBuf, h.curRx]
    rw [Nat.mod_add_mod]
  · simp only [RxRing.espEthFreeRxBuf, h.cntRx]
    omega
  · simp only [RxRing.espEthFreeRxBuf] at hj hj' ⊢
    by_cases hjf : j = s.freed + num
    · subst hjf
      rw [Nat.add_mod_right, ← h.curRx]
      simpa using h3
    · have hne : j % num ≠ s.curRx := by
        rw [h.curRx]
        intro heq
        have := eq_of_mod_eq (f := s.freed) (by omega) (by omega) (Nat.le_refl _) (by omega) heq
        omega
      rw [Function.update_of_ne hne]
      exact h.own j (by omega) (by omega)
  · simp only [RxRing.espEthFreeRxBuf]
    by_cases hi' : i = s.curRx
    · rw [hi', Function.update_self, hbuf', h.curRx]
    · rw [Function.update_of_ne hi']
      exact h.buf i hi
  · simp only [RxRing.espEthFreeRxBuf]
    rw [hcons, hbuf', List.erase_cons_head]

theorem Ring.passUp (hnum : 0 < num) (hlt : s.passed.length < s.received) :
    Ring num (s.passUp num) := by
  have h1 := h.freed_le
  have h3 := h.received_le
  have hdirty : s.dirtyRx < num := h.dirtyRx ▸ Nat.mod_lt _ hnum
  have hown : s.own s.dirtyRx = false := (h.own_dirty (by omega)).2 hlt
  have hframe : s.frame (s.buf s.dirtyRx) = s.passed.length := by
    rw [h.buf _ hdirty, h.dirtyRx]
    exact h.frame _ h1 hlt
  refine ⟨?_, ?_, h3, h.curRx, ?_, h.dma, ?_, h.own, h.buf, h.frame, ?_, ?_⟩
  · simp only [RxRing.passUp, List.length_append, List.length_singleton]
    omega
  · simp only [RxRing.passUp, List.length_append, List.length_singleton]
    omega
  · simp only [RxRing.passUp, List.length_append, List.length_singleton, h.dirtyRx]
    rw [Nat.mod_add_mod]
  · simp only [RxRing.passUp, List.length_append, List.length_singleton, h.cntRx]
    omega
  · simp only [RxRing.passUp, List.length_append, List.length_singleton, hown, hframe]
    rw [List.range_succ, List.map_append, ← h.passed]
    rfl
  · simp only [RxRing.passUp, List.length_append, List.length_singleton]
    rw [show s.passed.length + 1 - s.freed = s.passed.length - s.freed + 1 by omega,
      List.range'_concat, List.map_append, ← h.held, h.buf _ hdirty, h.dirtyRx]
    simp only [List.map_cons, List.map_nil, Nat.one_mul]
    rw [show s.freed + (s.passed.length - s.freed) = s.passed.length by omega]

end

end RingSteps

/-! ### Interrupts and signals -/

section Steps

variable {num : Nat} {s s' : State}

/-- A signal that is posted is in the queue, unless the task is just taking note of an earlier one;
no other signal is lost. -/
structure Posted (s s' : State) : Prop where
  ring : s'.toRxRing = s.toRxRing
  task : s'.task = s.task
  signals : Signals s'
  kept : ∀ sig ∈ s.queue, sig ∈ s'.queue

theorem Posted.trans (h : Posted s s') (h' : Posted s' s'') : Posted s s'' :=
  ⟨h'.ring.trans h.ring, h'.task.trans h.task, h'.signals,
    fun sig hmem => h'.kept sig (h.kept sig hmem)⟩

theorem Signals.emacPost (h : Signals s) (sig : Sig) :
    Posted s (s.emacPost sig) ∧ (sig ∈ (s.emacPost sig).queue ∨ s.task = .received sig) ∧
      (s.emacPost sig).rxIntrEnabled = s.rxIntrEnabled := by
  unfold State.emacPost
  split_ifs with hcnt
  · exact ⟨⟨rfl, rfl, h, fun _ hmem => hmem⟩, (h.counted sig).1 hcnt, rfl⟩
  · have hnot := mt (h.counted sig).2 hcnt
    push Not at hnot
    refine ⟨⟨rfl, rfl, ⟨fun sig' => ?_, ?_, fun sig' htask => ?_⟩, ?_⟩, .inl (by simp), rfl⟩
    · by_cases heq : sig' = sig
      · simp [heq]
      · simp [heq, h.counted sig']
    · refine List.nodup_append.2 ⟨h.once, List.nodup_singleton _, fun a ha b hb hab => ?_⟩
      obtain rfl := List.mem_singleton.1 hb
      exact hnot.1 (hab ▸ ha)
    · simp only [List.mem_append, List.mem_singleton, not_or]
      refine ⟨h.taken sig' htask, ?_⟩
      rintro rfl
      exact hnot.2 htask
    · exact fun sig' hmem => List.mem_append_left _ hmem

theorem Signals.recvEvent (h : Signals s) (event : Bool) : Posted s (s.recvEvent event) ∧
      (event = true → .rxDone ∈ (s.recvEvent event).queue ∨ s.task = .received .rxDone) ∧
      (event = false → (s.recvEvent event).rxIntrEnabled = s.rxIntrEnabled) := by
  cases event with
  | false => exact ⟨⟨rfl, rfl, h, fun _ hmem => hmem⟩, by simp, fun _ => rfl⟩
  | true =>
    have hs : Signals { s with rxIntrEnabled := false } := ⟨h.counted, h.once, h.taken⟩
    obtain ⟨⟨hring, htask, hsig, hkept⟩, hposted, -⟩ := hs.emacPost .rxDone
    exact ⟨⟨hring, htask, hsig, hkept⟩, fun _ => hposted, by simp⟩

theorem Signals.unavailEvent (h : Signals s) (event : Bool) : Posted s (s.unavailEvent event) ∧
      (s.unavailEvent event).rxIntrEnabled = s.rxIntrEnabled := by
  cases event with
  | false => exact ⟨⟨rfl, rfl, h, fun _ hmem => hmem⟩, rfl⟩
  | true =>
    have hs : Signals { s with unavailIntrEnabled := false } := ⟨h.counted, h.once, h.taken⟩
    obtain ⟨⟨hring, htask, hsig, hkept⟩, -, hen⟩ := hs.emacPost .rxUnavail
    exact ⟨⟨hring, htask, hsig, hkept⟩, hen⟩

theorem Signals.intr (h : Signals s) : Posted s s.emacProcessIntr ∧
      (s.recvInt = true → .rxDone ∈ s.emacProcessIntr.queue ∨ s.task = .received .rxDone) ∧
      (s.recvInt = false → s.emacProcessIntr.rxIntrEnabled = s.rxIntrEnabled) := by
  have hs : Signals { s with recvInt := false, recvBufUnavail := false } := ⟨h.counted, h.once, h.taken⟩
  obtain ⟨hrecv, hposted, hen⟩ := hs.recvEvent s.recvInt
  obtain ⟨hun, hen'⟩ := hrecv.signals.unavailEvent s.recvBufUnavail
  obtain ⟨hring, htask, hsig, hkept⟩ := hrecv.trans hun
  refine ⟨⟨hring, htask, hsig, hkept⟩, fun hint => ?_, fun hint => hen'.trans (hen hint)⟩
  exact (hposted hint).imp (hun.kept _) id

theorem AtPlace.mono (h : AtPlace num s pc) (hring : s'.toRxRing = s.toRxRing)
    (hpending : Pending s → Pending s') : AtPlace num s' pc := by
  have hread : ∀ cur, HasRead num s cur → HasRead num s' cur := by
    rintro cur ⟨c, hcur, hle, hge, hp⟩
    exact ⟨c, hcur, hring ▸ hle, hring ▸ hge, fun hlt => hpending (hp (hring ▸ hlt))⟩
  cases pc with
  | idle => exact fun hlt => hpending (h (hring ▸ hlt))
  | rxTake cur => exact hread cur h
  | rxIf cur => exact hread cur h
  | rxWhile cur => exact ⟨hread cur h.1, hring ▸ h.2⟩
  | rxReread => simpa only [AtPlace, hring] using h
  | rxOwn => exact h.imp (fun h hlt => hpending (h (hring ▸ hlt))) fun h => hring ▸ h
  | rxFill => simpa only [AtPlace, hring] using h
  | unavailFill => simpa only [AtPlace, hring] using h
  | _ => trivial

theorem Inv.intr (h : Inv num s) : Inv num s.emacProcessIntr := by
  obtain ⟨⟨hring, htask, hsig, hkept⟩, hposted, hen⟩ := h.signals.intr
  refine ⟨hring ▸ h.ring, hsig, fun hdis => ?_, ?_⟩
  · rw [htask]
    cases hrecv : s.recvInt with
    | true =>
      rcases hposted hrecv with hmem | hrec
      · exact .inr hmem
      · exact .inl (by simp [hrec])
    | false => exact (h.enabled ((hen hrecv).symm.trans hdis)).imp id (hkept _)
  · rw [htask]
    by_cases hrec : s.task = .received .rxDone
    · rw [hrec]
      trivial
    · refine h.place.mono hring fun hp => .inr ?_
      rcases hp with hrecv | hmem
      · exact (hposted hrecv).resolve_right hrec
      · exact hkept _ hmem

theorem Inv.arrive (h : Inv num s) (hnum : 0 < num) : Inv num (s.arrive num) := by
  unfold State.arrive
  split_ifs with hown
  · have hlt := (h.ring.own_dma hnum).1 hown
    have hp : Pending { s with toRxRing := s.store num, recvInt := true } := .inl rfl
    have hread : ∀ cur, HasRead num s cur →
        HasRead num { s with toRxRing := s.store num, recvInt := true } cur := by
      rintro cur ⟨c, hcur, hle, hge, -⟩
      exact ⟨c, hcur, hle, Nat.le_succ_of_le hge, fun _ => hp⟩
    refine ⟨h.ring.store hnum hlt, ⟨h.signals.counted, h.signals.once, h.signals.taken⟩, h.enabled, ?_⟩
    have hplace := h.place
    obtain ⟨pc, hpc⟩ : ∃ pc, s.task = pc := ⟨_, rfl⟩
    simp only [hpc] at hplace ⊢
    cases pc with
    | idle => exact fun _ => hp
    | rxTake cur => exact hread cur hplace
    | rxIf cur => exact hread cur hplace
    | rxWhile cur => exact ⟨hread cur hplace.1, hplace.2⟩
    | rxReread => exact hplace
    | rxOwn => exact .inl fun _ => hp
    | rxFill => exact absurd hplace (Nat.ne_of_lt hlt)
    | unavailFill => exact absurd hplace (Nat.ne_of_lt hlt)
    | _ => trivial
  · exact ⟨h.ring, ⟨h.signals.counted, h.signals.once, h.signals.taken⟩, h.enabled,
      h.place.mono rfl id⟩

theorem Inv.free (h : Inv num s) (hnum : 0 < num) {buf : Nat} (hheld : buf ∈ s.held)
    (hmutex : s.task.hasMutex = false) (hbuf : buf = s.buf s.curRx) :
    Inv num { s with toRxRing := s.espEthFreeRxBuf num buf } := by
  refine ⟨h.ring.free hnum hheld hbuf, ⟨h.signals.counted, h.signals.once, h.signals.taken⟩,
    h.enabled, ?_⟩
  have hplace := h.place
  obtain ⟨pc, hpc⟩ : ∃ pc, s.task = pc := ⟨_, rfl⟩
  simp only [hpc] at hplace hmutex ⊢
  cases pc with
  | idle => exact hplace
  | rxTake cur => exact hplace
  | received sig => trivial
  | rxRead => trivial
  | unavailTake => trivial
  | _ => simp [Pc.hasMutex] at hmutex

/-! ### The task -/

theorem Inv.goto (h : Inv num s) {pc : Pc} (hbefore : ∀ sig, s.task ≠ .received sig)
    (hpc : ∀ sig, pc ≠ .received sig) (hidle : pc ≠ .idle) {ring : RxRing} (hring : Ring num ring)
    (hplace : AtPlace num { s with toRxRing := ring, task := pc } pc) :
    Inv num { s with toRxRing := ring, task := pc } := by
  refine ⟨hring, ⟨fun sig => ?_, h.signals.once, fun sig hsig => absurd hsig (hpc sig)⟩,
    fun _ => .inl hidle, hplace⟩
  simp only [h.signals.counted sig, hpc sig, hbefore sig]

theorem Inv.finish (h : Inv num s) (hbefore : ∀ sig, s.task ≠ .received sig)
    (hcomes : s.passed.length < s.received → Pending s) (enabled : Bool) :
    Inv num { s with rxIntrEnabled := true, unavailIntrEnabled := enabled, task := .idle } := by
  refine ⟨h.ring, ⟨fun sig => ?_, h.signals.once, fun sig hsig => by simp at hsig⟩, by simp, hcomes⟩
  simp only [h.signals.counted sig, hbefore sig, reduceCtorEq]

theorem Inv.take (h : Inv num s) (hidle : s.task = .idle) (hqueue : s.queue = sig :: rest) :
    Inv num { s with task := .received sig, queue := rest } := by
  have hnodup := h.signals.once
  rw [hqueue, List.nodup_cons] at hnodup
  refine ⟨h.ring, ⟨fun sig' => ?_, hnodup.2, fun sig' hsig' => ?_⟩, fun _ => .inl (by simp), trivial⟩
  · simp only [h.signals.counted sig', hqueue, hidle, List.mem_cons, Pc.received.injEq, reduceCtorEq,
      or_false]
    rw [or_comm, eq_comm]
  · obtain rfl := Pc.received.inj hsig'
    exact hnodup.1

theorem Inv.note (h : Inv num s) (htask : s.task = .received sig)
    (hpc : pc = .rxRead ∨ pc = .unavailTake) :
    Inv num { s with emacSigCnt := Function.update s.emacSigCnt sig false, task := pc } := by
  have hnot : ∀ sig', pc ≠ .received sig' := by
    rintro sig' rfl
    simp at hpc
  refine ⟨h.ring, ⟨fun sig' => ?_, h.signals.once, fun sig' hsig' => absurd hsig' (hnot sig')⟩,
    fun _ => .inl ?_, ?_⟩
  · simp only [hnot sig', or_false]
    by_cases heq : sig' = sig
    · subst heq
      simpa using h.signals.taken sig' htask
    · rw [Function.update_of_ne heq, h.signals.counted sig', htask]
      simp [Ne.symm heq]
  · rintro rfl
    simp at hpc
  · rcases hpc with rfl | rfl <;> trivial

theorem Ring.all_passed (h : Ring num ring) (hcnt : ¬ ring.cntRx < num) :
    ring.received = ring.passed.length := by
  have h2 := h.passed_le
  have h3 := h.received_le
  rw [h.cntRx] at hcnt
  omega

theorem Ring.cnt_lt (h : Ring num ring) (hcnt : ring.cntRx < num) :
    ring.passed.length < ring.freed + num := by
  rw [h.cntRx] at hcnt
  omega

section

variable (h : Inv num s)
include h

theorem Inv.fill {pc : Pc} (hnum : 0 < num) (hfull : s.received = s.freed + num)
    (htask : s.task = pc) (hpc : pc = .rxFill ∨ pc = .unavailFill) (hcnt : s.cntRx < num) :
    Inv num { s with toRxRing := s.passUp num, task := pc } := by
  have hlt := h.ring.cnt_lt hcnt
  have hring := h.ring.passUp hnum (by omega)
  rcases hpc with rfl | rfl
  · exact h.goto (by simp [htask]) (by simp) (by simp) hring hfull
  · exact h.goto (by simp [htask]) (by simp) (by simp) hring hfull

theorem Inv.rxIf {cur : Nat} (htask : s.task = .rxIf cur) (hread : HasRead num s cur) :
    Inv num { s with task := if s.dirtyRx ≠ cur then .rxWhile cur else .rxOwn } := by
  by_cases hne : s.dirtyRx ≠ cur
  · rw [if_pos hne]
    exact h.goto (by simp [htask]) (by simp) (by simp) h.ring ⟨hread, .inl hne⟩
  · rw [if_neg hne]
    refine h.goto (by simp [htask]) (by simp) (by simp) h.ring ?_
    obtain ⟨c, hcur, hle, hge, hp⟩ := hread
    have h1 := h.ring.freed_le
    have h3 := h.ring.received_le
    -- the register is where the next frame to pass up is: nothing had arrived, or a whole ring
    by_cases hc : c < s.passed.length + num
    · have hmod : s.passed.length % num = c % num := by
        rw [← h.ring.dirtyRx, ← hcur]
        exact not_not.1 hne
      have heq := eq_of_mod_eq (f := s.passed.length) (Nat.le_refl _) (by omega) hle hc hmod
      exact .inl fun hlt => hp (heq ▸ hlt)
    · exact .inr (by simp only; omega)

theorem Inv.rxWhile {cur : Nat} (hnum : 0 < num) (htask : s.task = .rxWhile cur)
    (hread : HasRead num s cur) (hne : s.dirtyRx ≠ cur) :
    Inv num { s with toRxRing := s.passUp num, task := .rxReread } := by
  obtain ⟨c, hcur, hle, hge, -⟩ := hread
  have hlt : s.passed.length < s.received := by
    rcases Nat.lt_or_eq_of_le hle with hlt | heq
    · omega
    · exact absurd (by rw [h.ring.dirtyRx, hcur, heq]) hne
  refine h.goto (by simp [htask]) (by simp) (by simp) (h.ring.passUp hnum hlt) ?_
  have h1 := h.ring.freed_le
  simp only [AtPlace, RxRing.passUp, List.length_append, List.length_singleton]
  omega

theorem Inv.rxWhile_exit (hread : HasRead num s cur)
    (hfreed : s.dirtyRx ≠ cur ∨ s.freed < s.passed.length)
    (hexit : ¬ (s.dirtyRx ≠ cur ∧ s.cntRx < num)) :
    s.passed.length < s.received → Pending s := by
  intro hlt
  by_cases hcnt : s.cntRx < num
  · obtain ⟨c, hcur, hle, hge, hp⟩ := hread
    have heq : s.dirtyRx = cur := by
      by_contra hne
      exact hexit ⟨hne, hcnt⟩
    have h3 := h.ring.received_le
    have hmod : s.passed.length % num = c % num := by rw [← h.ring.dirtyRx, heq, hcur]
    have hc := eq_of_mod_eq (f := s.passed.length) (Nat.le_refl _) (by omega) hle (by omega) hmod
    exact hp (hc ▸ hlt)
  · have := h.ring.all_passed hcnt
    omega

theorem Inv.taskStep (hnum : 0 < num) (hsound : Sound num s .task)
    (hs' : s.taskStep num = some s') : Inv num s' := by
  have hplace := h.place
  unfold State.taskStep at hs'
  cases hpc : s.task with
  | idle =>
    simp only [hpc] at hs'
    cases hqueue : s.queue with
    | nil => simp [hqueue] at hs'
    | cons sig rest =>
      simp only [hqueue] at hs'
      cases hs'
      exact h.take hpc hqueue
  | received sig =>
    simp only [hpc] at hs'
    cases hs'
    exact h.note hpc (by cases sig <;> simp)
  | rxRead =>
    simp only [hpc] at hs'
    cases hs'
    exact h.goto (by simp [hpc]) (by simp) (by simp) h.ring
      ⟨s.received, h.ring.dma, h.ring.passed_le, Nat.le_refl _, fun hlt => absurd hlt (Nat.lt_irrefl _)⟩
  | rxTake cur =>
    simp only [hpc] at hs' hplace
    cases hs'
    exact h.goto (by simp [hpc]) (by simp) (by simp) h.ring hplace
  | rxIf cur =>
    simp only [hpc] at hs' hplace
    cases hs'
    exact h.rxIf hpc hplace
  | rxWhile cur =>
    simp only [hpc] at hs' hplace
    split_ifs at hs' with hturn
    · cases hs'
      exact h.rxWhile hnum hpc hplace.1 hturn.1
    · cases hs'
      exact h.finish (by simp [hpc]) (h.rxWhile_exit hplace.1 hplace.2 hturn) _
  | rxReread =>
    simp only [hpc] at hs' hplace
    cases hs'
    exact h.goto (by simp [hpc]) (by simp) (by simp) h.ring
      ⟨⟨s.received, h.ring.dma, h.ring.passed_le, Nat.le_refl _,
        fun hlt => absurd hlt (Nat.lt_irrefl _)⟩, .inr hplace⟩
  | rxOwn =>
    simp only [hpc] at hs' hplace
    split_ifs at hs' with hfilled
    · cases hs'
      have hnone := hsound (.inr ⟨hpc, hfilled.2⟩) hfilled.1
      exact h.goto (by simp [hpc]) (by simp) (by simp) h.ring (h.ring.full_of_none_owned hnum hnone)
    · cases hs'
      refine h.finish (by simp [hpc]) (fun hlt => ?_) _
      by_cases hcnt : s.cntRx < num
      · exact absurd ⟨hcnt, (h.ring.own_dirty (h.ring.cnt_lt hcnt)).2 hlt⟩ hfilled
      · have := h.ring.all_passed hcnt
        omega
  | rxFill =>
    simp only [hpc] at hs' hplace
    split_ifs at hs' with hcnt
    · cases hs'
      exact h.fill hnum hplace hpc (.inl rfl) hcnt
    · cases hs'
      refine h.finish (by simp [hpc]) (fun hlt => ?_) _
      have := h.ring.all_passed hcnt
      omega
  | unavailTake =>
    simp only [hpc] at hs'
    cases hs'
    refine h.goto (by simp [hpc]) (by simp) (by simp) h.ring ?_
    by_cases hcnt : s.cntRx < num
    · exact h.ring.full_of_none_owned hnum (hsound (.inl hpc) hcnt)
    · have h2 := h.ring.passed_le
      have h3 := h.ring.received_le
      rw [h.ring.cntRx] at hcnt
      simp only [AtPlace]
      omega
  | unavailFill =>
    simp only [hpc] at hs' hplace
    split_ifs at hs' with hcnt
    · cases hs'
      exact h.fill hnum hplace hpc (.inr rfl) hcnt
    · cases hs'
      refine h.finish (by simp [hpc]) (fun hlt => ?_) _
      have := h.ring.all_passed hcnt
      omega

end

end Steps

theorem Inv.step (h : Inv num s) (hnum : 0 < num) (hsound : Sound num s ev)
    (hs' : step num s ev = some s') : Inv num s' := by
  cases ev with
  | arrive =>
    cases hs'
    exact h.arrive hnum
  | intr =>
    obtain ⟨-, hs'⟩ := Option.ite_none_right_eq_some.1 hs'
    cases hs'
    exact h.intr
  | free buf =>
    obtain ⟨⟨hheld, hmutex⟩, hs'⟩ := Option.ite_none_right_eq_some.1 hs'
    cases hs'
    exact h.free hnum hheld hmutex hsound
  | task => exact h.taskStep hnum hsound hs'

/-- In every run that gives buffers back in order and that starts to pass up descriptors by the
counter only while the DMA owns none, the frames are right in every state. -/
theorem frames_right_of_sound {num : Nat} (hnum : 0 < num) {es : List Event}
    (hes : Along (step num) (Sound num) initial es) :
    Always (step num) (FramesRight num) initial es :=
  (always_of_step (fun _ _ _ h hsound hs' => h.step hnum hsound hs') (inv_initial num) hes).imp
    fun _ h => h.framesRight

def fullRing : List Event :=
  [.arrive, .intr, .arrive, .arrive, .arrive] ++ List.replicate 10 .task ++
    [.intr, .free 0, .arrive, .free 1] ++ List.replicate 7 .task ++ [.arrive] ++
    List.replicate 6 .task

theorem frames_right_fullRing : Always (step 3) (FramesRight 3) initial fullRing ∧
      (run (step 3) initial fullRing).any (fun s => s.passed.length = 5 ∧ s.task = .idle) = true :=
  ⟨frames_right_of_sound (by decide) (by decide +kernel), by decide +kernel⟩

/-- Under the same condition the DMA never owns a descriptor whose buffer the stack holds. -/
theorem dma_spares_held {num : Nat} (hnum : 0 < num) {es : List Event}
    (hes : Along (step num) (Sound num) initial es) :
    Always (step num) (fun s => ∀ i < num, s.own i = true → s.buf i ∉ s.held) initial es := by
  refine (always_of_step (fun _ _ _ h hsound hs' => h.step hnum hsound hs') (inv_initial num) hes).imp
    fun s h i hi hown hheld => ?_
  rw [h.ring.buf i hi, h.ring.held] at hheld
  obtain ⟨k, hk, rfl⟩ := List.mem_map.1 hheld
  have hmem := List.mem_range'_1.1 hk
  have hpassed := h.ring.passed_le
  have hreceived := h.ring.received_le
  have := (h.ring.own k hmem.1 (by omega)).1 hown
  omega

theorem dma_spares_held_fullRing : Always (step 3)
    (fun s => ∀ i < 3, s.own i = true → s.buf i ∉ s.held) initial fullRing :=
  dma_spares_held (by decide) (by decide +kernel)

/-- In a ring of two, the signal of a full ring is processed after a buffer has been freed. -/
def lateUnavail : List Event :=
  [.arrive, .intr, .arrive, .arrive, .intr] ++ List.replicate 9 .task ++ [.free 0] ++
    List.replicate 5 .task

theorem lateUnavail_passes_owned : ¬ Always (step 2) (FramesRight 2) initial lateUnavail := by
  intro h
  have hrun : (run (step 2) initial lateUnavail).any
      (fun s => s.passed = [(0, false), (1, false), (0, true)]) = true := by decide +kernel
  obtain ⟨s, hs, hbad⟩ := (Option.any_eq_true _ _).1 hrun
  simp only [decide_eq_true_eq] at hbad
  have howned := (h.final hs).notOwned (0, true) (by simp [hbad])
  simp at howned

/-- In a ring of two, a frame arrives between the read of the register, which finds nothing new, and
the test of the descriptor; no event of a full ring is involved. -/
def lateFrame : List Event :=
  [.arrive, .intr] ++ List.replicate 3 .task ++ [.arrive] ++ List.replicate 7 .task ++
    [.intr, .free 0, .free 1] ++ List.replicate 4 .task ++ [.arrive] ++ List.replicate 4 .task

def otherOrder : List Event :=
  [.arrive, .intr, .arrive] ++ List.replicate 9 .task ++ [.free 1]

theorem late_frame_and_other_order : (run (step 2) initial lateFrame).any
      (fun s => s.passed = [(0, false), (1, false), (2, false), (1, true)]) = true ∧
    (run (step 2) initial otherOrder).any (fun s => s.buf 0 = s.buf 1) = true :=
  ⟨by decide +kernel, by decide +kernel⟩

end EspIdf.Emac
