import EspIdf.Device.Runs

/-! Receiving on a UART port (`uart.c`): the receive interrupt, `uart_read_bytes` and `uart_flush`,
interleaved, with the chunk that is stashed while the ring buffer is full. -/

namespace EspIdf.Uart

open EspIdf.Runs

def uartFifoLen : Nat := 128

/-- Where the call that holds `rx_mux` stands; `length` is what `uart_read_bytes` still has to
read.  `check` comes after an item was returned, `clearFlag` after the stash was pushed. -/
inductive RxPc where
  | idle
  | loop (length : Nat)
  | copy (length : Nat)
  | check (length : Nat)
  | clearFlag (length : Nat)
  | enable (length : Nat)
  | flush
  deriving DecidableEq, Repr

def RxPc.left : RxPc → Option Nat
  | loop n | copy n | check n | clearFlag n | enable n => some n
  | idle | flush => none

/-- The hardware FIFO, the bytes of the RX ring buffer not received yet, and the members of
`uart_obj_t` for reception.  `item` is the rest of the current item and `held` the space it takes
until it is returned; `stash` stands for `rx_data_buf` up to `rx_stash_len`.  `taken` and
`delivered` are the bytes taken from the FIFO and those returned to readers since the last flush. -/
structure RxState where
  fifo : List UInt8
  ring : List UInt8
  item : List UInt8
  held : Nat
  rxBufferFullFlg : Bool
  stash : List UInt8
  intrOn : Bool
  pc : RxPc
  taken : List UInt8
  delivered : List UInt8
  deriving DecidableEq, Repr

/-- The port after `uart_driver_install`. -/
def RxState.initial : RxState := ⟨[], [], [], 0, false, [], true, .idle, [], []⟩

namespace RxState

/-- The ring buffer accepts `bytes`: with 8 bytes to spare, in a capacity of `size - 1`. -/
def Fits (size : Nat) (s : RxState) (bytes : List UInt8) : Prop :=
  bytes.length + 8 + s.ring.length + s.held ≤ size - 1

instance (size : Nat) (s : RxState) (bytes : List UInt8) : Decidable (s.Fits size bytes) :=
  inferInstanceAs (Decidable (_ ≤ _))

def rxIntr (size : Nat) (s : RxState) : RxState :=
  if s.rxBufferFullFlg then { s with intrOn := false }
  else if s.Fits size s.fifo then
    { s with ring := s.ring ++ s.fifo, stash := s.fifo, taken := s.taken ++ s.fifo, fifo := [] }
  else
    { s with
      stash := s.fifo
      taken := s.taken ++ s.fifo
      fifo := []
      intrOn := false
      rxBufferFullFlg := true }

def flushRound (size k : Nat) (s : RxState) : Option RxState :=
  let s := { s with item := [], held := 0 }
  if s.ring = [] then
    some { s with fifo := [], intrOn := true, pc := .idle, taken := [], delivered := [] }
  else if 0 < k ∧ k ≤ s.ring.length then
    let s := { s with ring := s.ring.drop k }
    if s.rxBufferFullFlg ∧ s.Fits size s.stash then
      some { s with ring := s.ring ++ s.stash, rxBufferFullFlg := false }
    else some s
  else none

/-- The next step of the call in progress.  `k` is the length of the item if one is received: the
bytes up to the end of the ring buffer's memory, so any number that there is. -/
def callStep (size k : Nat) (s : RxState) : Option RxState :=
  match s.pc with
  | .idle => none
  | .loop length =>
    if length = 0 then some { s with pc := .idle }
    else if s.item ≠ [] then some { s with pc := .copy length }
    else if s.ring = [] then some { s with pc := .idle }
    else if 0 < k ∧ k ≤ s.ring.length then
      some { s with item := s.ring.take k, held := k, ring := s.ring.drop k, pc := .copy length }
    else none
  | .copy length =>
    let n := min s.item.length length
    let left := s.item.drop n
    let s := { s with delivered := s.delivered ++ s.item.take n, item := left }
    if left = [] then some { s with held := 0, pc := .check (length - n) }
    else some { s with pc := .loop (length - n) }
  | .check length =>
    if s.rxBufferFullFlg ∧ s.Fits size s.stash then
      some { s with ring := s.ring ++ s.stash, pc := .clearFlag length }
    else some { s with pc := .loop length }
  | .clearFlag length => some { s with rxBufferFullFlg := false, pc := .enable length }
  | .enable length => some { s with intrOn := true, pc := .loop length }
  | .flush => s.flushRound size k

end RxState

/-- What can happen: a byte arrives, the FIFO overflows and is reset, the receive interrupt, the
start of a call, and a step of the call in progress. -/
inductive RxEvent where
  | arrive (b : UInt8)
  | overflow
  | intr
  | read (length : Nat)
  | flush
  | call (k : Nat)
  deriving DecidableEq, Repr

/-- `rx_mux` admits one call at a time. -/
def rxStep (size : Nat) (s : RxState) : RxEvent → Option RxState
  | .arrive b => if s.fifo.length < uartFifoLen then some { s with fifo := s.fifo ++ [b] } else none
  | .overflow => some { s with fifo := [] }
  | .intr => if s.intrOn then some (s.rxIntr size) else none
  | .read length => if s.pc = .idle then some { s with pc := .loop length } else none
  | .flush => if s.pc = .idle then some { s with pc := .flush, intrOn := false } else none
  | .call k => s.callStep size k

namespace RxState

def stashed (s : RxState) : List UInt8 :=
  match s.pc with
  | .clearFlag _ => []
  | _ => if s.rxBufferFullFlg then s.stash else []

end RxState

/-- Reception is not stuck: a set flag comes with unread data, the bytes taken from the FIFO are
those delivered and those still to be read, in order, and a read of their number comes to its end
and returns all of them, in whatever pieces the ring buffer gives them out. -/
structure Receives (size : Nat) (s : RxState) : Prop where
  unread : s.pc = .idle → s.rxBufferFullFlg = true → s.item ≠ [] ∨ s.ring ≠ []
  inOrder : s.pc ≠ .flush → s.taken = s.delivered ++ s.item ++ s.ring ++ s.stashed
  ends : s.pc = .idle → ∃ (ks : List Nat) (t : RxState),
    run (rxStep size) s (.read (s.taken.length - s.delivered.length) :: ks.map RxEvent.call) =
      some t ∧ t.pc = .idle
  handedOn : s.pc = .idle → ∀ (ks : List Nat) (t : RxState),
    run (rxStep size) s (.read (s.taken.length - s.delivered.length) :: ks.map RxEvent.call) =
      some t → t.pc = .idle → t.delivered = s.taken

/-- The interrupt takes no more bytes than an empty ring buffer accepts, and a flush that starts
while bytes are stashed finds bytes to receive. -/
def ChunkFits (size : Nat) (s : RxState) : RxEvent → Prop
  | .intr => s.rxBufferFullFlg = false → s.fifo.length + 8 ≤ size - 1
  | .flush => s.rxBufferFullFlg = true → s.ring ≠ []
  | _ => True

instance (size : Nat) (s : RxState) : (e : RxEvent) → Decidable (ChunkFits size s e)
  | .intr => inferInstanceAs (Decidable (_ → _))
  | .flush => inferInstanceAs (Decidable (_ → _))
  | .arrive _ | .overflow | .read _ | .call _ => inferInstanceAs (Decidable True)

def RxState.Unread (s : RxState) : Prop :=
  match s.pc with
  | .copy _ => s.item ≠ []
  | .check _ => s.item = []
  | .clearFlag _ => s.item = [] ∧ s.rxBufferFullFlg = true
  | .flush => s.rxBufferFullFlg = true → s.ring ≠ []
  | _ => s.rxBufferFullFlg = true → s.item ≠ [] ∨ s.ring ≠ []

structure RxHolds (size : Nat) (s : RxState) : Prop where
  stashFits : s.rxBufferFullFlg = true → s.stash.length + 8 ≤ size - 1
  held : s.item = [] → s.held = 0
  unread : s.Unread
  inOrder : s.pc ≠ .flush → s.taken = s.delivered ++ s.item ++ s.ring ++ s.stashed
  flushing : s.pc = .flush → s.intrOn = false

namespace RxHolds

variable {size : Nat} {s s' : RxState}

theorem initial (size : Nat) : RxHolds size RxState.initial :=
  ⟨by simp [RxState.initial], fun _ => rfl, by simp [RxState.Unread, RxState.initial], fun _ => rfl,
    by simp [RxState.initial]⟩

theorem occupied (h : RxHolds size s) {bytes : List UInt8} (hle : bytes.length + 8 ≤ size - 1)
    (hfull : ¬ s.Fits size bytes) : s.item ≠ [] ∨ s.ring ≠ [] := by
  by_contra hnone
  rw [not_or, not_not, not_not] at hnone
  apply hfull
  simp [RxState.Fits, h.held hnone.1, hnone.2, hle]

theorem stashed_eq (hpc : ∀ n, s.pc ≠ .clearFlag n) :
    s.stashed = if s.rxBufferFullFlg then s.stash else [] := by
  unfold RxState.stashed
  split
  · rename_i n hn
    exact absurd hn (hpc n)
  · rfl

theorem order_out (h : RxHolds size s) (hflush : s.pc ≠ .flush)
    (hclear : ∀ n, s.pc ≠ .clearFlag n) :
    s.taken = s.delivered ++ s.item ++ s.ring ++ if s.rxBufferFullFlg then s.stash else [] := by
  rw [← stashed_eq hclear]
  exact h.inOrder hflush

theorem stashed_of_clear (hoff : s.rxBufferFullFlg = false) : s.stashed = [] := by
  unfold RxState.stashed
  split
  · rfl
  · rw [hoff]
    rfl

section

variable (h : RxHolds size s)
include h

theorem intr (hon : s.intrOn = true)
    (hfits : s.rxBufferFullFlg = false → s.fifo.length + 8 ≤ size - 1) :
    RxHolds size (s.rxIntr size) := by
  have hflush : s.pc ≠ .flush := fun hpc => by
    rw [h.flushing hpc] at hon
    cases hon
  have hunread := h.unread
  unfold RxState.Unread at hunread
  unfold RxState.rxIntr
  by_cases hflag : s.rxBufferFullFlg = true
  · rw [if_pos hflag]
    exact ⟨h.stashFits, h.held, h.unread, h.inOrder, fun _ => rfl⟩
  · have hoff : s.rxBufferFullFlg = false := by simpa using hflag
    have horder := h.inOrder hflush
    rw [stashed_of_clear hoff, List.append_nil] at horder
    split_ifs with hroom
    · refine ⟨fun hf => absurd hf hflag, h.held, ?_, fun _ => ?_, fun hpc => absurd hpc hflush⟩
      · unfold RxState.Unread
        split at hunread <;> simp_all
      · have hnone := stashed_of_clear (s := { s with
          ring := s.ring ++ s.fifo, stash := s.fifo, taken := s.taken ++ s.fifo, fifo := [] }) hoff
        rw [hnone, List.append_nil]
        simp only [horder, List.append_assoc]
    · -- the chunk is stashed, so something is there to be read
      have hocc := h.occupied (hfits hoff) hroom
      refine ⟨fun _ => hfits hoff, h.held, ?_, fun _ => ?_, fun hpc => absurd hpc hflush⟩
      · unfold RxState.Unread
        split at hunread <;> simp_all
      · unfold RxState.stashed
        split at hunread <;> simp_all

theorem flushRound (hpc : s.pc = .flush) (hs' : s.flushRound size k = some s') :
    RxHolds size s' := by
  have hunread := h.unread
  simp only [RxState.Unread, hpc] at hunread
  unfold RxState.flushRound at hs'
  dsimp only at hs'
  split_ifs at hs' with hring hk hpush
  · -- nothing to receive: the flush ends, and nothing is stashed
    have hoff : s.rxBufferFullFlg = false := by
      by_contra hflag
      exact hunread (by simpa using hflag) hring
    cases hs'
    refine ⟨by simp [hoff], fun _ => rfl, by simp [RxState.Unread, hoff], fun _ => ?_, by simp⟩
    simp [RxState.stashed, hoff, hring]
  · cases hs'
    exact ⟨by simp, fun _ => rfl, by simp [RxState.Unread, hpc], fun hne => absurd hpc hne, h.flushing⟩
  · cases hs'
    refine ⟨h.stashFits, fun _ => rfl, ?_, fun hne => absurd hpc hne, h.flushing⟩
    simp only [RxState.Unread, hpc]
    intro hflag hnil
    apply hpush
    refine ⟨hflag, ?_⟩
    have := h.stashFits hflag
    simp [RxState.Fits, hnil]
    omega

theorem call {k : Nat} (hs' : s.callStep size k = some s') : RxHolds size s' := by
  have hunread := h.unread
  unfold RxState.callStep at hs'
  cases hpc : s.pc with
  | idle => simp [hpc] at hs'
  | flush =>
    rw [hpc] at hs'
    exact h.flushRound hpc hs'
  | loop length =>
    have horder := h.order_out (by simp [hpc]) (by simp [hpc])
    simp only [RxState.Unread, hpc] at hunread
    simp only [hpc] at hs'
    split_ifs at hs' with hzero hitem hring hk
    · cases hs'
      exact ⟨h.stashFits, h.held, hunread, fun _ => horder, by simp⟩
    · cases hs'
      exact ⟨h.stashFits, h.held, hitem, fun _ => horder, by simp⟩
    · cases hs'
      exact ⟨h.stashFits, h.held, hunread, fun _ => horder, by simp⟩
    · cases hs'
      have hne : s.ring.take k ≠ [] := by
        rw [Ne, List.take_eq_nil_iff, not_or]
        exact ⟨by omega, hring⟩
      refine ⟨h.stashFits, fun hnil => absurd hnil hne, hne, fun _ => ?_, by simp⟩
      rw [not_not] at hitem
      rw [hitem, List.append_nil] at horder
      simp only [RxState.stashed, List.append_assoc] at horder ⊢
      rw [horder, ← List.append_assoc (s.ring.take k), List.take_append_drop]
  | copy length =>
    have horder := h.order_out (by simp [hpc]) (by simp [hpc])
    have hsplit : s.item = s.item.take (min s.item.length length) ++
        s.item.drop (min s.item.length length) := (List.take_append_drop _ _).symm
    have horder' : s.taken = s.delivered ++ s.item.take (min s.item.length length) ++
        s.item.drop (min s.item.length length) ++ s.ring ++
        if s.rxBufferFullFlg then s.stash else [] := by
      rw [List.append_assoc s.delivered, ← hsplit]
      exact horder
    simp only [hpc] at hs'
    split_ifs at hs' with hleft
    · cases hs'
      exact ⟨h.stashFits, fun _ => rfl, hleft, fun _ => horder', by simp⟩
    · cases hs'
      exact ⟨h.stashFits, fun hnil => absurd hnil hleft, fun _ => .inl hleft, fun _ => horder',
        by simp⟩
  | check length =>
    have horder := h.order_out (by simp [hpc]) (by simp [hpc])
    simp only [RxState.Unread, hpc] at hunread
    simp only [hpc] at hs'
    split_ifs at hs' with hpush
    · cases hs'
      refine ⟨h.stashFits, h.held, ⟨hunread, hpush.1⟩, fun _ => ?_, by simp⟩
      simp only [RxState.stashed, List.append_nil]
      rw [if_pos hpush.1] at horder
      rw [horder, List.append_assoc _ s.ring]
    · cases hs'
      refine ⟨h.stashFits, h.held, fun hflag => ?_, fun _ => horder, by simp⟩
      exact h.occupied (h.stashFits hflag) fun hroom => hpush ⟨hflag, hroom⟩
  | clearFlag length =>
    have horder := h.inOrder (by simp [hpc])
    simp only [RxState.stashed, hpc, List.append_nil] at horder
    simp only [hpc] at hs'
    cases hs'
    refine ⟨by simp, h.held, by simp [RxState.Unread], fun _ => ?_, by simp⟩
    simp [RxState.stashed, horder]
  | enable length =>
    have horder := h.order_out (by simp [hpc]) (by simp [hpc])
    simp only [RxState.Unread, hpc] at hunread
    simp only [hpc] at hs'
    cases hs'
    exact ⟨h.stashFits, h.held, hunread, fun _ => horder, by simp⟩

theorem step (hfits : ChunkFits size s e) (hs' : rxStep size s e = some s') : RxHolds size s' := by
  cases e with
  | arrive b =>
    simp only [rxStep] at hs'
    split_ifs at hs'
    cases hs'
    exact ⟨h.stashFits, h.held, h.unread, h.inOrder, h.flushing⟩
  | overflow =>
    cases hs'
    exact ⟨h.stashFits, h.held, h.unread, h.inOrder, h.flushing⟩
  | intr =>
    simp only [rxStep] at hs'
    split_ifs at hs' with hon
    cases hs'
    exact h.intr hon hfits
  | read length =>
    simp only [rxStep] at hs'
    split_ifs at hs' with hpc
    cases hs'
    have hunread := h.unread
    simp only [RxState.Unread, hpc] at hunread
    have horder := h.inOrder (by simp [hpc])
    rw [stashed_eq (by simp [hpc])] at horder
    exact ⟨h.stashFits, h.held, hunread, fun _ => horder, by simp⟩
  | flush =>
    simp only [rxStep] at hs'
    split_ifs at hs' with hpc
    cases hs'
    exact ⟨h.stashFits, h.held, hfits, fun hne => absurd rfl hne, fun _ => rfl⟩
  | call k => exact h.call hs'

theorem calls {ks : List Nat} {t : RxState}
    (hrun : run (rxStep size) s (ks.map RxEvent.call) = some t) : RxHolds size t := by
  induction ks generalizing s with
  | nil =>
    cases hrun
    exact h
  | cons k ks ih =>
    obtain ⟨s', hs', hrun⟩ := run_cons.1 hrun
    exact ih (h.call hs') hrun

end

/-! ### Reading on -/

theorem copy_round (size : Nat) (hpc : s.pc = .copy n) (hle : s.item.length ≤ n) :
    ∃ (ks : List Nat) (t : RxState), run (rxStep size) s (ks.map RxEvent.call) = some t ∧
      t.pc = .loop (n - s.item.length) ∧ t.item = [] ∧
      t.ring ++ t.stashed = s.ring ++ s.stashed := by
  have hst := stashed_eq (s := s) (by simp [hpc])
  have hcopy : s.callStep size 0 = some { s with
      delivered := s.delivered ++ s.item, item := [], held := 0
      pc := .check (n - s.item.length) } := by
    simp [RxState.callStep, hpc, Nat.min_eq_left hle]
  by_cases hpush : s.rxBufferFullFlg = true ∧ RxState.Fits size { s with
      delivered := s.delivered ++ s.item, item := [], held := 0, pc := .check (n - s.item.length) }
      s.stash
  · refine ⟨[0, 0, 0, 0], { s with
      delivered := s.delivered ++ s.item, item := [], held := 0, ring := s.ring ++ s.stash,
      rxBufferFullFlg := false, intrOn := true, pc := .loop (n - s.item.length) }, ?_, rfl, rfl, ?_⟩
    · refine run_cons.2 ⟨_, hcopy, run_cons.2 ⟨_, if_pos hpush, ?_⟩⟩
      rfl
    · rw [hst, if_pos hpush.1]
      simp [RxState.stashed]
  · refine ⟨[0, 0], { s with
      delivered := s.delivered ++ s.item, item := [], held := 0
      pc := .loop (n - s.item.length) }, ?_, rfl, rfl, ?_⟩
    · refine run_cons.2 ⟨_, hcopy, run_cons.2 ⟨_, if_neg hpush, rfl⟩⟩
    · rw [hst]
      rfl

section

variable (h : RxHolds size s)
include h

theorem reads_on (hpc : s.pc = .loop n)
    (hn : n = (s.item ++ (s.ring ++ s.stashed)).length) :
    ∃ (ks : List Nat) (t : RxState), run (rxStep size) s (ks.map RxEvent.call) = some t ∧
      t.pc = .idle := by
  induction n using Nat.strongRecOn generalizing s with
  | _ n ih =>
    have hst := stashed_eq (s := s) (by simp [hpc])
    have hunread := h.unread
    simp only [RxState.Unread, hpc] at hunread
    by_cases hzero : n = 0
    · refine ⟨[0], { s with pc := .idle }, run_cons.2 ⟨_, ?_, rfl⟩, rfl⟩
      simp [rxStep, RxState.callStep, hpc, hzero]
    · -- the next item: the current one, or the whole ring buffer
      have hnext : ∃ (k : Nat) (u : RxState), s.callStep size k = some u ∧ u.pc = .copy n ∧
          u.item ≠ [] ∧ u.item ++ (u.ring ++ u.stashed) = s.item ++ (s.ring ++ s.stashed) := by
        by_cases hitem : s.item = []
        · have hring : s.ring ≠ [] := by
            intro hring
            have hoff : s.rxBufferFullFlg = false := by
              by_contra hflag
              exact (hunread (by simpa using hflag)).elim (· hitem) (· hring)
            apply hzero
            rw [hn, hst]
            simp [hitem, hring, hoff]
          have hpos := List.length_pos_iff.2 hring
          refine ⟨s.ring.length, { s with
            item := s.ring.take s.ring.length, held := s.ring.length,
            ring := s.ring.drop s.ring.length, pc := .copy n }, ?_, rfl, ?_, ?_⟩
          · simp [RxState.callStep, hpc, hzero, hitem, hring, hpos]
          · simpa using hring
          · rw [hst]
            simp [RxState.stashed, hitem]
        · refine ⟨0, { s with pc := .copy n }, ?_, rfl, hitem, ?_⟩
          · simp [RxState.callStep, hpc, hzero, hitem]
          · rw [hst]
            rfl
      obtain ⟨k, u, hu, hupc, hune, huall⟩ := hnext
      have hulen := congrArg List.length huall
      rw [← hn, List.length_append] at hulen
      obtain ⟨ks, t, hrun, htpc, htitem, htall⟩ := copy_round size hupc (by omega)
      have ht : RxHolds size t := (h.call hu).calls hrun
      have hpos := List.length_pos_iff.2 hune
      obtain ⟨ks', t', hrun', ht'pc⟩ := ih (n - u.item.length) (by omega) ht htpc
        (by rw [htitem, htall, List.nil_append]; omega)
      refine ⟨k :: (ks ++ ks'), t', ?_, ht'pc⟩
      rw [List.map_cons, List.map_append]
      exact run_cons.2 ⟨u, hu, run_append.2 ⟨t, hrun, hrun'⟩⟩

theorem call_left (hn : s.pc.left = some n)
    (hlen : n + s.delivered.length = s.taken.length) (hs' : s.callStep size k = some s') :
    s'.taken = s.taken ∧ ((s'.pc = .idle ∧ s'.delivered = s.taken) ∨
      ∃ m, s'.pc.left = some m ∧ m + s'.delivered.length = s.taken.length) := by
  have hunread := h.unread
  have horder := h.inOrder (by rintro hpc; simp [hpc, RxPc.left] at hn)
  unfold RxState.callStep at hs'
  cases hpc : s.pc with
  | idle | flush => simp [hpc, RxPc.left] at hn
  | loop length =>
    obtain rfl : length = n := by simpa [hpc, RxPc.left] using hn
    have hall := congrArg List.length horder
    simp only [RxState.Unread, hpc] at hunread
    simp only [hpc] at hs'
    split_ifs at hs' with hzero hitem hring hk
    · cases hs'
      refine ⟨rfl, .inl ⟨rfl, ?_⟩⟩
      simp only [List.append_assoc, List.length_append] at hall
      rw [horder, List.eq_nil_of_length_eq_zero (show s.item.length = 0 by omega),
        List.eq_nil_of_length_eq_zero (show s.ring.length = 0 by omega),
        List.eq_nil_of_length_eq_zero (show s.stashed.length = 0 by omega)]
      simp
    · cases hs'
      exact ⟨rfl, .inr ⟨_, rfl, hlen⟩⟩
    · cases hs'
      rw [not_not] at hitem
      have hoff : s.rxBufferFullFlg = false := by
        by_contra hflag
        exact (hunread (by simpa using hflag)).elim (· hitem) (· hring)
      refine ⟨rfl, .inl ⟨rfl, ?_⟩⟩
      rw [horder, stashed_eq (by simp [hpc]), hitem, hring, hoff]
      simp
    · cases hs'
      exact ⟨rfl, .inr ⟨_, rfl, hlen⟩⟩
  | copy length =>
    obtain rfl : length = n := by simpa [hpc, RxPc.left] using hn
    have hcopied : length - min s.item.length length +
        (s.delivered ++ s.item.take (min s.item.length length)).length = s.taken.length := by
      simp only [List.length_append, List.length_take]
      omega
    simp only [hpc] at hs'
    split_ifs at hs'
    · cases hs'
      exact ⟨rfl, .inr ⟨_, rfl, hcopied⟩⟩
    · cases hs'
      exact ⟨rfl, .inr ⟨_, rfl, hcopied⟩⟩
  | check length =>
    obtain rfl : length = n := by simpa [hpc, RxPc.left] using hn
    simp only [hpc] at hs'
    split_ifs at hs'
    · cases hs'
      exact ⟨rfl, .inr ⟨_, rfl, hlen⟩⟩
    · cases hs'
      exact ⟨rfl, .inr ⟨_, rfl, hlen⟩⟩
  | clearFlag length | enable length =>
    obtain rfl : length = n := by simpa [hpc, RxPc.left] using hn
    simp only [hpc] at hs'
    cases hs'
    exact ⟨rfl, .inr ⟨_, rfl, hlen⟩⟩

theorem calls_left {ks : List Nat} {t : RxState} {n : Nat}
    (hn : s.pc.left = some n) (hlen : n + s.delivered.length = s.taken.length)
    (hrun : run (rxStep size) s (ks.map RxEvent.call) = some t) (ht : t.pc = .idle) :
    t.delivered = s.taken := by
  induction ks generalizing s n with
  | nil =>
    cases hrun
    simp [ht, RxPc.left] at hn
  | cons k ks ih =>
    obtain ⟨u, hu, hrun⟩ := run_cons.1 hrun
    obtain ⟨htaken, ⟨hpc, hall⟩ | ⟨m, hm, hmlen⟩⟩ := h.call_left hn hlen hu
    · -- the call is over, so no step follows
      cases ks with
      | nil =>
        cases hrun
        exact hall
      | cons k' ks =>
        obtain ⟨v, hv, -⟩ := run_cons.1 hrun
        simp [rxStep, RxState.callStep, hpc] at hv
    · rw [← htaken] at hmlen ⊢
      exact ih (h.call hu) hm hmlen hrun

theorem receives : Receives size s := by
  have hread : s.pc = .idle → rxStep size s (.read (s.taken.length - s.delivered.length)) =
      some { s with pc := .loop (s.taken.length - s.delivered.length) } := fun hpc => if_pos hpc
  have hall : s.pc = .idle → s.taken.length - s.delivered.length =
      (s.item ++ (s.ring ++ s.stashed)).length := fun hpc => by
    have := congrArg List.length (h.inOrder (by simp [hpc]))
    simp only [List.length_append] at this ⊢
    omega
  refine ⟨fun hpc => ?_, h.inOrder, fun hpc => ?_, fun hpc ks t hrun ht => ?_⟩
  · have hunread := h.unread
    simpa only [RxState.Unread, hpc] using hunread
  · have hst := stashed_eq (s := s) (by simp [hpc])
    obtain ⟨ks, t, hrun, htpc⟩ := (h.step (by trivial) (hread hpc)).reads_on rfl
      ((hall hpc).trans (by rw [hst]; rfl))
    exact ⟨ks, t, run_cons.2 ⟨_, hread hpc, hrun⟩, htpc⟩
  · obtain ⟨u, hu, hrun⟩ := run_cons.1 hrun
    have hloop := h.step (by trivial) hu
    rw [hread hpc] at hu
    cases hu
    refine hloop.calls_left rfl ?_ hrun ht
    have := congrArg List.length (h.inOrder (by simp [hpc]))
    simp only [List.length_append] at this ⊢
    omega

end

end RxHolds

/-- Reception is never stuck in a run whose interrupts take no more bytes than an empty ring buffer
accepts, and whose flushes do not start with bytes stashed and nothing left to receive. -/
theorem reception_not_stuck (size : Nat) (events : List RxEvent)
    (hfits : Along (rxStep size) (ChunkFits size) RxState.initial events) :
    Always (rxStep size) (Receives size) RxState.initial events :=
  (always_of_step (fun _ _ _ h he hs' => h.step he hs') (RxHolds.initial size) hfits).imp
    fun _ h => h.receives

/-- 100 bytes are in the ring buffer when 100 more are stashed; one read returns them all. -/
def stashRead : List RxEvent :=
  List.replicate 100 (.arrive 65) ++ [.intr] ++ List.replicate 100 (.arrive 66) ++
    [.intr, .read 200, .call 100, .call 0, .call 0, .call 0, .call 0, .call 100, .call 0, .call 0,
      .call 0]

theorem reception_of_stash : Always (rxStep 140) (Receives 140) RxState.initial stashRead ∧
    (run (rxStep 140) RxState.initial (stashRead.take 202)).any (·.rxBufferFullFlg) = true ∧
    (run (rxStep 140) RxState.initial stashRead).any (fun s => s.pc = .idle ∧
      s.delivered = List.replicate 100 65 ++ List.replicate 100 66) = true :=
  ⟨reception_not_stuck 140 _ (by decide +kernel), by decide +kernel, by decide +kernel⟩
theorem callStep_fifo {k : Nat} {s s' : RxState} (hs' : s.callStep size k = some s') :
    s'.fifo = s.fifo ∨ s'.fifo = [] := by
  unfold RxState.callStep RxState.flushRound at hs'
  split at hs' <;> (try dsimp only at hs') <;> (try split_ifs at hs') <;> cases hs' <;>
    first | exact .inl rfl | exact .inr rfl

theorem fifo_le {s s' : RxState} {e : RxEvent} (h : s.fifo.length ≤ uartFifoLen)
    (hs' : rxStep size s e = some s') : s'.fifo.length ≤ uartFifoLen := by
  cases e with
  | arrive b =>
    simp only [rxStep] at hs'
    split_ifs at hs' with hroom
    cases hs'
    rw [List.length_append]
    exact hroom
  | call k => rcases callStep_fifo hs' with heq | heq <;> rw [heq] <;> simp [h]
  | overflow =>
    cases hs'
    exact Nat.zero_le _
  | intr =>
    simp only [rxStep, RxState.rxIntr] at hs'
    split_ifs at hs' <;> cases hs' <;> first | exact h | exact Nat.zero_le _
  | read length | flush =>
    simp only [rxStep] at hs'
    split_ifs at hs'
    cases hs'
    exact h

/-- With `rx_buffer_size` at least 137 the interrupts always take what an empty ring buffer
accepts: the FIFO has 128 bytes. -/
theorem chunkFits_of_size (hsize : 137 ≤ size) {events : List RxEvent}
    (hflush : Along (rxStep size) (fun s e => e = .flush → s.rxBufferFullFlg = true → s.ring ≠ [])
      RxState.initial events) :
    Along (rxStep size) (ChunkFits size) RxState.initial events := by
  refine along_of_step (I := fun s => s.fifo.length ≤ uartFifoLen)
    (fun _ _ _ h _ hs' => fifo_le h hs') (fun s e _ h hflush _ => ?_) (Nat.zero_le _) hflush
  cases e with
  | intr =>
    intro _
    unfold uartFifoLen at h
    omega
  | flush => exact hflush rfl
  | arrive b | overflow | read length | call k => trivial

theorem reception_stuck :
    (∃ s, run (rxStep 129) RxState.initial (List.replicate 121 (.arrive 65) ++ [.intr]) = some s ∧
      s.pc = .idle ∧ s.rxBufferFullFlg = true ∧ s.item = [] ∧ s.ring = [] ∧ ¬ Receives 129 s) ∧
    ∃ s, run (rxStep 140) RxState.initial (List.replicate 100 (.arrive 65) ++
        [.intr, .read 1, .call 100, .call 0, .call 0] ++ List.replicate 100 (.arrive 66) ++
        [.intr, .flush, .call 0]) = some s ∧
      s.pc = .idle ∧ s.rxBufferFullFlg = true ∧ s.item = [] ∧ s.ring = [] ∧ ¬ Receives 140 s := by
  have hstuck : ∀ {size s}, s.pc = .idle → s.rxBufferFullFlg = true → s.item = [] → s.ring = [] →
      ¬ Receives size s := fun hpc hflag hitem hring h =>
    (h.unread hpc hflag).elim (· hitem) (· hring)
  constructor
  · have hrun : (run (rxStep 129) RxState.initial (List.replicate 121 (.arrive 65) ++ [.intr])).any
        (fun s => s.pc = .idle && s.rxBufferFullFlg && s.item = [] && s.ring = []) = true := by
      decide +kernel
    obtain ⟨s, hs, hend⟩ := (Option.any_eq_true ..).1 hrun
    simp only [Bool.and_eq_true, decide_eq_true_eq] at hend
    obtain ⟨⟨⟨hpc, hflag⟩, hitem⟩, hring⟩ := hend
    exact ⟨s, hs, hpc, hflag, hitem, hring, hstuck hpc hflag hitem hring⟩
  · have hrun : (run (rxStep 140) RxState.initial (List.replicate 100 (.arrive 65) ++
        [.intr, .read 1, .call 100, .call 0, .call 0] ++ List.replicate 100 (.arrive 66) ++
        [.intr, .flush, .call 0])).any
        (fun s => s.pc = .idle && s.rxBufferFullFlg && s.item = [] && s.ring = []) = true := by
      decide +kernel
    obtain ⟨s, hs, hend⟩ := (Option.any_eq_true ..).1 hrun
    simp only [Bool.and_eq_true, decide_eq_true_eq] at hend
    obtain ⟨⟨⟨hpc, hflag⟩, hitem⟩, hring⟩ := hend
    exact ⟨s, hs, hpc, hflag, hitem, hring, hstuck hpc hflag hitem hring⟩

end EspIdf.Uart
