import EspIdf.Device.Runs
import EspIdf.FreeRtos.ByteFifo
import EspIdf.FreeRtos.ByteSenders
import EspIdf.FreeRtos.RingSteps

/-! `xRingbufferSend` and `xRingbufferReceive` with `ticks_to_wait = 0`, on a buffer that no other
task or interrupt uses meanwhile: in which states they return. -/

namespace EspIdf.FreeRtos

open EspIdf.Device EspIdf.Runs

/-- `ringbuf_t` of any type. -/
inductive AnyRing where
  | items (rb : Ringbuf)
  | bytes (rb : ByteRing)

namespace AnyRing

def freeMem : AnyRing → Int
  | items rb => ringbufferFreeMem rb
  | bytes rb => rb.freeMem

def maxItemSize : AnyRing → Nat
  | items rb => xRingbufferGetMaxItemSize rb
  | bytes rb => rb.maxItemSize

def empty : AnyRing → Bool
  | items rb => rb.readPtr = rb.writePtr
  | bytes rb => rb.readPtr = rb.writePtr

def copyItem (ring : AnyRing) (data : List UInt8) : Option (Bool × AnyRing) :=
  match ring with
  | items rb => (copyItemToRingbuf rb data).map fun r => (r.1, items r.2)
  | bytes rb => some (true, bytes (rb.copyItem data))

def getItem (ring : AnyRing) (wantedLength : Nat) : Option (Option (Nat × Nat) × AnyRing) :=
  match ring with
  | items rb => (getItemFromRingbufDefault rb).map fun r => (r.1, items r.2)
  | bytes rb => some ((rb.getItem wantedLength).1, bytes (rb.getItem wantedLength).2)

def short (ring : AnyRing) (n : Nat) : Bool := toSize ring.freeMem < toSize (n + hdrSize)

end AnyRing

/-! ### Sending -/

/-- A buffer with its semaphores and a call of `xRingbufferSend`. -/
structure LoneSend where
  ring : AnyRing
  freeSpaceSem : Bool
  itemsBufferedSem : Bool
  call : SendCall

namespace LoneSend

def goto (s : LoneSend) (pc : SendPc) : LoneSend := { s with call := { s.call with pc := pc } }

/-- The call with `ticks_to_wait = 0` at its first check. -/
def enter (ring : AnyRing) (freeSpaceSem itemsBufferedSem : Bool) (now : Nat) (data : List UInt8) :
    LoneSend :=
  let s : LoneSend := ⟨ring, freeSpaceSem, itemsBufferedSem, .enter now data 0⟩
  if data.length > ring.maxItemSize then s.goto (.done false) else s

/-- One step of the call; `none` stands for a failed `configASSERT`.  A wait for a semaphore that
nobody gives runs out. -/
def step (now : Nat) (s : LoneSend) : Option LoneSend :=
  match s.call.pc with
  | .check => some (s.goto (if s.ring.short s.call.msg.length then .wait else .recheck))
  | .wait =>
    if s.freeSpaceSem then
      some { s with
        freeSpaceSem := false
        call := { s.call with ticksRemaining := s.call.remaining now, pc := .recheck } }
    else some (s.goto (.done false))
  | .recheck =>
    some (s.goto (if s.ring.short s.call.msg.length ∧ 0 < s.call.ticksRemaining ∧
      s.call.ticksRemaining ≤ s.call.ticksToWait then .check else .copy))
  | .copy =>
    match s.ring.copyItem s.call.msg with
    | none => none
    | some (done, ring) => some ({ s with ring := ring }.goto (if done then .give else .check))
  | .give => some ({ s with itemsBufferedSem := true }.goto (.done true))
  | .done _ => none

def Back (s : LoneSend) : Prop := ∃ result, s.call.pc = .done result

end LoneSend

/-! ### Receiving -/

/-- Where a call of `xRingbufferReceive` is: at the test for data, at `xSemaphoreTake`, at
`getItemFromRingbufImpl`, or back with a result. -/
inductive ReceivePc where
  | look
  | wait
  | grab
  | done (result : Option (Nat × Nat))

/-- A buffer with a semaphore and a call of `xRingbufferReceive`. -/
structure LoneReceive where
  ring : AnyRing
  itemsBufferedSem : Bool
  pc : ReceivePc

namespace LoneReceive

/-- One step of the call with `ticks_to_wait = 0`. -/
def step (s : LoneReceive) : Option LoneReceive :=
  match s.pc with
  | .look => some { s with pc := if s.ring.empty then .wait else .grab }
  | .wait =>
    if s.itemsBufferedSem then some { s with itemsBufferedSem := false, pc := .look }
    else some { s with pc := .done none }
  | .grab =>
    match s.ring.getItem 0 with
    | none => none
    | some (none, ring) => some { s with ring := ring, pc := .look }
    | some (some item, ring) => some { s with ring := ring, pc := .done (some item) }
  | .done _ => none

def Back (s : LoneReceive) : Prop := ∃ result, s.pc = .done result

end LoneReceive

/-! ### When they return -/

namespace Ringbuf

def NoPlace (rb : Ringbuf) (n : Nat) : Prop :=
  if toSize (rb.size - rb.writePtr) < toSize (round4 n + hdrSize) then
    match rb.type with
    | .nosplit => rb.freePtr < toSize (round4 n + hdrSize + 4) ∨ rb.freePtr > rb.writePtr
    | .allowsplit => toSize (ringbufferFreeMem rb) < toSize (hdrSize * 2 + round4 n)
  else toSize (ringbufferFreeMem rb) < toSize (hdrSize + round4 n)

theorem passed_assert [Decidable p] (h : f () = none ∨ ∃ item rb', f () = some (some item, rb')) :
    (configAssert p >>= f) = none ∨ ∃ item rb', (configAssert p >>= f) = some (some item, rb') := by
  by_cases hp : p
  · rw [configAssert_bind hp]
    exact h
  · rw [configAssert, if_neg hp]
    exact .inl rfl

/-- What a copy function can do: an assertion fails, or it refuses and changes nothing, or it
copies. -/
def Copied (rb : Ringbuf) (n : Nat) (res : Option (Bool × Ringbuf)) : Prop :=
  res = none ∨ (rb.NoPlace n ∧ res = some (false, rb)) ∨
    (¬rb.NoPlace n ∧ ∃ rb', res = some (true, rb'))

theorem Copied.assert {rb : Ringbuf} {n : Nat} {p : Prop} [Decidable p]
    {f : Unit → Option (Bool × Ringbuf)} (h : rb.Copied n (f ())) :
    rb.Copied n (configAssert p >>= f) := by
  by_cases hp : p
  · rw [configAssert_bind hp]
    exact h
  · rw [configAssert, if_neg hp]
    exact .inl rfl

theorem Copied.refuse {rb : Ringbuf} {n : Nat} (h : rb.NoPlace n) :
    rb.Copied n (some (false, rb)) :=
  .inr (.inl ⟨h, rfl⟩)

theorem Copied.copy {rb rb' : Ringbuf} {n : Nat} (h : ¬rb.NoPlace n) :
    rb.Copied n (some (true, rb')) := .inr (.inr ⟨h, rb', rfl⟩)

theorem noPlace_whole (hrem : ¬toSize (rb.size - rb.writePtr) < toSize (round4 n + hdrSize)) :
    rb.NoPlace n ↔ toSize (ringbufferFreeMem rb) < toSize (hdrSize + round4 n) := by
  unfold NoPlace
  rw [if_neg hrem]

theorem noSplit_copied (rb : Ringbuf) (data : List UInt8) (htype : rb.type = .nosplit) :
    rb.Copied data.length (copyItemToRingbufNoSplit rb data) := by
  refine .assert (.assert ?_)
  by_cases hrem : toSize (rb.size - rb.writePtr) < toSize (round4 data.length + hdrSize)
  · have hplace : rb.NoPlace data.length ↔
        rb.freePtr < toSize (round4 data.length + hdrSize + 4) ∨ rb.freePtr > rb.writePtr := by
      unfold NoPlace
      rw [if_pos hrem, htype]
    rw [if_pos hrem]
    split
    · exact .refuse (hplace.mpr (.inl ‹_›))
    · split
      · exact .refuse (hplace.mpr (.inr ‹_›))
      · exact .copy fun h => (hplace.mp h).elim ‹_› ‹_›
  · rw [if_neg hrem]
    split
    · exact .refuse ((noPlace_whole hrem).mpr ‹_›)
    · exact .copy fun h => absurd ((noPlace_whole hrem).mp h) ‹_›

theorem allowSplit_copied (rb : Ringbuf) (data : List UInt8) (htype : rb.type = .allowsplit) :
    rb.Copied data.length (copyItemToRingbufAllowSplit rb data) := by
  refine .assert (.assert ?_)
  by_cases hrem : toSize (rb.size - rb.writePtr) < toSize (round4 data.length + hdrSize)
  · have hplace : rb.NoPlace data.length ↔
        toSize (ringbufferFreeMem rb) < toSize (hdrSize * 2 + round4 data.length) := by
      unfold NoPlace
      rw [if_pos hrem, htype]
    rw [if_pos hrem]
    split
    · exact .refuse (hplace.mpr ‹_›)
    · refine .assert ?_
      dsimp only
      split
      · exact .copy fun h => absurd (hplace.mp h) ‹_›
      · exact .copy fun h => absurd (hplace.mp h) ‹_›
  · rw [if_neg hrem]
    split
    · exact .refuse ((noPlace_whole hrem).mpr ‹_›)
    · exact .copy fun h => absurd ((noPlace_whole hrem).mp h) ‹_›

end Ringbuf

namespace AnyRing

def NoPlace : AnyRing → Nat → Prop
  | items rb, n => rb.NoPlace n
  | bytes _, _ => False

def Outstanding : AnyRing → Prop
  | items _ => False
  | bytes rb => rb.readPtr ≠ rb.freePtr

theorem copyItem_cases (ring : AnyRing) (data : List UInt8) :
    ring.copyItem data = none ∨ (ring.NoPlace data.length ∧ ring.copyItem data =
      some (false, ring)) ∨
      (¬ring.NoPlace data.length ∧ ∃ ring', ring.copyItem data = some (true, ring')) := by
  cases ring with
  | bytes rb => exact .inr (.inr ⟨not_false, _, rfl⟩)
  | items rb =>
    have hcopied : rb.Copied data.length (copyItemToRingbuf rb data) := by
      unfold copyItemToRingbuf
      split
      · exact rb.noSplit_copied data ‹_›
      · exact rb.allowSplit_copied data ‹_›
    have heq : (items rb).copyItem data = (copyItemToRingbuf rb data).map fun r =>
      (r.1, items r.2) := rfl
    rw [heq]
    rcases hcopied with h | ⟨hno, h⟩ | ⟨hno, rb', h⟩
    · exact .inl (by rw [h]; rfl)
    · exact .inr (.inl ⟨hno, by rw [h]; rfl⟩)
    · exact .inr (.inr ⟨hno, items rb', by rw [h]; rfl⟩)

theorem getItem_cases {ring : AnyRing} (hne : ring.empty = false) :
    ring.getItem 0 = none ∨ (ring.Outstanding ∧ ring.getItem 0 = some (none, ring)) ∨
      (¬ring.Outstanding ∧ ∃ item ring', ring.getItem 0 = some (some item, ring')) := by
  cases ring with
  | bytes rb =>
    have hptr : rb.readPtr ≠ rb.writePtr := of_decide_eq_false hne
    have heq : (bytes rb).getItem 0 = some ((rb.getItem 0).1, bytes (rb.getItem 0).2) := rfl
    rw [heq]
    unfold ByteRing.getItem ByteRing.takePart
    by_cases hout : rb.readPtr ≠ rb.freePtr
    · exact .inr (.inl ⟨hout, by rw [if_pos hout]⟩)
    · refine .inr (.inr ⟨hout, ?_⟩)
      rw [if_neg hout, if_neg hptr]
      split <;> split <;> exact ⟨_, _, rfl⟩
  | items rb =>
    have hptr : rb.readPtr ≠ rb.writePtr := of_decide_eq_false hne
    have heq : (items rb).getItem 0 = (getItemFromRingbufDefault rb).map fun r =>
      (r.1, items r.2) := rfl
    have hget : getItemFromRingbufDefault rb = none ∨
        ∃ item rb', getItemFromRingbufDefault rb = some (some item, rb') := by
      refine Ringbuf.passed_assert ?_
      rw [if_neg hptr]
      refine Ringbuf.passed_assert ?_
      split
      · exact Ringbuf.passed_assert (.inr ⟨_, _, rfl⟩)
      · exact .inr ⟨_, _, rfl⟩
    rw [heq]
    rcases hget with h | ⟨item, rb', h⟩
    · exact .inl (by rw [h]; rfl)
    · exact .inr (.inr ⟨not_false, item, items rb', by rw [h]; rfl⟩)

end AnyRing

namespace LoneSend

variable {now : Nat} {s : LoneSend}

def Returns (now : Nat) (s : LoneSend) : Prop := Ends (step now) Back s

theorem not_back {pc : SendPc} (h : ∀ r, pc ≠ .done r) : ¬(s.goto pc).Back := by
  rintro ⟨r, hr⟩
  exact h r hr

theorem returns_done (r : Bool) : (s.goto (.done r)).Returns now := .final ⟨r, rfl⟩

theorem returns_step (hpc : ∀ r, pc ≠ .done r) (h : step now (s.goto pc) = some s') :
    (s.goto pc).Returns now ↔ s'.Returns now :=
  Ends.step_iff (not_back hpc) h

theorem returns_check_short (hshort : s.ring.short s.call.msg.length = true) :
    (s.goto .check).Returns now ↔ (s.goto .wait).Returns now := by
  refine returns_step (by simp) ?_
  simp only [step, goto, hshort, if_true]

theorem returns_check_roomy (hshort : s.ring.short s.call.msg.length = false) :
    (s.goto .check).Returns now ↔ (s.goto .recheck).Returns now := by
  refine returns_step (by simp) ?_
  simp only [step, goto, hshort, Bool.false_eq_true, if_false]

theorem returns_recheck (hticks : s.call.ticksToWait = 0) :
    (s.goto .recheck).Returns now ↔ (s.goto .copy).Returns now := by
  refine returns_step (by simp) ?_
  have hno : ¬(s.ring.short s.call.msg.length ∧ 0 < s.call.ticksRemaining ∧
      s.call.ticksRemaining ≤ s.call.ticksToWait) := by
    rintro ⟨-, hpos, hle⟩
    omega
  simp only [step, goto, hno, if_false]

theorem returns_copy_none (h : s.ring.copyItem s.call.msg = none) :
    ¬(s.goto .copy).Returns now := by
  refine Ends.not_of_none (not_back (by simp)) ?_
  simp only [step, goto, h]

theorem returns_copy_true {ring : AnyRing} (h : s.ring.copyItem s.call.msg = some (true, ring)) :
    (s.goto .copy).Returns now := by
  have hstep : step now (s.goto .copy) = some ({ s with ring := ring }.goto .give) := by
    simp only [step, goto, h, if_true]
  exact .step hstep (.step rfl (returns_done true))

theorem returns_copy_false (h : s.ring.copyItem s.call.msg = some (false, s.ring)) :
    (s.goto .copy).Returns now ↔ (s.goto .check).Returns now := by
  refine returns_step (by simp) ?_
  simp only [step, goto, h, Bool.false_eq_true, if_false]

theorem not_returns (hshort : s.ring.short s.call.msg.length = false)
    (hcopy : s.ring.copyItem s.call.msg = some (false, s.ring)) :
    ¬(s.goto .check).Returns now := by
  refine Ends.not_of_inv (I := fun t => ∃ pc, t = s.goto pc ∧
    (pc = .check ∨ pc = .recheck ∨ pc = .copy))
    ?_ ?_ ⟨.check, rfl, .inl rfl⟩
  · rintro t ⟨pc, rfl, rfl | rfl | rfl⟩ <;> exact not_back (by simp)
  · rintro t t' ⟨pc, rfl, rfl | rfl | rfl⟩ hstep
    · simp only [step, goto, hshort, Bool.false_eq_true, if_false, Option.some.injEq] at hstep
      exact ⟨.recheck, hstep.symm, .inr (.inl rfl)⟩
    · simp only [step, goto, hshort, Bool.false_eq_true, false_and, if_false, Option.some.injEq]
        at hstep
      exact ⟨.copy, hstep.symm, .inr (.inr rfl)⟩
    · simp only [step, goto, hcopy, Bool.false_eq_true, if_false, Option.some.injEq] at hstep
      exact ⟨.check, hstep.symm, .inl rfl⟩

def taken (now : Nat) (s : LoneSend) : LoneSend :=
  { s with
    freeSpaceSem := false
    call := { s.call with ticksRemaining := s.call.remaining now } }

theorem returns_wait_taken (hsem : s.freeSpaceSem = true) (hticks : s.call.ticksToWait = 0) :
    (s.goto .wait).Returns now ↔ ((s.taken now).goto .copy).Returns now := by
  have hwait : (s.goto .wait).Returns now ↔ ((s.taken now).goto .recheck).Returns now := by
    refine returns_step (by simp) ?_
    simp only [step, goto, taken, hsem, if_true]
    rfl
  exact hwait.trans (returns_recheck hticks)

theorem returns_wait_empty (hsem : s.freeSpaceSem = false) : (s.goto .wait).Returns now := by
  have hstep : step now (s.goto .wait) = some (s.goto (.done false)) := by
    simp only [step, goto, hsem, Bool.false_eq_true, if_false]
  exact .step hstep (returns_done false)

theorem returns_short (hshort : s.ring.short s.call.msg.length = true)
    (hticks : s.call.ticksToWait = 0) :
    (s.goto .check).Returns now ↔ (s.freeSpaceSem = true → s.ring.copyItem s.call.msg ≠ none) := by
  rw [returns_check_short hshort]
  cases hsem : s.freeSpaceSem with
  | false => exact iff_of_true (returns_wait_empty hsem) (fun h => by cases h)
  | true =>
    rw [returns_wait_taken hsem hticks]
    rcases s.ring.copyItem_cases s.call.msg with h | ⟨-, h⟩ | ⟨-, ring, h⟩
    · exact iff_of_false (returns_copy_none h) fun hno => hno rfl h
    · -- the item is refused, and the next wait runs out
      refine iff_of_true ?_ fun _ => by rw [h]; exact Option.some_ne_none _
      have hcheck := @returns_check_short now (s.taken now) hshort
      exact (@returns_copy_false now (s.taken now) h).mpr (hcheck.mpr (returns_wait_empty rfl))
    · exact iff_of_true (returns_copy_true h) fun _ => by rw [h]; exact Option.some_ne_none _

theorem returns_roomy (hshort : s.ring.short s.call.msg.length = false)
    (hticks : s.call.ticksToWait = 0) :
    (s.goto .check).Returns now ↔ s.ring.copyItem s.call.msg ≠ none ∧
      ¬s.ring.NoPlace s.call.msg.length := by
  have hcheck := @returns_check_roomy now s hshort
  rw [returns_recheck hticks] at hcheck
  rcases s.ring.copyItem_cases s.call.msg with h | ⟨hno, h⟩ | ⟨hno, ring, h⟩
  · rw [hcheck]
    exact iff_of_false (returns_copy_none h) fun hn => hn.1 h
  · exact iff_of_false (not_returns hshort h) fun hn => hn.2 hno
  · rw [hcheck]
    exact iff_of_true (returns_copy_true h) ⟨by rw [h]; exact Option.some_ne_none _, hno⟩

end LoneSend

namespace LoneReceive

variable {s : LoneReceive}

def Returns (s : LoneReceive) : Prop := Ends step Back s

def goto (s : LoneReceive) (pc : ReceivePc) : LoneReceive := { s with pc := pc }

theorem not_back {pc : ReceivePc} (h : ∀ r, pc ≠ .done r) : ¬(s.goto pc).Back := by
  rintro ⟨r, hr⟩
  exact h r hr

theorem returns_done (r : Option (Nat × Nat)) : (s.goto (.done r)).Returns := .final ⟨r, rfl⟩

theorem returns_look : (s.goto .look).Returns ↔
    (s.goto (if s.ring.empty then .wait else .grab)).Returns :=
  Ends.step_iff (not_back (by simp)) rfl

theorem returns_wait_empty (hsem : s.itemsBufferedSem = false) : (s.goto .wait).Returns := by
  have hstep : step (s.goto .wait) = some (s.goto (.done none)) := by
    simp only [step, goto, hsem, Bool.false_eq_true, if_false]
  exact .step hstep (returns_done none)

theorem returns_empty (hempty : s.ring.empty = true) : (s.goto .look).Returns := by
  rw [returns_look, if_pos hempty]
  cases hsem : s.itemsBufferedSem with
  | false => exact returns_wait_empty hsem
  | true =>
    have hstep : step (s.goto .wait) = some ({ s with itemsBufferedSem := false }.goto .look) := by
      simp only [step, goto, hsem, if_true]
    refine .step hstep ?_
    have hlook := @returns_look { s with itemsBufferedSem := false }
    rw [if_pos hempty] at hlook
    exact hlook.mpr (returns_wait_empty rfl)

theorem not_returns (hne : s.ring.empty = false) (hget : s.ring.getItem 0 = some (none, s.ring)) :
    ¬(s.goto .look).Returns := by
  refine Ends.not_of_inv (I := fun t => t = s.goto .look ∨ t = s.goto .grab) ?_ ?_ (.inl rfl)
  · rintro t (rfl | rfl) <;> exact not_back (by simp)
  · rintro t t' (rfl | rfl) hstep
    · simp only [step, goto, hne, Bool.false_eq_true, if_false, Option.some.injEq] at hstep
      exact .inr hstep.symm
    · simp only [step, goto, hget, Option.some.injEq] at hstep
      exact .inl hstep.symm

theorem returns_nonempty (hne : s.ring.empty = false) :
    (s.goto .look).Returns ↔ s.ring.getItem 0 ≠ none ∧ ¬s.ring.Outstanding := by
  have hlook := @returns_look s
  rw [hne, if_neg Bool.false_ne_true] at hlook
  rcases AnyRing.getItem_cases hne with h | ⟨hout, h⟩ | ⟨hout, item, ring, h⟩
  · rw [hlook]
    refine iff_of_false (Ends.not_of_none (not_back (by simp)) ?_) fun hn => hn.1 h
    simp only [step, goto, h]
  · exact iff_of_false (not_returns hne h) fun hn => hn.2 hout
  · rw [hlook]
    refine iff_of_true ?_ ⟨by rw [h]; exact Option.some_ne_none _, hout⟩
    have hstep : step (s.goto .grab) = some ({ s with ring := ring }.goto (.done (some item))) := by
      simp only [step, goto, h]
    exact .step hstep (returns_done _)

end LoneReceive

namespace AnyRing

/-- The condition for a send: the item is too long; or there is too little room for it, and no
assertion fails should the semaphore have been given; or no assertion fails and the item finds a
place. -/
def SendBack (ring : AnyRing) (freeSpaceSem : Bool) (data : List UInt8) : Prop :=
  data.length > ring.maxItemSize ∨
    (ring.short data.length = true ∧ (freeSpaceSem = true → ring.copyItem data ≠ none)) ∨
    (ring.short data.length = false ∧ ring.copyItem data ≠ none ∧ ¬ring.NoPlace data.length)

/-- The condition for a receive: there is no data; or no assertion fails and no part of a byte
buffer is outstanding. -/
def ReceiveBack (ring : AnyRing) : Prop :=
  ring.empty = true ∨ (ring.getItem 0 ≠ none ∧ ¬ring.Outstanding)

end AnyRing

end EspIdf.FreeRtos
