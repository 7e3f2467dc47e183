import EspIdf.FreeRtos.ByteBuf
import Mathlib.Data.List.Nodup

/-! Any number of calls of `xRingbufferSend` on one byte buffer, and one task that receives and
returns.  The space check, the copy under the mutex and the semaphore operations are separate
steps. -/

namespace EspIdf.FreeRtos

open EspIdf.Device
open Function (update update_of_ne update_self)

/-- Where a call of `xRingbufferSend` is: at the space check, at `xSemaphoreTake`, at the condition
of the inner loop, at the copy, at `xSemaphoreGive`, or back with a result. -/
inductive SendPc where
  | check
  | wait
  | recheck
  | copy
  | give
  | done (result : Bool)
  deriving DecidableEq

def SendPc.copied (pc : SendPc) : Bool := pc = .give ∨ pc = .done true

structure SendCall where
  msg : List UInt8
  ticksToWait : Nat
  ticksEnd : Nat
  ticksRemaining : Nat
  pc : SendPc

def portMaxDelay : Nat := 0xffffffff

namespace SendCall

def enter (now : Nat) (msg : List UInt8) (ticksToWait : Nat) : SendCall :=
  ⟨msg, ticksToWait, (now + ticksToWait) % 2 ^ 32, ticksToWait, .check⟩

def remaining (c : SendCall) (now : Nat) : Nat :=
  if c.ticksToWait ≠ portMaxDelay then toSize (c.ticksEnd - now) else c.ticksRemaining

def short (c : SendCall) (rb : ByteRing) : Bool :=
  toSize rb.freeMem < toSize (c.msg.length + hdrSize)

end SendCall

/-- Where the reader is: not in a call, or in `xRingbufferReceiveGeneric` at the test for data, at
`xSemaphoreTake` or at `getItemFromRingbufImpl`; with a part that it holds; or in
`vRingbufferReturnItem` at `xSemaphoreGive`. -/
inductive Reader where
  | idle
  | look (wanted : Nat)
  | wait (wanted : Nat)
  | grab (wanted : Nat)
  | holding (p : Nat) (bytes : List UInt8)
  | give

def Reader.part : Reader → List UInt8
  | .holding _ bytes => bytes
  | _ => []

/-- The buffer with its semaphores, the clock and the calls; the messages in the order they were
copied, each with its call; and the bytes that were returned. -/
structure Traffic where
  rb : ByteRing
  freeSpaceSem : Bool
  itemsBufferedSem : Bool
  now : Nat
  calls : Nat → Option SendCall
  reader : Reader
  sent : List (Nat × List UInt8)
  returned : List UInt8

namespace Traffic

def create (size : Nat) (data : Bytes) : Traffic :=
  ⟨.create size data, false, false, 0, fun _ => none, .idle, [], []⟩

def put (w : Traffic) (i : Nat) (c : SendCall) : Traffic :=
  { w with calls := Function.update w.calls i (some c) }

/-- One step of the call `c` with the number `i`; `timeout` says that a wait ends with no
semaphore. -/
def send (w : Traffic) (i : Nat) (c : SendCall) (timeout : Bool) : Option Traffic :=
  match c.pc with
  | .check => some (w.put i { c with pc := if c.short w.rb then .wait else .recheck })
  | .wait =>
    if w.freeSpaceSem then
      some ({ w with freeSpaceSem := false }.put i
        { c with ticksRemaining := c.remaining w.now, pc := .recheck })
    else if timeout then some (w.put i { c with pc := .done false })
    else none
  | .recheck =>
    some (w.put i { c with
      pc := if c.short w.rb ∧ 0 < c.ticksRemaining ∧ c.ticksRemaining ≤ c.ticksToWait then .check
        else .copy })
  | .copy =>
    some ({ w with rb := w.rb.copyItem c.msg, sent := w.sent ++ [(i, c.msg)] }.put i
      { c with pc := .give })
  | .give => some ({ w with itemsBufferedSem := true }.put i { c with pc := .done true })
  | .done _ => none

def receive (w : Traffic) (timeout : Bool) : Option Traffic :=
  match w.reader with
  | .idle => none
  | .look wanted =>
    some { w with reader := if w.rb.readPtr = w.rb.writePtr then .wait wanted else .grab wanted }
  | .wait wanted =>
    if w.itemsBufferedSem then some { w with itemsBufferedSem := false, reader := .look wanted }
    else if timeout then some { w with reader := .idle }
    else none
  | .grab wanted =>
    match w.rb.getItem wanted with
    | (none, rb) => some { w with rb := rb, reader := .look wanted }
    | (some (p, n), rb) => some { w with rb := rb, reader := .holding p (rb.data.read p n) }
  | .holding p bytes =>
    match w.rb.returnItem p with
    | none => none
    | some rb => some { w with rb := rb, returned := w.returned ++ bytes, reader := .give }
  | .give => some { w with freeSpaceSem := true, reader := .idle }

def stream (w : Traffic) : List UInt8 := (w.sent.map Prod.snd).flatten

def got (w : Traffic) : List UInt8 := w.returned ++ w.reader.part

end Traffic

/-- The states that the steps lead to, where each copy meets the condition `ok`. -/
inductive Sched (size : Nat) (data : Bytes) (ok : ByteRing → Nat → Prop) : Traffic → Prop
  | create : Sched size data ok (.create size data)
  | enter {w : Traffic} {i : Nat} {msg : List UInt8} (ticksToWait : Nat) (h : Sched size data ok w)
      (hnew : w.calls i = none) (hmax : msg.length ≤ w.rb.maxItemSize) :
      Sched size data ok (w.put i (.enter w.now msg ticksToWait))
  | send {w w' : Traffic} {i : Nat} {c : SendCall} (timeout : Bool) (h : Sched size data ok w)
      (hc : w.calls i = some c) (hok : c.pc = .copy → ok w.rb c.msg.length)
      (hstep : w.send i c timeout = some w') : Sched size data ok w'
  | request {w : Traffic} (wanted : Nat) (h : Sched size data ok w) (hidle : w.reader = .idle) :
      Sched size data ok { w with reader := .look wanted }
  | receive {w w' : Traffic} (timeout : Bool) (h : Sched size data ok w)
      (hstep : w.receive timeout = some w') : Sched size data ok w'
  | tick {w : Traffic} (h : Sched size data ok w) :
      Sched size data ok { w with now := (w.now + 1) % 2 ^ 32 }

/-- The messages stay whole: the bytes that were sent and not returned are in the buffer; what was
received is the beginning of the messages, and all of them when no data is left; each call that
succeeded sent its message once; and a call that timed out sent nothing. -/
structure Whole (w : Traffic) : Prop where
  kept : ∃ rest, w.stream = w.returned ++ rest ∧
    ∀ i < rest.length, w.rb.data ((w.rb.freePtr + i) % w.rb.size) = rest.getD i 0
  order : w.got <+: w.stream
  drained : w.rb.readPtr = w.rb.writePtr → w.got = w.stream
  once : (w.sent.map Prod.fst).Nodup
  succeeded : ∀ i c, w.calls i = some c → c.pc = .done true → (i, c.msg) ∈ w.sent
  timedOut : ∀ i c, w.calls i = some c → c.pc = .done false → ∀ msg, (i, msg) ∉ w.sent

/-! ### The calls -/

structure CallsInv (calls : Nat → Option SendCall) (sent : List (Nat × List UInt8)) : Prop where
  sound : ∀ i msg, (i, msg) ∈ sent → ∃ c, calls i = some c ∧ c.msg = msg ∧ c.pc.copied
  complete : ∀ i c, calls i = some c → c.pc.copied → (i, c.msg) ∈ sent
  once : (sent.map Prod.fst).Nodup

namespace CallsInv

variable {calls : Nat → Option SendCall} {sent : List (Nat × List UInt8)} {i : Nat}

section

variable (h : CallsInv calls sent)
include h

theorem not_mem (hc : ∀ c, calls i = some c → c.pc.copied = false)
    (msg : List UInt8) : (i, msg) ∉ sent := by
  intro hmem
  obtain ⟨c, hcall, -, hcopied⟩ := h.sound i msg hmem
  rw [hc c hcall] at hcopied
  cases hcopied

theorem move (hc : calls i = some c) (hmsg : c'.msg = c.msg)
    (hcopied : c'.pc.copied = c.pc.copied) :
    CallsInv (update calls i (some c')) sent := by
  refine ⟨fun j msg hmem => ?_, fun j d hd hdc => ?_, h.once⟩
  · obtain ⟨d, hd, hdmsg, hdc⟩ := h.sound j msg hmem
    by_cases hj : j = i
    · subst hj
      rw [hc] at hd
      cases hd
      exact ⟨c', update_self .., hmsg.trans hdmsg, hcopied.trans hdc⟩
    · exact ⟨d, by rw [update_of_ne hj, hd], hdmsg, hdc⟩
  · by_cases hj : j = i
    · subst hj
      rw [update_self] at hd
      cases hd
      rw [hmsg]
      exact h.complete j c hc (hcopied.symm.trans hdc)
    · rw [update_of_ne hj] at hd
      exact h.complete j d hd hdc

theorem enter {c : SendCall} (hnew : calls i = none)
    (hcopied : c.pc.copied = false) : CallsInv (update calls i (some c)) sent := by
  refine ⟨fun j msg hmem => ?_, fun j d hd hdc => ?_, h.once⟩
  · obtain ⟨d, hd, hrest⟩ := h.sound j msg hmem
    have hj : j ≠ i := by
      rintro rfl
      rw [hnew] at hd
      cases hd
    exact ⟨d, by rw [update_of_ne hj, hd], hrest⟩
  · by_cases hj : j = i
    · subst hj
      rw [update_self] at hd
      cases hd
      rw [hcopied] at hdc
      cases hdc
    · rw [update_of_ne hj] at hd
      exact h.complete j d hd hdc

theorem copy (hc : calls i = some c) (hbefore : c.pc.copied = false)
    (hmsg : c'.msg = c.msg) (hafter : c'.pc.copied = true) :
    CallsInv (update calls i (some c')) (sent ++ [(i, c.msg)]) := by
  have hnot : ∀ msg, (i, msg) ∉ sent := h.not_mem fun d hd => by
    rw [hc] at hd
    cases hd
    exact hbefore
  refine ⟨fun j msg hmem => ?_, fun j d hd hdc => ?_, ?_⟩
  · rcases List.mem_append.mp hmem with hold | hnew
    · obtain ⟨d, hd, hrest⟩ := h.sound j msg hold
      have hj : j ≠ i := by
        rintro rfl
        exact hnot msg hold
      exact ⟨d, by rw [update_of_ne hj, hd], hrest⟩
    · cases List.mem_singleton.mp hnew
      exact ⟨c', update_self .., hmsg, hafter⟩
  · by_cases hj : j = i
    · subst hj
      rw [update_self] at hd
      cases hd
      rw [hmsg]
      exact List.mem_append_right _ (List.mem_singleton.mpr rfl)
    · rw [update_of_ne hj] at hd
      exact List.mem_append_left _ (h.complete j d hd hdc)
  · rw [List.map_append, List.map_cons, List.map_nil]
    refine List.nodup_append.mpr ⟨h.once, List.nodup_singleton _, ?_⟩
    rintro a ha b hb rfl
    rw [List.mem_singleton] at hb
    obtain ⟨⟨j, msg⟩, hmem, hfst⟩ := List.mem_map.mp ha
    dsimp only at hfst
    rw [hfst, hb] at hmem
    exact hnot msg hmem

end

end CallsInv

/-! ### The buffer -/

/-- The buffer holds the stream after the bytes that were returned, beginning with the part that the
reader holds. -/
structure FlowInv (rb : ByteRing) (reader : Reader) (returned stream : List UInt8) : Prop where
  ring : ∃ todo, ByteInv rb reader.part todo ∧ stream = returned ++ reader.part ++ todo
  held : ∀ p bytes, reader = .holding p bytes → p = rb.freePtr

namespace FlowInv

variable {rb : ByteRing} {reader : Reader} {returned stream : List UInt8}

theorem move (h : FlowInv rb reader returned stream) (hpart : reader.part = [])
    (hpart' : reader'.part = [])
    (hno : ∀ p bytes, reader' ≠ .holding p bytes) :
    FlowInv rb reader' returned stream := by
  obtain ⟨⟨todo, hring, hstream⟩, -⟩ := h
  rw [hpart] at hring hstream
  refine ⟨⟨todo, ?_, ?_⟩, fun p bytes hp => absurd hp (hno p bytes)⟩
  · rw [hpart']
    exact hring
  · rw [hpart']
    exact hstream

theorem copy (h : FlowInv rb reader returned stream) (hfits : msg.length ≤ rb.freeMem) :
    FlowInv (rb.copyItem msg) reader returned (stream ++ msg) := by
  obtain ⟨⟨todo, hring, hstream⟩, hheld⟩ := h
  rw [hring.freeMem] at hfits
  have hwrite : rb.writePtr < rb.size := hring.write ▸ Nat.mod_lt _ (by omega)
  have hfree : (rb.copyItem msg).freePtr = rb.freePtr :=
    (ByteInv.copy_spec hwrite hring.size_lt (by omega)).2.2.1
  refine ⟨⟨todo ++ msg, hring.copyItem (by omega), ?_⟩, fun p bytes hp => ?_⟩
  · rw [hstream, List.append_assoc]
  · rw [hfree]
    exact hheld p bytes hp

theorem grab (h : FlowInv rb (.grab wanted) returned stream) :
    rb.getItem wanted = (none, rb) ∨
      ∃ p n rb', rb.getItem wanted = (some (p, n), rb') ∧
        FlowInv rb' (.holding p (rb'.data.read p n)) returned stream := by
  obtain ⟨⟨todo, hring, hstream⟩, -⟩ := h
  by_cases htodo : todo = []
  · subst htodo
    exact .inl (hring.getItem_nil wanted)
  · obtain ⟨readPtr, heq, hring'⟩ := hring.getItem_some htodo wanted
    have hread := hring'.read_held
    rw [ByteInv.length_take_partLen] at hread
    refine .inr ⟨_, _, _, heq, ⟨todo.drop (ByteInv.partLen rb todo wanted), ?_, ?_⟩, ?_⟩
    · rw [hread]
      exact hring'
    · rw [Reader.part, hread, List.append_assoc, List.take_append_drop, hstream]
      simp only [Reader.part, List.append_nil]
    · rintro p bytes hp
      cases hp
      rfl

theorem giveBack {bytes : List UInt8} (h : FlowInv rb (.holding p bytes) returned stream) :
    ∃ rb', rb.returnItem p = some rb' ∧ FlowInv rb' .give (returned ++ bytes) stream := by
  obtain ⟨⟨todo, hring, hstream⟩, hheld⟩ := h
  have hp : p < rb.size := hheld p bytes rfl ▸ hring.free_lt
  obtain ⟨heq, hring'⟩ := hring.returnItem hp
  refine ⟨_, heq, ⟨todo, hring', ?_⟩, fun q bs hq => by cases hq⟩
  rw [hstream]
  simp only [Reader.part, List.append_nil]

end FlowInv

/-! ### Runs -/

structure TrafficInv (w : Traffic) : Prop where
  flow : FlowInv w.rb w.reader w.returned w.stream
  calls : CallsInv w.calls w.sent

namespace TrafficInv

variable {w w' : Traffic}

theorem send {i : Nat} {c : SendCall} {timeout : Bool} (h : TrafficInv w) (hc : w.calls i = some c)
    (hok : c.pc = .copy → (c.msg.length : Int) ≤ w.rb.freeMem)
    (hstep : w.send i c timeout = some w') : TrafficInv w' := by
  unfold Traffic.send at hstep
  -- all but the copy leave the buffer and the messages as they are
  cases hpc : c.pc with
  | check =>
    rw [hpc] at hstep
    cases hstep
    refine ⟨h.flow, h.calls.move hc rfl ?_⟩
    rw [hpc]
    split <;> rfl
  | wait =>
    rw [hpc] at hstep
    dsimp only at hstep
    split_ifs at hstep <;> cases hstep <;>
      exact ⟨h.flow, h.calls.move hc rfl (by rw [hpc]; rfl)⟩
  | recheck =>
    rw [hpc] at hstep
    cases hstep
    refine ⟨h.flow, h.calls.move hc rfl ?_⟩
    rw [hpc]
    split <;> rfl
  | copy =>
    rw [hpc] at hstep
    cases hstep
    refine ⟨?_, h.calls.copy hc (by rw [hpc]; rfl) rfl rfl⟩
    have hflow := h.flow.copy (hok hpc)
    have hstream : w.stream ++ c.msg = ((w.sent ++ [(i, c.msg)]).map Prod.snd).flatten := by
      simp [Traffic.stream]
    rw [hstream] at hflow
    exact hflow
  | give =>
    rw [hpc] at hstep
    cases hstep
    exact ⟨h.flow, h.calls.move hc rfl (by rw [hpc]; rfl)⟩
  | done r =>
    rw [hpc] at hstep
    cases hstep

theorem receive (h : TrafficInv w) (hstep : w.receive timeout = some w') : TrafficInv w' := by
  obtain ⟨hflow, hcalls⟩ := h
  unfold Traffic.receive at hstep
  cases hreader : w.reader with
  | idle =>
    rw [hreader] at hstep
    cases hstep
  | look wanted =>
    rw [hreader] at hstep hflow
    cases hstep
    refine ⟨?_, hcalls⟩
    dsimp only
    split <;> exact hflow.move rfl rfl (by simp)
  | wait wanted =>
    rw [hreader] at hstep hflow
    split_ifs at hstep <;> cases hstep <;> exact ⟨hflow.move rfl rfl (by simp), hcalls⟩
  | grab wanted =>
    rw [hreader] at hstep hflow
    dsimp only at hstep
    rcases hflow.grab with heq | ⟨p, n, rb', heq, hflow'⟩
    · rw [heq] at hstep
      cases hstep
      exact ⟨hflow.move rfl rfl (by simp), hcalls⟩
    · rw [heq] at hstep
      cases hstep
      exact ⟨hflow', hcalls⟩
  | holding p bytes =>
    rw [hreader] at hstep hflow
    dsimp only at hstep
    obtain ⟨rb', heq, hflow'⟩ := hflow.giveBack
    rw [heq] at hstep
    cases hstep
    exact ⟨hflow', hcalls⟩
  | give =>
    rw [hreader] at hstep hflow
    cases hstep
    exact ⟨hflow.move rfl rfl (by simp), hcalls⟩

theorem whole (h : TrafficInv w) : Whole w := by
  obtain ⟨⟨⟨todo, hring, hstream⟩, hheld⟩, hcalls⟩ := h
  refine ⟨⟨w.reader.part ++ todo, ?_, fun i hi => ?_⟩, ⟨todo, hstream.symm⟩, fun hempty => ?_,
    hcalls.once, fun i c hc hpc => ?_, fun i c hc hpc => ?_⟩
  · rw [hstream, List.append_assoc]
  · exact hring.bytes i (by simpa using hi)
  · rw [hring.todo_nil hempty, List.append_nil] at hstream
    exact hstream.symm
  · exact hcalls.complete i c hc (by rw [hpc]; rfl)
  · refine hcalls.not_mem fun d hd => ?_
    rw [hc] at hd
    cases hd
    rw [hpc]
    rfl

end TrafficInv

def Fits (rb : ByteRing) (n : Nat) : Prop := (n : Int) ≤ rb.freeMem

theorem Sched.inv {size : Nat} {data : Bytes} (hpos : 0 < size) (hsize : size < 2 ^ 31)
    (h : Sched size data Fits w) : TrafficInv w := by
  induction h with
  | create =>
    refine ⟨⟨⟨[], .fresh hpos hsize data, rfl⟩, fun p bytes hp => by cases hp⟩, ?_, ?_,
      List.nodup_nil⟩
    · intro i msg hmem
      cases hmem
    · intro i c hc
      cases hc
  | enter ticksToWait _ hnew hmax ih => exact ⟨ih.flow, ih.calls.enter hnew rfl⟩
  | send timeout _ hc hok hstep ih => exact ih.send hc hok hstep
  | request wanted _ hidle ih =>
    refine ⟨ih.flow.move ?_ rfl (by simp), ih.calls⟩
    rw [hidle]
    rfl
  | receive timeout _ hstep ih => exact ih.receive hstep
  | tick _ ih => exact ⟨ih.flow, ih.calls⟩

/-- In every run in which each message is copied where it fits, the messages stay whole. -/
theorem messages_whole {size : Nat} {data : Bytes} {w : Traffic} (hpos : 0 < size)
    (hsize : size < 2 ^ 31) (h : Sched size data Fits w) : Whole w := (h.inv hpos hsize).whole

/-- Both calls pass the check before either copies, and the reader returns the first part. -/
theorem messages_whole_two : ∃ w, Sched 32 (fun _ => 0) Fits w ∧
    w.sent = [(1, List.replicate 10 2), (0, List.replicate 11 1)] ∧
    w.returned = List.replicate 10 2 ++ List.replicate 5 1 ∧ Whole w := by
  have h1 : Sched 32 (fun _ => 0) Fits _ :=
    @Sched.enter _ _ _ _ 0 (List.replicate 11 1) 0 .create rfl (by decide)
  have h2 := @Sched.enter _ _ _ _ 1 (List.replicate 10 2) 0 h1 rfl (by decide)
  have h3 := Sched.send (i := 0) false h2 rfl (by intro h; cases h) rfl
  have h4 := Sched.send (i := 1) false h3 rfl (by intro h; cases h) rfl
  have h5 := Sched.send (i := 0) false h4 rfl (by intro h; cases h) rfl
  have h6 := Sched.send (i := 1) false h5 rfl (by intro h; cases h) rfl
  have h7 := Sched.send (i := 1) false h6 rfl (by intro _; unfold Fits; decide) rfl
  have h8 := Sched.send (i := 0) false h7 rfl (by intro _; unfold Fits; decide) rfl
  have h9 := Sched.send (i := 0) false h8 rfl (by intro h; cases h) rfl
  have h10 := Sched.request 15 h9 rfl
  have h11 := Sched.receive false h10 rfl
  have h12 := Sched.receive false h11 rfl
  have h13 := Sched.receive false h12 rfl
  exact ⟨_, h13, rfl, rfl, messages_whole (by decide) (by decide) h13⟩

theorem second_message_overwrites : ∃ w, Sched 32 (fun _ => 0) (fun _ _ => True) w ∧
    w.sent = [(0, List.replicate 23 1), (1, List.replicate 23 2)] ∧ w.returned = [] ∧ ¬Whole w := by
  have h1 : Sched 32 (fun _ => 0) (fun _ _ => True) _ :=
    @Sched.enter _ _ _ _ 0 (List.replicate 23 1) 0 .create rfl (by decide)
  have h2 := @Sched.enter _ _ _ _ 1 (List.replicate 23 2) 0 h1 rfl (by decide)
  have h3 := Sched.send (i := 0) false h2 rfl (fun _ => trivial) rfl
  have h4 := Sched.send (i := 0) false h3 rfl (fun _ => trivial) rfl
  have h5 := Sched.send (i := 1) false h4 rfl (fun _ => trivial) rfl
  have h6 := Sched.send (i := 1) false h5 rfl (fun _ => trivial) rfl
  have h7 := Sched.send (i := 0) false h6 rfl (fun _ => trivial) rfl
  have h8 := Sched.send (i := 1) false h7 rfl (fun _ => trivial) rfl
  refine ⟨_, h8, rfl, rfl, fun hwhole => ?_⟩
  obtain ⟨rest, hrest, hkept⟩ := hwhole.kept
  rw [show rest = List.replicate 23 1 ++ List.replicate 23 2 from hrest.symm] at hkept
  exact absurd (hkept 0 (by decide)) (by decide)

end EspIdf.FreeRtos
