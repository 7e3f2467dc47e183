import EspIdf.FreeRtos.RingSteps
import EspIdf.Device.Runs
import Mathlib.Data.List.Forall2

/-! Runs of sends, receives and returns on a fresh ring buffer: what is received is what was
sent. -/

namespace EspIdf.FreeRtos

open EspIdf.Device EspIdf.Runs

/-- A ring buffer, the items that were sent and the items that were received so far, and the items
that the application holds, each as the offset of its data and the bytes it had when it was
received. -/
structure World where
  rb : Ringbuf
  sent : List (List UInt8)
  got : List (List UInt8)
  out : List (Nat × List UInt8)

/-- The states that calls lead to, where each send meets the condition `ok`. -/
inductive Run (size : Nat) (type : RingbufType) (data : Bytes) (ok : Ringbuf → Nat → Prop) :
    World → Prop
  | create : Run size type data ok ⟨xRingbufferCreate size type data, [], [], []⟩
  | send {w : World} {bytes : List UInt8} {done : Bool} {rb : Ringbuf} (h : Run size type data ok w)
      (hok : ok w.rb bytes.length) (hres : xRingbufferSendFromISR w.rb bytes = some (done, rb)) :
      Run size type data ok ⟨rb, if done then w.sent ++ [bytes] else w.sent, w.got, w.out⟩
  | receiveNone {w : World} {rb : Ringbuf} (h : Run size type data ok w)
      (hres : xRingbufferReceiveFromISR w.rb = some (none, rb)) :
      Run size type data ok ⟨rb, w.sent, w.got, w.out⟩
  | receive {w : World} {p n : Nat} {rb : Ringbuf} (h : Run size type data ok w)
      (hres : xRingbufferReceiveFromISR w.rb = some (some (p, n), rb)) :
      Run size type data ok
        ⟨rb, w.sent, w.got ++ [rb.data.read p n], w.out ++ [(p, rb.data.read p n)]⟩
  | giveBack {w : World} {item : Nat × List UInt8} {rb : Ringbuf} (h : Run size type data ok w)
      (hitem : item ∈ w.out) (hres : vRingbufferReturnItem w.rb item.1 = some rb) :
      Run size type data ok ⟨rb, w.sent, w.got, w.out.eraseP (·.1 = item.1)⟩

/-- Each item sent is received once and in order, whole or in two parts; nothing is received only
when nothing is left; the bytes of an item stay until it is given back; and no assertion fails. -/
structure Delivers (type : RingbufType) (ok : Ringbuf → Nat → Prop) (w : World) : Prop where
  order : ∃ parts, List.Forall₂ (PartsOf type) w.sent parts ∧ w.got <+: parts.flatten ∧
    ∀ rb, xRingbufferReceiveFromISR w.rb = some (none, rb) → w.got = parts.flatten
  kept : ∀ item ∈ w.out, w.rb.data.read item.1 item.2.length = item.2
  send : ∀ bytes : List UInt8, ok w.rb bytes.length → xRingbufferSendFromISR w.rb bytes ≠ none
  receive : xRingbufferReceiveFromISR w.rb ≠ none
  giveBack : ∀ item ∈ w.out, vRingbufferReturnItem w.rb item.1 ≠ none

def RunInv (size : Nat) (type : RingbufType) (w : World) : Prop :=
  ∃ F R W done todo parts, Ring w.rb F R W done todo ∧ w.rb.size = size ∧ w.rb.type = type ∧
    w.out = outs size F done ∧ List.Forall₂ (PartsOf type) w.sent parts ∧
    parts.flatten = w.got ++ todo.map Entry.bytes

section Run

variable {size : Nat} {type : RingbufType} {data : Bytes} {w : World}

section

variable (h : RunInv size type w)
include h

theorem RunInv.send {bytes : List UInt8} {done : Bool} {rb : Ringbuf}
    (hok : SendOk w.rb bytes.length) (hres : xRingbufferSendFromISR w.rb bytes = some (done, rb)) :
    RunInv size type ⟨rb, if done then w.sent ++ [bytes] else w.sent, w.got, w.out⟩ := by
  obtain ⟨F, R, W, blocks, todo, parts, hring, hsize, htype, hout, hparts, hflat⟩ := h
  rcases hring.send_sent hok with heq | ⟨rb', W', es, heq, hsize', htype', hring', hes⟩
  · rw [hres] at heq
    cases heq
    exact ⟨F, R, W, blocks, todo, parts, hring, hsize, htype, hout, hparts, hflat⟩
  · rw [hres] at heq
    cases heq
    refine ⟨F, R, W', blocks, todo ++ es, parts ++ [es.map Entry.bytes], hring', hsize'.trans hsize,
      htype'.trans htype, hout, ?_, ?_⟩
    · exact List.rel_append hparts (.cons (htype ▸ hes) .nil)
    · rw [List.flatten_append, hflat]
      simp

theorem RunInv.receiveNone_eq (hres : xRingbufferReceiveFromISR w.rb = some (none, rb)) :
    rb = w.rb ∧ w.rb.readPtr = w.rb.writePtr := by
  obtain ⟨F, R, W, blocks, todo, parts, hring, -⟩ := h
  cases todo with
  | nil =>
    rw [hring.receive_none] at hres
    cases hres
    exact ⟨rfl, hring.read_eq_write_iff.mpr rfl⟩
  | cons e es =>
    obtain ⟨p, R', heq, -⟩ := hring.receive_some
    rw [heq] at hres
    cases hres

theorem RunInv.receiveNone (hres : xRingbufferReceiveFromISR w.rb = some (none, rb)) :
    RunInv size type ⟨rb, w.sent, w.got, w.out⟩ := by
  obtain ⟨rfl, -⟩ := h.receiveNone_eq hres
  exact h

theorem RunInv.receive (hres : xRingbufferReceiveFromISR w.rb = some (some (p, n), rb)) :
    RunInv size type ⟨rb, w.sent, w.got ++ [rb.data.read p n],
      w.out ++ [(p, rb.data.read p n)]⟩ := by
  obtain ⟨F, R, W, blocks, todo, parts, hring, hsize, htype, hout, hparts, hflat⟩ := h
  cases todo with
  | nil =>
    rw [hring.receive_none] at hres
    cases hres
  | cons e es =>
    obtain ⟨p', R', heq, hring', houts, hread⟩ := hring.receive_some
    rw [heq] at hres
    cases hres
    refine ⟨F, R', W, blocks ++ e.blocks, es, parts, hring', hsize, htype, ?_, hparts, ?_⟩
    · rw [← hsize, houts, hsize, ← hout, hread]
    · rw [hread, hflat, List.append_assoc]
      rfl

theorem RunInv.giveBack {item : Nat × List UInt8} (hitem : item ∈ w.out)
    (hres : vRingbufferReturnItem w.rb item.1 = some rb) :
    RunInv size type ⟨rb, w.sent, w.got, w.out.eraseP (·.1 = item.1)⟩ := by
  obtain ⟨F, R, W, blocks, todo, parts, hring, hsize, htype, hout, hparts, hflat⟩ := h
  rw [hout, ← hsize] at hitem
  obtain ⟨rb', F', blocks', heq, hsize', htype', hring', houts, -⟩ := hring.return_some hitem
  rw [hres] at heq
  cases heq
  refine ⟨F', R, W, blocks', todo, parts, hring', hsize'.trans hsize, htype'.trans htype,
    ?_, hparts,
    hflat⟩
  rw [hout, ← hsize, houts]

end

theorem Run.inv (hsize : size < 2 ^ 31) (hpos : 0 < size) (h : Run size type data SendOk w) :
    RunInv size type w := by
  induction h with
  | create =>
    exact ⟨_, _, _, [], [], [], .fresh hsize hpos, rfl, rfl, rfl, .nil, rfl⟩
  | send _ hok hres ih => exact ih.send hok hres
  | receiveNone _ hres ih => exact ih.receiveNone hres
  | receive _ hres ih => exact ih.receive hres
  | giveBack _ hitem hres ih => exact ih.giveBack hitem hres

theorem RunInv.delivers (h : RunInv size type w) : Delivers type SendOk w := by
  obtain ⟨F, R, W, blocks, todo, parts, hring, hsize, htype, hout, hparts, hflat⟩ := h
  refine ⟨⟨parts, hparts, ?_, fun rb hres => ?_⟩, ?_, fun bytes hok => ?_, ?_, fun item hitem => ?_⟩
  · rw [hflat]
    exact List.prefix_append _ _
  · cases todo with
    | nil => simpa using hflat.symm
    | cons e es =>
      obtain ⟨p, R', heq, -⟩ := hring.receive_some
      rw [heq] at hres
      cases hres
  · rw [hout, ← hsize]
    exact hring.old.read_outs
  · rcases hring.send_sent hok with heq | ⟨rb', W', es, heq, -⟩ <;> rw [heq] <;> simp
  · cases todo with
    | nil =>
      rw [hring.receive_none]
      simp
    | cons e es =>
      obtain ⟨p, R', heq, -⟩ := hring.receive_some
      rw [heq]
      simp
  · rw [hout, ← hsize] at hitem
    obtain ⟨rb', F', blocks', heq, -⟩ := hring.return_some hitem
    rw [heq]
    simp

/-- Every run whose sends meet the condition delivers. -/
theorem ring_delivers (hsize : size < 2 ^ 31) (hpos : 0 < size) (h : Run size type data SendOk w) :
    Delivers type SendOk w := (h.inv hsize hpos).delivers

end Run

/-! ### Runs of given calls -/

inductive Act where
  | send (bytes : List UInt8)
  | receive
  | giveBack (item : Nat)

def World.act (w : World) : Act → Option World
  | .send bytes => (xRingbufferSendFromISR w.rb bytes).map fun r =>
      ⟨r.2, if r.1 then w.sent ++ [bytes] else w.sent, w.got, w.out⟩
  | .receive => (xRingbufferReceiveFromISR w.rb).map fun
      | (none, rb) => ⟨rb, w.sent, w.got, w.out⟩
      | (some (p, n), rb) =>
        ⟨rb, w.sent, w.got ++ [rb.data.read p n], w.out ++ [(p, rb.data.read p n)]⟩
  | .giveBack item => if ∃ held ∈ w.out, held.1 = item then
      (vRingbufferReturnItem w.rb item).map fun rb =>
        ⟨rb, w.sent, w.got, w.out.eraseP (·.1 = item)⟩
    else none

def ActOk (w : World) : Act → Prop
  | .send bytes => SendOk w.rb bytes.length
  | _ => True

instance (rb : Ringbuf) (n : Nat) : Decidable (SendOk rb n) :=
  decidable_of_iff (n < 2 ^ 31 ∧
      ¬ (rb.freePtr = 0 ∧ rb.writePtr + hdrSize + pad n < rb.size ∧
        rb.size < rb.writePtr + hdrSize + pad n + hdrSize) ∧
      ¬ (n = 0 ∧ rb.writePtr + hdrSize = rb.size ∧ rb.freePtr ≠ 0) ∧
      (rb.type = .allowsplit → rb.size < rb.writePtr + hdrSize + pad n → rb.size % 4 = 0))
    ⟨fun ⟨h1, h2, h3, h4⟩ => ⟨h1, h2, h3, h4⟩, fun ⟨h1, h2, h3, h4⟩ => ⟨h1, h2, h3, h4⟩⟩

instance (w : World) : (a : Act) → Decidable (ActOk w a)
  | .send bytes => inferInstanceAs (Decidable (SendOk w.rb bytes.length))
  | .receive => inferInstanceAs (Decidable True)
  | .giveBack _ => inferInstanceAs (Decidable True)

theorem Run.act {size : Nat} {type : RingbufType} {data : Bytes} {w w' : World} {a : Act}
    (h : Run size type data SendOk w) (hok : ActOk w a)
    (hact : w.act a = some w') : Run size type data SendOk w' := by
  cases a with
  | send bytes =>
    obtain ⟨⟨done, rb⟩, hres, rfl⟩ := Option.map_eq_some_iff.1 hact
    exact h.send hok hres
  | receive =>
    obtain ⟨⟨item, rb⟩, hres, rfl⟩ := Option.map_eq_some_iff.1 hact
    cases item with
    | none => exact h.receiveNone hres
    | some item => exact h.receive hres
  | giveBack item =>
    simp only [World.act] at hact
    split_ifs at hact with hheld
    obtain ⟨held, hmem, rfl⟩ := hheld
    obtain ⟨rb, hres, rfl⟩ := Option.map_eq_some_iff.1 hact
    exact h.giveBack hmem hres

/-- Two items are received and given back in the other order, a third one is split at the end of the
buffer, and its first part is received. -/
def splitActs : List Act :=
  [.send [1, 2, 3, 4], .send [5, 6, 7], .receive, .receive, .giveBack 20, .giveBack 8,
    .send (List.replicate 17 9), .receive]

theorem ring_delivers_split : ∃ w, Run 48 .allowsplit (fun _ => 0) SendOk w ∧
    w.sent = [[1, 2, 3, 4], [5, 6, 7], List.replicate 17 9] ∧
    w.got = [[1, 2, 3, 4], [5, 6, 7], List.replicate 16 9] ∧
    Delivers .allowsplit SendOk w := by
  have hok : Along World.act ActOk ⟨xRingbufferCreate 48 .allowsplit fun _ => 0, [], [], []⟩
      splitActs := by decide +kernel
  have hruns := always_of_step (fun _ _ _ h hok hact => Run.act h hok hact) .create hok
  obtain ⟨w, hw, hlists⟩ := (Option.any_eq_true _ _).1 (show (run World.act
      ⟨xRingbufferCreate 48 .allowsplit fun _ => 0, [], [], []⟩ splitActs).any (fun w =>
        w.sent = [[1, 2, 3, 4], [5, 6, 7], List.replicate 17 9] ∧
        w.got = [[1, 2, 3, 4], [5, 6, 7], List.replicate 16 9]) = true by decide +kernel)
  have hrun := hruns.final hw
  obtain ⟨hsent, hgot⟩ := of_decide_eq_true hlists
  exact ⟨w, hrun, hsent, hgot, ring_delivers (by decide) (by decide) hrun⟩
theorem full_ring_passes_for_empty : ∃ w, Run 40 .nosplit (fun _ => 0)
      (fun rb n => n ≤ xRingbufferGetMaxItemSize rb) w ∧
    w.sent = [[1, 2, 3, 4], [5, 6, 7, 8], [9, 10, 11, 12]] ∧ w.got = [] ∧
    xRingbufferReceiveFromISR w.rb = some (none, w.rb) := by
  have h1 : Run 40 .nosplit (fun _ => 0) (fun rb n => n ≤ xRingbufferGetMaxItemSize rb) _ :=
    @Run.send _ _ _ _ _ [1, 2, 3, 4] true _ .create (by decide) rfl
  have h2 := @Run.send _ _ _ _ _ [5, 6, 7, 8] true _ h1 (by decide) rfl
  have h3 := @Run.send _ _ _ _ _ [9, 10, 11, 12] true _ h2 (by decide) rfl
  exact ⟨_, h3, rfl, rfl, rfl⟩

end EspIdf.FreeRtos
