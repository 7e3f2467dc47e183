import EspIdf.Device.Runs

/-! Application tracing through the two TRAX blocks: the buffers that `esp_apptrace_trax_get_buffer`
returns, and how the blocks pass to the host through the control register. -/

namespace EspIdf.AppTrace

open EspIdf.Runs

def blockSize : Nat := 0x4000

/-- The control register: `host_connect`, `block_id` and `block_len`. -/
structure Ctrl where
  connected : Bool
  blockId : Nat
  blockLen : Nat
  deriving DecidableEq

/-- A buffer with its header: the block, where the header is in it, the size that was asked for and
the header's `block_sz`. -/
structure Chunk where
  block : Nat
  start : Nat
  size : Nat
  blockSz : Nat
  deriving DecidableEq

/-- A call that waits for a block switch. -/
inductive Call where
  | get (size : Nat)
  | flush
  deriving DecidableEq

def Call.size : Call → Option Nat
  | .get size => some size
  | .flush => none

/-- In `esp_apptrace_trax_block_switch`: before the register is read, or before it is written. -/
inductive Pc where
  | idle
  | wait (call : Call)
  | commit (call : Call) (connected : Bool)
  deriving DecidableEq

def Pc.pending : Pc → Option Nat
  | .idle => none
  | .wait call => call.size
  | .commit call _ => call.size

/-- The state of the transport, the block that the host sees, and what was handed out: in each block
since it became current, up to the last switch, and in all. -/
structure Trace where
  inBlock : Nat
  markers : Nat → Nat
  ctrl : Ctrl
  exposed : Nat
  pc : Pc
  held : Nat → List Chunk
  sent : List Chunk
  log : List Chunk

namespace Trace

def cur (s : Trace) : Nat := s.inBlock % 2

def marker (s : Trace) : Nat := s.markers s.cur

def start (ctrl : Ctrl) : Trace := ⟨0, fun _ => 0, ctrl, 1, .idle, fun _ => [], [], []⟩

/-- The end of `esp_apptrace_trax_get_buffer`: the buffer is taken from the current block. -/
def take (s : Trace) (size : Nat) : Trace :=
  let chunk : Chunk := ⟨s.cur, s.marker, size, size % 65536⟩
  { s with
    markers := Function.update s.markers s.cur ((s.marker + size + 4) % 4294967296)
    held := Function.update s.held s.cur (s.held s.cur ++ [chunk])
    log := s.log ++ [chunk] }

def refuses (s : Trace) : Bool :=
  s.ctrl.connected && (s.ctrl.blockLen != 0 || s.ctrl.blockId != s.inBlock % 256)

/-- The end of `esp_apptrace_trax_block_switch`; a flush then clears the marker of the block that it
left. -/
def blockSwitch (s : Trace) (call : Call) (connected : Bool) : Trace :=
  { s with
    inBlock := (s.inBlock + 1) % 4294967296
    markers := Function.update (Function.update s.markers s.cur (if call = .flush then 0 else s.marker))
      (1 - s.cur) 0
    ctrl := ⟨connected, (s.inBlock + 1) % 256, s.marker % 32768⟩
    exposed := s.cur
    pc := .idle
    held := Function.update s.held (1 - s.cur) []
    sent := s.sent ++ s.held s.cur }

end Trace

inductive Event where
  | get (size : Nat)
  | flush (minSz : Nat)
  | poll
  | timeout
  | commit
  | host (ctrl : Ctrl)
  deriving DecidableEq

open Trace

/-- What an event does, and the size of the buffer that is then taken from the current block. -/
def advance (s : Trace) : Event → Option (Trace × Option Nat)
  | .get size =>
    if s.pc ≠ .idle then none
    else if blockSize ≤ (s.marker + size + 4) % 4294967296 then
      some ({ s with pc := .wait (.get size) }, none)
    else some (s, some size)
  | .flush minSz =>
    if s.pc ≠ .idle then none
    else some (if minSz < s.marker then { s with pc := .wait .flush } else s, none)
  | .poll => match s.pc with
    | .wait call => some (if s.refuses then s else { s with pc := .commit call s.ctrl.connected }, none)
    | _ => none
  | .timeout => match s.pc with
    | .wait _ => some ({ s with pc := .idle }, none)
    | _ => none
  | .commit => match s.pc with
    | .commit call connected => some (s.blockSwitch call connected, call.size)
    | _ => none
  | .host ctrl => some ({ s with ctrl }, none)

def traceStep (s : Trace) (e : Event) : Option Trace :=
  (advance s e).map fun r => r.2.elim r.1 r.1.take

/-- What an event can do: move the call on, take a buffer, switch blocks or be the host's. -/
theorem advance_cases (hr : advance s e = some r) :
    (∃ pc : Pc, r = ({ s with pc }, none) ∧
      (∀ call connected, pc = .commit call connected → s.refuses = false ∧
        connected = s.ctrl.connected) ∧
      (∀ size ∈ pc.pending, e = .get size ∨ size ∈ s.pc.pending) ∧ e ≠ .commit) ∨
    (∃ size, e = .get size ∧ (s.marker + size + 4) % 4294967296 < blockSize ∧ r = (s, some size)) ∨
    (∃ call connected, e = .commit ∧ s.pc = .commit call connected ∧
      r = (s.blockSwitch call connected, call.size)) ∨
    ∃ ctrl, e = .host ctrl ∧ r = ({ s with ctrl }, none) := by
  cases e with
  | get size =>
    simp only [advance] at hr
    split_ifs at hr with hpc hfull <;> cases hr
    · exact .inl ⟨_, rfl, by simp, by simp [Pc.pending, Call.size], by simp⟩
    · exact .inr (.inl ⟨size, rfl, Nat.lt_of_not_le hfull, rfl⟩)
  | flush minSz =>
    simp only [advance] at hr
    split_ifs at hr with hpc <;> cases hr
    · exact .inl ⟨_, rfl, by simp, by simp [Pc.pending, Call.size], by simp⟩
    · exact .inl ⟨s.pc, rfl, by simp [not_not.mp hpc], fun _ => .inr, by simp⟩
  | poll =>
    simp only [advance] at hr
    split at hr <;> cases hr
    case h_1 call hpc =>
      split
      · exact .inl ⟨s.pc, rfl, by simp [hpc], fun _ => .inr, by simp⟩
      case isFalse hrefuses =>
        exact .inl ⟨_, rfl, by simpa using hrefuses, fun _ hsize => .inr (by rw [hpc]; exact hsize), by simp⟩
  | timeout =>
    simp only [advance] at hr
    split at hr <;> cases hr
    exact .inl ⟨_, rfl, by simp, by simp [Pc.pending], by simp⟩
  | commit =>
    simp only [advance] at hr
    split at hr <;> cases hr
    exact .inr (.inr (.inl ⟨_, _, rfl, ‹_›, rfl⟩))
  | host ctrl =>
    cases hr
    exact .inr (.inr (.inr ⟨ctrl, rfl, rfl⟩))

/-! ### Buffers in their block -/

/-- The buffers of the current block lie in it with their headers, are disjoint, and have their size
in the header. -/
structure Inside (s : Trace) : Prop where
  fits : ∀ c ∈ s.held s.cur, c.block = s.cur ∧ c.start + 4 + c.size ≤ blockSize ∧ c.blockSz = c.size
  disjoint : (s.held s.cur).Pairwise fun c c' => c.start + 4 + c.size ≤ c'.start

/-- A buffer that is handed out fits into a block with its header. -/
def Granted (s : Trace) (e : Event) : Prop :=
  ∀ r, advance s e = some r → ∀ size ∈ r.2, size + 4 ≤ blockSize

/-- The chunks lie one behind the other in the block from `a` to `b`. -/
def Laid (block : Nat) : Nat → List Chunk → Nat → Prop
  | a, [], b => a = b
  | a, c :: cs, b => c = ⟨block, a, c.size, c.size⟩ ∧ Laid block (a + c.size + 4) cs b

section

variable (h : Laid block a cs b)
include h

theorem Laid.snoc : Laid block a (cs ++ [⟨block, b, size, size⟩]) (b + size + 4) := by
  induction cs generalizing a with
  | nil =>
    obtain rfl : a = b := h
    exact ⟨rfl, rfl⟩
  | cons c cs ih => exact ⟨h.1, ih h.2⟩

theorem Laid.le : a ≤ b := by
  induction cs generalizing a with
  | nil => exact Nat.le_of_eq h
  | cons c cs ih => have := ih h.2; omega

theorem Laid.mem (hc : c ∈ cs) :
    c.block = block ∧ a ≤ c.start ∧ c.start + 4 + c.size ≤ b ∧ c.blockSz = c.size := by
  induction cs generalizing a with
  | nil => cases hc
  | cons d cs ih =>
    obtain ⟨hd, h⟩ := h
    have hle := h.le
    rcases List.mem_cons.mp hc with rfl | hc
    · rw [hd]
      exact ⟨rfl, Nat.le_refl _, by simp only; omega, rfl⟩
    · obtain ⟨h1, h2, h3⟩ := ih h hc
      exact ⟨h1, by omega, h3⟩

theorem Laid.disjoint : cs.Pairwise fun c c' => c.start + 4 + c.size ≤ c'.start := by
  induction cs generalizing a with
  | nil => exact .nil
  | cons d cs ih =>
    refine .cons (fun c hc => ?_) (ih h.2)
    have hc := (h.2.mem hc).2.1
    rw [h.1]
    simp only
    omega

end

/-- The current block is filled up to its marker. -/
structure Filled (s : Trace) : Prop where
  laid : Laid s.cur 0 (s.held s.cur) s.marker
  le : s.marker ≤ blockSize

theorem Filled.inside (h : Filled s) : Inside s where
  fits c hc := by
    obtain ⟨h1, -, h3, h4⟩ := h.laid.mem hc
    exact ⟨h1, Nat.le_trans h3 h.le, h4⟩
  disjoint := h.laid.disjoint

theorem Filled.take (h : Filled s) (hsize : s.marker + size + 4 ≤ blockSize) : Filled (s.take size) := by
  have hmod : (s.marker + size + 4) % 4294967296 = s.marker + size + 4 ∧ size % 65536 = size := by
    unfold blockSize at hsize
    omega
  have hmarker : (s.take size).marker = s.marker + size + 4 := by
    rw [marker, Trace.take, hmod.1]
    exact Function.update_self ..
  refine ⟨?_, by rw [hmarker]; exact hsize⟩
  rw [hmarker]
  simp only [Trace.take, hmod.2, cur, Function.update_self]
  exact h.laid.snoc

theorem cur_blockSwitch : (blockSwitch s call connected).cur = 1 - s.cur := by
  simp only [cur, blockSwitch]
  omega

theorem marker_blockSwitch : (blockSwitch s call connected).marker = 0 := by
  rw [marker, cur_blockSwitch]
  exact Function.update_self ..

theorem held_blockSwitch : (blockSwitch s call connected).held (1 - s.cur) = [] :=
  Function.update_self ..

theorem filled_blockSwitch : Filled (blockSwitch s call connected) := by
  refine ⟨?_, by rw [marker_blockSwitch]; exact Nat.zero_le _⟩
  rw [marker_blockSwitch, cur_blockSwitch, held_blockSwitch]
  rfl

theorem Filled.of_eq (h : Filled s) (hcur : t.cur = s.cur) (hmarker : t.marker = s.marker)
    (hheld : t.held = s.held) : Filled t := by
  refine ⟨?_, by rw [hmarker]; exact h.le⟩
  rw [hcur, hmarker, hheld]
  exact h.laid

/-- Before a buffer is taken the current block is filled, and a buffer that fits into a block
fits. -/
theorem Filled.advance (h : Filled s) (hr : advance s e = some r) :
    Filled r.1 ∧ ∀ size ∈ r.2, size + 4 ≤ blockSize → r.1.marker + size + 4 ≤ blockSize := by
  rcases advance_cases hr with ⟨pc, rfl, -⟩ | ⟨size, -, hroom, rfl⟩ | ⟨call, connected, -, -, rfl⟩ |
    ⟨ctrl, -, rfl⟩
  · exact ⟨h.of_eq rfl rfl rfl, by simp⟩
  · have hle := h.le
    refine ⟨h, fun size' hsize hfits => ?_⟩
    cases hsize
    unfold blockSize at *
    simp only
    omega
  · refine ⟨filled_blockSwitch, fun size hsize hfits => ?_⟩
    rw [marker_blockSwitch]
    omega
  · exact ⟨h.of_eq rfl rfl rfl, by simp⟩

/-- The chunks of the current block lie inside it and apart, in every state of a run, exactly if
every chunk that a call of the run takes fits into a block with its header. -/
theorem buffers_inside_iff (ctrl : Ctrl) (es : List Event) :
    Always traceStep Inside (start ctrl) es ↔ Along traceStep Granted (start ctrl) es := by
  have hstart : Filled (start ctrl) := ⟨rfl, Nat.zero_le _⟩
  refine always_iff_along (I := Filled) (fun s => Filled.inside) ?_ ?_ hstart es
  · intro s e s' h hgranted hs'
    obtain ⟨r, hr, rfl⟩ := Option.map_eq_some_iff.mp hs'
    obtain ⟨hfilled, hfits⟩ := h.advance hr
    cases hsize : r.2 with
    | none => exact hfilled
    | some size => exact hfilled.take (hfits size hsize (hgranted r hr size hsize))
  · intro s e s' h hgranted hs' hinside
    refine hgranted fun r hr size hsize => ?_
    obtain rfl : r.1.take size = s' := by
      rw [traceStep, hr, Option.map_some, hsize] at hs'
      exact Option.some.inj hs'
    have hmem : ⟨r.1.cur, r.1.marker, size, size % 65536⟩ ∈
        (r.1.take size).held (r.1.take size).cur := by
      simp [Trace.take, cur]
    have := (hinside.fits _ hmem).2.1
    simp only at this
    omega

theorem oversized_buffer_leaves_block :
    ¬ Always traceStep Inside (start ⟨false, 0, 0⟩) [.get 0x4000, .poll, .commit] := by
  intro h
  have hinside := (((h.2 _ rfl).2 _ rfl).2 _ rfl).fits
  exact absurd (hinside ⟨1, 0, 0x4000, 0x4000⟩ (by decide)).2.1 (by decide)

/-! ### The host -/

def Event.Small : Event → Prop
  | .get size => size + 4 < blockSize
  | .host _ => False
  | _ => True

inductive HostEvent where
  | device (e : Event) (small : e.Small)
  | read
  | ack

/-- A block as the host reads it: its first `len` bytes, which hold `chunks`. -/
structure Reading where
  block : Nat
  len : Nat
  chunks : List Chunk

structure Session where
  trace : Trace
  hasRead : Bool
  reads : List Reading

/-- A switch exposes a block that the host has not read. -/
def Event.stillRead : Event → Bool → Bool
  | .commit, _ => false
  | _, hasRead => hasRead

/-- The host reads an exposed block once and then clears the length in the register. -/
def sessionStep (s : Session) : HostEvent → Option Session
  | .device e _ => (traceStep s.trace e).map fun t => ⟨t, e.stillRead s.hasRead, s.reads⟩
  | .read =>
    if s.trace.ctrl.blockLen = 0 ∨ s.hasRead then none
    else some { s with
      hasRead := true
      reads := s.reads ++ [⟨s.trace.exposed, s.trace.ctrl.blockLen, s.trace.held s.trace.exposed⟩] }
  | .ack =>
    if s.hasRead then some { s with
      trace := { s.trace with ctrl := { s.trace.ctrl with blockLen := 0 } }
      hasRead := false }
    else none

def Session.start : Session := ⟨.start ⟨true, 0, 0⟩, false, []⟩

/-- The chunks of the exposed block if the host has still to read it. -/
def Session.unread (s : Session) : List Chunk :=
  if s.trace.ctrl.blockLen = 0 ∨ s.hasRead then [] else s.trace.held s.trace.exposed

/-- What the host has read and has still to read are the chunks up to the last switch, each reading
is made of whole chunks, and the block that is not acknowledged is not the current one. -/
structure Seen (s : Session) : Prop where
  order : s.reads.flatMap (·.chunks) ++ s.unread = s.trace.sent
  rest : s.trace.sent ++ s.trace.held s.trace.cur = s.trace.log
  whole : ∀ r ∈ s.reads, Laid r.block 0 r.chunks r.len
  kept : s.trace.ctrl.blockLen ≠ 0 → s.trace.exposed ≠ s.trace.cur

structure Passed (s : Session) : Prop extends Seen s where
  connected : s.trace.ctrl.connected = true
  exposed : s.trace.ctrl.blockLen ≠ 0 →
    Laid s.trace.exposed 0 (s.trace.held s.trace.exposed) s.trace.ctrl.blockLen
  commit : ∀ call connected, s.trace.pc = .commit call connected →
    s.trace.ctrl.blockLen = 0 ∧ connected = true
  small : ∀ size ∈ s.trace.pc.pending, size + 4 < blockSize

theorem Laid.nil_of (h : Laid block a cs a) : cs = [] := by
  cases cs with
  | nil => rfl
  | cons c cs =>
    have := h.2.le
    omega

theorem Passed.pc {pc : Pc} (h : Passed s)
    (hcommit : ∀ call connected, pc = .commit call connected → s.trace.ctrl.blockLen = 0 ∧
    connected = true)
    (hsmall : ∀ size ∈ pc.pending, size + 4 < blockSize) :
    Passed { s with trace := { s.trace with pc } } :=
  ⟨⟨h.order, h.rest, h.whole, h.kept⟩, h.connected, h.exposed, hcommit, hsmall⟩

theorem Passed.take (h : Passed s) (size : Nat) : Passed { s with trace := s.trace.take size } := by
  have hheld : s.trace.ctrl.blockLen ≠ 0 →
      (s.trace.take size).held s.trace.exposed = s.trace.held s.trace.exposed := fun hlen =>
    Function.update_of_ne (h.kept hlen) _ _
  refine ⟨⟨?_, ?_, h.whole, h.kept⟩, h.connected, fun hlen => ?_, h.commit, h.small⟩
  · refine Eq.trans (congrArg _ ?_) h.order
    by_cases hnone : s.trace.ctrl.blockLen = 0 ∨ s.hasRead = true
    · exact (if_pos hnone).trans (if_pos hnone).symm
    · have hread := hheld fun hlen => hnone (.inl hlen)
      exact (if_neg hnone).trans (hread.trans (if_neg hnone).symm)
  · have hcur : (s.trace.take size).held (s.trace.take size).cur = s.trace.held s.trace.cur ++
        [⟨s.trace.cur, s.trace.marker, size, size % 65536⟩] := Function.update_self ..
    refine (congrArg (s.trace.sent ++ ·) hcur).trans ?_
    rw [← List.append_assoc, h.rest]
    rfl
  · exact (hheld hlen).symm ▸ h.exposed hlen

theorem Passed.blockSwitch (h : Passed s) (hf : Filled s.trace) (hlen : s.trace.ctrl.blockLen = 0) :
    Passed ⟨s.trace.blockSwitch call true, false, s.reads⟩ := by
  have hne : s.trace.cur ≠ 1 - s.trace.cur := by
    omega
  have hheld : (s.trace.blockSwitch call true).held s.trace.cur = s.trace.held s.trace.cur :=
    Function.update_of_ne hne _ _
  have hmarker : s.trace.marker % 32768 = s.trace.marker := by
    have := hf.le
    unfold blockSize at this
    omega
  have horder := h.order
  rw [Session.unread, if_pos (.inl hlen), List.append_nil] at horder
  refine ⟨⟨?_, ?_, h.whole, fun _ => ?_⟩, rfl, fun _ => ?_, (fun _ _ hpc => by cases hpc),
    fun _ hsize => by cases hsize⟩
  · refine congrArg₂ _ horder ?_
    unfold Session.unread
    split
    case isTrue hnone =>
      have hzero : s.trace.marker = 0 := by simpa [Trace.blockSwitch, hmarker] using hnone
      have hlaid := hf.laid
      rw [hzero] at hlaid
      exact hlaid.nil_of.symm
    case isFalse => exact hheld
  · rw [cur_blockSwitch, held_blockSwitch, List.append_nil]
    exact h.rest
  · rw [cur_blockSwitch]
    exact hne
  · change Laid s.trace.cur 0 ((s.trace.blockSwitch call true).held s.trace.cur) (s.trace.marker % 32768)
    rw [hheld, hmarker]
    exact hf.laid

theorem Passed.advance (h : Passed s) (hf : Filled s.trace) (hsmall : e.Small)
    (hr : advance s.trace e = some r) :
    Passed ⟨r.1, e.stillRead s.hasRead, s.reads⟩ ∧ ∀ size ∈ r.2, size + 4 ≤ blockSize := by
  rcases advance_cases hr with ⟨pc, rfl, hcommit, hpending, hne⟩ | ⟨size, rfl, -, rfl⟩ |
    ⟨call, connected, rfl, hpc, rfl⟩ | ⟨ctrl, rfl, -⟩
  · have hread : e.stillRead s.hasRead = s.hasRead := by
      cases e <;> first | rfl | exact absurd rfl hne
    rw [hread]
    refine ⟨h.pc (fun call connected hpc => ?_) fun size hsize => ?_, by simp⟩
    · -- a connected host that is not behind leaves the register alone until it is written
      obtain ⟨hrefuses, rfl⟩ := hcommit call connected hpc
      simp only [refuses, h.connected, Bool.true_and, Bool.or_eq_false_iff,
        bne_eq_false_iff_eq] at hrefuses
      exact ⟨hrefuses.1, h.connected⟩
    · rcases hpending size hsize with rfl | hsize
      · exact hsmall
      · exact h.small size hsize
  · refine ⟨h, fun size' hsize => ?_⟩
    cases hsize
    exact Nat.le_of_lt hsmall
  · obtain ⟨hlen, rfl⟩ := h.commit _ _ hpc
    refine ⟨h.blockSwitch hf hlen, fun size hsize => Nat.le_of_lt (h.small size ?_)⟩
    rw [hpc]
    exact hsize
  · exact hsmall.elim

/-- In every state of a session, the chunks that the host has read and those that it is still to
read are the ones sent, in order, and with those of the current block they are all that were
written. -/
theorem host_sees_all (es : List HostEvent) : Always sessionStep Seen Session.start es := by
  have hkeep : ∀ s e s', Filled s.trace ∧ Passed s → True → sessionStep s e = some s' →
      Filled s'.trace ∧ Passed s' := by
    rintro s e s' ⟨hf, h⟩ - hs'
    cases e with
    | device e small =>
      obtain ⟨t, ht, rfl⟩ := Option.map_eq_some_iff.mp hs'
      obtain ⟨r, hr, rfl⟩ := Option.map_eq_some_iff.mp ht
      obtain ⟨hfilled, hfits⟩ := hf.advance hr
      obtain ⟨hpassed, hsmall⟩ := h.advance hf small hr
      cases hsize : r.2 with
      | none => exact ⟨hfilled, hpassed⟩
      | some size =>
        exact ⟨hfilled.take (hfits size hsize (hsmall size hsize)), hpassed.take size⟩
    | read =>
      simp only [sessionStep] at hs'
      split at hs' <;> cases hs'
      case refl hunread =>
        have horder := h.order
        rw [Session.unread, if_neg hunread] at horder
        refine ⟨hf, ⟨?_, h.rest, fun r hr => ?_, h.kept⟩, h.connected, h.exposed, h.commit, h.small⟩
        · simpa [Session.unread] using horder
        · rcases List.mem_append.mp hr with hr | hr
          · exact h.whole r hr
          · obtain rfl := List.mem_singleton.mp hr
            exact h.exposed fun hlen => hunread (.inl hlen)
    | ack =>
      simp only [sessionStep] at hs'
      split at hs' <;> cases hs'
      case refl hread =>
        have horder := h.order
        rw [Session.unread, if_pos (.inr hread)] at horder
        refine ⟨hf.of_eq rfl rfl rfl, ⟨?_, h.rest, h.whole, fun hlen => absurd rfl hlen⟩, h.connected,
          fun hlen => absurd rfl hlen, fun call connected hpc =>
            ⟨rfl, (h.commit call connected hpc).2⟩, h.small⟩
        simpa [Session.unread] using horder
  have hstart : Filled Session.start.trace ∧ Passed Session.start :=
    ⟨⟨rfl, Nat.zero_le _⟩, ⟨rfl, rfl, by simp [Session.start], fun hlen => absurd rfl hlen⟩, rfl,
      fun hlen => absurd rfl hlen, (fun _ _ hpc => by cases hpc), fun _ hsize => by cases hsize⟩
  exact (always_of_step hkeep hstart (along_of_forall fun _ _ => trivial)).imp fun s h => h.2.toSeen

end EspIdf.AppTrace
