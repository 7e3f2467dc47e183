import EspIdf.Device.Runs

/-! The receiver of BluFi frames (`btc_blufi_recv_handler`).  What a frame and the first fragment of
a message say about lengths is compared neither with the frame nor with the buffer, and a disconnect
leaves a message that has been begun as it is. -/

namespace EspIdf.Blufi

open EspIdf.Runs

/-- The callbacks of the application, where there are any.  `decryptFunc` is given the memory at
`hdr->data` and a length; it returns a length and leaves the memory. -/
structure Callbacks where
  decryptFunc : Option (UInt8 → (Nat → UInt8) → Nat → Nat × (Nat → UInt8))
  checksumFunc : Option (UInt8 → List UInt8 → UInt16)

/-- A frame of `len` bytes; `data` is the memory at `hdr->data`, which goes on behind the frame. -/
structure Frame where
  type : UInt8
  fc : UInt8
  seq : UInt8
  dataLen : UInt8
  data : Nat → UInt8
  len : Nat

/-- The receiver's part of `tBLUFI_ENV`, where `aggrBuf` has `total_len` bytes; the payload that the
connection has brought for the next message; the messages handed to `btc_blufi_protocol_handler`,
each with the payload received for it; and whether a byte was stored outside `aggr_buf`. -/
structure Env where
  recvSeq : UInt8
  aggrBuf : List UInt8
  offset : Nat
  received : List UInt8
  handed : List (UInt8 × List UInt8 × List UInt8)
  outside : Bool

def initial : Env := ⟨0, [], 0, [], [], false⟩

def bytes (data : Nat → UInt8) (start n : Nat) : List UInt8 := (List.range' start n).map data

def word (data : Nat → UInt8) (i : Nat) : Nat := (data i).toNat + 256 * (data (i + 1)).toNat

def memcpy (buf : List UInt8) (offset : Nat) (src : List UInt8) : Option (List UInt8) :=
  if offset + src.length ≤ buf.length then
    some (buf.take offset ++ src ++ buf.drop (offset + src.length))
  else none

namespace Frame

def size (f : Frame) : Nat := f.dataLen.toNat

def isFrag (f : Frame) : Bool := f.fc &&& 0x10 ≠ 0

def decrypt (cbs : Callbacks) (f : Frame) : Option (Nat → UInt8) :=
  match cbs.decryptFunc with
  | none => some f.data
  | some decrypt =>
    if f.fc &&& 0x01 = 0 then some f.data
    else
      let (ret, data) := decrypt f.seq f.data f.size
      if ret = f.size then some data else none

/-- The memory at `hdr->data` after the first two steps, if the frame is not dropped there. -/
def check (cbs : Callbacks) (f : Frame) : Option (Nat → UInt8) :=
  (f.decrypt cbs).filter fun data =>
    cbs.checksumFunc.all fun checksum => f.fc &&& 0x02 = 0 ∨
      (checksum f.seq (f.seq :: f.dataLen :: bytes data 0 f.size)).toNat = word data f.size

end Frame

namespace Env

/-- `buf` is the memory that `GKI_getbuf` finds.  A length below 2 is negative for `memcpy`. -/
def recvFrag (s : Env) (f : Frame) (data : Nat → UInt8) (buf : Option (Nat → UInt8)) : Env :=
  let s := { s with received := s.received ++ (bytes data 2 (f.size - 2)).take (f.len - 6) }
  match if s.offset = 0 then buf.map (bytes · 0 (word data 0)) else some s.aggrBuf with
  -- `aggr_buf` is NULL, and is set again before its next use
  | none => s
  | some aggrBuf =>
    match if f.size < 2 then none else memcpy aggrBuf s.offset (bytes data 2 (f.size - 2)) with
    | none => { s with outside := true }
    | some aggrBuf => { s with aggrBuf := aggrBuf, offset := s.offset + (f.size - 2) }

def handOver (s : Env) (f : Frame) (data : Nat → UInt8) (msg : List UInt8) : Env :=
  { s with
    offset := 0
    received := []
    handed := s.handed ++
      [(f.type, msg, s.received ++ (bytes data 0 f.size).take (f.len - 4))] }

def recvLast (s : Env) (f : Frame) (data : Nat → UInt8) : Env :=
  if 0 < s.offset then
    match memcpy s.aggrBuf s.offset (bytes data 0 f.size) with
    | none => { s with outside := true }
    | some msg => s.handOver f data msg
  else s.handOver f data (bytes data 0 f.size)

def recvHandler (cbs : Callbacks) (s : Env) (f : Frame) (buf : Option (Nat → UInt8)) : Env :=
  if f.seq ≠ s.recvSeq then s
  else
    let s := { s with recvSeq := s.recvSeq + 1 }
    match f.check cbs with
    | none => s
    | some data => if f.isFrag then s.recvFrag f data buf else s.recvLast f data

end Env

inductive Event where
  | recv (f : Frame) (buf : Option (Nat → UInt8))
  | disconnect

/-- Nothing is said of what happens after a store outside the buffer. -/
def step (cbs : Callbacks) (s : Env) (ev : Event) : Option Env :=
  if s.outside then none
  else match ev with
    | .recv f buf => some (s.recvHandler cbs f buf)
    | .disconnect => some { s with recvSeq := 0, received := [] }

/-- Each message has been handed over with the payload received for it, and no byte was stored
outside the buffer. -/
structure Exact (s : Env) : Prop where
  inside : s.outside = false
  handed : ∀ m ∈ s.handed, m.2.1 = m.2.2

/-- The condition on an event: a frame that is not dropped has the payload that its header says, a
fragment finds a buffer and fits into it, the last frame fills it, and no disconnect comes in
between. -/
def Orderly (cbs : Callbacks) (s : Env) : Event → Prop
  | .disconnect => s.offset = 0
  | .recv f buf => f.seq = s.recvSeq → ∀ data ∈ f.check cbs, f.size + 4 ≤ f.len ∧
      if f.isFrag then 2 ≤ f.size ∧ (s.offset = 0 → buf.isSome) ∧
        s.offset + (f.size - 2) ≤ if s.offset = 0 then word data 0 else s.aggrBuf.length
      else s.offset = 0 ∨ s.offset + f.size = s.aggrBuf.length

instance (cbs : Callbacks) (s : Env) : ∀ ev, Decidable (Orderly cbs s ev)
  | .disconnect => inferInstanceAs (Decidable (_ = _))
  | .recv _ _ => inferInstanceAs (Decidable (_ → _))

structure Inv (s : Env) : Prop where
  exact : Exact s
  stored : s.received = s.aggrBuf.take s.offset
  fits : s.offset ≤ s.aggrBuf.length

@[simp]
theorem length_bytes : (bytes data start n).length = n := by
  simp [bytes]

theorem memcpy_bytes (h : offset + n ≤ buf.length) : memcpy buf offset (bytes data start n) =
    some (buf.take offset ++ bytes data start n ++ buf.drop (offset + n)) := by
  rw [memcpy, length_bytes, if_pos h]

theorem Inv.recvFrag (h : Inv s) (hlen : f.size + 4 ≤ f.len) (hsize : 2 ≤ f.size)
    (hbuf : s.offset = 0 → buf.isSome)
    (hfit : s.offset + (f.size - 2) ≤ if s.offset = 0 then word data 0 else s.aggrBuf.length) :
    Inv (s.recvFrag f data buf) := by
  obtain ⟨aggrBuf, hgot, hstored, hlength⟩ : ∃ aggrBuf,
      (if s.offset = 0 then buf.map (bytes · 0 (word data 0)) else some s.aggrBuf) = some aggrBuf ∧
        s.received = aggrBuf.take s.offset ∧ s.offset + (f.size - 2) ≤ aggrBuf.length := by
    split_ifs at hfit ⊢ with h0
    · obtain ⟨mem, rfl⟩ := Option.isSome_iff_exists.mp (hbuf h0)
      exact ⟨_, rfl, by simpa [h0] using h.stored, by simpa using hfit⟩
    · exact ⟨_, rfl, h.stored, hfit⟩
  have htake : (bytes data 2 (f.size - 2)).take (f.len - 6) = bytes data 2 (f.size - 2) :=
    List.take_of_length_le (by rw [length_bytes]; omega)
  have hoff : (aggrBuf.take s.offset).length = s.offset := List.length_take_of_le (by omega)
  simp only [Env.recvFrag, hgot, htake, if_neg (Nat.not_lt.mpr hsize),
    memcpy_bytes hlength]
  refine ⟨⟨h.exact.inside, h.exact.handed⟩, ?_, ?_⟩
  · rw [hstored, List.take_left' (by simp [hoff])]
  · simp only [List.length_append, hoff, length_bytes]
    omega

theorem Inv.handOver (h : Inv s) (hlen : f.size + 4 ≤ f.len)
    (hmsg : msg = s.received ++ bytes data 0 f.size) :
    Inv (s.handOver f data msg) := by
  have htake : (bytes data 0 f.size).take (f.len - 4) = bytes data 0 f.size :=
    List.take_of_length_le (by rw [length_bytes]; omega)
  refine ⟨⟨h.exact.inside, fun m hm => ?_⟩, rfl, Nat.zero_le _⟩
  rcases List.mem_append.mp hm with hm | hm
  · exact h.exact.handed m hm
  · rw [List.mem_singleton.mp hm, hmsg, htake]

theorem Inv.recvLast (h : Inv s) (hlen : f.size + 4 ≤ f.len)
    (hfull : s.offset = 0 ∨ s.offset + f.size = s.aggrBuf.length) : Inv (s.recvLast f data) := by
  rw [Env.recvLast]
  split_ifs with h0
  · have hall : s.offset + f.size = s.aggrBuf.length := hfull.resolve_left (by omega)
    rw [memcpy_bytes (Nat.le_of_eq hall)]
    refine h.handOver hlen ?_
    rw [hall, List.drop_length, List.append_nil, h.stored]
  · refine h.handOver hlen ?_
    rw [h.stored, Nat.eq_zero_of_not_pos h0]
    rfl

theorem Inv.step (h : Inv s) (hev : Orderly cbs s ev) (hs' : Blufi.step cbs s ev = some s') :
    Inv s' := by
  unfold Blufi.step at hs'
  rw [if_neg (by simp [h.exact.inside])] at hs'
  cases ev with
  | disconnect =>
    cases hs'
    exact ⟨⟨h.exact.inside, h.exact.handed⟩, by simp [show s.offset = 0 from hev], h.fits⟩
  | recv f buf =>
    cases hs'
    rw [Env.recvHandler]
    by_cases hseq : f.seq = s.recvSeq
    · rw [if_neg (not_not.mpr hseq)]
      have hnext : Inv { s with recvSeq := s.recvSeq + 1 } :=
        ⟨⟨h.exact.inside, h.exact.handed⟩, h.stored, h.fits⟩
      cases hdata : f.check cbs with
      | none => exact hnext
      | some data =>
        obtain ⟨hlen, hrest⟩ := hev hseq data hdata
        by_cases hfrag : f.isFrag
        · simp only [hfrag, if_true] at hrest ⊢
          exact hnext.recvFrag hlen hrest.1 hrest.2.1 hrest.2.2
        · simp only [hfrag] at hrest ⊢
          exact hnext.recvLast hlen hrest
    · rwa [if_pos hseq]

/-- In every run of orderly events the messages are exact and no byte is stored outside the
buffer. -/
theorem messages_exact_of_orderly (cbs : Callbacks) (es : List Event)
    (hes : Along (step cbs) (Orderly cbs) initial es) : Always (step cbs) Exact initial es := by
  have hinit : Inv initial := ⟨⟨rfl, nofun⟩, rfl, Nat.le_refl _⟩
  exact (always_of_step (fun _ _ _ h hev hs' => h.step hev hs') hinit hes).imp fun _ h => h.exact

/-- A frame without encryption and checksum. -/
def plainFrame (fc seq : UInt8) (payload : List UInt8) : Event :=
  .recv ⟨1, fc, seq, .ofNat payload.length, (payload.getD · 0), payload.length + 4⟩
    (some fun _ => 0)

def inOrder : List Event := [plainFrame 0x10 0 [3, 0, 1, 2], plainFrame 0 1 [7], .disconnect]

theorem messages_exact_inOrder : Always (step ⟨none, none⟩) Exact initial inOrder ∧
    (run (step ⟨none, none⟩) initial inOrder).any (·.handed = [(1, [1, 2, 7], [1, 2, 7])]) = true :=
  ⟨messages_exact_of_orderly _ inOrder (by decide), by decide⟩

/-- The first byte came before the disconnect. -/
theorem disconnect_keeps_fragment : ¬ Always (step ⟨none, none⟩) Exact initial
    [plainFrame 0x10 0 [2, 0, 1], .disconnect, plainFrame 0 0 [7]] := by
  intro h
  have hrun : (run (step ⟨none, none⟩) initial
      [plainFrame 0x10 0 [2, 0, 1], .disconnect, plainFrame 0 0 [7]]).any
        ((1, [1, 7], [7]) ∈ ·.handed) = true := by decide
  obtain ⟨s, hs, hmem⟩ := (Option.any_eq_true _ _).mp hrun
  exact absurd ((h.final hs).handed _ (of_decide_eq_true hmem)) (by decide)

end EspIdf.Blufi
