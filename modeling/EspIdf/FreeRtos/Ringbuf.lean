import Mathlib.Algebra.Group.Int.Defs
import EspIdf.Device.Ram

/-! The ring buffers of `ringbuf.c` that hold items, `RINGBUF_TYPE_NOSPLIT` and
`RINGBUF_TYPE_ALLOWSPLIT`, with the calls that do not block.  Pointers are offsets from `rb->data`,
which `malloc` aligns to words; `none` stands for a failed `configASSERT`. -/

namespace EspIdf.FreeRtos

open EspIdf.Device

inductive RingbufType where
  | nosplit
  | allowsplit
  deriving DecidableEq, Repr

/-- `sizeof(buf_entry_hdr_t)`: the length and the flags. -/
def hdrSize : Nat := 8

def iflagFree : Nat := 1

def iflagDummydata : Nat := 2

def toSize (x : Int) : Nat := (x % 2 ^ 32).toNat

def round4 (n : Nat) : Nat := (n + 3) % 2 ^ 32 / 4 * 4

def configAssert (p : Prop) [Decidable p] : Option Unit := if p then some () else none

structure Ringbuf where
  type : RingbufType
  size : Nat
  writePtr : Nat
  readPtr : Nat
  freePtr : Nat
  data : Bytes

namespace Ringbuf

def hdrLen (rb : Ringbuf) (a : Nat) : Nat := rb.data.load32 a

def hdrFlags (rb : Ringbuf) (a : Nat) : Nat := rb.data.load32 (a + 4)

def setLen (rb : Ringbuf) (a len : Nat) : Ringbuf := { rb with data := rb.data.store32 a len }

def setFlags (rb : Ringbuf) (a flags : Nat) : Ringbuf :=
  { rb with data := rb.data.store32 (a + 4) flags }

def noHeader (rb : Ringbuf) (a : Nat) : Prop := toSize (rb.size - a) < hdrSize

instance (rb : Ringbuf) (a : Nat) : Decidable (rb.noHeader a) := inferInstanceAs (Decidable (_ < _))

end Ringbuf

def xRingbufferCreate (bufLength : Nat) (type : RingbufType) (data : Bytes) : Ringbuf :=
  ⟨type, bufLength, 0, 0, 0, data⟩

def xRingbufferGetMaxItemSize (rb : Ringbuf) : Nat :=
  match rb.type with
  | .allowsplit => toSize (rb.size - hdrSize * 2 - 4)
  | .nosplit => toSize ((rb.size / 2 : Nat) - hdrSize - 4)

def ringbufferFreeMem (rb : Ringbuf) : Int :=
  let freeSize : Int := rb.freePtr - rb.writePtr
  (if freeSize ≤ 0 then freeSize + rb.size else freeSize) - 1

/-! ### Sending -/

def writeItem (rb : Ringbuf) (buffer : List UInt8) (rbufferSize : Nat) : Ringbuf :=
  let hdr := (rb.setLen rb.writePtr buffer.length).setFlags rb.writePtr 0
  let writePtr := rb.writePtr + hdrSize + rbufferSize
  { rb with
    data := hdr.data.store (rb.writePtr + hdrSize) buffer
    writePtr := if rb.noHeader writePtr then 0 else writePtr }

def copyItemToRingbufNoSplit (rb : Ringbuf) (buffer : List UInt8) : Option (Bool × Ringbuf) := do
  let rbufferSize := round4 buffer.length
  configAssert (rb.writePtr % 4 = 0)
  configAssert (toSize (rb.writePtr - rb.size) ≥ hdrSize)
  let remLen := toSize (rb.size - rb.writePtr)
  if remLen < toSize (rbufferSize + hdrSize) then
    if rb.freePtr < toSize (rbufferSize + hdrSize + 4) then return (false, rb)
    if rb.freePtr > rb.writePtr then return (false, rb)
    return (true,
      writeItem { rb.setFlags rb.writePtr iflagDummydata with writePtr := 0 } buffer rbufferSize)
  if toSize (ringbufferFreeMem rb) < toSize (hdrSize + rbufferSize) then return (false, rb)
  return (true, writeItem rb buffer rbufferSize)

def copyItemToRingbufAllowSplit (rb : Ringbuf) (buffer : List UInt8) : Option (Bool × Ringbuf) := do
  let rbufferSize := round4 buffer.length
  configAssert (rb.writePtr % 4 = 0)
  configAssert (toSize (rb.writePtr - rb.size) ≥ hdrSize)
  let remLen := toSize (rb.size - rb.writePtr)
  if remLen < toSize (rbufferSize + hdrSize) then
    if toSize (ringbufferFreeMem rb) < toSize (hdrSize * 2 + rbufferSize) then return (false, rb)
    configAssert (remLen ≥ hdrSize)
    let rb := (rb.setFlags rb.writePtr 0).setLen rb.writePtr (remLen - hdrSize)
    let remLen := remLen - hdrSize
    if remLen ≠ 0 then
      let rb := { rb with data := rb.data.store (rb.writePtr + hdrSize) (buffer.take remLen) }
      return (true, writeItem { rb with writePtr := 0 } (buffer.drop remLen)
        (toSize (rbufferSize - remLen)))
    return (true,
      writeItem { rb.setFlags rb.writePtr iflagDummydata with writePtr := 0 } buffer rbufferSize)
  if toSize (ringbufferFreeMem rb) < toSize (hdrSize + rbufferSize) then return (false, rb)
  return (true, writeItem rb buffer rbufferSize)

def copyItemToRingbuf (rb : Ringbuf) (buffer : List UInt8) : Option (Bool × Ringbuf) :=
  match rb.type with
  | .nosplit => copyItemToRingbufNoSplit rb buffer
  | .allowsplit => copyItemToRingbufAllowSplit rb buffer

def xRingbufferSendFromISR (rb : Ringbuf) (data : List UInt8) : Option (Bool × Ringbuf) :=
  let neededSize := toSize (data.length + hdrSize)
  if neededSize > toSize (ringbufferFreeMem rb) then some (false, rb)
  else copyItemToRingbuf rb data

/-! ### Receiving -/

/-- The end of `getItemFromRingbufDefault`: the item at the read pointer is passed back, as the
offset and the length of its data. -/
def passItem (rb : Ringbuf) : Option (Nat × Nat) × Ringbuf :=
  let len := rb.hdrLen rb.readPtr
  let readPtr := rb.readPtr + hdrSize + round4 len
  (some (rb.readPtr + hdrSize, len),
    { rb with readPtr := if rb.noHeader readPtr then 0 else readPtr })

def getItemFromRingbufDefault (rb : Ringbuf) : Option (Option (Nat × Nat) × Ringbuf) := do
  configAssert (rb.readPtr % 4 = 0)
  if rb.readPtr = rb.writePtr then return (none, rb)
  configAssert (rb.hdrLen rb.readPtr < rb.size ∨ rb.hdrFlags rb.readPtr &&& iflagDummydata ≠ 0)
  if rb.hdrFlags rb.readPtr &&& iflagDummydata ≠ 0 then
    configAssert (rb.hdrLen 0 < rb.size)
    return passItem { rb with readPtr := 0 }
  return passItem rb

def xRingbufferReceiveFromISR (rb : Ringbuf) : Option (Option (Nat × Nat) × Ringbuf) :=
  getItemFromRingbufDefault rb

/-! ### Returning -/

def skipBlock (rb : Ringbuf) : Option Ringbuf := do
  let freePtr :=
    if rb.hdrFlags rb.freePtr &&& iflagDummydata ≠ 0 then 0
    else rb.freePtr + (round4 (rb.hdrLen rb.freePtr) + hdrSize)
  configAssert (freePtr ≤ rb.size)
  return { rb with freePtr := if rb.noHeader freePtr then 0 else freePtr }

def freeLoop : Nat → Ringbuf → Option Ringbuf
  | 0, _ => none
  | n + 1, rb =>
    let flags := rb.hdrFlags rb.freePtr
    if (flags &&& iflagFree ≠ 0 ∨ flags &&& iflagDummydata ≠ 0) ∧ rb.freePtr ≠ rb.writePtr then do
      let rb ← skipBlock rb
      if rb.freePtr = rb.readPtr then return rb
      freeLoop n rb
    else some rb

/-- `returnItemToRingbufDefault`.  The rounds of the cleanup pass differ only in the free pointer,
which is at most `rb->size`, so a pass of more than `rb->size + 1` rounds does not end. -/
def returnItemToRingbufDefault (rb : Ringbuf) (item : Nat) : Option Ringbuf := do
  configAssert (rb.freePtr % 4 = 0)
  configAssert (item < rb.size)
  let hdr := item - hdrSize
  configAssert (rb.hdrLen hdr < rb.size)
  configAssert (rb.hdrFlags hdr &&& iflagDummydata = 0)
  configAssert (rb.hdrFlags hdr &&& iflagFree = 0)
  freeLoop (rb.size + 2) (rb.setFlags hdr (rb.hdrFlags hdr ||| iflagFree))

def vRingbufferReturnItem (rb : Ringbuf) (item : Nat) : Option Ringbuf :=
  returnItemToRingbufDefault rb item

end EspIdf.FreeRtos
