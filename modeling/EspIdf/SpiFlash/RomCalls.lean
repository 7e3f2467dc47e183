import EspIdf.SpiFlash.Bounds

/-! `spi_flash_read` and `spi_flash_write` again, with the buffers that the ROM is given.  In `Ops`
a call of the ROM carries bytes; here it carries the address they come from or go to, since the ROM
asks for word aligned buffers, and reads its source with the cache off. -/

namespace EspIdf.SpiFlash.Buffers

open EspIdf.Device

/-- A place in memory: an address, or byte `off` of a local array: of `t`, which has `size` bytes,
or of `write_buf`. -/
inductive Buf where
  | ram (addr : Nat)
  | t (size off : Nat)
  | writeBuf (off : Nat)
  deriving DecidableEq, Repr

def Buf.Aligned : Buf → Prop
  | ram addr => addr % 4 = 0
  | t _ off => off % 4 = 0
  | writeBuf off => off % 4 = 0

def Buf.Room (n : Nat) : Buf → Prop
  | ram _ => True
  | t size off => off + n ≤ size
  | writeBuf off => off + n ≤ 32

/-- The arguments of `esp_rom_spiflash_read` and `esp_rom_spiflash_write`. -/
structure RomCall where
  addr : Nat
  buf : Buf
  len : Nat
  deriving DecidableEq, Repr

/-- The flash, the memory with the local arrays apart, and the reads and writes that the ROM was
asked for. -/
@[ext]
structure Machine where
  flash : Bytes
  ram : Bytes
  t : Bytes
  writeBuf : Bytes
  log : List RomCall

namespace Machine

def load (m : Machine) : Buf → Nat → List UInt8
  | .ram addr, n => m.ram.read addr n
  | .t _ off, n => m.t.read off n
  | .writeBuf off, n => m.writeBuf.read off n

def store (m : Machine) : Buf → List UInt8 → Machine
  | .ram addr, bs => { m with ram := m.ram.store addr bs }
  | .t _ off, bs => { m with t := m.t.store off bs }
  | .writeBuf off, bs => { m with writeBuf := m.writeBuf.store off bs }

@[simp] theorem store_flash (m : Machine) (buf : Buf) (bs : List UInt8) :
    (m.store buf bs).flash = m.flash := by
  cases buf <;> rfl

@[simp] theorem store_log (m : Machine) (buf : Buf) (bs : List UInt8) :
    (m.store buf bs).log = m.log := by
  cases buf <;> rfl

end Machine

structure Rom where
  unlock : Machine → RomResult
  read : RomCall → Machine → RomResult × Machine
  write : RomCall → Machine → RomResult × Bytes

inductive MemOp where
  | unlock
  | read (c : RomCall)
  | write (c : RomCall)
  | copy (dst src : Buf) (len : Nat)
  | set (dst : Buf) (bs : List UInt8)

def MemOp.Ret : MemOp → Type
  | unlock => RomResult
  | read _ => RomResult
  | write _ => RomResult
  | copy _ _ _ => Unit
  | set _ _ => Unit

abbrev MemProg := Prog MemOp MemOp.Ret

def machine (rom : Rom) : (o : MemOp) → Machine → o.Ret × Machine
  | .unlock, m => (rom.unlock m, m)
  | .read c, m => ((rom.read c m).1, { (rom.read c m).2 with log := m.log ++ [c] })
  | .write c, m => ((rom.write c m).1,
      { m with flash := (rom.write c m).2, log := m.log ++ [c] })
  | .copy dst src len, m => ((), m.store dst (m.load src len))
  | .set dst bs, m => ((), m.store dst bs)

def unlock : MemProg RomResult := Prog.op MemOp.unlock

def romRead (addr : Nat) (buf : Buf) (len : Nat) : MemProg RomResult :=
  Prog.op (MemOp.read ⟨addr, buf, len⟩)

def romWrite (addr : Nat) (buf : Buf) (len : Nat) : MemProg RomResult :=
  Prog.op (MemOp.write ⟨addr, buf, len⟩)

def copy (dst src : Buf) (len : Nat) : MemProg Unit := Prog.op (MemOp.copy dst src len)

def set (dst : Buf) (bs : List UInt8) : MemProg Unit := Prog.op (MemOp.set dst bs)

/-! ### Reading -/

/-- The loop over the middle part, with at most `n` more rounds; `src` and `dst` are where the part
starts in the flash and in the memory. -/
def readMid (src dst : Nat) : Nat → Nat → Nat → MemProg RomResult
  | 0, _, _ => return .ok
  | n + 1, midRead, midRemaining => do
    if midRemaining = 0 then return .ok
    let readSize := min midRemaining maxReadChunk
    let rc ← romRead (add32 src midRead) (.ram (dst + midRead)) readSize
    if rc ≠ .ok then return rc
    readMid src dst n (midRead + readSize) (midRemaining - readSize)

def shiftMid (dst srcMidOff dstMidOff midSize : Nat) : MemProg Unit :=
  if srcMidOff ≠ dstMidOff then copy (.ram (dst + srcMidOff)) (.ram (dst + dstMidOff)) midSize
  else return ()

def readPadLeft (src dst padLeftSize : Nat) : MemProg RomResult := do
  if padLeftSize > 0 then
    let rc ← romRead (align4 src) (.t 4 0) 4
    if rc ≠ .ok then return rc
    let _ ← copy (.ram dst) (.t 4 (4 - padLeftSize)) padLeftSize
    return rc
  else return .ok

def readPadRight (padRightSrc dst padRightOff padRightSize : Nat) : MemProg RomResult := do
  if padRightSize > 0 then
    let rc ← romRead padRightSrc (.t 8 0) (if padRightSize ≤ 4 then 4 else 8)
    if rc ≠ .ok then return rc
    let _ ← copy (.ram (dst + padRightOff)) (.t 8 0) padRightSize
    return rc
  else return .ok

def readLarge (src dst size : Nat) : MemProg RomResult := do
  let srcMidOff := if src % 4 = 0 then 0 else 4 - src % 4
  let dstMidOff := if dst % 4 = 0 then 0 else 4 - dst % 4
  let midSize := align4 (size - max srcMidOff dstMidOff)
  let padRightSrc := align4 (add32 (add32 src srcMidOff) midSize)
  let padRightOff := sub32 padRightSrc src
  let padRightSize := sub32 size padRightOff
  let rc ← readMid (add32 src srcMidOff) (dst + dstMidOff) midSize 0 midSize
  if rc ≠ .ok then return rc
  let _ ← shiftMid dst srcMidOff dstMidOff midSize
  let rc ← readPadLeft src dst srcMidOff
  if rc ≠ .ok then return rc
  readPadRight padRightSrc dst padRightOff padRightSize

def readSmall (src dst size : Nat) : MemProg RomResult := do
  let rc ← romRead (align4 src) (.t 24 0) (align4 (src % 4 + size + 3))
  if rc ≠ .ok then return rc
  let _ ← copy (.ram dst) (.t 24 (src % 4)) size
  return rc

def spiFlashRead (chipSize src dst size : Nat) : MemProg EspErr := do
  if add32 src size > chipSize then return .invalidSize
  if size = 0 then return .ok
  if size < 16 then
    let rc ← readSmall src dst size
    return translateRc rc
  else
    let rc ← readLarge src dst size
    return translateRc rc

/-! ### Writing -/

def directWrite (srcc midOff : Nat) : Bool :=
  srcc ≥ 0x3FFAE000 ∧ srcc < 0x40000000 ∧ (srcc + midOff) % 4 = 0

def bounce (direct : Bool) (srcc midOff writeSize : Nat) : MemProg Unit :=
  if direct then return () else copy (.writeBuf 0) (.ram (srcc + midOff)) writeSize

/-- The loop over the middle part, with at most `n` more rounds.  The bounce buffer is filled, but
the ROM is given the caller's buffer and all that is left. -/
def writeMid (direct : Bool) (dst srcc : Nat) : Nat → Nat → Nat → MemProg RomResult
  | 0, _, _ => return .ok
  | n + 1, midOff, midSize => do
    if midSize = 0 then return .ok
    let writeSize := min midSize (if direct then maxWriteChunk else 32)
    let _ ← bounce direct srcc midOff writeSize
    let rc ← romWrite (add32 dst midOff) (.ram (srcc + midOff)) midSize
    if rc ≠ .ok then return rc
    writeMid direct dst srcc n (midOff + writeSize) (midSize - writeSize)

def writePadded (addr pos srcc off n : Nat) : MemProg RomResult := do
  let _ ← set (.t 4 0) (List.replicate 4 0xff)
  let _ ← copy (.t 4 pos) (.ram (srcc + off)) n
  romWrite addr (.t 4 0) 4

def writeParts (dst srcc size : Nat) : MemProg RomResult := do
  let leftOff := align4 dst
  let leftSize := min (sub32 (align4 (add32 dst 3)) dst) size
  let midSize := align4 (size - leftSize)
  let rightOff := leftSize + midSize
  let rightSize := size - midSize - leftSize
  let rc ← unlock
  if rc ≠ .ok then return rc
  let rc ← if leftSize > 0 then writePadded leftOff (dst - leftOff) srcc 0 leftSize else pure .ok
  if rc ≠ .ok then return rc
  let rc ← writeMid (directWrite srcc leftSize) dst srcc midSize leftSize midSize
  if rc ≠ .ok then return rc
  if rightSize > 0 then writePadded (add32 dst rightOff) 0 srcc rightOff rightSize
  else return .ok

/-- The record of written pages is in `Ops`. -/
def spiFlashWrite (chipSize dst srcc size : Nat) : MemProg EspErr := do
  if add32 dst size > chipSize then return .invalidSize
  if size = 0 then return .ok
  let rc ← writeParts dst srcc size
  return translateRc rc

structure Chip where
  size : Nat
  words : size % 4 = 0
  lt : size < 2 ^ 32

def chip4MB : Chip := ⟨0x400000, by decide, by decide⟩

def plainRom : Rom where
  unlock _ := .ok
  read c m := (.ok, m.store c.buf (m.flash.read c.addr c.len))
  write c m := (.ok, m.flash.program c.addr (m.load c.buf c.len))

end EspIdf.SpiFlash.Buffers
