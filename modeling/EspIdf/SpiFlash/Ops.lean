import EspIdf.SpiFlash.Mmap
import EspIdf.Device.WordFlash

/-! Reading, programming and erasing flash (`flash_ops.c`) and partitions on it (`partition.c`), as
programs over the calls of the ROM and the cache that pass the static variables of `flash_mmap.c`
on. -/

namespace EspIdf.SpiFlash

open EspIdf.Device

inductive RomResult where
  | ok
  | err
  | timeout
  deriving DecidableEq, Repr

/-- Calls to the ROM, to the allocator and to the cache.  `cached` is a read of `size` bytes through
the cache, at a time when the tables are those of `t`. -/
inductive FlashOp where
  | unlock
  | malloc
  | cacheFlush
  | read (addr len : Nat)
  | write (addr : Nat) (data : List UInt8)
  | writeEncrypted (addr : Nat) (row : List UInt8)
  | eraseSector (sector : Nat)
  | eraseBlock (block : Nat)
  | cached (t : Mmu) (va size : Nat)

def FlashOp.Ret : FlashOp → Type
  | unlock => RomResult
  | malloc => Bool
  | cacheFlush => Unit
  | read _ _ => RomResult × List UInt8
  | write _ _ => RomResult
  | writeEncrypted _ _ => RomResult × List UInt8
  | eraseSector _ => RomResult
  | eraseBlock _ => RomResult
  | cached _ _ _ => List UInt8

abbrev FlashProg := Prog FlashOp FlashOp.Ret

def spiFlashUnlock : FlashProg RomResult := Prog.op FlashOp.unlock

def romRead (addr len : Nat) : FlashProg (RomResult × List UInt8) := Prog.op (FlashOp.read addr len)

def romWrite (addr : Nat) (data : List UInt8) : FlashProg RomResult :=
  Prog.op (FlashOp.write addr data)

/-- The ROM encrypts the row in the buffer, so that it returns what the buffer holds afterwards. -/
def romWriteEncrypted (addr : Nat) (row : List UInt8) : FlashProg (RomResult × List UInt8) :=
  Prog.op (FlashOp.writeEncrypted addr row)

def romEraseSector (sector : Nat) : FlashProg RomResult := Prog.op (FlashOp.eraseSector sector)

def romEraseBlock (block : Nat) : FlashProg RomResult := Prog.op (FlashOp.eraseBlock block)

def cachedRead (t : Mmu) (va size : Nat) : FlashProg (List UInt8) :=
  Prog.op (FlashOp.cached t va size)

def translateRc : RomResult → EspErr
  | .ok => .ok
  | .timeout => .flashOpTimeout
  | .err => .flashOpFail

def sub32 (a b : Nat) : Nat := (a + (2 ^ 32 - b % 2 ^ 32)) % 2 ^ 32

def align4 (a : Nat) : Nat := a / 4 * 4

def secSize : Nat := 4096

def sectorsPerBlock : Nat := 65536 / secSize

def maxReadChunk : Nat := 16384

def maxWriteChunk : Nat := 8192

/-! ### Mapping and unmapping -/

/-- `spi_flash_mmap`, with its calls to `malloc` and `Cache_Flush`. -/
def mmapCall (chipSize : Nat) (t : Mmu) (srcAddr size : Nat) (memory : Memory) :
    FlashProg MmapOut := do
  if srcAddr % mmuPageSize ≠ 0 ∨ add32 srcAddr size > chipSize then
    return ⟨.invalidArg, none, t, false⟩
  let mallocOk ← Prog.op FlashOp.malloc
  match spiFlashMmap chipSize mallocOk t srcAddr size memory with
  | none => Prog.halt
  | some out =>
    if out.flushed then
      let _ ← Prog.op FlashOp.cacheFlush
      return out
    else return out

def munmapCall (t : Mmu) (handle : Nat) : FlashProg Mmu :=
  match spiFlashMunmap t handle with
  | none => Prog.halt
  | some t => return t

/-! ### Erasing -/

def eraseLoop (stop : Nat) : Nat → Nat → FlashProg RomResult
  | 0, _ => return .ok
  | n + 1, sector => do
    if sector = stop then return .ok
    if sector % sectorsPerBlock = 0 ∧ sub32 stop sector > sectorsPerBlock then
      let rc ← romEraseBlock (sector / sectorsPerBlock)
      if rc = .ok then eraseLoop stop n (sector + sectorsPerBlock) else return rc
    else
      let rc ← romEraseSector sector
      if rc = .ok then eraseLoop stop n (sector + 1) else return rc

def spiFlashEraseRange (chipSize startAddr size : Nat) : FlashProg EspErr := do
  if startAddr % secSize ≠ 0 then return .invalidArg
  if size % secSize ≠ 0 then return .invalidSize
  if add32 size startAddr > chipSize then return .invalidSize
  let start := startAddr / secSize
  let stop := start + size / secSize
  let rc ← spiFlashUnlock
  if rc = .ok then
    let rc ← eraseLoop stop (size / secSize) start
    return translateRc rc
  else return translateRc rc

/-! ### Programming -/

/-- The loop of `spi_flash_write` over its middle part, with at most `n` more rounds.  Each round
programs all that is left, and moves on by one chunk. -/
def writeMid (direct : Bool) (dst : Nat) (srcv : Bytes) : Nat → Nat → Nat → FlashProg RomResult
  | 0, _, _ => return .ok
  | n + 1, midOff, midSize => do
    if midSize = 0 then return .ok
    let writeSize := min midSize (if direct then maxWriteChunk else 32)
    let rc ← romWrite (add32 dst midOff) (srcv.read midOff midSize)
    if rc = .ok then writeMid direct dst srcv n (midOff + writeSize) (midSize - writeSize)
    else return rc

def writeParts (direct : Bool) (dst : Nat) (srcv : Bytes) (size : Nat) : FlashProg RomResult := do
  let leftOff := align4 dst
  let leftSize := min (sub32 (align4 (add32 dst 3)) dst) size
  let midSize := align4 (size - leftSize)
  let rightOff := leftSize + midSize
  let rightSize := size - midSize - leftSize
  let rc ← spiFlashUnlock
  if rc ≠ .ok then return rc
  let rc ← if leftSize > 0 then
      romWrite leftOff (((Bytes.blank.store (dst - leftOff) (srcv.read 0 leftSize)).read 0 4))
    else pure .ok
  if rc ≠ .ok then return rc
  let rc ← writeMid direct dst srcv midSize leftSize midSize
  if rc ≠ .ok then return rc
  if rightSize > 0 then
    romWrite (add32 dst rightOff) ((Bytes.blank.store 0 (srcv.read rightOff rightSize)).read 0 4)
  else return .ok

/-- `spi_flash_write`; `direct` is its variable `direct_write`, which depends on the address of the
source buffer. -/
def spiFlashWrite (chipSize : Nat) (direct : Bool) (t : Mmu) (dst : Nat) (srcv : Bytes)
    (size : Nat) :
    FlashProg (EspErr × Mmu) := do
  if add32 dst size > chipSize then return (.invalidSize, t)
  if size = 0 then return (.ok, t)
  let rc ← writeParts direct dst srcv size
  return (translateRc rc, t.markModifiedRegion dst size)

def spiFlashReadEncrypted (chipSize : Nat) (t : Mmu) (src size : Nat) :
    FlashProg (EspErr × Option (List UInt8) × Mmu) := do
  if add32 src size > chipSize then return (.invalidSize, none, t)
  if size = 0 then return (.ok, none, t)
  let mapSrc := src / mmuPageSize * mmuPageSize
  let out ← mmapCall chipSize t mapSrc (add32 size (src - mapSrc)) .data
  match out.mapped with
  | none => return (out.err, none, out.mmu)
  | some (ptr, handle) =>
    let bs ← cachedRead out.mmu (ptr + (src - mapSrc)) size
    let t ← munmapCall out.mmu handle
    return (out.err, some bs, t)

/-- The bytes that a failed `spi_flash_read_encrypted` leaves in `encrypt_buf`. -/
def keepOr (old : List UInt8) : Option (List UInt8) → List UInt8
  | none => old
  | some bs => bs

/-- A round of the loop of `spi_flash_write_encrypted` at offset `i`: the row that is written, with
the state of the MMU and `row_size`.  A block of the row that is not part of the data is read back
from flash. -/
def encryptedRow (chipSize : Nat) (t : Mmu) (destAddr : Nat) (ssrc : Bytes) (size i : Nat)
    (buf : List UInt8) : FlashProg (Nat × Nat × List UInt8 × Mmu) := do
  let rowAddr := add32 destAddr i
  if i = 0 ∧ rowAddr % 32 ≠ 0 then
    let rowAddr := sub32 rowAddr 16
    let (_, bs, t) ← spiFlashReadEncrypted chipSize t rowAddr 16
    return (16, rowAddr, keepOr (buf.take 16) bs ++ ssrc.read i 16, t)
  else if size - i = 16 then
    let (_, bs, t) ← spiFlashReadEncrypted chipSize t (add32 rowAddr 16) 16
    return (16, rowAddr, ssrc.read i 16 ++ keepOr (buf.drop 16) bs, t)
  else return (32, rowAddr, ssrc.read i 32, t)

def encryptedLoop (chipSize destAddr : Nat) (ssrc : Bytes) (size : Nat) :
    Nat → Mmu → Nat → List UInt8 → FlashProg (RomResult × Mmu)
  | 0, t, _, _ => return (.ok, t)
  | n + 1, t, i, buf => do
    if ¬ i < size then return (.ok, t)
    let (rowSize, rowAddr, buf, t) ← encryptedRow chipSize t destAddr ssrc size i buf
    let written ← romWriteEncrypted rowAddr buf
    if written.1 ≠ .ok then return (written.1, t)
    encryptedLoop chipSize destAddr ssrc size n t (add32 i rowSize) written.2

/-- `buf` is what `encrypt_buf` holds at the start. -/
def spiFlashWriteEncrypted (chipSize : Nat) (t : Mmu) (destAddr : Nat) (ssrc : Bytes) (size : Nat)
    (buf : List UInt8) : FlashProg (EspErr × Mmu) := do
  if destAddr % 16 ≠ 0 then return (.invalidArg, t)
  if size % 16 ≠ 0 then return (.invalidSize, t)
  let rc ← spiFlashUnlock
  let (rc, t) ← if rc = .ok then encryptedLoop chipSize destAddr ssrc size size t 0 buf
    else pure (rc, t)
  return (translateRc rc, t.markModifiedRegion destAddr size)

/-! ### Reading -/

def readMid (src dstOff : Nat) : Nat → Bytes → Nat → Nat → FlashProg (RomResult × Bytes)
  | 0, dst, _, _ => return (.ok, dst)
  | n + 1, dst, midRead, midRemaining => do
    if midRemaining = 0 then return (.ok, dst)
    let readSize := min midRemaining maxReadChunk
    let (rc, bs) ← romRead (add32 src midRead) readSize
    if rc ≠ .ok then return (rc, dst)
    readMid src dstOff n (dst.store (dstOff + midRead) bs) (midRead + readSize)
      (midRemaining - readSize)

/-- The part of `spi_flash_read` for at least 16 bytes; `dsti` is the address of the buffer and
`dst` what it holds. -/
def readLarge (src dsti size : Nat) (dst : Bytes) : FlashProg (RomResult × Bytes) := do
  let srcMidOff := if src % 4 = 0 then 0 else 4 - src % 4
  let dstMidOff := if dsti % 4 = 0 then 0 else 4 - dsti % 4
  let midSize := align4 (size - max srcMidOff dstMidOff)
  let padRightSrc := align4 (add32 (add32 src srcMidOff) midSize)
  let padRightOff := sub32 padRightSrc src
  let padRightSize := sub32 size padRightOff
  let (rc, dst) ← readMid (add32 src srcMidOff) dstMidOff midSize dst 0 midSize
  if rc ≠ .ok then return (rc, dst)
  let dst := if srcMidOff ≠ dstMidOff then dst.store srcMidOff (dst.read dstMidOff midSize) else dst
  let (rc, dst) ← if srcMidOff > 0 then do
      let (rc, bs) ← romRead (align4 src) 4
      pure (rc, if rc = .ok then dst.store 0 (bs.drop (4 - srcMidOff)) else dst)
    else pure (.ok, dst)
  if rc ≠ .ok then return (rc, dst)
  if padRightSize > 0 then
    let (rc, bs) ← romRead padRightSrc (if padRightSize ≤ 4 then 4 else 8)
    return (rc, if rc = .ok then dst.store padRightOff (bs.take padRightSize) else dst)
  else return (.ok, dst)

def spiFlashRead (chipSize src dsti size : Nat) (dst : Bytes) : FlashProg (EspErr × Bytes) := do
  if add32 src size > chipSize then return (.invalidSize, dst)
  if size = 0 then return (.ok, dst)
  if size < 16 then
    let leftOff := src % 4
    let (rc, bs) ← romRead (align4 src) (align4 (leftOff + size + 3))
    if rc ≠ .ok then return (translateRc rc, dst)
    return (.ok, dst.store 0 ((bs.drop leftOff).take size))
  else
    let (rc, dst) ← readLarge src dsti size dst
    return (translateRc rc, dst)

/-! ### Partitions -/

/-- The fields of `esp_partition_t` that accesses use. -/
structure Partition where
  address : Nat
  size : Nat
  encrypted : Bool
  deriving DecidableEq, Repr

def Partition.check (p : Partition) (offset size : Nat) : Option EspErr :=
  if offset > p.size then some .invalidArg
  else if add32 offset size > p.size then some .invalidSize
  else none

def espPartitionMmap (chipSize : Nat) (t : Mmu) (p : Partition) (offset size : Nat)
    (memory : Memory) : FlashProg MmapOut := do
  match p.check offset size with
  | some err => return ⟨err, none, t, false⟩
  | none =>
    let physAddr := add32 p.address offset
    let regionOffset := physAddr % 0x10000
    let mmapAddr := physAddr / 0x10000 * 0x10000
    let out ← mmapCall chipSize t mmapAddr size memory
    return { out with mapped := out.mapped.map fun m => (m.1 + regionOffset, m.2) }

def espPartitionRead (chipSize : Nat) (t : Mmu) (p : Partition) (srcOffset dsti size : Nat)
    (dst : Bytes) : FlashProg (EspErr × Bytes × Mmu) := do
  match p.check srcOffset size with
  | some err => return (err, dst, t)
  | none =>
    if ¬ p.encrypted then
      let (err, dst) ← spiFlashRead chipSize (add32 p.address srcOffset) dsti size dst
      return (err, dst, t)
    else
      let out ← espPartitionMmap chipSize t p srcOffset size .data
      match out.mapped with
      | none => return (out.err, dst, out.mmu)
      | some (buf, handle) =>
        let bs ← cachedRead out.mmu buf size
        let t ← munmapCall out.mmu handle
        return (.ok, dst.store 0 bs, t)

/-- `direct` and `buf` are as in the functions it calls. -/
def espPartitionWrite (chipSize : Nat) (direct : Bool) (t : Mmu) (p : Partition) (dstOffset : Nat)
    (src : Bytes) (size : Nat) (buf : List UInt8) : FlashProg (EspErr × Mmu) :=
  match p.check dstOffset size with
  | some err => return (err, t)
  | none =>
    if p.encrypted then
      spiFlashWriteEncrypted chipSize t (add32 p.address dstOffset) src size buf
    else spiFlashWrite chipSize direct t (add32 p.address dstOffset) src size

def espPartitionEraseRange (chipSize : Nat) (p : Partition) (startAddr size : Nat) :
    FlashProg EspErr :=
  match p.check startAddr size with
  | some err => return err
  | none =>
    if size % secSize ≠ 0 then return .invalidSize
    else if startAddr % secSize ≠ 0 then return .invalidArg
    else spiFlashEraseRange chipSize (add32 p.address startAddr) size

end EspIdf.SpiFlash
