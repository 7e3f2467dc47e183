import EspIdf.EspErr
import Mathlib.Algebra.Group.Nat.Defs
import Mathlib.Logic.Function.Basic

/-! Mapping of flash pages into the address space, `flash_mmap.c`.  The static variables and the MMU
tables of the two CPUs are one record.  A failed `assert`, or an index past the end of the tables,
is `none`. -/

namespace EspIdf.SpiFlash

def mmuPageSize : Nat := 0x10000

/-- `REGIONS_COUNT * PAGES_PER_REGION`. -/
def mmuPageCount : Nat := 256

def invalidEntryVal : Nat := 0x100

def vaddr0StartAddr : Nat := 0x3F400000

def vaddr1StartAddr : Nat := 0x40000000

def vaddr1FirstUsableAddr : Nat := 0x400D0000

def proIram0FirstUsablePage : Nat := (vaddr1FirstUsableAddr - vaddr1StartAddr) / mmuPageSize + 64

def add32 (a b : Nat) : Nat := (a + b) % 2 ^ 32

/-- `spi_flash_mmap_memory_t`. -/
inductive Memory where
  | data
  | inst
  deriving DecidableEq, Repr

namespace Memory

/-- `region_begin`: the first MMU entry of the window. -/
def regionBegin : Memory → Nat
  | data => 0
  | inst => proIram0FirstUsablePage

def regionSize : Memory → Nat
  | data => 64
  | inst => 3 * 64 - proIram0FirstUsablePage

def regionAddr : Memory → Nat
  | data => vaddr0StartAddr
  | inst => vaddr1FirstUsableAddr

end Memory

structure MmapEntry where
  handle : Nat
  page : Nat
  count : Nat
  deriving DecidableEq, Repr

/-- The tables `DPORT_PRO_FLASH_MMU_TABLE` and `DPORT_APP_FLASH_MMU_TABLE`, and the static variables
`s_mmap_page_refcnt`, `s_mmap_entries_head`, `s_mmap_last_handle` and `written_pages`. -/
@[ext]
structure Mmu where
  proTable : Nat → Nat
  appTable : Nat → Nat
  refcnt : Nat → Nat
  entries : List MmapEntry
  lastHandle : Nat
  writtenPages : Nat → Bool

namespace Mmu

/-! ### Pages that were written -/

def updateLoop (mark : Bool) (stop : Nat) : Nat → Mmu → Nat → Mmu × Bool
  | 0, t, _ => (t, false)
  | rounds + 1, t, addr =>
    if ¬ addr < stop then (t, false)
    else
      let page := addr / mmuPageSize
      if page ≥ 256 then (t, false)
      else if mark then
        updateLoop mark stop rounds { t with
          writtenPages := Function.update t.writtenPages page true }
          (add32 addr mmuPageSize)
      else if t.writtenPages page then ({ t with writtenPages := fun _ => false }, true)
      else updateLoop mark stop rounds t (add32 addr mmuPageSize)

/-- `update_written_pages`.  A round of its loop goes to the next page, and one past page 255 ends
it. -/
def updateWrittenPages (t : Mmu) (startAddr length : Nat) (mark : Bool) : Mmu × Bool :=
  let pageStartAddr := startAddr / mmuPageSize * mmuPageSize
  let length := add32 length (startAddr - pageStartAddr)
  let length := add32 length (mmuPageSize - 1) / mmuPageSize * mmuPageSize
  updateLoop mark (add32 pageStartAddr length) 257 t pageStartAddr

def markModifiedRegion (t : Mmu) (startAddr length : Nat) : Mmu :=
  (t.updateWrittenPages startAddr length true).1

def ensureUnmodifiedRegion (t : Mmu) (startAddr length : Nat) : Mmu × Bool :=
  t.updateWrittenPages startAddr length false

/-! ### Mapping -/

/-- What a round of `spi_flash_mmap_init` finds at entry `i`: the PRO entry, after an entry that
only the boot loader used is dropped. -/
def bootEntry (t : Mmu) (i : Nat) : Nat :=
  if t.proTable i ≠ t.appTable i then invalidEntryVal else t.proTable i

def usedAtBoot (t : Mmu) (i : Nat) : Bool :=
  t.bootEntry i &&& invalidEntryVal = 0 ∧
    (i = 0 ∨ i = proIram0FirstUsablePage ∨ t.bootEntry i ≠ 0)

def mmapInit (t : Mmu) : Mmu :=
  if t.refcnt 0 ≠ 0 then t
  else { t with
    proTable := fun i =>
      if i < mmuPageCount ∧ ¬ t.usedAtBoot i then invalidEntryVal else t.proTable i
    appTable := fun i =>
      if i < mmuPageCount ∧ ¬ t.usedAtBoot i then invalidEntryVal else t.appTable i
    refcnt := fun i => if i < mmuPageCount ∧ t.usedAtBoot i then 1 else t.refcnt i }

def fits (t : Mmu) (pos page : Nat) : Nat → Bool
  | 0 => true
  | n + 1 => ¬ (t.refcnt pos ≠ 0 ∧ t.proTable pos ≠ page) && t.fits (pos + 1) (page + 1) n

def findStart (t : Mmu) (physPage pageCount start : Nat) : Nat → Nat
  | 0 => start
  | n + 1 => if t.fits start physPage pageCount then start
    else t.findStart physPage pageCount (start + 1) n

/-- A round of the loop that sets up the entries: entry `i` is to show page `entryVal`.  The flag is
`need_flush`. -/
def setupPage (t : Mmu) (i entryVal : Nat) : Mmu × Bool :=
  let refcnt := Function.update t.refcnt i ((t.refcnt i + 1) % 256)
  if t.refcnt i = 0 ∧ (t.proTable i ≠ entryVal ∨ t.appTable i ≠ entryVal) then
    ({ t with
      proTable := Function.update t.proTable i entryVal
      appTable := Function.update t.appTable i entryVal
      refcnt := refcnt }, true)
  else ({ t with refcnt := refcnt }, false)

def setupPages (t : Mmu) (i entryVal : Nat) : Nat → Option (Mmu × Bool)
  | 0 => some (t, false)
  | n + 1 =>
    if mmuPageCount ≤ i then none
    else if ¬ (t.refcnt i = 0 ∨ t.proTable i = entryVal ∧ t.appTable i = entryVal) then none
    else
      let (t, needFlush) := t.setupPage i entryVal
      (t.setupPages (i + 1) (entryVal + 1) n).map fun r => (r.1, needFlush || r.2)

end Mmu

/-- What `spi_flash_mmap` returns: the result, `*out_ptr` and `*out_handle` of a mapping that was
made, and whether the caches were flushed. -/
structure MmapOut where
  err : EspErr
  mapped : Option (Nat × Nat)
  mmu : Mmu
  flushed : Bool

/-- `page_count`. -/
def pageCountOf (size : Nat) : Nat := add32 size (mmuPageSize - 1) / mmuPageSize

def Mmu.mapAt (t : Mmu) (physPage pageCount start : Nat) (memory : Memory) (didFlush : Bool) :
    Option MmapOut :=
  match t.setupPages start physPage pageCount with
  | none => none
  | some (t, needFlush) =>
    let handle := add32 t.lastHandle 1
    some ⟨.ok, some (memory.regionAddr + (start - memory.regionBegin) * mmuPageSize, handle),
      { t with entries := ⟨handle, start, pageCount⟩ :: t.entries, lastHandle := handle },
      didFlush || needFlush⟩

/-- `mallocOk` says whether `malloc` succeeds.  The end of the search is a signed number: it is
negative, or before the start, when the region has fewer than `page_count` entries. -/
def spiFlashMmap (chipSize : Nat) (mallocOk : Bool) (t : Mmu) (srcAddr size : Nat)
    (memory : Memory) :
    Option MmapOut :=
  if srcAddr % mmuPageSize ≠ 0 then some ⟨.invalidArg, none, t, false⟩
  else if add32 srcAddr size > chipSize then some ⟨.invalidArg, none, t, false⟩
  else if ¬ mallocOk then some ⟨.noMem, none, t, false⟩
  else
    let didFlush := (t.ensureUnmodifiedRegion srcAddr size).2
    let t := (t.ensureUnmodifiedRegion srcAddr size).1.mmapInit
    let physPage := srcAddr / mmuPageSize
    let pageCount := pageCountOf size
    let stop : Int := memory.regionBegin + memory.regionSize - pageCount
    let start := t.findStart physPage pageCount memory.regionBegin (stop - memory.regionBegin).toNat
    if (start : Int) = stop then some ⟨.noMem, none, t, didFlush⟩
    else t.mapAt physPage pageCount start memory didFlush

namespace Mmu

def releasePage (t : Mmu) (i : Nat) : Mmu :=
  let refcnt := Function.update t.refcnt i (t.refcnt i - 1)
  if t.refcnt i - 1 = 0 then { t with
      proTable := Function.update t.proTable i invalidEntryVal
      appTable := Function.update t.appTable i invalidEntryVal
      refcnt := refcnt }
  else { t with refcnt := refcnt }

def releasePages (t : Mmu) (i : Nat) : Nat → Option Mmu
  | 0 => some t
  | n + 1 => if t.refcnt i = 0 then none else (t.releasePage i).releasePages (i + 1) n

end Mmu

def spiFlashMunmap (t : Mmu) (handle : Nat) : Option Mmu :=
  match t.entries.find? (·.handle = handle) with
  | none => none
  | some entry => (t.releasePages entry.page entry.count).map fun t =>
    { t with entries := t.entries.eraseP (·.handle = handle) }

end EspIdf.SpiFlash
