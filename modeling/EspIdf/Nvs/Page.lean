import EspIdf.Nvs.Types
import EspIdf.Device.WordFlash

/-! A page of the store, `nvs::Page`: one flash sector with a header, a table of entry states and
126 entries of 32 bytes.  The methods are programs over the flash that pass the page object along.
A failed `assert` is `halt`; so is a loop that would never end. -/

namespace EspIdf.Nvs

open EspIdf.Device

/-! ### The flash -/

def spiFlashRead (srcAddr size : Nat) : WordProg (EspErr × List UInt8) := do
  let bs ← readBytes srcAddr size
  return (.ok, bs)

def spiFlashWrite (desAddr : Nat) (src : List UInt8) : WordProg EspErr := do
  let accepted ← programWords desAddr src
  return if accepted then .ok else .flashOpFail

def spiFlashEraseSector (sec : Nat) : WordProg EspErr := do
  eraseSector sec
  return .ok

/-! ### Data -/

inductive PageState where
  | uninitialized
  | active
  | full
  | freeing
  | corrupt
  | invalid
  deriving DecidableEq, Repr

namespace PageState

def word : PageState → Nat
  | uninitialized => 0xffffffff
  | active => 0xfffffffe
  | full => 0xfffffffc
  | freeing => 0xfffffff8
  | corrupt => 0xfffffff0
  | invalid => 0

/-- The state that a header's word stands for, after the `switch` of `Page::load`: a word that is no
state, like `CORRUPT` and `INVALID`, falls to its `default` branch. -/
def ofWord (w : Nat) : PageState :=
  if w = uninitialized.word then uninitialized
  else if w = active.word then active
  else if w = full.word then full
  else if w = freeing.word then freeing
  else corrupt

end PageState

def invalidEntry : Nat := 0xffffffff

def nsIndexNs : UInt8 := 0

def nsAny : UInt8 := 255

def entryTableOffset : Nat := 32

def entryDataOffset : Nat := 64

structure CachedFindInfo where
  itemIndex : Nat
  keyPtr : Option Nat
  nsIndex : UInt8
  type : ItemType
  deriving DecidableEq, Repr

namespace CachedFindInfo

/-- `CachedFindInfo()`. -/
def none : CachedFindInfo := ⟨0, .none, 0, ⟨0⟩⟩

def make (nsIndex : UInt8) (type : ItemType) (key : Option Key) : CachedFindInfo :=
  ⟨0, key.map (·.addr), nsIndex, type⟩

def same (a b : CachedFindInfo) : Bool :=
  a.keyPtr ≠ .none && a.keyPtr = b.keyPtr && a.type = b.type && a.nsIndex = b.nsIndex

end CachedFindInfo

/-- `Page::Header`, as the bytes that `initialize` writes: the reserved words are `0xffffffff` and
the checksum covers everything but the state. -/
def headerBody (seqNumber : Nat) : List UInt8 := le32 seqNumber ++ List.replicate 20 0xff

def headerCrc32 (body : List UInt8) : Nat := crc32Le 0xffffffff body

def headerBytes (state : PageState) (seqNumber : Nat) : List UInt8 :=
  le32 state.word ++ headerBody seqNumber ++ le32 (headerCrc32 (headerBody seqNumber))

structure Page where
  baseAddress : Nat
  state : PageState
  seqNumber : Nat
  entryTable : EntryTable
  nextFreeEntry : Nat
  firstUsedEntry : Nat
  usedEntryCount : Nat
  erasedEntryCount : Nat
  findInfo : CachedFindInfo
  hashList : HashList
  deriving Repr

/-- Rounds of a loop over the entries of a page.  Each round of such a loop moves on by at least one
entry, unless it meets a span of 0: a loop that is not done by then is never done. -/
def loopRounds : Nat := 127

namespace Page

/-- A `Page` as its constructor leaves it. -/
def new : Page where
  baseAddress := 0
  state := .invalid
  seqNumber := 0xffffffff
  entryTable := .fresh
  nextFreeEntry := invalidEntry
  firstUsedEntry := invalidEntry
  usedEntryCount := 0
  erasedEntryCount := 0
  findInfo := .none
  hashList := .empty

def incUsed (p : Page) (n : Nat) : Page :=
  { p with usedEntryCount := (p.usedEntryCount + n) % 65536 }

def decUsed (p : Page) : Page := { p with usedEntryCount := (p.usedEntryCount + 65535) % 65536 }

def incErased (p : Page) : Page := { p with erasedEntryCount := (p.erasedEntryCount + 1) % 65536 }

def invalidateCache (p : Page) : Page := { p with findInfo := .none }

def getEntryState (p : Page) (index : Nat) : WordProg EntryState := do
  Prog.assert (index < entryCount)
  return p.entryTable.get index

def setEntryState (p : Page) (index : Nat) (state : EntryState) : WordProg Page := do
  Prog.assert (index < entryCount)
  return { p with entryTable := p.entryTable.set index state }

def getEntryAddress (p : Page) (entry : Nat) : WordProg Nat := do
  Prog.assert (entry < entryCount)
  return p.baseAddress + entryDataOffset + entry * entrySize

def readEntry (p : Page) (index : Nat) : WordProg (EspErr × Item) := do
  let address ← p.getEntryAddress index
  let (rc, bs) ← spiFlashRead address entrySize
  return (rc, .ofBytes bs)

/-! ### States of entries and of the page -/

def writeTableWord (p : Page) (wordIndex : Nat) : WordProg EspErr :=
  spiFlashWrite (p.baseAddress + entryTableOffset + wordIndex * 4)
    (le32 (p.entryTable.word wordIndex))

def alterEntryState (p : Page) (index : Nat) (state : EntryState) : WordProg (EspErr × Page) := do
  Prog.assert (index < entryCount)
  let p ← p.setEntryState index state
  let rc ← p.writeTableWord (EnumTable.getWordIndex 2 index)
  if rc ≠ .ok then return (rc, { p with state := .invalid })
  return (.ok, p)

/-- The loop of `alterEntryRangeState` from entry `start + n - 1` down to `start`: a word is written
once all its entries in the range are set. -/
def alterEntryRangeLoop (p : Page) (start : Nat) (state : EntryState) (wordIndex : Nat) :
    Nat → WordProg (EspErr × Page)
  | 0 => return (.ok, p)
  | n + 1 => do
    let p ← p.setEntryState (start + n) state
    let nextWordIndex := if n = 0 then sizeMax else EnumTable.getWordIndex 2 (start + n - 1)
    if nextWordIndex ≠ wordIndex then
      let rc ← p.writeTableWord wordIndex
      if rc ≠ .ok then return (rc, p)
      p.alterEntryRangeLoop start state nextWordIndex n
    else p.alterEntryRangeLoop start state nextWordIndex n

def alterEntryRangeState (p : Page) (start stop : Nat) (state : EntryState) :
    WordProg (EspErr × Page) := do
  Prog.assert (stop ≤ entryCount)
  Prog.assert (start < stop)
  p.alterEntryRangeLoop start state (EnumTable.getWordIndex 2 (stop - 1)) (stop - start)

def alterPageState (p : Page) (state : PageState) : WordProg (EspErr × Page) := do
  let rc ← spiFlashWrite p.baseAddress (le32 state.word)
  if rc ≠ .ok then return (rc, { p with state := .invalid })
  return (.ok, { p with state := state })

def markFreeing (p : Page) : WordProg (EspErr × Page) :=
  if p.state ≠ .full ∧ p.state ≠ .active then return (.nvsInvalidState, p)
  else p.alterPageState .freeing

def markFull (p : Page) : WordProg (EspErr × Page) :=
  if p.state ≠ .active then return (.nvsInvalidState, p)
  else p.alterPageState .full

def initializePage (p : Page) : WordProg (EspErr × Page) := do
  Prog.assert (p.state = .uninitialized)
  let p := { p with state := .active }
  let rc ← spiFlashWrite p.baseAddress (headerBytes p.state p.seqNumber)
  if rc ≠ .ok then return (rc, { p with state := .invalid })
  return (.ok, { p with nextFreeEntry := 0, entryTable := .fresh }.invalidateCache)

def erase (p : Page) : WordProg (EspErr × Page) := do
  let rc ← spiFlashEraseSector (p.baseAddress / sectorSize)
  if rc ≠ .ok then return (rc, { p with state := .invalid })
  return (.ok, { p with
    usedEntryCount := 0
    erasedEntryCount := 0
    firstUsedEntry := invalidEntry
    nextFreeEntry := invalidEntry
    state := .uninitialized
    hashList := .empty })

/-- `none` stands for `ESP_ERR_NVS_NOT_INITIALIZED`. -/
def getSeqNumber (p : Page) : Option Nat :=
  if p.state ≠ .uninitialized ∧ p.state ≠ .invalid ∧ p.state ≠ .corrupt then some p.seqNumber
  else none

def setSeqNumber (p : Page) (seqNumber : Nat) : EspErr × Page :=
  if p.state ≠ .uninitialized then (.nvsInvalidState, p) else
    (.ok, { p with seqNumber := seqNumber })

/-! ### Erasing an item -/

def firstWritten (t : EntryTable) (i : Nat) : Nat → Nat
  | 0 => invalidEntry
  | n + 1 => if t.get i = .written then i else firstWritten t (i + 1) n

def endEntry (p : Page) : Nat :=
  if p.nextFreeEntry > entryCount then entryCount else p.nextFreeEntry

def updateFirstUsedEntry (p : Page) (index span : Nat) : WordProg Page := do
  Prog.assert (index = p.firstUsedEntry)
  return { p with
    firstUsedEntry := firstWritten p.entryTable (index + span) (p.endEntry - (index + span)) }

def countErased (p : Page) (index : Nat) : Nat → WordProg Page
  | 0 => return p
  | n + 1 => do
    let state ← p.getEntryState (index + n)
    let p := if state = .written then p.decUsed else p
    p.incErased.countErased index n

/-- The states of an item's entries set to erased: the branches of `eraseEntryAndSpan`, with the
span that they find. -/
def eraseEntries (p : Page) (index : Nat) (state : EntryState) :
    WordProg (EspErr × Nat × Page) := do
  if state = .written then
    let (rc, item) ← p.readEntry index
    if rc ≠ .ok then return (rc, 1, p)
    if item.calculateCrc32 ≠ item.crc32 then
      let (rc, p) ← p.alterEntryState index .erased
      return (rc, 1, p.decUsed.incErased)
    else
      let p ← p.countErased index item.span.toNat
      if item.span.toNat = 1 then
        let (rc, p) ← p.alterEntryState index .erased
        return (rc, item.span.toNat, p)
      else
        let (rc, p) ← p.alterEntryRangeState index (index + item.span.toNat) .erased
        return (rc, item.span.toNat, p)
  else
    let (rc, p) ← p.alterEntryState index .erased
    return (rc, 1, p)

def eraseEntryAndSpan (p : Page) (index : Nat) : WordProg (EspErr × Page) := do
  let state ← p.getEntryState index
  Prog.assert (state = .written ∨ state = .empty)
  match p.hashList.erase index with
  | none => Prog.halt
  | some hashList =>
    let (rc, span, p) ← { p with hashList := hashList }.eraseEntries index state
    if rc ≠ .ok then return (rc, p)
    let p ← if index = p.firstUsedEntry then p.updateFirstUsedEntry index span else pure p
    return (.ok,
      if index + span > p.nextFreeEntry then { p with nextFreeEntry := index + span } else p)

/-! ### Finding an item -/

structure Found where
  err : EspErr
  page : Page
  itemIndex : Nat
  item : Item
  deriving Repr

def findLoop (nsIndex : UInt8) (datatype : ItemType) (key : Option Key) (itemIndex stop : Nat) :
    Nat → Page → Item → Nat → WordProg Found
  | 0, _, _, _ => Prog.halt
  | rounds + 1, p, item, i => do
    if ¬ i < stop then return ⟨.nvsNotFound, p, itemIndex, item⟩
    let state ← p.getEntryState i
    if state ≠ .written then
      findLoop nsIndex datatype key itemIndex stop rounds p item (i + 1)
    else
      let (rc, item) ← p.readEntry i
      if rc ≠ .ok then return ⟨rc, { p with state := .invalid }, itemIndex, item⟩
      if item.crc32 ≠ item.calculateCrc32 then
        let (_, p) ← p.eraseEntryAndSpan i
        findLoop nsIndex datatype key itemIndex stop rounds p item (i + 1)
      else
        let next := if item.datatype.varLength then i + item.span.toNat else i + 1
        if nsIndex ≠ nsAny ∧ item.nsIndex ≠ nsIndex then
          findLoop nsIndex datatype key itemIndex stop rounds p item next
        else if key.any fun k => cstr maxKeyLength k.text ≠ cstr maxKeyLength item.key then
          findLoop nsIndex datatype key itemIndex stop rounds p item next
        else if datatype ≠ .ANY ∧ item.datatype ≠ datatype then
          return ⟨.nvsTypeMismatch, p, itemIndex, item⟩
        else
          let findInfo := { CachedFindInfo.make nsIndex datatype key with itemIndex := i }
          return ⟨.ok, { p with findInfo := findInfo }, i, item⟩

def findStart (p : Page) (nsIndex : UInt8) (datatype : ItemType) (key : Option Key)
    (itemIndex : Nat) : Nat :=
  let findBeginIndex :=
    if p.findInfo.same (.make nsIndex datatype key) then p.findInfo.itemIndex else itemIndex
  if findBeginIndex > p.firstUsedEntry ∧ findBeginIndex < entryCount then findBeginIndex
  else p.firstUsedEntry

def findItem (p : Page) (nsIndex : UInt8) (datatype : ItemType) (key : Option Key)
    (itemIndex : Nat) (item : Item) : WordProg Found := do
  if p.state = .corrupt ∨ p.state = .invalid ∨ p.state = .uninitialized then
    return ⟨.nvsNotFound, p, itemIndex, item⟩
  if itemIndex ≥ entryCount then return ⟨.nvsNotFound, p, itemIndex, item⟩
  let start := p.findStart nsIndex datatype key itemIndex
  match key with
  | some k =>
    if nsIndex ≠ nsAny ∧ datatype ≠ .ANY then
      let cachedIndex := p.hashList.find start (.make nsIndex datatype 0 (some k.text))
      if cachedIndex < entryCount then
        findLoop nsIndex datatype key itemIndex p.endEntry loopRounds p item cachedIndex
      else return ⟨.nvsNotFound, p, itemIndex, item⟩
    else findLoop nsIndex datatype key itemIndex p.endEntry loopRounds p item start
  | none => findLoop nsIndex datatype key itemIndex p.endEntry loopRounds p item start

def noItem : Item := .ofBytes []

def eraseItem (p : Page) (nsIndex : UInt8) (datatype : ItemType) (key : Option Key) :
    WordProg (EspErr × Page) := do
  let found ← p.findItem nsIndex datatype key 0 noItem
  if found.err ≠ .ok then return (found.err, found.page)
  let p := if (CachedFindInfo.make nsIndex datatype key).same found.page.findInfo then
      found.page.invalidateCache
    else found.page
  p.eraseEntryAndSpan found.itemIndex

/-! ### Writing an item -/

def writeEntry (p : Page) (raw : List UInt8) : WordProg (EspErr × Page) := do
  let address ← p.getEntryAddress p.nextFreeEntry
  let rc ← spiFlashWrite address raw
  if rc ≠ .ok then return (rc, { p with state := .invalid })
  let (err, p) ← p.alterEntryState p.nextFreeEntry .written
  if err ≠ .ok then return (err, p)
  let p :=
    if p.firstUsedEntry = invalidEntry then { p with firstUsedEntry := p.nextFreeEntry } else p
  let p := p.incUsed 1
  return (.ok, { p with nextFreeEntry := p.nextFreeEntry + 1 })

def writeEntryData (p : Page) (data : List UInt8) : WordProg (EspErr × Page) := do
  Prog.assert (data.length % entrySize = 0)
  Prog.assert (p.nextFreeEntry ≠ invalidEntry)
  Prog.assert (p.firstUsedEntry ≠ invalidEntry)
  let count := data.length / entrySize
  let address ← p.getEntryAddress p.nextFreeEntry
  let rc ← spiFlashWrite address data
  if rc ≠ .ok then return (rc, { p with state := .invalid })
  let (err, p) ← p.alterEntryRangeState p.nextFreeEntry (p.nextFreeEntry + count) .written
  if err ≠ .ok then return (err, p)
  let p := p.incUsed count
  return (.ok, { p with nextFreeEntry := p.nextFreeEntry + count })

def entriesCount (datatype : ItemType) (dataSize : Nat) : Nat :=
  if datatype.varLength then 1 + (dataSize + entrySize - 1) / entrySize else 1

def primitiveItem (nsIndex : UInt8) (datatype : ItemType) (key : List UInt8) (data : List UInt8) :
    Item :=
  let item := Item.make nsIndex datatype 1 (some key)
  let item := { item with data := data ++ item.data.drop data.length }
  { item with crc32 := item.calculateCrc32 }

def varLengthItem (nsIndex : UInt8) (datatype : ItemType) (key : List UInt8) (data : List UInt8) :
    Item :=
  let item := Item.make nsIndex datatype (.ofNat (entriesCount datatype data.length)) (some key)
  let item := { item with
    data := [UInt8.ofNat data.length, UInt8.ofNat (data.length / 256), 0xff, 0xff] ++
      le32 (Item.dataChecksum data) }
  { item with crc32 := item.calculateCrc32 }

/-- The last entry of a value: `fill_n` sets `ENTRY_SIZE / 4` bytes of the head and not words, so
that what the data do not cover of the bytes behind them stays the head's. -/
def tailEntry (item : Item) (tail : List UInt8) : List UInt8 :=
  tail ++ (List.replicate (entrySize / 4) 0xff ++ item.bytes.drop (entrySize / 4)).drop tail.length

def writeVarLength (p : Page) (item : Item) (data : List UInt8) : WordProg (EspErr × Page) := do
  let (err, p) ← p.writeEntry item.bytes
  if err ≠ .ok then return (err, p)
  let left := data.length / entrySize * entrySize
  let (err, p) ← if left > 0 then p.writeEntryData (data.take left) else pure (.ok, p)
  if err ≠ .ok then return (err, p)
  if data.length - left > 0 then p.writeEntry (tailEntry item (data.drop left))
  else return (.ok, p)

def writeItemBody (p : Page) (nsIndex : UInt8) (datatype : ItemType) (key : Key)
    (data : List UInt8) : WordProg (EspErr × Page) := do
  if p.state = .full then return (.nvsPageFull, p)
  if strlen key.text > maxKeyLength then return (.nvsKeyTooLong, p)
  let count := entriesCount datatype data.length
  if p.nextFreeEntry = invalidEntry ∨ p.nextFreeEntry + count > entryCount then
    return (.nvsPageFull, p)
  if datatype.varLength then
    let item := varLengthItem nsIndex datatype key.text data
    { p with hashList := p.hashList.insert item p.nextFreeEntry }.writeVarLength item data
  else
    let item := primitiveItem nsIndex datatype key.text data
    { p with hashList := p.hashList.insert item p.nextFreeEntry }.writeEntry item.bytes

def writeItem (p : Page) (nsIndex : UInt8) (datatype : ItemType) (key : Key) (data : List UInt8) :
    WordProg (EspErr × Page) := do
  if p.state = .invalid then return (.nvsInvalidState, p)
  let (err, p) ← if p.state = .uninitialized then p.initializePage else pure (.ok, p)
  if err ≠ .ok then return (err, p)
  p.writeItemBody nsIndex datatype key data

/-! ### Reading an item -/

/-- The copying loop of `readItem` over `n` entries from `i`: the bytes copied so far are `dst`, and
`left` bytes are to come. -/
def copyData (p : Page) (i : Nat) (left : Nat) (dst : List UInt8) :
    Nat → WordProg (EspErr × List UInt8)
  | 0 => return (.ok, dst)
  | n + 1 => do
    let address ← p.getEntryAddress i
    let (rc, raw) ← spiFlashRead address entrySize
    if rc ≠ .ok then return (rc, dst)
    let willCopy := if left < entrySize then left else entrySize
    p.copyData (i + 1) (left - willCopy) (dst ++ raw.take willCopy) n

def overlay (buf src : List UInt8) : List UInt8 := src ++ buf.drop src.length

/-- `readItem(nsIndex, datatype, key, data, dataSize)`, where `buf` are the `dataSize` bytes at
`data`; the result has what they are afterwards. -/
def readItem (p : Page) (nsIndex : UInt8) (datatype : ItemType) (key : Key) (buf : List UInt8) :
    WordProg (EspErr × Page × List UInt8) := do
  if p.state = .invalid then return (.nvsInvalidState, p, buf)
  let found ← p.findItem nsIndex datatype (some key) 0 noItem
  if found.err ≠ .ok then return (found.err, found.page, buf)
  let p := found.page
  let item := found.item
  if ¬ datatype.varLength then
    if buf.length ≠ datatype.alignment then return (.nvsTypeMismatch, p, buf)
    return (.ok, p, overlay buf (item.data.take buf.length))
  if buf.length < item.dataSize then return (.nvsInvalidLength, p, buf)
  let (rc, dst) ← p.copyData (found.itemIndex + 1) item.dataSize [] (item.span.toNat - 1)
  let data := overlay buf dst
  if rc ≠ .ok then return (rc, p, data)
  if Item.dataChecksum (data.take item.dataSize) ≠ item.dataCrc32 then
    let (rc, p) ← p.eraseEntryAndSpan found.itemIndex
    if rc ≠ .ok then return (rc, p, data)
    return (.nvsNotFound, p, data)
  return (.ok, p, data)

/-! ### Moving an item -/

def moveEntries (p : Page) (i : Nat) (other : Page) : Nat → WordProg (EspErr × Page)
  | 0 => return (.ok, other)
  | n + 1 => do
    let address ← p.getEntryAddress i
    let (_, raw) ← spiFlashRead address entrySize
    let (err, other) ← other.writeEntry raw
    if err ≠ .ok then return (err, other)
    p.moveEntries (i + 1) other n

def moveItem (p other : Page) : WordProg (EspErr × Page × Page) := do
  if p.firstUsedEntry = invalidEntry then return (.nvsNotFound, p, other)
  let p := if p.findInfo.itemIndex = p.firstUsedEntry then p.invalidateCache else p
  let (err, other) ←
    if other.state = .uninitialized then other.initializePage else pure (.ok, other)
  if err ≠ .ok then return (err, p, other)
  let address ← p.getEntryAddress p.firstUsedEntry
  let (err, raw) ← spiFlashRead address entrySize
  if err ≠ .ok then return (err, p, other)
  let entry := Item.ofBytes raw
  let other := { other with hashList := other.hashList.insert entry other.nextFreeEntry }
  let (err, other) ← other.writeEntry raw
  if err ≠ .ok then return (err, p, other)
  Prog.assert (p.firstUsedEntry ≠ invalidEntry ∨ entry.span.toNat = 1)
  let (err, other) ← p.moveEntries (p.firstUsedEntry + 1) other (entry.span.toNat - 1)
  if err ≠ .ok then return (err, p, other)
  let (err, p) ← p.eraseEntryAndSpan p.firstUsedEntry
  return (err, p, other)

/-! ### Loading a page -/

def tableOfBytes (bs : List UInt8) : EntryTable := ⟨(List.range 8).map fun k => word32 bs (4 * k)⟩

def countEntries (p : Page) (i : Nat) : Nat → Page
  | 0 => p
  | n + 1 =>
    match p.entryTable.get i with
    | .written =>
      let p := if p.firstUsedEntry = invalidEntry then { p with firstUsedEntry := i } else p
      (p.incUsed 1).countEntries (i + 1) n
    | .erased => p.incErased.countEntries (i + 1) n
    | _ => p.countEntries (i + 1) n

def findNextFree (p : Page) (i : Nat) : Nat → Page
  | 0 => p
  | n + 1 => if p.entryTable.get i = .empty then { p with nextFreeEntry := i }
    else p.findNextFree (i + 1) n

def skipHalfWritten : Nat → Page → WordProg (EspErr × Page)
  | 0, p => return (.ok, p)
  | n + 1, p => do
    if ¬ p.nextFreeEntry < entryCount then return (.ok, p)
    let entryAddress ← p.getEntryAddress p.nextFreeEntry
    let (rc, header) ← spiFlashRead entryAddress 4
    if rc ≠ .ok then return (rc, { p with state := .invalid })
    if word32 header 0 = 0xffffffff then return (.ok, p)
    let oldState ← p.getEntryState p.nextFreeEntry
    let (err, p) ← p.alterEntryState p.nextFreeEntry .erased
    if err ≠ .ok then return (err, { p with state := .invalid })
    let p := { p with nextFreeEntry := p.nextFreeEntry + 1 }
    let p := if oldState = .written then p.decUsed else p
    skipHalfWritten n p.incErased

def needErase (p : Page) (j : Nat) : Nat → WordProg Bool
  | 0 => return false
  | n + 1 => do
    let state ← p.getEntryState j
    if state ≠ .written then return true
    p.needErase (j + 1) n

structure Scan where
  err : EspErr
  page : Page
  item : Item
  lastItemIndex : Nat
  deriving Repr

/-- The loop over the items of an active page: items that are not complete are erased, and so is an
earlier item with the same hash. -/
def scanItems (stop : Nat) : Nat → Page → Item → Nat → Nat → WordProg Scan
  | 0, _, _, _, _ => Prog.halt
  | rounds + 1, p, item, lastItemIndex, i => do
    if ¬ i < stop then return ⟨.ok, p, item, lastItemIndex⟩
    let state ← p.getEntryState i
    if state = .erased then
      scanItems stop rounds p item invalidEntry (i + 1)
    else
      let (err, item) ← p.readEntry i
      if err ≠ .ok then return ⟨err, { p with state := .invalid }, item, i⟩
      let p := { p with hashList := p.hashList.insert item i }
      let duplicateIndex := p.hashList.find 0 item
      if item.crc32 ≠ item.calculateCrc32 then
        let (err, p) ← p.eraseEntryAndSpan i
        if err ≠ .ok then return ⟨err, { p with state := .invalid }, item, i⟩
        scanItems stop rounds p item i (i + 1)
      else
        let span := if item.datatype.varLength then item.span.toNat else 1
        let incomplete ← if item.datatype.varLength then p.needErase i span else pure false
        if incomplete then
          let (_, p) ← p.eraseEntryAndSpan i
          scanItems stop rounds p item invalidEntry (i + span)
        else if duplicateIndex < i then
          let (_, p) ← p.eraseEntryAndSpan duplicateIndex
          scanItems stop rounds p item i (i + span)
        else scanItems stop rounds p item i (i + span)

def dropDuplicate (keyAddr : Nat) (p : Page) (item : Item) (lastItemIndex : Nat) :
    WordProg (EspErr × Page) := do
  if lastItemIndex = invalidEntry then return (.ok, p)
  let found ← p.findItem item.nsIndex item.datatype (some ⟨keyAddr, item.key⟩) 0 noItem
  if found.err = .ok ∧ found.itemIndex < lastItemIndex then
    let (err, p) ← found.page.eraseEntryAndSpan found.itemIndex
    if err ≠ .ok then return (err, { p with state := .invalid })
    return (.ok, p)
  else return (.ok, found.page)

def loadActive (keyAddr : Nat) (p : Page) : WordProg (EspErr × Page) := do
  let (err, p) ← skipHalfWritten entryCount (p.findNextFree 0 entryCount)
  if err ≠ .ok then return (err, p)
  let scan ← scanItems p.endEntry loopRounds p noItem invalidEntry 0
  if scan.err ≠ .ok then return (scan.err, scan.page)
  dropDuplicate keyAddr scan.page scan.item scan.lastItemIndex

def loadHashes : Nat → Page → Nat → WordProg (EspErr × Page)
  | 0, _, _ => Prog.halt
  | rounds + 1, p, i => do
    if ¬ i < entryCount then return (.ok, p)
    let state ← p.getEntryState i
    if state ≠ .written then loadHashes rounds p (i + 1)
    else
      let (err, item) ← p.readEntry i
      if err ≠ .ok then return (err, { p with state := .invalid })
      loadHashes rounds { p with hashList := p.hashList.insert item i } (i + item.span.toNat)

def loadItems (keyAddr : Nat) (p : Page) : WordProg (EspErr × Page) :=
  if p.state = .active then loadActive keyAddr p else loadHashes loopRounds p p.firstUsedEntry

def mLoadEntryTable (keyAddr : Nat) (p : Page) : WordProg (EspErr × Page) := do
  let (rc, bs) ← spiFlashRead (p.baseAddress + entryTableOffset) 32
  if rc ≠ .ok then return (rc, { p with state := .invalid })
  let p := { p with entryTable := tableOfBytes bs, erasedEntryCount := 0, usedEntryCount := 0 }
  loadItems keyAddr (p.countEntries 0 entryCount)

/-- The check of `load` that a page is empty: the first four words of each line of 32 bytes, for the
`n` lines from `i`. -/
def linesBlank (p : Page) (i : Nat) : Nat → WordProg (EspErr × Bool)
  | 0 => return (.ok, true)
  | n + 1 => do
    let (rc, line) ← spiFlashRead (p.baseAddress + i * 32) 32
    if rc ≠ .ok then return (rc, false)
    if (line.take 16).any (· ≠ 0xff) then return (.ok, false)
    p.linesBlank (i + 1) n

def loadState (p : Page) : WordProg (EspErr × Page) := do
  let (rc, header) ← spiFlashRead p.baseAddress 32
  if rc ≠ .ok then return (rc, { p with state := .invalid })
  if word32 header 0 = PageState.uninitialized.word then
    let (rc, empty) ← p.linesBlank 0 128
    if rc ≠ .ok then return (rc, { p with state := .invalid })
    return (.ok, { p with state := if empty then .uninitialized else .corrupt })
  else if word32 header 28 ≠ headerCrc32 ((header.drop 4).take 24) then
    -- `mState` is left as it was; only the local header is marked
    return (.ok, p)
  else
    return (.ok, { p with state := .ofWord (word32 header 0), seqNumber := word32 header 4 })

/-- The key of the local variable `item` of `mLoadEntryTable` is at `keyAddr`. -/
def load (keyAddr : Nat) (p : Page) (sectorNumber : Nat) : WordProg (EspErr × Page) := do
  let p := { p with
    baseAddress := sectorNumber * sectorSize, usedEntryCount := 0, erasedEntryCount := 0 }
  let (rc, p) ← p.loadState
  if rc ≠ .ok then return (rc, p)
  match p.state with
  | .uninitialized => return (.ok, p)
  | .full | .active | .freeing =>
    let (_, p) ← p.mLoadEntryTable keyAddr
    return (.ok, p)
  | _ => return (.ok, { p with state := .corrupt })

end Page

end EspIdf.Nvs
