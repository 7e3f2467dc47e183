import EspIdf.Nvs.Page

/-! The page manager `nvs::PageManager` and the store `nvs::Storage` over it.  A `Page*` is the
index of the page in `mPages`, and an intrusive list of pages is the list of their indices. -/

namespace EspIdf.Nvs

open EspIdf.Device

/-- Addresses of the keys of the local variables `item` of `Page::mLoadEntryTable` and of
`PageManager::load`.  The second function calls the first, so they are different. -/
structure LoadFrame where
  pageItemKey : Nat
  managerItemKey : Nat
  ne : pageItemKey ≠ managerItemKey

def LoadFrame.adjacent : LoadFrame := ⟨2, 3, by decide⟩

/-! ### The page manager -/

structure PageManager where
  pages : Nat → Page
  pageList : List Nat
  freePageList : List Nat
  baseSector : Nat
  pageCount : Nat
  seqNumber : Nat

namespace PageManager

def setPage (pm : PageManager) (i : Nat) (p : Page) : PageManager :=
  { pm with pages := Function.update pm.pages i p }

def back (pm : PageManager) : Nat := pm.pageList.getLastD 0

def insertBySeq (pages : Nat → Page) (i seqNumber : Nat) : List Nat → List Nat
  | [] => [i]
  | j :: js =>
    if (pages j).getSeqNumber.any (seqNumber < ·) then i :: j :: js
    else j :: insertBySeq pages i seqNumber js

def loadPages (frame : LoadFrame) (pm : PageManager) (i : Nat) :
    Nat → WordProg (EspErr × PageManager)
  | 0 => return (.ok, pm)
  | n + 1 => do
    let (err, p) ← Page.new.load frame.pageItemKey (pm.baseSector + i)
    let pm := pm.setPage i p
    if err ≠ .ok then return (err, pm)
    match p.getSeqNumber with
    | none => loadPages frame { pm with freePageList := pm.freePageList ++ [i] } (i + 1) n
    | some seqNumber =>
      loadPages frame { pm with pageList := insertBySeq pm.pages i seqNumber pm.pageList } (i + 1) n

def activatePage (pm : PageManager) : WordProg (EspErr × PageManager) := do
  match pm.freePageList with
  | [] => return (.nvsNotEnoughSpace, pm)
  | i :: rest =>
    let (err, p) ← if (pm.pages i).state = .corrupt then (pm.pages i).erase
      else pure (.ok, pm.pages i)
    if err ≠ .ok then return (err, pm.setPage i p)
    let pm := { pm with freePageList := rest, pageList := pm.pageList ++ [i] }
    let pm := pm.setPage i (p.setSeqNumber pm.seqNumber).2
    return (.ok, { pm with seqNumber := (pm.seqNumber + 1) % 2 ^ 32 })

def lastItem : Nat → Page → Nat → Item → Bool → WordProg (Page × Option Item)
  | 0, _, _, _, _ => Prog.halt
  | rounds + 1, p, itemIndex, item, any => do
    let found ← p.findItem nsAny .ANY none itemIndex item
    if found.err = .ok then
      lastItem rounds found.page (found.itemIndex + found.item.span.toNat) found.item true
    else return (found.page, if any then some found.item else none)

def eraseDuplicate (pm : PageManager) (item : Item) (keyAddr : Nat) :
    List Nat → WordProg PageManager
  | [] => return pm
  | j :: js => do
    let (err, p) ← (pm.pages j).eraseItem item.nsIndex item.datatype (some ⟨keyAddr, item.key⟩)
    let pm := pm.setPage j p
    if err = .ok then return pm
    pm.eraseDuplicate item keyAddr js

def moveItems (pm : PageManager) (src dst : Nat) : Nat → WordProg (EspErr × PageManager)
  | 0 => Prog.halt
  | rounds + 1 => do
    let (err, p, other) ← (pm.pages src).moveItem (pm.pages dst)
    let pm := (pm.setPage src p).setPage dst other
    if err = .nvsNotFound then return (.ok, pm)
    else if err ≠ .ok then return (err, pm)
    else pm.moveItems src dst rounds

def freePage (pm : PageManager) (src : Nat) : WordProg (EspErr × PageManager) := do
  let (err, p) ← (pm.pages src).erase
  let pm := pm.setPage src p
  if err ≠ .ok then return (err, pm)
  return (.ok, { pm with
    pageList := pm.pageList.erase src, freePageList := pm.freePageList ++ [src] })

def resumeFreeing (pm : PageManager) : WordProg (EspErr × PageManager) := do
  match pm.pageList.find? fun j => (pm.pages j).state = .freeing with
  | none => return (.ok, pm)
  | some src =>
    let (err, pm) ← if (pm.pages pm.back).state ≠ .active then pm.activatePage else pure (.ok, pm)
    if err ≠ .ok then return (err, pm)
    let (err, pm) ← pm.moveItems src pm.back loopRounds
    if err ≠ .ok then return (err, pm)
    pm.freePage src

def dropOlderCopy (pm : PageManager) (keyAddr : Nat) : WordProg PageManager := do
  let last := pm.back
  let (p, item) ← lastItem loopRounds (pm.pages last) 0 Page.noItem false
  let pm := pm.setPage last p
  match item with
  | none => return pm
  | some item => pm.eraseDuplicate item keyAddr pm.pageList.dropLast

def load (frame : LoadFrame) (baseSector sectorCount : Nat) : WordProg (EspErr × PageManager) := do
  let pm : PageManager := ⟨fun _ => .new, [], [], baseSector, sectorCount, 0⟩
  let (err, pm) ← pm.loadPages frame 0 sectorCount
  if err ≠ .ok then return (err, pm)
  if pm.pageList = [] then pm.activatePage
  else
    match (pm.pages pm.back).getSeqNumber with
    | none => Prog.halt
    | some lastSeqNo =>
      let pm := { pm with seqNumber := (lastSeqNo + 1) % 2 ^ 32 }
      let pm ← pm.dropOlderCopy frame.managerItemKey
      let (err, pm) ← pm.resumeFreeing
      if err ≠ .ok then return (err, pm)
      if pm.freePageList = [] then return (.nvsNoFreePages, pm)
      return (.ok, pm)

/-- The page of `js` with the most erased entries, the first of them if there are several; `best` is
the one found so far. -/
def mostErased (pm : PageManager) (best : Option Nat) (maxErasedItems : Nat) :
    List Nat → Option Nat
  | [] => best
  | j :: js =>
    if (pm.pages j).erasedEntryCount > maxErasedItems then
      pm.mostErased (some j) (pm.pages j).erasedEntryCount js
    else pm.mostErased best maxErasedItems js

def reclaim (pm : PageManager) (src : Nat) : WordProg (EspErr × PageManager) := do
  let (err, pm) ← pm.activatePage
  if err ≠ .ok then return (err, pm)
  let dst := pm.back
  let usedEntries := (pm.pages src).usedEntryCount
  let (err, p) ← (pm.pages src).markFreeing
  let pm := pm.setPage src p
  if err ≠ .ok then return (err, pm)
  let (err, pm) ← pm.moveItems src dst loopRounds
  if err ≠ .ok then return (err, pm)
  let (err, p) ← (pm.pages src).erase
  let pm := pm.setPage src p
  if err ≠ .ok then return (err, pm)
  Prog.assert (usedEntries = (pm.pages dst).usedEntryCount)
  return (.ok, { pm with
    pageList := pm.pageList.erase src, freePageList := pm.freePageList ++ [src] })

def requestNewPage (pm : PageManager) : WordProg (EspErr × PageManager) := do
  if pm.freePageList = [] then return (.nvsInvalidState, pm)
  if pm.freePageList.length ≥ 2 then pm.activatePage
  else
    match pm.mostErased none 0 pm.pageList with
    | none => return (.nvsNotEnoughSpace, pm)
    | some src => pm.reclaim src

end PageManager

/-! ### The store -/

inductive StorageState where
  | invalid
  | active
  deriving DecidableEq, Repr

structure NamespaceEntry where
  name : List UInt8
  index : UInt8
  deriving DecidableEq, Repr

structure Storage where
  pageManager : PageManager
  namespaces : List NamespaceEntry
  namespaceUsage : EnumTable 1
  state : StorageState

namespace Storage

/-- `Storage` before `init`. -/
def new : Storage := ⟨⟨fun _ => .new, [], [], 0, 0, 0⟩, [], ⟨List.replicate 8 0⟩, .invalid⟩

def withManager (s : Storage) (pm : PageManager) : Storage := { s with pageManager := pm }

def setPage (s : Storage) (i : Nat) (p : Page) : Storage :=
  s.withManager (s.pageManager.setPage i p)

def page (s : Storage) (i : Nat) : Page := s.pageManager.pages i

def loadNamespaces : Nat → Storage → Nat → Nat → Item → WordProg Storage
  | 0, _, _, _, _ => Prog.halt
  | rounds + 1, s, j, itemIndex, item => do
    let found ← (s.page j).findItem nsIndexNs .U8 none itemIndex item
    let s := s.setPage j found.page
    if found.err ≠ .ok then return s
    let item := found.item
    -- `getValue`
    Prog.assert (item.datatype = .U8)
    let index := item.data.getD 0 0
    let s := { s with
      namespaces := s.namespaces ++ [⟨item.getKey, index⟩]
      namespaceUsage := s.namespaceUsage.set index.toNat 1 }
    loadNamespaces rounds s j (found.itemIndex + item.span.toNat) item

def loadAllNamespaces (s : Storage) : List Nat → WordProg Storage
  | [] => return s
  | j :: js => do
    let s ← loadNamespaces loopRounds s j 0 Page.noItem
    s.loadAllNamespaces js

def init (frame : LoadFrame) (s : Storage) (baseSector sectorCount : Nat) :
    WordProg (EspErr × Storage) := do
  let (err, pm) ← PageManager.load frame baseSector sectorCount
  let s := s.withManager pm
  if err ≠ .ok then return (err, { s with state := .invalid })
  let s := { s with namespaces := [], namespaceUsage := ⟨List.replicate 8 0⟩ }
  let s ← s.loadAllNamespaces s.pageManager.pageList
  let usage := (s.namespaceUsage.set 0 1).set 255 1
  return (.ok, { s with namespaceUsage := usage, state := .active })

/-- `findItem` on the pages `js` in turn: a page that does not have the item, or has it with another
type, is passed over. -/
def findOn (s : Storage) (nsIndex : UInt8) (datatype : ItemType) (key : Key) (item : Item) :
    List Nat → WordProg (EspErr × Storage × Option Nat × Item)
  | [] => return (.nvsNotFound, s, none, item)
  | j :: js => do
    let found ← (s.page j).findItem nsIndex datatype (some key) 0 item
    let s := s.setPage j found.page
    if found.err = .ok then return (.ok, s, some j, found.item)
    s.findOn nsIndex datatype key found.item js

def findItem (s : Storage) (nsIndex : UInt8) (datatype : ItemType) (key : Key) :
    WordProg (EspErr × Storage × Option Nat × Item) :=
  s.findOn nsIndex datatype key Page.noItem s.pageManager.pageList

def currentPage (s : Storage) : Nat := s.pageManager.back

def writeNew (s : Storage) (nsIndex : UInt8) (datatype : ItemType) (key : Key)
    (data : List UInt8) : WordProg (EspErr × Storage) := do
  let cur := s.currentPage
  let (err, p) ← (s.page cur).writeItem nsIndex datatype key data
  let s := s.setPage cur p
  if err ≠ .nvsPageFull then return (err, s)
  let (err, p) ← if p.state ≠ .full then p.markFull else pure (.ok, p)
  let s := s.setPage cur p
  if err ≠ .ok then return (err, s)
  let (err, pm) ← s.pageManager.requestNewPage
  let s := s.withManager pm
  if err ≠ .ok then return (err, s)
  let cur := s.currentPage
  let (err, p) ← (s.page cur).writeItem nsIndex datatype key data
  let s := s.setPage cur p
  return (if err = .nvsPageFull then .nvsNotEnoughSpace else err, s)

def eraseOld (s : Storage) (nsIndex : UInt8) (datatype : ItemType) (key : Key) (findPage : Nat) :
    WordProg (EspErr × Storage) := do
  let (s, findPage) ←
    if (s.page findPage).state = .uninitialized ∨ (s.page findPage).state = .invalid then do
      let (err, s, page, _) ← s.findItem nsIndex datatype key
      match err, page with
      | .ok, some j => pure (s, j)
      | _, _ => Prog.halt
    else pure (s, findPage)
  let (err, p) ← (s.page findPage).eraseItem nsIndex datatype (some key)
  return (if err = .flashOpFail then .nvsRemoveFailed else err, s.setPage findPage p)

def writeItem (s : Storage) (nsIndex : UInt8) (datatype : ItemType) (key : Key)
    (data : List UInt8) : WordProg (EspErr × Storage) := do
  if s.state ≠ .active then return (.nvsNotInitialized, s)
  let (err, s, findPage, _) ← s.findItem nsIndex datatype key
  if err ≠ .ok ∧ err ≠ .nvsNotFound then return (err, s)
  let (err, s) ← s.writeNew nsIndex datatype key data
  if err ≠ .ok then return (err, s)
  match findPage with
  | none => return (.ok, s)
  | some j => s.eraseOld nsIndex datatype key j

/-- The `dataSize` bytes at `data` are `buf`. -/
def readItem (s : Storage) (nsIndex : UInt8) (datatype : ItemType) (key : Key)
    (buf : List UInt8) : WordProg (EspErr × Storage × List UInt8) := do
  if s.state ≠ .active then return (.nvsNotInitialized, s, buf)
  let (err, s, findPage, _) ← s.findItem nsIndex datatype key
  match err, findPage with
  | .ok, some j =>
    let (err, p, buf) ← (s.page j).readItem nsIndex datatype key buf
    return (err, s.setPage j p, buf)
  | err, _ => return (err, s, buf)

def eraseItem (s : Storage) (nsIndex : UInt8) (datatype : ItemType) (key : Key) :
    WordProg (EspErr × Storage) := do
  if s.state ≠ .active then return (.nvsNotInitialized, s)
  let (err, s, findPage, _) ← s.findItem nsIndex datatype key
  match err, findPage with
  | .ok, some j =>
    let (err, p) ← (s.page j).eraseItem nsIndex datatype (some key)
    return (err, s.setPage j p)
  | err, _ => return (err, s)

def eraseNamespaceOn : Nat → Storage → UInt8 → Nat → WordProg (EspErr × Storage)
  | 0, _, _, _ => Prog.halt
  | rounds + 1, s, nsIndex, j => do
    let (err, p) ← (s.page j).eraseItem nsIndex .ANY none
    let s := s.setPage j p
    if err = .nvsNotFound then return (.ok, s)
    else if err ≠ .ok then return (err, s)
    else eraseNamespaceOn rounds s nsIndex j

def eraseNamespacePages (s : Storage) (nsIndex : UInt8) : List Nat → WordProg (EspErr × Storage)
  | [] => return (.ok, s)
  | j :: js => do
    let (err, s) ← eraseNamespaceOn loopRounds s nsIndex j
    if err ≠ .ok then return (err, s)
    s.eraseNamespacePages nsIndex js

def eraseNamespace (s : Storage) (nsIndex : UInt8) : WordProg (EspErr × Storage) :=
  if s.state ≠ .active then return (.nvsNotInitialized, s)
  else s.eraseNamespacePages nsIndex s.pageManager.pageList

def getItemDataSize (s : Storage) (nsIndex : UInt8) (datatype : ItemType) (key : Key) :
    WordProg (EspErr × Storage × Option Nat) := do
  if s.state ≠ .active then return (.nvsNotInitialized, s, none)
  let (err, s, _, item) ← s.findItem nsIndex datatype key
  if err ≠ .ok then return (err, s, none)
  return (.ok, s, some item.dataSize)

end Storage

end EspIdf.Nvs
