import EspIdf.EspErr
import EspIdf.Device.Prog
import EspIdf.Device.Nor
import EspIdf.Device.Crc32

/-! The wear levelling layer `WL_Flash`, as programs over a flash driver.  The fields of
`wl_state_t`, `wl_config_t` and `WL_Flash` are `uint32_t` or 32-bit `size_t`; arithmetic on them is
written with `u32` and `sub32`, which wrap as the target does. -/

namespace EspIdf.WearLevelling

open EspIdf.Device

def u32 (n : Nat) : Nat := n % 2 ^ 32

def sub32 (a b : Nat) : Nat := (a + (2 ^ 32 - b)) % 2 ^ 32

/-! ### The driver -/

/-- The calls that `WL_Flash` makes on its driver, a `Flash_Access`.  Each is one atomic step. -/
inductive FlashOp where
  | eraseSector (sector : Nat)
  | write (destAddr : Nat) (src : List UInt8)
  | read (srcAddr size : Nat)

def FlashOp.Ret : FlashOp → Type
  | eraseSector _ => EspErr
  | write _ _ => EspErr
  | read _ _ => EspErr × List UInt8

abbrev Drv := Prog FlashOp FlashOp.Ret

namespace Drv

def eraseSector (sector : Nat) : Drv EspErr := Prog.op (FlashOp.eraseSector sector)

def write (destAddr : Nat) (src : List UInt8) : Drv EspErr := Prog.op (FlashOp.write destAddr src)

def read (srcAddr size : Nat) : Drv (EspErr × List UInt8) := Prog.op (FlashOp.read srcAddr size)

/-- Erase `count` sectors from `sector`, up to the first that fails. -/
def eraseSectors (sector : Nat) : Nat → Drv EspErr
  | 0 => pure .ok
  | count + 1 => do
    let result ← eraseSector sector
    if result ≠ .ok then return result
    eraseSectors (sector + 1) count

/-- The driver's `erase_range`: sector by sector. -/
def eraseRange (sectorSize startAddress size : Nat) : Drv EspErr :=
  eraseSectors (startAddress / sectorSize) ((size + sectorSize - 1) / sectorSize)

end Drv

/-- A driver on NOR flash with sectors of `sectorSize` bytes, where no call fails. -/
def flash (sectorSize : Nat) : (o : FlashOp) → Bytes → o.Ret × Bytes
  | .eraseSector sector, m => (.ok, m.erase (sector * sectorSize) sectorSize)
  | .write destAddr src, m => (.ok, m.program destAddr src)
  | .read srcAddr size, m => ((.ok, m.read srcAddr size), m)

/-! ### Data -/

structure WlState where
  pos : Nat
  maxPos : Nat
  moveCount : Nat
  accessCount : Nat
  maxCount : Nat
  blockSize : Nat
  version : Nat
  crc : Nat
  deriving DecidableEq, Repr

structure WlConfig where
  startAddr : Nat
  fullMemSize : Nat
  pageSize : Nat
  sectorSize : Nat
  updaterate : Nat
  wrSize : Nat
  version : Nat
  tempBuffSize : Nat
  crc : Nat
  deriving DecidableEq, Repr

def sizeofState : Nat := 32

def sizeofConfig : Nat := 36

def WlState.body (s : WlState) : List UInt8 :=
  le32 s.pos ++ le32 s.maxPos ++ le32 s.moveCount ++ le32 s.accessCount ++ le32 s.maxCount ++
    le32 s.blockSize ++ le32 s.version

def WlState.bytes (s : WlState) : List UInt8 := s.body ++ le32 s.crc

def WlState.ofBytes (bs : List UInt8) : WlState where
  pos := word32 bs 0
  maxPos := word32 bs 4
  moveCount := word32 bs 8
  accessCount := word32 bs 12
  maxCount := word32 bs 16
  blockSize := word32 bs 20
  version := word32 bs 24
  crc := word32 bs 28

def cfgCrcConst : Nat := 0xffffffff

def WlState.calcCrc (s : WlState) : Nat := crc32Le cfgCrcConst s.body

def WlConfig.body (c : WlConfig) : List UInt8 :=
  le32 c.startAddr ++ le32 c.fullMemSize ++ le32 c.pageSize ++ le32 c.sectorSize ++
    le32 c.updaterate ++ le32 c.wrSize ++ le32 c.version ++ le32 c.tempBuffSize

def WlConfig.bytes (c : WlConfig) : List UInt8 := c.body ++ le32 c.crc

/-- `WL_Flash`, less the pointers to its driver and its buffer. -/
structure WlFlash where
  configured : Bool
  initialized : Bool
  state : WlState
  cfg : WlConfig
  addrCfg : Nat
  addrState1 : Nat
  addrState2 : Nat
  flashSize : Nat
  stateSize : Nat
  cfgSize : Nat
  dummyAddr : Nat
  usedBits : UInt8
  deriving Repr

namespace WlFlash

/-! ### Configuration -/

/-- The object can have any contents; `none` is a division by zero. -/
def config (w : WlFlash) (cfg : WlConfig) : Option (EspErr × WlFlash) :=
  let cfg := { cfg with crc := crc32Le cfgCrcConst cfg.body }
  let w := { w with cfg := cfg, configured := false }
  if cfg.tempBuffSize = 0 then none
  else if cfg.sectorSize % cfg.tempBuffSize ≠ 0 then some (.invalidArg, w)
  else if cfg.pageSize < cfg.sectorSize then some (.invalidArg, w)
  else if cfg.sectorSize = 0 then none
  else
    let need := u32 (sizeofState + u32 (cfg.fullMemSize / cfg.sectorSize * cfg.wrSize))
    let stateSize :=
      if cfg.sectorSize < need then
        u32 (sub32 (u32 (need + cfg.sectorSize)) 1 / cfg.sectorSize * cfg.sectorSize)
      else cfg.sectorSize
    let cfgSize :=
      u32 (sub32 (u32 (sizeofConfig + cfg.sectorSize)) 1 / cfg.sectorSize * cfg.sectorSize)
    let memEnd := u32 (cfg.startAddr + cfg.fullMemSize)
    let addrCfg := sub32 memEnd cfgSize
    let addrState1 := sub32 (sub32 memEnd (u32 (stateSize * 2))) cfgSize
    let addrState2 := sub32 (sub32 memEnd (u32 (stateSize * 1))) cfgSize
    -- one page less than fits: the dummy block
    let flashSize := u32 (sub32 (sub32 (sub32 cfg.fullMemSize (u32 (stateSize * 2))) cfgSize /
      cfg.pageSize) 1 * cfg.pageSize)
    some (.ok, { w with
      stateSize := stateSize, cfgSize := cfgSize, addrCfg := addrCfg, addrState1 := addrState1,
      addrState2 := addrState2, flashSize := flashSize, configured := true })

/-! ### Initialisation and recovery -/

/-- Start over with a fresh state. -/
def initSections (w : WlFlash) : Drv (EspErr × WlFlash) := do
  let state := { w.state with
    pos := 0
    accessCount := 0
    moveCount := 0
    maxCount :=
      if w.cfg.updaterate ≠ 0 then w.cfg.updaterate
      else u32 (w.flashSize / w.stateSize * w.cfg.updaterate)
    version := w.cfg.version
    blockSize := w.cfg.pageSize
    maxPos := u32 (1 + w.flashSize / w.cfg.pageSize) }
  let w := { w with state := { state with crc := state.calcCrc }, usedBits := 0 }
  let result ← Drv.eraseRange w.cfg.sectorSize w.addrState1 w.stateSize
  if result ≠ .ok then return (result, w)
  let result ← Drv.write w.addrState1 w.state.bytes
  if result ≠ .ok then return (result, w)
  let result ← Drv.eraseRange w.cfg.sectorSize w.addrState2 w.stateSize
  if result ≠ .ok then return (result, w)
  let result ← Drv.write w.addrState2 w.state.bytes
  if result ≠ .ok then return (result, w)
  let result ← Drv.eraseRange w.cfg.sectorSize w.addrCfg w.cfgSize
  if result ≠ .ok then return (result, w)
  let result ← Drv.write w.addrCfg w.cfg.bytes
  return (result, w)

/-- The loop of `recoverPos` from `i`, with `n` positions left and the last one seen in
`position`. -/
def recoverLoop (w : WlFlash) : Nat → Nat → Nat → Drv (EspErr × Nat)
  | _, 0, position => pure (.ok, position)
  | i, n + 1, _ => do
    let (result, bits) ← Drv.read (w.addrState1 + sizeofState + i * w.cfg.wrSize) 1
    if result ≠ .ok then return (result, i)
    if bits.getD 0 0 = 0xff then return (.ok, i)
    recoverLoop w (i + 1) n i

def recoverPos (w : WlFlash) : Drv (EspErr × WlFlash) := do
  let (result, position) ← recoverLoop w 0 w.state.maxPos 0
  if result ≠ .ok then return (result, w)
  let pos := if position = w.state.maxPos then sub32 position 1 else position
  return (.ok, { w with state := { w.state with pos := pos } })

def copyMarks (src dst : Nat) : Nat → Nat → Drv EspErr
  | _, 0 => pure .ok
  | i, n + 1 => do
    let (result, bits) ← Drv.read (src + sizeofState + i) 1
    if result ≠ .ok then return result
    let posBits := bits.getD 0 0
    if posBits ≠ 0xff then
      let result ← Drv.write (dst + sizeofState + i) [posBits]
      if result ≠ .ok then return result
    copyMarks src dst (i + 1) n

/-- Rebuild the state copy at `dst` from `state` and the marks of the copy at `src`: the block of
code that `WL_Flash::init` repeats in three of its branches. -/
def rebuild (w : WlFlash) (src dst : Nat) (state : WlState) : Drv EspErr := do
  let result ← Drv.eraseRange w.cfg.sectorSize dst w.stateSize
  if result ≠ .ok then return result
  let result ← Drv.write dst state.bytes
  if result ≠ .ok then return result
  copyMarks src dst 0 (u32 (w.cfg.fullMemSize / w.cfg.sectorSize * w.cfg.wrSize))

def initDone (w : WlFlash) (result : EspErr) : EspErr × WlFlash :=
  if result ≠ .ok then (result, { w with initialized := false })
  else (.ok, { w with initialized := true })

def init (w : WlFlash) : Drv (EspErr × WlFlash) := do
  if w.configured = false then return (.invalidState, w)
  let w := { w with initialized := false }
  -- the result of the first read is not checked
  let (result, bs) ← Drv.read w.addrState1 sizeofState
  let w := if result = .ok then { w with state := .ofBytes bs } else w
  let (result, bs) ← Drv.read w.addrState2 sizeofState
  if result ≠ .ok then return (result, w)
  let copy := WlState.ofBytes bs
  let crc1 := w.state.calcCrc
  let crc2 := copy.calcCrc
  if crc1 = w.state.crc ∧ crc2 = copy.crc then
    if w.state.version ≠ w.cfg.version then
      let (result, w) ← initSections w
      if result ≠ .ok then return (result, w)
      let (result, w) ← recoverPos w
      if result ≠ .ok then return (result, w)
      return initDone w result
    else
      -- the second structure was not updated
      if crc1 ≠ crc2 then
        let result ← rebuild w w.addrState1 w.addrState2 w.state
        if result ≠ .ok then return (result, w)
      let (result, w) ← recoverPos w
      if result ≠ .ok then return (result, w)
      return initDone w result
  else if crc1 ≠ w.state.crc ∧ crc2 ≠ copy.crc then
    -- new flash
    let (result, w) ← initSections w
    if result ≠ .ok then return (result, w)
    let (result, w) ← recoverPos w
    if result ≠ .ok then return (result, w)
    return initDone w result
  else if crc1 = w.state.crc then
    -- recover state 2
    let result ← rebuild w w.addrState1 w.addrState2 w.state
    if result ≠ .ok then return (result, w)
    let (result, bs) ← Drv.read w.addrState2 sizeofState
    if result ≠ .ok then return (result, w)
    let w := { w with state := .ofBytes bs }
    if w.state.version ≠ w.cfg.version then
      let (result, w) ← initSections w
      if result ≠ .ok then return (result, w)
      return initDone w result
    return initDone w result
  else
    -- recover state 1
    let result ← rebuild w w.addrState2 w.addrState1 copy
    if result ≠ .ok then return (result, w)
    let (result, bs) ← Drv.read w.addrState1 sizeofState
    if result ≠ .ok then return (result, w)
    let state := WlState.ofBytes bs
    let w := { w with state := { state with pos := sub32 state.maxPos 1 } }
    if w.state.version ≠ w.cfg.version then
      let (result, w) ← initSections w
      if result ≠ .ok then return (result, w)
      return initDone w result
    return initDone w result

/-! ### Moving the dummy block -/

def copyPage (w : WlFlash) (dataAddr : Nat) : Nat → Nat → Drv EspErr
  | _, 0 => pure .ok
  | i, n + 1 => do
    let (result, buff) ← Drv.read (dataAddr + i * w.cfg.tempBuffSize) w.cfg.tempBuffSize
    if result ≠ .ok then return result
    let result ← Drv.write (w.dummyAddr + i * w.cfg.tempBuffSize) buff
    if result ≠ .ok then return result
    copyPage w dataAddr (i + 1) n

def retryNext (w : WlFlash) : WlFlash :=
  { w with state := { w.state with accessCount := sub32 w.state.maxCount 1 } }

/-- The part of `WL_Flash::updateWL` that runs when the dummy block leaves the last page: both state
copies are rewritten. -/
def writeMainState (w : WlFlash) : Drv (EspErr × WlFlash) := do
  let moveCount := u32 (w.state.moveCount + 1)
  let moveCount := if sub32 w.state.maxPos 1 ≤ moveCount then 0 else moveCount
  let state := { w.state with pos := 0, moveCount := moveCount }
  let w := { w with state := { state with crc := state.calcCrc } }
  let result ← Drv.eraseRange w.cfg.sectorSize w.addrState1 w.stateSize
  if result ≠ .ok then return (result, w)
  let result ← Drv.write w.addrState1 w.state.bytes
  if result ≠ .ok then return (result, w)
  let result ← Drv.eraseRange w.cfg.sectorSize w.addrState2 w.stateSize
  if result ≠ .ok then return (result, w)
  let result ← Drv.write w.addrState2 w.state.bytes
  return (result, w)

def moveBlock (w : WlFlash) : Drv (EspErr × WlFlash) := do
  let w := { w with state := { w.state with accessCount := 0 } }
  let next := u32 (w.state.pos + 1)
  let next := if w.state.maxPos ≤ next then 0 else next
  let dataAddr := u32 (w.cfg.startAddr + u32 (next * w.cfg.pageSize))
  let w := { w with dummyAddr := u32 (w.cfg.startAddr + u32 (w.state.pos * w.cfg.pageSize)) }
  let result ← Drv.eraseRange w.cfg.sectorSize w.dummyAddr w.cfg.pageSize
  if result ≠ .ok then return (result, retryNext w)
  let result ← copyPage w dataAddr 0 (w.cfg.pageSize / w.cfg.tempBuffSize)
  if result ≠ .ok then return (result, retryNext w)
  -- the block is moved: mark it in both state copies
  let bytePos := u32 (w.state.pos * w.cfg.wrSize)
  let w := { w with usedBits := 0 }
  let result ← Drv.write (w.addrState1 + sizeofState + bytePos) [w.usedBits]
  if result ≠ .ok then return (result, retryNext w)
  let result ← Drv.write (w.addrState2 + sizeofState + bytePos) [w.usedBits]
  if result ≠ .ok then return (result, retryNext w)
  let w := { w with state := { w.state with pos := u32 (w.state.pos + 1) } }
  if w.state.maxPos ≤ w.state.pos then writeMainState w
  else return (.ok, w)

/-- Count an access, and move the dummy block at every `max_count`-th. -/
def updateWL (w : WlFlash) : Drv (EspErr × WlFlash) := do
  let w := { w with state := { w.state with accessCount := u32 (w.state.accessCount + 1) } }
  if w.state.accessCount < w.state.maxCount then return (.ok, w)
  moveBlock w

/-! ### Access -/

def calcAddr (w : WlFlash) (addr : Nat) : Nat :=
  let result :=
    u32 (sub32 w.flashSize (u32 (w.state.moveCount * w.cfg.pageSize)) + addr) % w.flashSize
  let dummyAddr := u32 (w.state.pos * w.cfg.pageSize)
  if result < dummyAddr then result else u32 (result + w.cfg.pageSize)

def chipSize (w : WlFlash) : Nat := if w.configured then w.flashSize else 0

def eraseSector (w : WlFlash) (sector : Nat) : Drv (EspErr × WlFlash) := do
  if w.initialized = false then return (.invalidState, w)
  let (result, w) ← updateWL w
  if result ≠ .ok then return (result, w)
  let virtAddr := w.calcAddr (u32 (sector * w.cfg.sectorSize))
  let result ← Drv.eraseSector (u32 (w.cfg.startAddr + virtAddr) / w.cfg.sectorSize)
  return (result, w)

def eraseSectors (w : WlFlash) (sector : Nat) : Nat → Drv (EspErr × WlFlash)
  | 0 => pure (.ok, w)
  | count + 1 => do
    let (result, w) ← eraseSector w sector
    if result ≠ .ok then return (result, w)
    eraseSectors w (sector + 1) count

def eraseRange (w : WlFlash) (startAddress size : Nat) : Drv (EspErr × WlFlash) := do
  if w.initialized = false then return (.invalidState, w)
  eraseSectors w (startAddress / w.cfg.sectorSize)
    (sub32 (u32 (size + w.cfg.sectorSize)) 1 / w.cfg.sectorSize)

def slice (src : List UInt8) (off size : Nat) : Drv (List UInt8) := do
  Prog.assert (off + size ≤ src.length)
  return (src.drop off).take size

/-- The loop of `WL_Flash::write` from page `i` with `n` pages left.  Every call passes the whole
`size`. -/
def writeLoop (w : WlFlash) (destAddr : Nat) (src : List UInt8) (size : Nat) :
    Nat → Nat → Drv EspErr
  | _, 0 => pure .ok
  | i, n + 1 => do
    let virtAddr := w.calcAddr (u32 (destAddr + u32 (i * w.cfg.pageSize)))
    let part ← slice src (u32 (i * w.cfg.pageSize)) size
    let result ← Drv.write (u32 (w.cfg.startAddr + virtAddr)) part
    if result ≠ .ok then return result
    writeLoop w destAddr src size (i + 1) n

def write (w : WlFlash) (destAddr : Nat) (src : List UInt8) (size : Nat) : Drv EspErr := do
  if w.initialized = false then return .invalidState
  let count := sub32 size 1 / w.cfg.pageSize
  let result ← writeLoop w destAddr src size 0 count
  if result ≠ .ok then return result
  let virtAddrLast := w.calcAddr (u32 (destAddr + u32 (count * w.cfg.pageSize)))
  let part ← slice src (u32 (count * w.cfg.pageSize)) (sub32 size (u32 (count * w.cfg.pageSize)))
  Drv.write (u32 (w.cfg.startAddr + virtAddrLast)) part

/-- The buffer `dest` with `bs` stored at `&dest[off]`; a store past its end stops the program. -/
def store (dest : List UInt8) (off : Nat) (bs : List UInt8) : Drv (List UInt8) := do
  Prog.assert (off + bs.length ≤ dest.length)
  return dest.take off ++ bs ++ dest.drop (off + bs.length)

/-- The loop of `WL_Flash::read` from page `i` with `n` pages left.  Every call asks for the whole
`size`. -/
def readLoop (w : WlFlash) (srcAddr size : Nat) :
    Nat → Nat → List UInt8 → Drv (EspErr × List UInt8)
  | _, 0, dest => pure (.ok, dest)
  | i, n + 1, dest => do
    let virtAddr := w.calcAddr (u32 (srcAddr + u32 (i * w.cfg.pageSize)))
    let (result, bs) ← Drv.read (u32 (w.cfg.startAddr + virtAddr)) size
    if result ≠ .ok then return (result, dest)
    let dest ← store dest (u32 (i * w.cfg.pageSize)) bs
    readLoop w srcAddr size (i + 1) n dest

/-- `WL_Flash::read` into the buffer `dest`. -/
def read (w : WlFlash) (srcAddr : Nat) (dest : List UInt8) (size : Nat) :
    Drv (EspErr × List UInt8) := do
  if w.initialized = false then return (.invalidState, dest)
  let count := sub32 size 1 / w.cfg.pageSize
  let (result, dest) ← readLoop w srcAddr size 0 count dest
  if result ≠ .ok then return (result, dest)
  let virtAddrLast := w.calcAddr (u32 (srcAddr + u32 (count * w.cfg.pageSize)))
  let (result, bs) ← Drv.read (u32 (w.cfg.startAddr + virtAddrLast))
    (sub32 size (u32 (count * w.cfg.pageSize)))
  if result ≠ .ok then return (result, dest)
  let dest ← store dest (u32 (count * w.cfg.pageSize)) bs
  return (.ok, dest)

/-- Make the next access move the dummy block, and make that access. -/
def flush (w : WlFlash) : Drv (EspErr × WlFlash) :=
  updateWL (retryNext w)

end WlFlash

end EspIdf.WearLevelling
