import EspIdf.Nvs.Storage

/-! The calls of `nvs_api.cpp`: handles to namespaces of the store, and the checks made for them. -/

namespace EspIdf.Nvs

open EspIdf.Device

/-! ### Namespaces -/

def unusedIndex (usage : EnumTable 1) (ns : Nat) : Nat → Nat
  | 0 => ns
  | n + 1 => if usage.get ns = 0 then ns else unusedIndex usage (ns + 1) n

def Storage.createOrOpenNamespace (s : Storage) (nsName : Key) (canCreate : Bool) :
    WordProg (EspErr × Storage × Option UInt8) := do
  if s.state ≠ .active then return (.nvsNotInitialized, s, none)
  match s.namespaces.find? fun e => cstr maxKeyLength nsName.text = cstr maxKeyLength e.name with
  | some e => return (.ok, s, some e.index)
  | none =>
    if ¬ canCreate then return (.nvsNotFound, s, none)
    let ns := unusedIndex s.namespaceUsage 1 254
    if ns = 255 then return (.nvsNotEnoughSpace, s, none)
    let (err, s) ← s.writeItem nsIndexNs .U8 nsName [.ofNat ns]
    if err ≠ .ok then return (err, s, none)
    return (.ok, { s with
      namespaceUsage := s.namespaceUsage.set ns 1
      namespaces := s.namespaces ++ [⟨strncpy maxKeyLength nsName.text, .ofNat ns⟩] },
        some (.ofNat ns))

/-! ### Handles -/

structure HandleEntry where
  handle : Nat
  readOnly : Bool
  nsIndex : UInt8
  deriving DecidableEq, Repr

structure Statics where
  handles : List HandleEntry
  nextHandle : Nat
  storage : Storage

namespace Statics

def new : Statics := ⟨[], 1, .new⟩

def withStorage (nvs : Statics) (s : Storage) : Statics := { nvs with storage := s }

end Statics

inductive OpenMode where
  | readOnly
  | readWrite
  deriving DecidableEq, Repr

def nvsFlashInitCustom (frame : LoadFrame) (nvs : Statics) (baseSector sectorCount : Nat) :
    WordProg (EspErr × Statics) := do
  let (err, s) ← Storage.init frame nvs.storage baseSector sectorCount
  return (err, { nvs with handles := [], storage := s })

/-- `none` stands for `ESP_ERR_NVS_INVALID_HANDLE`. -/
def nvsFindNsHandle (nvs : Statics) (handle : Nat) : Option HandleEntry :=
  nvs.handles.find? fun e => e.handle = handle

def nvsOpen (nvs : Statics) (name : Key) (openMode : OpenMode) :
    WordProg (EspErr × Statics × Option Nat) := do
  let (err, s, nsIndex) ← nvs.storage.createOrOpenNamespace name (openMode = .readWrite)
  match nsIndex with
  | none => return (err, nvs.withStorage s, none)
  | some nsIndex =>
    let entry : HandleEntry := ⟨nvs.nextHandle, openMode = .readOnly, nsIndex⟩
    return (.ok, ⟨nvs.handles ++ [entry], (nvs.nextHandle + 1) % 2 ^ 32, s⟩, some nvs.nextHandle)

def nvsClose (nvs : Statics) (handle : Nat) : Statics :=
  { nvs with handles := nvs.handles.eraseP fun e => e.handle = handle }

def withHandle (nvs : Statics) (handle : Nat) (f : HandleEntry → WordProg (EspErr × Statics)) :
    WordProg (EspErr × Statics) :=
  match nvsFindNsHandle nvs handle with
  | none => return (.nvsInvalidHandle, nvs)
  | some entry => f entry

/-! ### Writing -/

def nvsEraseKey (nvs : Statics) (handle : Nat) (key : Key) : WordProg (EspErr × Statics) :=
  withHandle nvs handle fun entry => do
    if entry.readOnly then return (.nvsReadOnly, nvs)
    let (err, s) ← nvs.storage.eraseItem entry.nsIndex .ANY key
    return (err, nvs.withStorage s)

def nvsEraseAll (nvs : Statics) (handle : Nat) : WordProg (EspErr × Statics) :=
  withHandle nvs handle fun entry => do
    if entry.readOnly then return (.nvsReadOnly, nvs)
    let (err, s) ← nvs.storage.eraseNamespace entry.nsIndex
    return (err, nvs.withStorage s)

inductive IntType where
  | i8 | u8 | i16 | u16 | i32 | u32 | i64 | u64
  deriving DecidableEq, Repr

namespace IntType

def itemType : IntType → ItemType
  | i8 => .I8
  | u8 => .U8
  | i16 => .I16
  | u16 => .U16
  | i32 => .I32
  | u32 => .U32
  | i64 => .I64
  | u64 => .U64

def size : IntType → Nat
  | i8 | u8 => 1
  | i16 | u16 => 2
  | i32 | u32 => 4
  | i64 | u64 => 8

def bytes (T : IntType) (value : BitVec (8 * T.size)) : List UInt8 :=
  (List.range T.size).map fun k => .ofNat (value.toNat / 256 ^ k)

end IntType

def nvsSet (T : IntType) (nvs : Statics) (handle : Nat) (key : Key) (value : BitVec (8 * T.size)) :
    WordProg (EspErr × Statics) :=
  withHandle nvs handle fun entry => do
    if entry.readOnly then return (.nvsReadOnly, nvs)
    let (err, s) ← nvs.storage.writeItem entry.nsIndex T.itemType key (T.bytes value)
    return (err, nvs.withStorage s)

def nvsSetI8 := nvsSet .i8

def nvsSetU8 := nvsSet .u8

def nvsSetI16 := nvsSet .i16

def nvsSetU16 := nvsSet .u16

def nvsSetI32 := nvsSet .i32

def nvsSetU32 := nvsSet .u32

def nvsSetI64 := nvsSet .i64

def nvsSetU64 := nvsSet .u64

def nvsCommit (nvs : Statics) (handle : Nat) : WordProg (EspErr × Statics) :=
  withHandle nvs handle fun _ => return (.ok, nvs)

/-- The string is `value` and a terminating zero.  There is no check of `mReadOnly`. -/
def nvsSetStr (nvs : Statics) (handle : Nat) (key : Key) (value : List UInt8) :
    WordProg (EspErr × Statics) :=
  withHandle nvs handle fun entry => do
    let (err, s) ← nvs.storage.writeItem entry.nsIndex .SZ key (value ++ [0])
    return (err, nvs.withStorage s)

def nvsSetBlob (nvs : Statics) (handle : Nat) (key : Key) (value : List UInt8) :
    WordProg (EspErr × Statics) :=
  withHandle nvs handle fun entry => do
    let (err, s) ← nvs.storage.writeItem entry.nsIndex .BLOB key value
    return (err, nvs.withStorage s)

/-! ### Reading -/

def nvsGet (T : IntType) (nvs : Statics) (handle : Nat) (key : Key) (out : List UInt8) :
    WordProg (EspErr × Statics × List UInt8) :=
  match nvsFindNsHandle nvs handle with
  | none => return (.nvsInvalidHandle, nvs, out)
  | some entry => do
    let (err, s, out) ← nvs.storage.readItem entry.nsIndex T.itemType key (out.take T.size)
    return (err, nvs.withStorage s, out)

def nvsGetI8 := nvsGet .i8

def nvsGetU8 := nvsGet .u8

def nvsGetI16 := nvsGet .i16

def nvsGetU16 := nvsGet .u16

def nvsGetI32 := nvsGet .i32

def nvsGetU32 := nvsGet .u32

def nvsGetI64 := nvsGet .i64

def nvsGetU64 := nvsGet .u64

/-- `nvs_get_str_or_blob`: `outValue` is `none` for a null pointer, and else the bytes there;
`length` is `none` for a null pointer, and else `*length`.  The result has what they are
afterwards. -/
def nvsGetStrOrBlob (type : ItemType) (nvs : Statics) (handle : Nat) (key : Key)
    (outValue : Option (List UInt8)) (length : Option Nat) :
    WordProg (EspErr × Statics × Option (List UInt8) × Option Nat) :=
  match nvsFindNsHandle nvs handle with
  | none => return (.nvsInvalidHandle, nvs, outValue, length)
  | some entry => do
    let (err, s, dataSize) ← nvs.storage.getItemDataSize entry.nsIndex type key
    let nvs := nvs.withStorage s
    match dataSize, length, outValue with
    | none, _, _ => return (err, nvs, outValue, length)
    | some _, none, _ => return (.nvsInvalidLength, nvs, outValue, length)
    | some dataSize, some _, none => return (.ok, nvs, outValue, some dataSize)
    | some dataSize, some len, some out =>
      if len < dataSize then return (.nvsInvalidLength, nvs, outValue, some dataSize)
      let (err, s, data) ← nvs.storage.readItem entry.nsIndex type key (out.take dataSize)
      return (err, nvs.withStorage s, some (data ++ out.drop dataSize), length)

def nvsGetStr := nvsGetStrOrBlob .SZ

def nvsGetBlob := nvsGetStrOrBlob .BLOB

end EspIdf.Nvs
