import EspIdf.EspErr
import EspIdf.Device.Nor
import EspIdf.Device.Crc32

/-! The data types of the key-value store `nvs`: `ItemType`, `Item`, `CompressedEnumTable` and
`HashList`.  A `size_t` or an unsigned index is a `Nat`; a field with fewer bits is cut to them
where it is set. -/

namespace EspIdf.Nvs

open EspIdf.Device

def sizeMax : Nat := 0xffffffff

/-! ### C strings -/

/-- The characters that `strncmp(bs, _, n)` and `strncpy(_, bs, n)` look at: up to the terminating
zero, and at most `n` of them. -/
def cstr (n : Nat) (bs : List UInt8) : List UInt8 := (bs.take n).takeWhile (· ≠ 0)

def strlen (bs : List UInt8) : Nat := (bs.takeWhile (· ≠ 0)).length

def strncpy (n : Nat) (src : List UInt8) : List UInt8 :=
  cstr n src ++ List.replicate (n - (cstr n src).length) 0

/-- A `const char*` that points to a key: its address, and the text found there. -/
structure Key where
  addr : Nat
  text : List UInt8
  deriving DecidableEq, Repr

/-! ### Items -/

structure ItemType where
  code : UInt8
  deriving DecidableEq, Repr

namespace ItemType

def U8 : ItemType := ⟨0x01⟩
def I8 : ItemType := ⟨0x11⟩
def U16 : ItemType := ⟨0x02⟩
def I16 : ItemType := ⟨0x12⟩
def U32 : ItemType := ⟨0x04⟩
def I32 : ItemType := ⟨0x14⟩
def U64 : ItemType := ⟨0x08⟩
def I64 : ItemType := ⟨0x18⟩
def SZ : ItemType := ⟨0x21⟩
def BLOB : ItemType := ⟨0x41⟩
def ANY : ItemType := ⟨0xff⟩

def varLength (t : ItemType) : Bool := t = SZ ∨ t = BLOB

def alignment (t : ItemType) : Nat := t.code.toNat % 16

end ItemType

def entrySize : Nat := 32

def entryCount : Nat := 126

def maxKeyLength : Nat := 15

structure Item where
  nsIndex : UInt8
  datatype : ItemType
  span : UInt8
  reserved : UInt8
  crc32 : Nat
  key : List UInt8
  data : List UInt8
  deriving DecidableEq, Repr

namespace Item

/-- The bytes of an item in memory, `rawData`. -/
def bytes (it : Item) : List UInt8 :=
  [it.nsIndex, it.datatype.code, it.span, it.reserved] ++ le32 it.crc32 ++ it.key ++ it.data

def ofBytes (bs : List UInt8) : Item where
  nsIndex := bs.getD 0 0
  datatype := ⟨bs.getD 1 0⟩
  span := bs.getD 2 0
  reserved := bs.getD 3 0
  crc32 := word32 bs 4
  key := (bs.drop 8).take 16
  data := (bs.drop 24).take 8

def make (nsIndex : UInt8) (datatype : ItemType) (span : UInt8) (key : Option (List UInt8)) : Item
    where
  nsIndex := nsIndex
  datatype := datatype
  span := span
  reserved := 0xff
  crc32 := 0
  key := match key with
    | some text => strncpy maxKeyLength text ++ [0]
    | none => 0 :: List.replicate 15 0xff
  data := List.replicate 8 0xff

def dataSize (it : Item) : Nat := (it.data.getD 0 0).toNat + (it.data.getD 1 0).toNat * 256

def dataCrc32 (it : Item) : Nat := word32 it.data 4

def calculateCrc32 (it : Item) : Nat :=
  crc32Le (crc32Le (crc32Le 0xffffffff [it.nsIndex, it.datatype.code, it.span, it.reserved])
    it.key) it.data

def calculateCrc32WithoutValue (it : Item) : Nat :=
  crc32Le (crc32Le 0xffffffff [it.nsIndex]) it.key

def hash24 (it : Item) : Nat := it.calculateCrc32WithoutValue % 2 ^ 24

def dataChecksum (bs : List UInt8) : Nat := crc32Le 0xffffffff bs

def getKey (it : Item) : List UInt8 := strncpy maxKeyLength it.key

end Item

/-! ### `CompressedEnumTable` -/

/-- `CompressedEnumTable<Tenum, Nbits, Nitems>`: values of `nbits` bits, packed in 32-bit words.
`get` and `set` assert that the index is below `Nitems`; that part is left to the caller. -/
structure EnumTable (nbits : Nat) where
  data : List Nat
  deriving DecidableEq, Repr

namespace EnumTable

variable {nbits : Nat}

def itemsPerWord (nbits : Nat) : Nat := 32 / nbits

def getWordIndex (nbits index : Nat) : Nat := index / itemsPerWord nbits

def offset (nbits index : Nat) : Nat := index % itemsPerWord nbits * nbits

def word (t : EnumTable nbits) (i : Nat) : Nat := t.data.getD i 0

def get (t : EnumTable nbits) (index : Nat) : Nat :=
  (t.word (getWordIndex nbits index) >>> offset nbits index) &&& (2 ^ nbits - 1)

def set (t : EnumTable nbits) (index val : Nat) : EnumTable nbits :=
  let wordIndex := getWordIndex nbits index
  let mask := (2 ^ nbits - 1) <<< offset nbits index
  ⟨t.data.set wordIndex
    ((t.word wordIndex &&& (0xffffffff ^^^ mask)) ||| (val <<< offset nbits index))⟩

end EnumTable

/-- `Page::EntryState`, as the two bits of an entry in the table.  No code writes `0b01`, but a
table read from flash can hold it. -/
inductive EntryState where
  | empty
  | written
  | erased
  | other
  deriving DecidableEq, Repr

namespace EntryState

def bits : EntryState → Nat
  | empty => 3
  | written => 2
  | erased => 0
  | other => 1

def ofBits : Nat → EntryState
  | 0 => erased
  | 1 => other
  | 2 => written
  | _ => empty

end EntryState

abbrev EntryTable := EnumTable 2

namespace EntryTable

def get (t : EntryTable) (index : Nat) : EntryState := .ofBits (EnumTable.get t index)

def set (t : EntryTable) (index : Nat) (state : EntryState) : EntryTable :=
  EnumTable.set t index state.bits

def fresh : EntryTable := ⟨List.replicate 8 0xffffffff⟩

end EntryTable

/-! ### `HashList` -/

structure HashListNode where
  index : Nat
  hash : Nat
  deriving DecidableEq, Repr

def hashBlockEntryCount : Nat := 29

structure HashList where
  blocks : List (List HashListNode)
  deriving DecidableEq, Repr

namespace HashList

def empty : HashList := ⟨[]⟩

def node (item : Item) (index : Nat) : HashListNode := ⟨index % 256, item.hash24⟩

def insert (l : HashList) (item : Item) (index : Nat) : HashList :=
  match l.blocks.getLast? with
  | some block =>
    if block.length < hashBlockEntryCount then
      ⟨l.blocks.dropLast ++ [block ++ [node item index]]⟩
    else ⟨l.blocks ++ [[node item index]]⟩
  | none => ⟨[[node item index]]⟩

def dropNode (index : Nat) : List HashListNode → List HashListNode
  | [] => []
  | n :: ns => if n.index = index then { n with index := 0xff } :: ns else n :: dropNode index ns

/-- The blocks after `erase`; blocks without used nodes that it passes are freed.  `none` if the
index is not there. -/
def eraseBlocks (index : Nat) : List (List HashListNode) → Option (List (List HashListNode))
  | [] => none
  | block :: blocks =>
    if block.any (·.index = index) then some (dropNode index block :: blocks)
    else if block.any (·.index ≠ 0xff) then (eraseBlocks index blocks).map (block :: ·)
    else eraseBlocks index blocks

/-- `erase`; `none` is the failed assert at its end. -/
def erase (l : HashList) (index : Nat) : Option HashList :=
  (eraseBlocks index l.blocks).map fun blocks => ⟨blocks⟩

def find (l : HashList) (start : Nat) (item : Item) : Nat :=
  ((l.blocks.flatten.find? fun n =>
    start ≤ n.index && n.hash = item.hash24 && n.index ≠ 0xff).map (·.index)).getD sizeMax

end HashList

end EspIdf.Nvs
