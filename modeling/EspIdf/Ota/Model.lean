import EspIdf.Device.Prog
import EspIdf.Device.Nor
import EspIdf.Device.Crc32
import EspIdf.EspErr

/-! Selecting the partition to boot: `esp_ota_set_boot_partition` and `esp_ota_get_boot_partition`
of `esp_ota_ops.c`, and `bootloader_main`.  otadata holds two entries, one in each of its first two
sectors. -/

namespace EspIdf.Ota

open EspIdf.Device

/-! ### The partition table -/

/-- `PART_TYPE_APP`, `ESP_PARTITION_TYPE_APP`. -/
def typeApp : Nat := 0x00

/-- `PART_TYPE_DATA`, `ESP_PARTITION_TYPE_DATA`. -/
def typeData : Nat := 0x01

def subtypeAppFactory : Nat := 0x00

def subtypeAppOtaMin : Nat := 0x10

def subtypeAppTest : Nat := 0x20

def subtypeDataOta : Nat := 0x00

structure Pos where
  offset : Nat
  size : Nat
  deriving DecidableEq, Repr

structure Part where
  type : Nat
  subtype : Nat
  pos : Pos
  label : List UInt8
  deriving DecidableEq, Repr

/-- `esp_partition_find_first` without a label. -/
def findFirst (table : List Part) (type subtype : Nat) : Option Part :=
  table.find? fun p => type = p.type ∧ (subtype = 0xff ∨ subtype = p.subtype)

def countLoop (table : List Part) : Nat → Nat → Option Nat
  | 0, count => some count
  | n + 1, count =>
    if (findFirst table typeApp (subtypeAppOtaMin + count)).isNone then some count
    else if ¬ count < 16 then none
    else countLoop table n (count + 1)

/-- `none` is the failed assertion, which the 17th round makes. -/
def getOtaPartitionCount (table : List Part) : Option Nat := countLoop table 17 0

/-! ### Entries of otadata -/

structure OtaSelect where
  otaSeq : Nat
  seqLabel : List UInt8
  crc : Nat
  deriving DecidableEq, Repr

namespace OtaSelect

def ofBytes (bs : List UInt8) : OtaSelect := ⟨word32 bs 0, (bs.drop 4).take 24, word32 bs 28⟩

def bytes (s : OtaSelect) : List UInt8 := le32 s.otaSeq ++ s.seqLabel ++ le32 s.crc

end OtaSelect

def otaSelectCrc (otaSeq : Nat) : Nat := crc32Le 0xffffffff (le32 otaSeq)

def otaSelectValid (s : OtaSelect) : Bool := s.otaSeq ≠ 0xffffffff ∧ s.crc = otaSelectCrc s.otaSeq

def secSize : Nat := 0x1000

def selects (otadata : Bytes) : OtaSelect × OtaSelect :=
  (.ofBytes (otadata.read 0 32), .ofBytes (otadata.read secSize 32))

/-- `esp_partition_mmap` maps as many pages of 64 KB as the size of the partition takes, from the
page of its offset on: the mapping shows the partition up to this offset. -/
def mappedEnd (pos : Pos) : Nat :=
  (pos.size + 0xffff) / 0x10000 * 0x10000 - pos.offset % 0x10000

/-- The entries `r` can be read from a mapping of otadata with the contents `m`.  What is not mapped
reads as anything. -/
def Shown (pos : Pos) (m : Bytes) (r : OtaSelect × OtaSelect) : Prop :=
  (32 ≤ mappedEnd pos → r.1 = (selects m).1) ∧
    (secSize + 32 ≤ mappedEnd pos → r.2 = (selects m).2)

/-! ### Calls -/

/-- Calls on the otadata partition: mapping it and copying the entries out, erasing a range, and
writing. -/
inductive OtaOp where
  | copySelects (pos : Pos)
  | eraseRange (startAddr size : Nat)
  | write (dstOffset : Nat) (src : List UInt8)

abbrev OtaOp.Ret : OtaOp → Type
  | copySelects _ => EspErr × OtaSelect × OtaSelect
  | eraseRange _ _ => EspErr
  | write _ _ => EspErr

abbrev OtaProg := Prog OtaOp OtaOp.Ret

/-- What a call can answer and what it does to the contents of otadata.  A call that fails can have
changed any byte of its range. -/
def OtaOp.Effect : (o : OtaOp) → Bytes → o.Ret → Bytes → Prop
  | copySelects pos, m, r, m' => m' = m ∧ (r.1 = .ok → Shown pos m r.2)
  | eraseRange a n, m, err, m' => (∀ x, ¬ (a ≤ x ∧ x < a + n) → m' x = m x) ∧
      (err = .ok → m' = m.erase a n)
  | write a bs, m, err, m' => (∀ x, ¬ (a ≤ x ∧ x < a + bs.length) → m' x = m x) ∧
      (err = .ok → m' = m.program a bs)

def copySelects (pos : Pos) : OtaProg (EspErr × OtaSelect × OtaSelect) :=
  Prog.op (OtaOp.copySelects pos)

def eraseRange (startAddr size : Nat) : OtaProg EspErr := Prog.op (OtaOp.eraseRange startAddr size)

def write (dstOffset : Nat) (src : List UInt8) : OtaProg EspErr :=
  Prog.op (OtaOp.write dstOffset src)

/-! ### Setting the boot partition -/

def subTypeId (subtype : Nat) : Nat := subtype % 16

def rewriteOtaSeq (seq : Nat) (secId : Fin 2) (s : OtaSelect) : OtaProg EspErr := do
  let s : OtaSelect := { s with otaSeq := seq, crc := otaSelectCrc seq }
  let ret ← eraseRange (secId * secSize) secSize
  if ret ≠ .ok then return ret
  write (secSize * secId) s.bytes

def seqAt (id count i : Nat) : Nat := ((id + 1) % count + i * count) % 2 ^ 32

/-- The loop that counts `i` up, with at most `n` more rounds. -/
def seqLoop (seq id count : Nat) : Nat → Nat → Option Nat
  | 0, _ => none
  | n + 1, i => if seq > seqAt id count i then seqLoop seq id count n (i + 1) else some
      (seqAt id count i)

/-- The number that the loop ends with.  After `2 ^ 32` rounds `i` is 0 again, so a loop of more
rounds does not end. -/
def nextSeq (seq id count : Nat) : Option Nat := seqLoop seq id count (2 ^ 32) 0

def rewriteNext (seq id count : Nat) (secId : Fin 2) (s : OtaSelect) : OtaProg EspErr :=
  match nextSeq seq id count with
  | none => Prog.halt
  | some next => rewriteOtaSeq next secId s

/-- The library's instance by one name, for the numbers of `Fin 2` below. -/
theorem neZero_2 : NeZero 2 := Nat.instNeZeroSucc

attribute [local instance] neZero_2

def rewriteSelects (id count : Nat) (s0 s1 : OtaSelect) : OtaProg EspErr :=
  if otaSelectValid s0 ∧ otaSelectValid s1 then
    let seq := if s0.otaSeq ≥ s1.otaSeq then s0.otaSeq else s1.otaSeq
    if s0.otaSeq ≥ s1.otaSeq then rewriteNext seq id count 1 s1 else rewriteNext seq id count 0 s0
  else if otaSelectValid s0 then rewriteNext s0.otaSeq id count 1 s1
  else if otaSelectValid s1 then rewriteNext s1.otaSeq id count 0 s0
  else rewriteOtaSeq (id + 1) 0 s0

def espRewriteOtaData (table : List Part) (subtype : Nat) : OtaProg EspErr :=
  match findFirst table typeData subtypeDataOta with
  | none => return .notFound
  | some d =>
    match getOtaPartitionCount table with
    | none => Prog.halt
    | some count =>
      if subTypeId subtype ≥ count then return .invalidArg
      else do
        let (ret, s0, s1) ← copySelects d.pos
        if ret ≠ .ok then return ret
        rewriteSelects (subTypeId subtype) count s0 s1

/-- `imageOk` says whether `esp_image_basic_verify` accepts the image. -/
def espOtaSetBootPartition (table : List Part) (imageOk : Bool) (partition : Option Part) :
    OtaProg EspErr :=
  match partition with
  | none => return .invalidArg
  | some p =>
    if ¬ imageOk then return .otaValidateFailed
    else if p.type = typeApp then
      if p.subtype = subtypeAppFactory then
        match findFirst table typeData subtypeDataOta with
        | none => return .notFound
        | some d => eraseRange 0 d.pos.size
      else
        match findFirst table typeData subtypeDataOta with
        | none => return .notFound
        | some _ => espRewriteOtaData table p.subtype
    else return .invalidArg

/-! ### Getting the boot partition -/

def pred32 (x : Nat) : Nat := (x + (2 ^ 32 - 1)) % 2 ^ 32

/-- `esp_ota_get_boot_partition` when otadata could be mapped and the entries `s0` and `s1` were
read.  The outer `none` is a failed assertion or a division by zero. -/
def espOtaGetBootPartition (table : List Part) (s0 s1 : OtaSelect) : Option (Option Part) :=
  match findFirst table typeData subtypeDataOta with
  | none => some none
  | some _ =>
    match getOtaPartitionCount table with
    | none => none
    | some count =>
      if s0.otaSeq = 0xffffffff ∧ s1.otaSeq = 0xffffffff then
        some (findFirst table typeApp subtypeAppFactory)
      else if otaSelectValid s0 ∧ otaSelectValid s1 then slot count (max s0.otaSeq s1.otaSeq)
      else if otaSelectValid s0 then slot count s0.otaSeq
      else if otaSelectValid s1 then slot count s1.otaSeq
      else some (findFirst table typeApp subtypeAppFactory)
where
  /-- The partition that the sequence number `seq` stands for. -/
  slot (count seq : Nat) : Option (Option Part) :=
    if count = 0 then none
    else some (findFirst table typeApp (subtypeAppOtaMin + pred32 seq % count))

/-! ### The boot loader -/

structure BootloaderState where
  otaInfo : Pos
  factory : Pos
  test : Pos
  ota : Nat → Pos
  appCount : Nat

def loadEntry (bs : BootloaderState) (p : Part) : BootloaderState :=
  if p.type = typeApp then
    if p.subtype = subtypeAppFactory then { bs with factory := p.pos }
    else if p.subtype = subtypeAppTest then { bs with test := p.pos }
    else if p.subtype / 16 = 1 then
      { bs with
        ota := Function.update bs.ota (p.subtype % 16) p.pos
        appCount := bs.appCount + 1 }
    else bs
  else if p.type = typeData then
    if p.subtype = subtypeDataOta then { bs with otaInfo := p.pos } else bs
  else bs

/-- For a table that was verified. -/
def loadPartitionTable (table : List Part) : BootloaderState :=
  table.foldl loadEntry ⟨⟨0, 0⟩, ⟨0, 0⟩, ⟨0, 0⟩, fun _ => ⟨0, 0⟩, 0⟩

/-- The largest range that `bootloader_mmap` maps. -/
def bootloaderMmapMax : Nat := 0x320000

/-- The selection by the entries of otadata. -/
def selectEntry (bs : BootloaderState) (sa sb : OtaSelect) : Option Pos :=
  if sa.otaSeq = 0xffffffff ∧ sb.otaSeq = 0xffffffff then
    if bs.factory.offset ≠ 0 then some bs.factory else some (bs.ota 0)
  else if otaSelectValid sa ∧ otaSelectValid sb then
    some (bs.ota (pred32 (max sa.otaSeq sb.otaSeq) % bs.appCount))
  else if otaSelectValid sa then some (bs.ota (pred32 sa.otaSeq % bs.appCount))
  else if otaSelectValid sb then some (bs.ota (pred32 sb.otaSeq % bs.appCount))
  else if bs.factory.offset ≠ 0 then some bs.factory
  else none

/-- The selection of `bootloader_main`: the value of `load_part_pos`, or `none` where it returns.
`sa` and `sb` are the entries of otadata, which `bootloader_mmap` maps whole. -/
def selectPart (bs : BootloaderState) (sa sb : OtaSelect) : Option Pos :=
  if bs.otaInfo.offset ≠ 0 then
    if bs.otaInfo.size < 2 * secSize then none
    else if bs.otaInfo.size > bootloaderMmapMax then none
    else selectEntry bs sa sb
  else if bs.factory.offset ≠ 0 then some bs.factory
  else if bs.test.offset ≠ 0 then some bs.test
  else none

end EspIdf.Ota
