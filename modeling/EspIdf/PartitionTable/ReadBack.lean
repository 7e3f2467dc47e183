import EspIdf.Ota.Agree
import EspIdf.PartitionTable.GenPart

/-! The device reads the table that the generator wrote: `esp_partition_table_basic_verify` and
`load_partitions` on the bytes of `PartitionTable.to_binary`. -/

namespace EspIdf.PartitionTable

open EspIdf.Device EspIdf.Ota

def entryAt (b : Str) (k : Nat) : Str := (b.drop (32 * k)).take 32

def magicOf (e : Str) : Nat := (e.getD 0 0).toNat + 256 * (e.getD 1 0).toNat

/-- `esp_partition_info_t` as `esp_partition_table_basic_verify` reads it. -/
def partInfo (e : Str) : PartInfo :=
  ⟨magicOf e, (e.getD 2 0).toNat, (e.getD 3 0).toNat, ⟨word32 e 4, word32 e 8⟩, (e.drop 12).take 16⟩

structure EspPartition where
  type : Nat
  subtype : Nat
  address : Nat
  size : Nat
  label : Str
  encrypted : Bool
  deriving DecidableEq, Repr

/-- The item that `load_partitions` makes of an entry; `encryption` is
`esp_flash_encryption_enabled()`. -/
def espPartition (encryption : Bool) (e : Str) : EspPartition where
  type := (e.getD 2 0).toNat
  subtype := (e.getD 3 0).toNat
  address := word32 e 4
  size := word32 e 8
  label := ((e.drop 12).take 16).takeWhile (· ≠ 0)
  encrypted := word32 e 28 % 2 = 1 ∨ encryption ∧ ((e.getD 2 0).toNat = typeApp ∨
    (e.getD 2 0).toNat = typeData ∧ (e.getD 3 0).toNat = subtypeDataOta)

def tableAddr : Nat := 0x8000

def loadLoop (encryption : Bool) (flash : Bytes) : Nat → Nat → List EspPartition
  | 0, _ => []
  | n + 1, k =>
    let it := flash.read (tableAddr + 32 * k) 32
    if magicOf it ≠ 0x50aa then [] else espPartition encryption it ::
      loadLoop encryption flash n (k + 1)

/-- When the table could be mapped: the list from its head on. -/
def loadPartitions (encryption : Bool) (flash : Bytes) : List EspPartition :=
  loadLoop encryption flash (0x1000 / 32) 0

/-- The entry of the list is that of the table, with the first 16 characters of its name. -/
structure SameEntry (p : PartitionDefinition) (q : EspPartition) : Prop where
  type : q.type = p.type
  subtype : q.subtype = p.subtype
  address : some (q.address : Int) = p.offset
  size : q.size = p.size
  label : q.label = p.name.take 16

section Bytes

variable {t : List PartitionDefinition} {p : PartitionDefinition} {b rest : Str}

theorem entryAt_packed (hk : t[k]? = some p) :
    entryAt ((t.map PartitionDefinition.packed).flatten ++ rest) k = p.packed := by
  induction t generalizing k with
  | nil => simp at hk
  | cons q qs ih =>
    rw [List.map_cons, List.flatten_cons, List.append_assoc, entryAt]
    cases k with
    | zero =>
      obtain rfl : q = p := by simpa using hk
      rw [List.drop_zero, List.take_left' length_packed]
    | succ k =>
      rw [show 32 * (k + 1) = q.packed.length + 32 * k by rw [length_packed]; omega,
        ← List.drop_drop, List.drop_left]
      exact ih hk

theorem entryAt_end : entryAt ((t.map PartitionDefinition.packed).flatten ++ rest) t.length =
    rest.take 32 := by
  rw [entryAt, ← length_flatten_packed, List.drop_left]

theorem entryAt_read {flash : Bytes} (h : 32 * k + 32 ≤ n) :
    entryAt (flash.read a n) k = flash.read (a + 32 * k) 32 := by
  rw [entryAt, Bytes.read_drop, Bytes.read_take, min_eq_left (by omega)]

theorem PartitionDefinition.Fits.entry (h : p.Fits) (encryption : Bool) :
    magicOf p.packed = 0x50aa ∧ (partInfo p.packed).part.pos =
      ⟨(p.offset.getD 0).toNat, p.size.toNat⟩ ∧
      (SameEntry p (espPartition encryption p.packed) ↔ 0 ∉ p.name.take 16) := by
  have hback := h.fromBinary
  obtain ⟨offset, hoffset, hrange⟩ := h.offset
  have hmagic : p.packed.take 2 = magicBytes := rfl
  rw [PartitionDefinition.fromBinary, if_neg (by simp), if_neg (by simp [hmagic]), Except.ok.injEq,
    PartitionDefinition.mk.injEq] at hback
  obtain ⟨hname, htype, hsubtype, hoff, hsz, -⟩ := hback
  rw [hoffset] at hoff
  refine ⟨?_, ?_, fun hsame hzero => ?_, fun hzero => ⟨htype, hsubtype, ?_, hsz, ?_⟩⟩
  · change (0xaa : UInt8).toNat + 256 * (0x50 : UInt8).toNat = 0x50aa
    decide
  · rw [hoffset, ← hoff, ← hsz]
    rfl
  · have hlabel := hsame.label
    rw [← hlabel] at hzero
    simpa using List.mem_takeWhile_imp hzero
  · rw [espPartition, hoffset, hoff]
  · rw [espPartition, hname, storedName, List.takeWhile_eq_self_iff]
    intro c hc
    simpa using fun h0 : c = 0 => hzero (h0 ▸ hc)

theorem toBinary_eq (h : toBinary t = .ok b) : (∀ p ∈ t, p.Fits) ∧ t.length < 96 ∧
    b = (t.map PartitionDefinition.packed).flatten ++ List.replicate
      (maxPartitionLength - 32 * t.length) 0xff := by
  have hmax : maxPartitionLength = 32 * 96 := rfl
  have hfits : ∀ p ∈ t, p.Fits := by
    by_contra hnot
    rw [toBinary, mapM_toBinary_of_not_fits hnot] at h
    cases h
  rw [toBinary, mapM_toBinary hfits] at h
  simp only [bind, Except.bind, length_flatten_packed] at h
  split_ifs at h with hlong
  cases h
  exact ⟨hfits, by omega, rfl⟩

end Bytes

section Loops

variable {t : List PartitionDefinition} {b : Str}

theorem verifyLoop_table {chipSize n k : Nat} (h : toBinary t = .ok b)
    (hchip : ∀ p ∈ t, p.offset.getD 0 + p.size ≤ chipSize) (hsize : chipSize < 2 ^ 32)
    (hk : k ≤ t.length) (hn : t.length < k + n) :
    verifyLoop chipSize (fun k => partInfo (entryAt b k)) n k = .ok t.length := by
  obtain ⟨hfits, hlen, rfl⟩ := toBinary_eq h
  induction n generalizing k with
  | zero => omega
  | succ n ih =>
    rw [verifyLoop]
    rcases Nat.lt_or_eq_of_le hk with hlt | rfl
    · have hp := List.getElem_mem hlt
      obtain ⟨hmagic, hpos, -⟩ := (hfits _ hp).entry false
      obtain ⟨offset, hoffset, hrange⟩ := (hfits _ hp).offset
      have hinside := hchip _ hp
      have hnonneg := (hfits _ hp).size
      simp only [entryAt_packed (List.getElem?_eq_getElem hlt)]
      rw [if_neg (by rw [partInfo, hmagic]; simp), if_neg (by rw [partInfo, hmagic]; simp), hpos,
        if_neg (by rw [hoffset, Option.getD_some] at hinside ⊢; dsimp only; omega)]
      exact ih hlt (by omega)
    · have hmax : maxPartitionLength = 3072 := rfl
      simp only [entryAt_end]
      rw [List.take_replicate, min_eq_left (by omega)]
      exact if_pos ⟨rfl, rfl, rfl⟩

theorem loadLoop_table {flash : Bytes} (h : toBinary t = .ok b)
    (hflash : flash.read tableAddr maxPartitionLength = b) (hk : k ≤ t.length)
    (hn : t.length < k + n) :
    loadLoop encryption flash n k = (t.drop k).map fun p => espPartition encryption p.packed := by
  obtain ⟨hfits, hlen, hb⟩ := toBinary_eq h
  have hmax : maxPartitionLength = 3072 := rfl
  have hentry : ∀ k ≤ t.length, flash.read (tableAddr + 32 * k) 32 = entryAt b k := fun k hk => by
    rw [← hflash, entryAt_read (by omega)]
  induction n generalizing k with
  | zero => omega
  | succ n ih =>
    rw [loadLoop, hentry k hk]
    rcases Nat.lt_or_eq_of_le hk with hlt | rfl
    · obtain ⟨hmagic, -⟩ := (hfits _ (List.getElem_mem hlt)).entry encryption
      simp only [hb, entryAt_packed (List.getElem?_eq_getElem hlt), hmagic, ne_eq,
        not_true_eq_false,
        if_false]
      rw [ih hlt (by omega), List.drop_eq_getElem_cons hlt, List.map_cons]
    · simp only [hb, entryAt_end]
      rw [List.take_replicate, min_eq_left (by omega), List.drop_length]
      exact if_pos (by decide)

end Loops

/-- A table that was written, with its entries inside the chip, is accepted by the device with its
number of entries, and the device reads the same entries exactly if no name has a NUL in its first
16 bytes. -/
theorem device_reads_table_iff {t : List PartitionDefinition} {b : Str} {flash : Bytes}
    {chipSize : Nat}
    (encryption : Bool) (hbinary : toBinary t = .ok b)
    (hchip : ∀ p ∈ t, p.offset.getD 0 + p.size ≤ chipSize) (hsize : chipSize < 2 ^ 32)
    (hflash : flash.read tableAddr maxPartitionLength = b) :
    espPartitionTableBasicVerify chipSize (fun k => partInfo (entryAt b k)) = .ok t.length ∧
      (List.Forall₂ SameEntry t (loadPartitions encryption flash) ↔ ∀ p ∈ t,
        0 ∉ p.name.take 16) := by
  obtain ⟨hfits, hlen, -⟩ := toBinary_eq hbinary
  refine ⟨verifyLoop_table hbinary hchip hsize (Nat.zero_le _) (by rw [maxEntries]; omega), ?_⟩
  rw [loadPartitions, loadLoop_table hbinary hflash (Nat.zero_le _) (by omega), List.drop_zero,
    List.forall₂_map_right_iff, List.forall₂_same]
  exact forall₂_congr fun p hp => ((hfits p hp).entry encryption).2.2

def flashWith (b : Str) : Bytes := fun x => b.getD (x - tableAddr) 0xff

theorem read_flashWith (h : b.length = n) : (flashWith b).read tableAddr n = b := by
  rw [Bytes.read_eq_iff]
  refine ⟨h, fun k _ => ?_⟩
  rw [flashWith, Nat.add_sub_cancel_left]

def oneEntry (name : Str) : List PartitionDefinition := [⟨name, 1, 2, some 0x5000, 4, false⟩]

def oneEntryBytes (name : Str) : Str :=
  (oneEntry name).flatMap PartitionDefinition.packed ++ List.replicate 3040 0xff

def threeEntries : List PartitionDefinition :=
  [⟨str "nvs", 1, 2, some 0x9000, 0x6000, false⟩,
    ⟨str "phy_init", 1, 1, some 0xf000, 0x1000, false⟩,
    ⟨str "factory", 0, 0, some 0x10000, 0x100000, false⟩]

def threeEntriesBytes : Str :=
  threeEntries.flatMap PartitionDefinition.packed ++ List.replicate 2976 0xff

theorem device_reads_three :
    espPartitionTableBasicVerify 0x400000 (fun k => partInfo (entryAt threeEntriesBytes k)) =
      .ok 3 ∧
    List.Forall₂ SameEntry threeEntries (loadPartitions false (flashWith threeEntriesBytes)) := by
  obtain ⟨haccepts, hsame⟩ := @device_reads_table_iff threeEntries _ (flashWith threeEntriesBytes)
    0x400000 false (by decide +kernel) (by decide) (by decide) (read_flashWith (by decide +kernel))
  exact ⟨haccepts, hsame.mpr (by decide)⟩

theorem label_cut_at_zero : ∃ t b, fromCsv plainPython [97, 0, 98, 44, 49, 44, 50, 44, 44, 52] =
    .ok t ∧
    verify plainPython t = .ok () ∧ toBinary t = .ok b ∧
    loadPartitions false (flashWith b) = [⟨1, 2, 0x5000, 4, [97], false⟩] ∧
    t.map (·.name.take 16) = [[97, 0, 98]] := by
  have hbinary : toBinary (oneEntry [97, 0, 98]) = .ok (oneEntryBytes [97, 0, 98]) := by
    decide +kernel
  refine ⟨oneEntry [97, 0, 98], _, by decide +kernel, by decide +kernel, hbinary, ?_, rfl⟩
  decide +kernel

end EspIdf.PartitionTable
