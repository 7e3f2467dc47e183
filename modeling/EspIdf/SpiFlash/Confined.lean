import EspIdf.SpiFlash.Bounds

/-! Accesses to a partition.  When the sum of the check does not overflow, the range checked is the
one accessed, and only what the flash is accessed in (words, rows, pages) can reach out of the
partition. -/

namespace EspIdf.SpiFlash

open EspIdf.Device

/-- If the access goes on, its range ends in the partition, and no byte outside is touched. -/
def Confined {α : Type} (p : Partition) (offset size : Nat) (prog : FlashProg α) : Prop :=
  (prog.Makes FlashOp.GoesOn → offset + size ≤ p.size) ∧
    Stays p.address (p.address + p.size) prog

namespace Partition

def WordsOk (p : Partition) (offset size : Nat) : Prop :=
  offset + size < 2 ^ 32 ∧ p.address ≤ align4 (p.address + offset) ∧
    up4 (p.address + offset + size) ≤ p.address + p.size

def RowsOk (p : Partition) (offset size : Nat) : Prop :=
  offset + size < 2 ^ 32 ∧ p.address ≤ down32 (p.address + offset) ∧
    up32 (p.address + offset + size) ≤ p.address + p.size

/-- The sum of the check does not overflow, or that of the check in `spi_flash_mmap` fails. -/
def MapOk (chipSize : Nat) (p : Partition) (offset size : Nat) : Prop :=
  offset + size < 2 ^ 32 ∨
    chipSize < add32 ((p.address + offset) / mmuPageSize * mmuPageSize) size

def CoverOk (p : Partition) (offset size : Nat) : Prop :=
  (p.address + offset) % mmuPageSize + size ≤ pageCountOf size * mmuPageSize ∨ 64 ≤ pageCountOf size

def ReadOk (chipSize : Nat) (p : Partition) (offset size : Nat) : Prop :=
  p.check offset size = none → 0 < size →
    if p.encrypted then p.MapOk chipSize offset size ∧
      (offset + size < 2 ^ 32 → p.CoverOk offset size)
    else p.WordsOk offset size

def WriteOk (p : Partition) (offset size : Nat) : Prop :=
  p.check offset size = none → 0 < size →
    if p.encrypted then (p.address + offset) % 16 = 0 → size % 16 = 0 → p.RowsOk offset size
    else p.WordsOk offset size

def EraseOk (p : Partition) (offset size : Nat) : Prop :=
  p.check offset size = none → size % secSize = 0 → offset % secSize = 0 → p.address % secSize = 0 →
    offset + size < 2 ^ 32

end Partition

section Partitions

variable {chipSize : Nat} {p : Partition} {offset size : Nat}

theorem check_none : p.check offset size = none ↔ offset ≤ p.size ∧ add32 offset size ≤ p.size := by
  unfold Partition.check
  split
  · exact iff_of_false (by simp) (by omega)
  · split
    · exact iff_of_false (by simp) (by omega)
    · exact iff_of_true rfl (by omega)

structure Passed (chipSize : Nat) (p : Partition) (offset size : Nat) : Prop where
  offset_le : offset ≤ p.size
  phys : add32 p.address offset = p.address + offset
  phys_lt : p.address + offset < 2 ^ 32
  sum : add32 (p.address + offset) size ≤ chipSize
  inside : offset + size < 2 ^ 32 → offset + size ≤ p.size
  wraps : ¬ offset + size < 2 ^ 32 → p.size < offset + size ∧ 0 < size

theorem passed (hchip : chipSize < 2 ^ 32) (hinside : p.address + p.size ≤ chipSize)
    (hsize : size < 2 ^ 32) (h : p.check offset size = none) : Passed chipSize p offset size := by
  rw [check_none] at h
  unfold add32 at h
  have hsum : add32 (p.address + offset) size ≤ chipSize := by
    unfold add32
    omega
  exact ⟨h.1, Nat.mod_eq_of_lt (by omega), by omega, hsum, by omega, by omega⟩

theorem confined_ret (a : α) : Confined p offset size (Prog.ret a) := ⟨False.elim, trivial⟩

theorem Passed.confined_iff {prog : FlashProg α} (hp : Passed chipSize p offset size)
    (hgo : ¬ offset + size < 2 ^ 32 → prog.Makes FlashOp.GoesOn)
    (hstay : offset + size ≤ p.size → (Stays p.address (p.address + p.size) prog ↔ C)) :
    Confined p offset size prog ↔ offset + size < 2 ^ 32 ∧ C := by
  by_cases hlt : offset + size < 2 ^ 32
  · have hle := hp.inside hlt
    exact ⟨fun h => ⟨hlt, (hstay hle).mp h.2⟩, fun h => ⟨fun _ => hle, (hstay hle).mpr h.2⟩⟩
  · have := hp.wraps hlt
    exact iff_of_false (fun h => by have := h.1 (hgo hlt); omega) (fun h => hlt h.1)

section Passed

variable (hchip : chipSize < 2 ^ 32) (hinside : p.address + p.size ≤ chipSize)
  (hsize : size < 2 ^ 32)
include hchip hinside hsize

theorem read_confined_iff (henc : p.encrypted = false) (t : Mmu) (dsti : Nat) (dst : Bytes) :
    Confined p offset size (espPartitionRead chipSize t p offset dsti size dst) ↔
      p.ReadOk chipSize offset size := by
  unfold Partition.ReadOk espPartitionRead
  cases hcheck : p.check offset size with
  | some err => exact iff_of_true (confined_ret _) fun h => by cases h
  | none =>
    have hp := passed hchip hinside hsize hcheck
    simp only [henc, hp.phys, forall_true_left]
    rw [if_pos (by simp)]
    by_cases hpos : 0 < size
    · rw [forall_prop_of_true hpos]
      refine hp.confined_iff (fun _ => (spiFlashRead_makes hp.sum hpos).bind _) fun hle => ?_
      have hread : Stays p.address (p.address + p.size)
          (spiFlashRead chipSize (p.address + offset) dsti size dst) ↔ _ :=
        spiFlashRead_iff (by omega) dst (by omega) (by omega) hinside hpos
      rw [← hread]
      exact ⟨fun h => h.of_bind, fun h => h.bind fun _ _ => trivial⟩
    · refine iff_of_true ?_ fun h => absurd h hpos
      rw [spiFlashRead, if_neg (by have := hp.sum; omega), if_pos (by omega)]
      exact confined_ret _

theorem write_confined_iff (direct : Bool) (t : Mmu) (src : Bytes) (buf : List UInt8) :
    Confined p offset size (espPartitionWrite chipSize direct t p offset src size buf) ↔
      p.WriteOk offset size := by
  unfold Partition.WriteOk espPartitionWrite
  cases hcheck : p.check offset size with
  | some err => exact iff_of_true (confined_ret _) fun h => by cases h
  | none =>
    have hp := passed hchip hinside hsize hcheck
    simp only [hp.phys, forall_true_left]
    by_cases henc : p.encrypted = true
    · simp only [henc, if_true]
      by_cases halign : (p.address + offset) % 16 = 0 ∧ size % 16 = 0
      swap
      · refine iff_of_true ?_ fun _ h1 h2 => absurd ⟨h1, h2⟩ halign
        unfold spiFlashWriteEncrypted
        split
        · exact confined_ret _
        · rw [if_pos (by omega)]
          exact confined_ret _
      by_cases hpos : 0 < size
      · simp only [hpos, halign, forall_true_left]
        exact hp.confined_iff
          (fun _ => spiFlashWriteEncrypted_makes hp.phys_lt halign.1 halign.2 hpos) fun hle =>
          spiFlashWriteEncrypted_iff (by omega) halign.1 halign.2 (by omega) (by omega) hpos
      · refine iff_of_true ?_ fun h => absurd h hpos
        obtain rfl : size = 0 := by omega
        unfold spiFlashWriteEncrypted
        rw [if_neg (by omega)]
        refine ⟨fun h => ?_, ?_⟩
        · exact hp.offset_le
        · refine Prog.Within.op_bind trivial fun rc => ?_
          split <;> trivial
    · simp only [henc, Bool.false_eq_true, if_false]
      by_cases hpos : 0 < size
      · rw [forall_prop_of_true hpos]
        exact hp.confined_iff (fun _ => spiFlashWrite_makes hp.sum hpos) fun hle =>
          spiFlashWrite_iff (by omega) (by omega) (by omega) hinside hpos
      · refine iff_of_true ?_ fun h => absurd h hpos
        rw [spiFlashWrite, if_neg (by have := hp.sum; omega), if_pos (by omega)]
        exact confined_ret _

theorem erase_confined_iff :
    Confined p offset size (espPartitionEraseRange chipSize p offset size) ↔
      p.EraseOk offset size := by
  have hsec : secSize = 4096 := rfl
  unfold Partition.EraseOk espPartitionEraseRange
  cases hcheck : p.check offset size with
  | some err => exact iff_of_true (confined_ret _) fun h => by cases h
  | none =>
    have hp := passed hchip hinside hsize hcheck
    simp only [hp.phys, forall_true_left]
    by_cases h1 : size % secSize = 0
    swap
    · rw [if_pos h1]
      exact iff_of_true (confined_ret _) fun h => absurd h h1
    by_cases h2 : offset % secSize = 0
    swap
    · rw [if_neg (not_not.mpr h1), if_pos h2]
      exact iff_of_true (confined_ret _) fun _ h => absurd h h2
    rw [if_neg (not_not.mpr h1), if_neg (not_not.mpr h2)]
    rw [hsec] at h1 h2 ⊢
    by_cases h3 : p.address % 4096 = 0
    swap
    · rw [spiFlashEraseRange, if_pos (by rw [hsec]; omega)]
      exact iff_of_true (confined_ret _) fun _ _ h => absurd h h3
    simp only [h1, h2, h3, forall_true_left]
    have hsum : add32 size (p.address + offset) ≤ chipSize := by
      rw [add32, Nat.add_comm]
      exact hp.sum
    have hmain : Confined p offset size (spiFlashEraseRange chipSize (p.address + offset) size) ↔
        offset + size < 2 ^ 32 ∧ True := hp.confined_iff
      (fun h => spiFlashEraseRange_makes hsum (by rw [hsec]; omega) (by rw [hsec]; omega)
        (hp.wraps h).2)
      fun hle => ?_
    · rw [hmain, and_true]
    · refine iff_of_true ?_ trivial
      unfold spiFlashEraseRange
      rw [hsec, if_neg (by omega), if_neg (by omega), if_neg (by omega)]
      refine Prog.Within.op_bind trivial fun rc => ?_
      split
      · refine Prog.Within.bind (eraseLoop_stays (by omega) ?_ ?_ ?_) fun _ _ => trivial
        · omega
        · omega
        · omega
      · trivial

theorem mmap_confined_iff (t : Mmu) (memory : Memory) :
    Confined p offset size (espPartitionMmap chipSize t p offset size memory) ↔
      (p.check offset size = none → p.MapOk chipSize offset size) := by
  unfold espPartitionMmap
  cases hcheck : p.check offset size with
  | some err => exact iff_of_true (confined_ret _) fun h => by cases h
  | none =>
    have hp := passed hchip hinside hsize hcheck
    simp only [hp.phys, forall_true_left]
    have hpage : (p.address + offset) / 0x10000 * 0x10000 % mmuPageSize = 0 := Nat.mul_mod_left _ _
    have hmakes : (mmapCall chipSize t _ size memory).Makes FlashOp.GoesOn ↔ _ :=
      mmapCall_makes hpage
    constructor
    · intro h
      by_contra hnot
      rw [Partition.MapOk, not_or] at hnot
      have := h.1 ((hmakes.mpr (by exact Nat.le_of_not_lt hnot.2)).bind _)
      omega
    · rintro (hlt | hbig)
      · exact ⟨fun _ => hp.inside hlt, Prog.Within.bind mmapCall_within fun _ _ => trivial⟩
      · rw [mmapCall, if_pos (.inr hbig)]
        exact confined_ret _

end Passed

/-- Tables that show `n` pages from `page` on in the first entries, and in the others a page past
the end of every chip. -/
def shownFirst (page n : Nat) : Mmu where
  proTable i := if i < n then page + i else 65536
  appTable i := if i < n then page + i else 65536
  refcnt i := if i = 0 then 1 else 0
  entries := []
  lastHandle := 0
  writtenPages _ := false

theorem shownFirst_mmap (hsrc : srcAddr % mmuPageSize = 0) (hchip : add32 srcAddr size ≤ chipSize)
    (hcount : pageCountOf size < 64) :
    ∃ out, spiFlashMmap chipSize true (shownFirst (srcAddr / mmuPageSize) (pageCountOf size))
      srcAddr
        size .data = some out ∧
      out.mapped = some (Memory.data.regionAddr, 1) ∧ out.mmu.proTable (pageCountOf size) =
        65536 := by
  set t := shownFirst (srcAddr / mmuPageSize) (pageCountOf size) with ht
  have hpro : ∀ i, (t.prepared srcAddr size).proTable i = t.proTable i ∧
      (t.prepared srcAddr size).appTable i = t.appTable i := fun _ => ⟨rfl, rfl⟩
  have hshow : ∀ k < pageCountOf size, t.proTable k = srcAddr / mmuPageSize + k ∧
      t.appTable k = srcAddr / mmuPageSize + k := by
    intro k hk
    simp only [ht, shownFirst, if_pos hk, and_self]
  have hstart : (t.prepared srcAddr size).searchEnd srcAddr size .data = 0 := by
    have hfits : (t.prepared srcAddr size).fits 0 (srcAddr / mmuPageSize) (pageCountOf size) =
        true := by
      rw [Mmu.fits_iff]
      intro k hk _
      rw [Nat.zero_add]
      exact (hshow k hk).1
    have hrounds : ((Memory.data.regionBegin : Int) + Memory.data.regionSize - pageCountOf size -
        Memory.data.regionBegin).toNat = 63 - pageCountOf size + 1 := by
      have h2 : (Memory.data.regionSize : Int) = 64 := rfl
      omega
    rw [Mmu.searchEnd, hrounds, Mmu.findStart]
    exact if_pos hfits
  have hmay : (t.prepared srcAddr size).MayShow 0 (srcAddr / mmuPageSize) (pageCountOf size) := by
    intro k hk
    have hk' := hshow k hk
    refine ⟨by rw [show mmuPageCount = 256 from rfl]; omega, .inr ?_⟩
    rw [Nat.zero_add]
    exact hk'
  obtain ⟨out, hout⟩ := @mapAt_of .data 0 (t.ensureUnmodifiedRegion srcAddr size).2 _ _ _ hmay
  obtain ⟨-, -, hmapped, hmmu, -⟩ := mapAt_some hout
  refine ⟨out, ?_, hmapped, ?_⟩
  · rw [spiFlashMmap_eq hsrc hchip, if_neg, hstart]
    · exact hout
    · have h2 : (Memory.data.regionSize : Int) = 64 := rfl
      omega
  · rw [hmmu]
    simp only [Mmu.withPages, Nat.zero_add, Nat.lt_irrefl, and_false, if_false, (hpro _).1]
    simp only [ht, shownFirst, Nat.lt_irrefl, if_false]

theorem read_encrypted_confined_iff (hchip : chipSize < 2 ^ 32)
    (hinside : p.address + p.size ≤ chipSize) (hsize : size < 2 ^ 32) (henc : p.encrypted = true) :
    (∀ t dsti dst, Confined p offset size (espPartitionRead chipSize t p offset dsti size dst)) ↔
      p.ReadOk chipSize offset size := by
  unfold Partition.ReadOk
  cases hcheck : p.check offset size with
  | some err =>
    refine iff_of_true (fun t dsti dst => ?_) fun h => by cases h
    simp only [espPartitionRead, hcheck]
    exact confined_ret _
  | none =>
    have hp := passed hchip hinside hsize hcheck
    have hps : mmuPageSize = 65536 := rfl
    have hpage : (p.address + offset) / 0x10000 * 0x10000 % mmuPageSize = 0 := Nat.mul_mod_left _ _
    simp only [espPartitionRead, espPartitionMmap, hcheck, henc, hp.phys, forall_true_left, if_true,
      not_true_eq_false, if_false, Prog.bind_eq, Prog.bind_assoc, Prog.pure_eq, Prog.ret_bind]
    constructor
    · intro h hpos
      constructor
      · by_contra hnot
        rw [Partition.MapOk, not_or] at hnot
        have := (h bootPage5 0 Bytes.blank).1
          (((mmapCall_makes hpage).mpr (Nat.le_of_not_lt hnot.2)).bind _)
        omega
      · intro hlt
        by_contra hnot
        rw [Partition.CoverOk, hps] at hnot
        have hle := hp.inside hlt
        have hcheck' : add32 ((p.address + offset) / 0x10000 * 0x10000) size ≤ chipSize := by
          rw [add32_eq (n := chipSize) (by omega) hchip]
          omega
        obtain ⟨out, hout, hmapped, hpast⟩ := shownFirst_mmap hpage hcheck' (by omega)
        have h := (h _ 0 Bytes.blank).2.of_returns (mmapCall_returns ⟨hpage, hcheck'⟩ hout)
        simp only [hmapped, Option.map_some] at h
        -- the first byte past the mapped pages
        have hmax : max ((p.address + offset) % 0x10000) (pageCountOf size * 65536) <
            Memory.data.regionSize * mmuPageSize := by
          rw [show Memory.data.regionSize = 64 from rfl]
          omega
        obtain ⟨hentry, -⟩ := mmuEntry_window .data hmax
        rw [show Memory.data.regionBegin = 0 from rfl, Nat.zero_add, hps] at hentry
        obtain ⟨byte, -, hbyte, hpro, -⟩ := h.1 (Memory.data.regionAddr +
          max ((p.address + offset) % 0x10000) (pageCountOf size * 65536)) (by omega) (by omega)
          (Nat.add_lt_add_left hmax _)
        rw [hentry, show max ((p.address + offset) % 0x10000) (pageCountOf size * 65536) / 65536 =
          pageCountOf size by omega, hpast] at hpro
        omega
    · intro h t dsti dst
      constructor
      · intro hgo
        by_cases hlt : offset + size < 2 ^ 32
        · exact hp.inside hlt
        · obtain ⟨hmap, -⟩ := h (hp.wraps hlt).2
          rw [mmapCall, if_pos (.inr (hmap.resolve_left hlt))] at hgo
          exact hgo.elim
      · refine Prog.Within.bind mmapCall_within ?_
        rintro out ⟨mallocOk, hout⟩
        rcases spiFlashMmap_some hout with ⟨-, hmapped, -⟩ | ⟨-, hadd, start, hmade⟩
        · simp only [hmapped, Option.map_none]
          trivial
        · simp only [hmade.mapped, Option.map_some]
          refine Prog.Within.op_bind ?_ fun bs => munmapCall_stays _
          by_cases hpos : 0 < size
          · obtain ⟨hmap, hcover⟩ := h hpos
            have hlt : offset + size < 2 ^ 32 := hmap.resolve_right (by rw [hps]; omega)
            have hle := hp.inside hlt
            have hcover := hcover hlt
            exact cached_inside hmade hpage hcover (by omega) (by omega)
          · intro k hk hk'
            omega

end Partitions

/-- The four accesses to a partition inside the chip stay in it, for every offset and size and in
every state of the MMU, if and only if these conditions on the offset and the size hold. -/
theorem partition_accesses_confined {chipSize : Nat} {p : Partition} {offset size : Nat}
    (hchip : chipSize < 2 ^ 32) (hinside : p.address + p.size ≤ chipSize) (hsize : size < 2 ^ 32) :
    ((∀ t dsti dst, Confined p offset size (espPartitionRead chipSize t p offset dsti size dst)) ↔
      p.ReadOk chipSize offset size) ∧
    ((∀ direct t src buf,
      Confined p offset size (espPartitionWrite chipSize direct t p offset src size buf)) ↔
      p.WriteOk offset size) ∧
    (Confined p offset size (espPartitionEraseRange chipSize p offset size) ↔
      p.EraseOk offset size) ∧
    ((∀ t memory, Confined p offset size (espPartitionMmap chipSize t p offset size memory)) ↔
      (p.check offset size = none → p.MapOk chipSize offset size)) := by
  refine ⟨?_, ?_, erase_confined_iff hchip hinside hsize, ?_⟩
  · cases henc : p.encrypted with
    | false =>
      have h := @read_confined_iff chipSize p offset size hchip hinside hsize henc
      exact ⟨fun hall => (h bootPage5 0 Bytes.blank).mp (hall _ _ _), fun hok t dsti dst =>
        (h t dsti dst).mpr hok⟩
    | true => exact read_encrypted_confined_iff hchip hinside hsize henc
  · have h := @write_confined_iff chipSize p offset size hchip hinside hsize
    exact ⟨fun hall => (h true bootPage5 Bytes.blank []).mp (hall _ _ _ _),
      fun hok direct t src buf =>
      (h direct t src buf).mpr hok⟩
  · have h := @mmap_confined_iff chipSize p offset size hchip hinside hsize
    exact ⟨fun hall => (h bootPage5 .data).mp (hall _ _), fun hok t memory => (h t memory).mpr hok⟩

theorem partition_accesses_confined_100 : (∀ t dsti dst, Confined ⟨0x10000, 0x10000, false⟩ 0 100
      (espPartitionRead 0x400000 t ⟨0x10000, 0x10000, false⟩ 0 dsti 100 dst)) ∧
    (∀ direct t src buf, Confined ⟨0x10000, 0x10000, false⟩ 0 100
      (espPartitionWrite 0x400000 direct t ⟨0x10000, 0x10000, false⟩ 0 src 100 buf)) := by
  obtain ⟨hread, hwrite, -, -⟩ := @partition_accesses_confined 0x400000
    ⟨0x10000, 0x10000, false⟩ 0 100
    (by decide) (by decide) (by decide)
  exact ⟨hread.mpr fun _ _ => ⟨by decide, by decide, by decide⟩,
    hwrite.mpr fun _ _ => ⟨by decide, by decide, by decide⟩⟩

theorem partition_erase_leaves : Partition.check ⟨0x10000, 0x10000, false⟩ 0xf000 0xffff1000 =
    none ∧
    (espPartitionEraseRange 0x400000 ⟨0x10000, 0x10000, false⟩ 0xf000 0xffff1000).Makes
      fun o => o = .eraseBlock 2 := by
  refine ⟨by decide, ?_⟩
  have hloop : (eraseLoop (31 + 0xffff1) (0xfffef + 1 + 1) 31).Makes fun o =>
      o = .eraseBlock 2 := by
    refine Prog.Makes.after RomResult.ok ?_
    exact Prog.Makes.op rfl
  refine Prog.Makes.after RomResult.ok ?_
  exact hloop.bind _

end EspIdf.SpiFlash
