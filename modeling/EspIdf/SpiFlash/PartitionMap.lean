import EspIdf.SpiFlash.Mapping
import EspIdf.SpiFlash.Ops

/-! What a mapping shows, and whether `esp_partition_mmap` maps the whole range it is asked for. -/

namespace EspIdf.SpiFlash

open EspIdf.Device

def mmuEntry (va : Nat) : Nat :=
  if va < vaddr1StartAddr then (va - vaddr0StartAddr) / mmuPageSize
  else (va - vaddr1StartAddr) / mmuPageSize + 64

/-- The address `va` lies in the window and on an MMU page that `out` mapped, and both CPUs read the
flash byte `byte` there. -/
structure Backed (out : MmapOut) (memory : Memory) (va byte : Nat) : Prop where
  window : va < memory.regionAddr + memory.regionSize * mmuPageSize
  made : ∃ entry rest, out.mmu.entries = entry :: rest ∧ entry.page ≤ mmuEntry va ∧
    mmuEntry va < entry.page + entry.count
  pro : out.mmu.proTable (mmuEntry va) * mmuPageSize + va % mmuPageSize = byte
  app : out.mmu.appTable (mmuEntry va) * mmuPageSize + va % mmuPageSize = byte

theorem mmuEntry_window (memory : Memory) (hk : k < memory.regionSize * mmuPageSize) :
    mmuEntry (memory.regionAddr + k) = memory.regionBegin + k / mmuPageSize ∧
      (memory.regionAddr + k) % mmuPageSize = k % mmuPageSize := by
  have hps : mmuPageSize = 65536 := rfl
  have hv0 : vaddr0StartAddr = 0x3F400000 := rfl
  have hv1 : vaddr1StartAddr = 0x40000000 := rfl
  cases memory with
  | data =>
    have ha : Memory.data.regionAddr = 0x3F400000 := rfl
    have hs : Memory.data.regionSize = 64 := rfl
    have hb : Memory.data.regionBegin = 0 := rfl
    rw [hs, hps] at hk
    rw [mmuEntry, if_pos (by omega), hps]
    omega
  | inst =>
    have ha : Memory.inst.regionAddr = 0x400D0000 := rfl
    have hb : Memory.inst.regionBegin = 77 := rfl
    rw [mmuEntry, if_neg (by omega), hps]
    omega

section Made

variable {t : Mmu} {srcAddr size start : Nat} {memory : Memory} {out : MmapOut}

theorem MadeAt.backed (h : MadeAt t srcAddr size memory out start)
    (hsrc : srcAddr % mmuPageSize = 0)
    (hj : j < pageCountOf size * mmuPageSize)
    (hw : (start - memory.regionBegin) * mmuPageSize + j < memory.regionSize * mmuPageSize) :
    Backed out memory (memory.regionAddr + (start - memory.regionBegin) * mmuPageSize + j)
      (srcAddr + j) := by
  obtain ⟨hentry, hmod⟩ := mmuEntry_window memory hw
  have hfirst := h.first
  have hdiv : ((start - memory.regionBegin) * mmuPageSize + j) / mmuPageSize =
      start - memory.regionBegin + j / mmuPageSize := by
    rw [Nat.add_comm, Nat.add_mul_div_right _ _ (by decide), Nat.add_comm]
  have hjdiv : j / mmuPageSize < pageCountOf size :=
    Nat.div_lt_of_lt_mul (by rwa [Nat.mul_comm] at hj)
  have hentry' : mmuEntry (memory.regionAddr + (start - memory.regionBegin) * mmuPageSize + j) =
      start + j / mmuPageSize := by
    rw [Nat.add_assoc]
    omega
  have hmod' : (memory.regionAddr + (start - memory.regionBegin) * mmuPageSize + j) % mmuPageSize =
      j % mmuPageSize := by
    rw [Nat.add_assoc, hmod, Nat.add_comm, Nat.add_mul_mod_self_right]
  have hbyte : (srcAddr / mmuPageSize + j / mmuPageSize) * mmuPageSize + j % mmuPageSize =
      srcAddr + j := by
    have h1 := Nat.div_add_mod srcAddr mmuPageSize
    have h2 := Nat.div_add_mod j mmuPageSize
    rw [Nat.add_mul, Nat.mul_comm _ mmuPageSize, Nat.mul_comm _ mmuPageSize]
    omega
  have hin : start ≤ start + j / mmuPageSize ∧ start + j / mmuPageSize < start + pageCountOf size :=
    ⟨Nat.le_add_right _ _, Nat.add_lt_add_left hjdiv _⟩
  refine ⟨by omega, ⟨_, _, by rw [h.mmu], ?_⟩, ?_, ?_⟩
  · rw [hentry']
    exact hin
  · rw [hentry', hmod', h.mmu]
    simp only [Mmu.withPages, if_pos hin, Nat.add_sub_cancel_left, hbyte]
  · rw [hentry', hmod', h.mmu]
    simp only [Mmu.withPages, if_pos hin, Nat.add_sub_cancel_left, hbyte]

theorem MadeAt.not_backed (h : MadeAt t srcAddr size memory out start) {j byte : Nat}
    (hj : pageCountOf size * mmuPageSize ≤ j) :
    ¬ Backed out memory (memory.regionAddr + (start - memory.regionBegin) * mmuPageSize + j)
      byte := by
  intro hb
  have hw := hb.window
  obtain ⟨hentry, -⟩ := mmuEntry_window memory (k := (start - memory.regionBegin) * mmuPageSize + j)
    (by omega)
  obtain ⟨entry, rest, he, hpage, hlt⟩ := hb.made
  rw [h.mmu] at he
  simp only [List.cons.injEq] at he
  have hdiv : ((start - memory.regionBegin) * mmuPageSize + j) / mmuPageSize =
      start - memory.regionBegin + j / mmuPageSize := by
    rw [Nat.add_comm, Nat.add_mul_div_right _ _ (by decide), Nat.add_comm]
  have hjdiv : pageCountOf size ≤ j / mmuPageSize :=
    (Nat.le_div_iff_mul_le (by decide)).mpr hj
  rw [Nat.add_assoc, ← he.1] at hlt
  simp only at hlt
  omega

end Made

theorem spiFlashMmap_refused (hcheck : srcAddr % mmuPageSize ≠ 0 ∨ add32 srcAddr size > chipSize) :
    spiFlashMmap chipSize mallocOk t srcAddr size memory = some ⟨.invalidArg, none, t, false⟩ := by
  unfold spiFlashMmap
  by_cases h1 : srcAddr % mmuPageSize ≠ 0
  · rw [if_pos h1]
  · rw [if_neg h1, if_pos (hcheck.resolve_left h1)]

theorem mmapCall_run {chipSize : Nat} {srcAddr size : Nat}
    (h : Prog.run exec (mmapCall chipSize t srcAddr size memory) m = some (out, m')) :
    ∃ mallocOk, spiFlashMmap chipSize mallocOk t srcAddr size memory = some out := by
  unfold mmapCall at h
  split at h
  · rename_i hcheck
    cases h
    exact ⟨true, spiFlashMmap_refused hcheck⟩
  · simp only [Prog.bind_eq, Prog.op_bind, Prog.run_call] at h
    generalize (exec FlashOp.malloc m).1 = mallocOk at h
    refine ⟨mallocOk, ?_⟩
    cases hmmap : spiFlashMmap chipSize mallocOk t srcAddr size memory with
    | none =>
      rw [hmmap] at h
      cases h
    | some out' =>
      rw [hmmap] at h
      simp only at h
      split at h
      · cases h
        rfl
      · cases h
        rfl

/-- A mapping that `esp_partition_mmap` returns shows the whole range if and only if the range ends
on the last page that its length alone asks for, and the window has that many pages. -/
theorem partition_mmap_covers_iff {Mem : Type} {exec : (o : FlashOp) → Mem → o.Ret × Mem}
    {m m' : Mem} {chipSize : Nat} {t : Mmu} {p : Partition} {offset size : Nat} {memory : Memory}
    {out : MmapOut} (hchip : chipSize < 2 ^ 32) (hinside : p.address + p.size ≤ chipSize)
    (hrange : offset + size ≤ p.size)
    (hrun : Prog.run exec (espPartitionMmap chipSize t p offset size memory) m = some (out, m'))
    (hok : out.err = .ok) :
    ∃ ptr handle, out.mapped = some (ptr, handle) ∧
      ((∀ i < size, Backed out memory (ptr + i) (p.address + offset + i)) ↔
        size = 0 ∨ (p.address + offset) % mmuPageSize + size ≤ pageCountOf size * mmuPageSize ∧
          pageCountOf size ≤ memory.regionSize) := by
  have hadd : add32 offset size = offset + size := Nat.mod_eq_of_lt (by omega)
  have hphys : add32 p.address offset = p.address + offset := Nat.mod_eq_of_lt (by omega)
  have hcheck : p.check offset size = none := by
    unfold Partition.check
    rw [if_neg (by omega), if_neg (by omega)]
  unfold espPartitionMmap at hrun
  simp only [hcheck, hphys, Prog.bind_eq, Prog.run_bind, Prog.pure_eq, Prog.run_ret] at hrun
  obtain ⟨⟨out0, m1⟩, hcall, hrest⟩ := Option.bind_eq_some_iff.mp hrun
  obtain ⟨rfl, -⟩ := hrest
  obtain ⟨mallocOk, hmmap⟩ := mmapCall_run hcall
  rcases spiFlashMmap_some hmmap with ⟨herr, -⟩ | ⟨hsrc, -, start, hmade⟩
  · exact absurd hok herr
  set src := (p.address + offset) / 0x10000 * 0x10000 with hsrcdef
  set ro := (p.address + offset) % 0x10000 with hro
  have hlast := hmade.last
  refine ⟨memory.regionAddr + (start - memory.regionBegin) * mmuPageSize + ro, add32 t.lastHandle 1,
    by simp only [hmade.mapped, Option.map_some], ?_⟩
  have hva : ∀ i, memory.regionAddr + (start - memory.regionBegin) * mmuPageSize + ro + i =
      memory.regionAddr + (start - memory.regionBegin) * mmuPageSize + (ro + i) := by omega
  have hout : ∀ va byte, Backed { out0 with mapped := out0.mapped.map fun m => (m.1 + ro, m.2) }
      memory va byte ↔ Backed out0 memory va byte := fun va byte =>
    ⟨fun h => ⟨h.window, h.made, h.pro, h.app⟩, fun h => ⟨h.window, h.made, h.pro, h.app⟩⟩
  simp only [hout, hva]
  have hps : mmuPageSize = 65536 := rfl
  constructor
  · intro hall
    by_cases hsize : size = 0
    · exact .inl hsize
    right
    have hlastByte := hall (size - 1) (by omega)
    constructor
    · by_contra hnot
      exact hmade.not_backed (by rw [hps] at hnot ⊢; omega) hlastByte
    · have hw := hlastByte.window
      have hcount : pageCountOf size ≤ (size + 65535) / 65536 := by
        exact Nat.div_le_div_right (Nat.mod_le _ _)
      rw [hps] at hw
      omega
  · rintro (rfl | ⟨hcover, hcount⟩) i hi
    · omega
    have hb := hmade.backed hsrc (j := ro + i) (by rw [hps] at hcover ⊢; omega) ?_
    · rwa [show p.address + offset + i = src + (ro + i) by omega]
    · rw [hps] at hcover ⊢
      omega

def quiet : (o : FlashOp) → Unit → o.Ret × Unit
  | .unlock, m => (.ok, m)
  | .malloc, m => (true, m)
  | .cacheFlush, m => ((), m)
  | .read _ len, m => ((.ok, List.replicate len 0xff), m)
  | .write _ _, m => (.ok, m)
  | .writeEncrypted _ row, m => ((.ok, row), m)
  | .eraseSector _, m => (.ok, m)
  | .eraseBlock _, m => (.ok, m)
  | .cached _ _ size, m => (List.replicate size 0xff, m)

theorem partition_mmap_covers_half_page : ∃ out,
    Prog.run quiet (espPartitionMmap 0x400000 bootPage5 ⟨0x18000, 0x20000, false⟩ 0 0x8000 .data)
      () =
      some (out, ()) ∧ out.err = .ok ∧ ∃ ptr handle, out.mapped = some (ptr, handle) ∧
      ∀ i < 0x8000, Backed out .data (ptr + i) (0x18000 + 0 + i) := by
  have hrun : ∃ out, Prog.run quiet
      (espPartitionMmap 0x400000 bootPage5 ⟨0x18000, 0x20000, false⟩ 0 0x8000 .data) () =
      some (out, ()) ∧ out.err = .ok := ⟨_, rfl, rfl⟩
  obtain ⟨out, hout, hok⟩ := hrun
  obtain ⟨ptr, handle, hmapped, hiff⟩ :=
    partition_mmap_covers_iff (by decide) (by decide) (by decide) hout hok
  exact ⟨out, hout, hok, ptr, handle, hmapped, hiff.mpr (.inr (by decide))⟩

theorem partition_mmap_misses_tail : ∃ out,
    Prog.run quiet (espPartitionMmap 0x400000 bootPage5 ⟨0x18000, 0x20000, false⟩ 0 0x10000 .data)
      ()
      = some (out, ()) ∧ out.err = .ok ∧ out.mapped = some (0x3F418000, 1) ∧
      ¬ Backed out .data (0x3F418000 + 0x8000) (0x18000 + 0x8000) := by
  refine ⟨_, rfl, rfl, rfl, fun hb => ?_⟩
  obtain ⟨entry, rest, he, -, hlt⟩ := hb.made
  have hentry : [⟨1, 1, 1⟩] = entry :: rest := he
  cases hentry
  exact absurd hlt (by decide)

end EspIdf.SpiFlash
