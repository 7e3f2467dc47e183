import EspIdf.SpiFlash.PartitionMap

/-! Which flash bytes the accesses to a partition reach.  The bounds are checked with sums of 32
bits, for the partition and for the chip: what matters is whether the first one overflows. -/

namespace EspIdf.SpiFlash

open EspIdf.Device
open Prog.Within (answer op_bind)

def FlashOp.GoesOn : FlashOp → Prop
  | unlock => False
  | cacheFlush => False
  | _ => True

/-- The flash bytes that the call reads, programs or erases are at least `lo` and below `hi`.  A
read through the cache is one of the data window. -/
def FlashOp.Inside (lo hi : Nat) : FlashOp → Prop
  | unlock => True
  | malloc => True
  | cacheFlush => True
  | read addr len => lo ≤ addr ∧ addr + len ≤ hi
  | write addr data => lo ≤ addr ∧ addr + data.length ≤ hi
  | writeEncrypted addr _ => lo ≤ addr ∧ addr + 32 ≤ hi
  | eraseSector sector => lo ≤ secSize * sector ∧ secSize * sector + secSize ≤ hi
  | eraseBlock block => lo ≤ 65536 * block ∧ 65536 * block + 65536 ≤ hi
  | cached t va size => ∀ k, va ≤ k → k < va + size →
      k < Memory.data.regionAddr + Memory.data.regionSize * mmuPageSize → ∃ byte, lo ≤ byte ∧
        byte < hi ∧ t.proTable (mmuEntry k) * mmuPageSize + k % mmuPageSize = byte ∧
        t.appTable (mmuEntry k) * mmuPageSize + k % mmuPageSize = byte

abbrev Stays {α : Type} (lo hi : Nat) (p : FlashProg α) : Prop :=
  p.Within (FlashOp.Inside lo hi) fun _ => True

theorem add32_eq {a b n : Nat} (h : a + b ≤ n) (hn : n < 2 ^ 32) : add32 a b = a + b :=
  Nat.mod_eq_of_lt (by omega)

theorem sub32_eq (h : b ≤ a) (ha : a < 2 ^ 32) : sub32 a b = a - b := by
  unfold sub32
  omega

/-! ### Reading -/

def up4 (a : Nat) : Nat := align4 (a + 3)

section Read

variable {lo hi : Nat}

theorem readMid_stays (hhi : hi < 2 ^ 32) (dst : Bytes) (hlo : lo ≤ src)
    (h : src + midRead + midRemaining ≤ hi) :
    Stays lo hi (readMid src dstOff n dst midRead midRemaining) := by
  induction n generalizing dst midRead midRemaining with
  | zero => trivial
  | succ n ih =>
    unfold readMid
    split
    · trivial
    · rw [add32_eq (n := hi) (by omega) hhi]
      refine op_bind ⟨by omega, by omega⟩ fun ⟨rc, bs⟩ => ?_
      by_cases hrc : rc = .ok
      · simpa only [hrc, ne_eq, not_true_eq_false, if_false] using ih _ (by omega)
      · simp only [ne_eq, hrc, not_false_eq_true, if_true]
        trivial

theorem readMid_returns (dst : Bytes) :
    ∃ dst', Prog.Returns (RomResult.ok, dst') (readMid src dstOff n dst midRead midRemaining) := by
  induction n generalizing dst midRead midRemaining with
  | zero => exact ⟨dst, rfl⟩
  | succ n ih =>
    unfold readMid
    split
    · exact ⟨dst, rfl⟩
    · obtain ⟨dst', h⟩ := ih (dst.store (dstOff + midRead) [])
      exact ⟨dst', Prog.Returns.after (RomResult.ok, []) h⟩

structure ReadParts (src dsti size srcMidOff dstMidOff midSize : Nat) : Prop where
  src_lt : srcMidOff < 4
  dst_lt : dstMidOff < 4
  src_aligned : (src + srcMidOff) % 4 = 0
  size_aligned : midSize % 4 = 0
  mid_le : midSize + max srcMidOff dstMidOff ≤ size
  lt_mid : size < midSize + max srcMidOff dstMidOff + 4

theorem readParts (src dsti size : Nat) (h : 16 ≤ size) : ReadParts src dsti size
    (if src % 4 = 0 then 0 else 4 - src % 4) (if dsti % 4 = 0 then 0 else 4 - dsti % 4)
    (align4 (size - max (if src % 4 = 0 then 0 else 4 - src % 4)
      (if dsti % 4 = 0 then 0 else 4 - dsti % 4))) := by
  unfold align4
  constructor <;> split <;> first | omega | (split <;> omega)

theorem readLarge_stays (hhi : hi < 2 ^ 32) {size : Nat} (dst : Bytes) (hlo : lo ≤ align4 src)
    (h : up4 (src + size) ≤ hi) (hsize : 16 ≤ size) :
    Stays lo hi (readLarge src dsti size dst) := by
  unfold up4 align4 at h
  unfold align4 at hlo
  have hp := readParts src dsti size hsize
  unfold readLarge
  simp only [Prog.bind_eq]
  generalize (if src % 4 = 0 then 0 else 4 - src % 4) = srcMidOff at *
  generalize (if dsti % 4 = 0 then 0 else 4 - dsti % 4) = dstMidOff at *
  generalize align4 (size - max srcMidOff dstMidOff) = midSize at *
  obtain ⟨h1, h2, h3, h4, h5, h6⟩ := hp
  have hsrc : add32 src srcMidOff = src + srcMidOff := add32_eq (n := hi) (by omega) hhi
  have hend : add32 (src + srcMidOff) midSize = src + srcMidOff + midSize :=
    add32_eq (n := hi) (by omega) hhi
  have hright : align4 (src + srcMidOff + midSize) = src + srcMidOff + midSize := by
    unfold align4
    omega
  rw [hsrc, hend, hright, sub32_eq (show src ≤ src + srcMidOff + midSize by omega) (by omega),
    sub32_eq (a := size) (by omega) (by omega)]
  refine (readMid_stays hhi dst (by omega) (by omega)).bind fun r _ => ?_
  split
  · trivial
  have hleft : lo ≤ align4 src ∧ align4 src + 4 ≤ hi := by
    unfold align4
    omega
  split
  on_goal 1 => refine op_bind hleft fun r' => ?_
  -- What is behind the middle part is read in the same way with and without a left padding.
  all_goals
    simp only [Prog.pure_eq, Prog.ret_bind]
    split
    · trivial
    split
    · refine op_bind ⟨by omega, ?_⟩ fun r'' => trivial
      split <;> omega
    · trivial

theorem readLarge_touches (hhi : hi < 2 ^ 32) {size : Nat} (hend : src + size ≤ hi)
    (hsize : 16 ≤ size)
    (hlo : lo ≤ src) (h : Stays lo hi (readLarge src dsti size dst)) : lo ≤ align4 src ∧
    up4 (src + size) ≤ hi := by
  have hp := readParts src dsti size hsize
  unfold readLarge at h
  simp only [Prog.bind_eq] at h
  generalize (if src % 4 = 0 then 0 else 4 - src % 4) = srcMidOff at *
  generalize (if dsti % 4 = 0 then 0 else 4 - dsti % 4) = dstMidOff at *
  generalize align4 (size - max srcMidOff dstMidOff) = midSize at *
  obtain ⟨h1, h2, h3, h4, h5, h6⟩ := hp
  have hright : align4 (src + srcMidOff + midSize) = src + srcMidOff + midSize := by
    unfold align4
    omega
  rw [add32_eq (show src + srcMidOff ≤ hi by omega) hhi,
    add32_eq (show src + srcMidOff + midSize ≤ hi by omega) hhi, hright,
    sub32_eq (show src ≤ src + srcMidOff + midSize by omega) (by omega),
    sub32_eq (a := size) (by omega) (by omega)] at h
  obtain ⟨dst', hret⟩ : ∃ dst', Prog.Returns (RomResult.ok, dst')
      (readMid (src + srcMidOff) dstMidOff midSize dst 0 midSize) := readMid_returns dst
  have h := h.of_returns hret
  simp only [ne_eq, not_true_eq_false, if_false] at h
  -- The left padding word is read if the source is not aligned, the right one if the end is not.
  have hpads : lo ≤ align4 src ∧ (size - (src + srcMidOff + midSize - src) > 0 →
    src + srcMidOff + midSize +
        (if size - (src + srcMidOff + midSize - src) ≤ 4 then 4 else 8) ≤ hi) := by
    split at h
    · have h' := answer h (RomResult.ok, [])
      simp only [Prog.pure_eq, Prog.ret_bind, not_true_eq_false, if_false, if_true] at h'
      refine ⟨h.1.1, fun hpad => ?_⟩
      rw [if_pos hpad] at h'
      exact h'.1.2
    · simp only [Prog.pure_eq, Prog.ret_bind, not_true_eq_false, if_false] at h
      refine ⟨?_, fun hpad => ?_⟩
      · unfold align4
        omega
      · rw [if_pos hpad] at h
        exact h.1.2
  obtain ⟨hleft, hpad⟩ := hpads
  refine ⟨hleft, ?_⟩
  unfold up4 align4
  split at hpad <;> omega

theorem spiFlashRead_iff (hhi : hi < 2 ^ 32) {chipSize size : Nat} (dst : Bytes) (hlo : lo ≤ src)
    (hend : src + size ≤ hi) (hchip : hi ≤ chipSize) (hsize : 0 < size) :
    Stays lo hi (spiFlashRead chipSize src dsti size dst) ↔ lo ≤ align4 src ∧ up4 (src + size) ≤
      hi := by
  unfold spiFlashRead
  rw [add32_eq hend hhi, if_neg (by omega), if_neg (by omega)]
  by_cases hsmall : size < 16
  · rw [if_pos hsmall]
    have hword : align4 src + align4 (src % 4 + size + 3) = up4 (src + size) := by
      unfold up4 align4
      omega
    constructor
    · rintro ⟨⟨h1, h2⟩, -⟩
      exact ⟨h1, hword ▸ h2⟩
    · rintro ⟨h1, h2⟩
      refine op_bind ⟨h1, hword ▸ h2⟩ fun ⟨rc, bs⟩ => ?_
      by_cases hrc : rc = .ok
      · simp only [hrc, ne_eq, not_true_eq_false, if_false]
        trivial
      · simp only [ne_eq, hrc, not_false_eq_true, if_true]
        trivial
  · rw [if_neg hsmall]
    constructor
    · intro hstays
      exact readLarge_touches hhi hend (by omega) hlo hstays.of_bind
    · rintro ⟨h1, h2⟩
      exact (readLarge_stays hhi dst h1 h2 (by omega)).bind fun r _ => trivial

end Read

/-! ### Programming -/

section Write

variable {lo hi : Nat}

theorem writeMid_stays (hhi : hi < 2 ^ 32) {midSize : Nat} (hlo : lo ≤ dst + midOff)
    (h : dst + midOff + midSize ≤ hi) :
    Stays lo hi (writeMid direct dst srcv n midOff midSize) := by
  induction n generalizing midOff midSize with
  | zero => trivial
  | succ n ih =>
    unfold writeMid
    split
    · trivial
    · rw [add32_eq (n := hi) (by omega) hhi]
      refine op_bind ⟨by omega, by rw [Bytes.length_read]; omega⟩ fun rc => ?_
      split
      · exact ih (by omega) (by omega)
      · trivial

theorem writeMid_returns {midSize : Nat} :
    Prog.Returns RomResult.ok (writeMid direct dst srcv n midOff midSize) := by
  induction n generalizing midOff midSize with
  | zero => rfl
  | succ n ih =>
    unfold writeMid
    split
    · rfl
    · refine Prog.Returns.after RomResult.ok ?_
      exact ih

structure WriteParts (dst size leftSize midSize rightSize : Nat) : Prop where
  left_lt : leftSize < 4
  left_pos : 0 < leftSize ↔ dst % 4 ≠ 0
  left_end : 0 < leftSize → align4 dst + 4 ≤ up4 (dst + size)
  total : leftSize + midSize + rightSize = size
  right_end : 0 < rightSize → dst + leftSize + midSize + 4 = up4 (dst + size)
  no_right : rightSize = 0 → up4 (dst + size) = dst + size ∨ 0 < leftSize ∧
    up4 (dst + size) = align4 dst + 4

theorem writeParts_parts {dst size : Nat} (hend : dst + size < 2 ^ 32) (hsize : 0 < size) :
    WriteParts dst size (min (sub32 (align4 (add32 dst 3)) dst) size)
      (align4 (size - min (sub32 (align4 (add32 dst 3)) dst) size))
      (size - align4 (size - min (sub32 (align4 (add32 dst 3)) dst) size) -
        min (sub32 (align4 (add32 dst 3)) dst) size) := by
  have hleft : sub32 (align4 (add32 dst 3)) dst = (4 - dst % 4) % 4 := by
    unfold sub32 align4 add32
    omega
  have hpad : (4 - dst % 4) % 4 < 4 ∧ (dst + (4 - dst % 4) % 4) % 4 = 0 := by omega
  rw [hleft]
  generalize (4 - dst % 4) % 4 = pad at hpad ⊢
  rcases Nat.le_total pad size with h | h
  · constructor <;> (try unfold up4) <;> (try unfold align4) <;> omega
  · constructor <;> (try unfold up4) <;> (try unfold align4) <;> omega

theorem writeParts_iff (hhi : hi < 2 ^ 32) {direct : Bool} {dst size : Nat} {srcv : Bytes}
    (hlo : lo ≤ dst) (hend : dst + size ≤ hi) (hsize : 0 < size) :
    Stays lo hi (writeParts direct dst srcv size) ↔ lo ≤ align4 dst ∧ up4 (dst + size) ≤ hi := by
  have hp := @writeParts_parts dst size (by omega) hsize
  unfold writeParts
  simp only [Prog.bind_eq]
  generalize min (sub32 (align4 (add32 dst 3)) dst) size = leftSize at *
  generalize align4 (size - leftSize) = midSize at *
  generalize size - midSize - leftSize = rightSize at *
  obtain ⟨h1, h2, h3, h4, h5, h6⟩ := hp
  rw [add32_eq (show dst + (leftSize + midSize) ≤ hi by omega) hhi]
  have hmid : ∀ f : RomResult → FlashProg RomResult, (∀ rc ≠ .ok, Stays lo hi (f rc)) →
      (Stays lo hi ((writeMid direct dst srcv midSize leftSize midSize).bind f) ↔
        Stays lo hi (f .ok)) := by
    intro f hf
    refine ⟨fun h => h.of_returns writeMid_returns, fun h => ?_⟩
    refine (writeMid_stays hhi (by omega) (by omega)).bind fun rc _ => ?_
    by_cases hrc : rc = .ok
    · exact hrc ▸ h
    · exact hf rc hrc
  have hmid : Stays lo hi ((writeMid direct dst srcv midSize leftSize midSize).bind fun rc =>
      if rc ≠ RomResult.ok then pure rc
      else if rightSize > 0 then
        romWrite (dst + (leftSize + midSize))
          ((Bytes.blank.store 0 (srcv.read (leftSize + midSize) rightSize)).read 0 4)
      else pure RomResult.ok) ↔ (0 < rightSize → dst + (leftSize + midSize) + 4 ≤ hi) := by
    rw [hmid _ fun rc hrc => by rw [if_pos hrc]; trivial, if_neg (by simp)]
    split
    · refine ⟨fun h _ => ?_, fun h => ⟨⟨by omega, ?_⟩, fun _ => trivial⟩⟩
      · have := h.1.2
        rwa [Bytes.length_read] at this
      · exact h ‹_›
    · exact ⟨fun _ h => absurd h ‹_›, fun _ => trivial⟩
  constructor
  · intro h
    have h := answer h RomResult.ok
    rw [if_neg (by simp)] at h
    split at h
    · have hl := h.1.2
      rw [Bytes.length_read] at hl
      have h' := answer h RomResult.ok
      have hr := hmid.mp h'
      exact ⟨h.1.1, by omega⟩
    · have hr := hmid.mp h
      unfold align4
      omega
  · rintro ⟨hl, hu⟩
    refine op_bind trivial fun rc => ?_
    split
    · trivial
    split
    · refine op_bind ⟨hl, by rw [Bytes.length_read]; omega⟩ fun rc => ?_
      split
      · trivial
      exact hmid.mpr (by omega)
    · exact hmid.mpr (by omega)

theorem spiFlashWrite_iff (hhi : hi < 2 ^ 32) {chipSize size : Nat} (hlo : lo ≤ dst)
    (hend : dst + size ≤ hi) (hchip : hi ≤ chipSize) (hsize : 0 < size) :
    Stays lo hi (spiFlashWrite chipSize direct t dst srcv size) ↔
      lo ≤ align4 dst ∧ up4 (dst + size) ≤ hi := by
  unfold spiFlashWrite
  rw [add32_eq hend hhi, if_neg (by omega), if_neg (by omega)]
  rw [← @writeParts_iff lo hi hhi direct dst size srcv hlo hend hsize]
  exact ⟨fun h => h.of_bind, fun h => h.bind fun _ _ => trivial⟩

end Write

/-! ### Erasing -/

theorem eraseLoop_stays (hhi : hi < 2 ^ 32) (hlo : lo ≤ 4096 * sector) (hstop : 4096 * stop ≤ hi)
    (hle : sector ≤ stop) : Stays lo hi (eraseLoop stop n sector) := by
  induction n generalizing sector with
  | zero => trivial
  | succ n ih =>
    unfold eraseLoop
    split
    · trivial
    rw [sub32_eq hle (by omega), show sectorsPerBlock = 16 from rfl]
    split
    · refine op_bind ⟨by omega, by omega⟩ fun rc => ?_
      split
      · exact ih (by omega) (by omega)
      · trivial
    · refine op_bind ⟨hlo, ?_⟩ fun rc => ?_
      · rw [show secSize = 4096 from rfl]
        omega
      split
      · exact ih (by omega) (by omega)
      · trivial

/-! ### Mapping -/

section Map

variable {lo hi chipSize srcAddr size : Nat} {t : Mmu} {memory : Memory}

theorem mmapCall_within : (mmapCall chipSize t srcAddr size memory).Within (FlashOp.Inside lo hi)
    fun out => ∃ mallocOk, spiFlashMmap chipSize mallocOk t srcAddr size memory = some out := by
  unfold mmapCall
  split
  · rename_i hcheck
    exact ⟨true, spiFlashMmap_refused hcheck⟩
  · refine op_bind trivial fun mallocOk => ?_
    cases hmmap : spiFlashMmap chipSize mallocOk t srcAddr size memory with
    | none => trivial
    | some out =>
      simp only
      split
      · exact op_bind trivial fun _ => ⟨mallocOk, hmmap⟩
      · exact ⟨mallocOk, hmmap⟩

theorem mmapCall_returns {out : MmapOut}
    (hcheck : srcAddr % mmuPageSize = 0 ∧ add32 srcAddr size ≤ chipSize) {mallocOk : Bool}
    (h : spiFlashMmap chipSize mallocOk t srcAddr size memory = some out) :
    (mmapCall chipSize t srcAddr size memory).Returns out := by
  unfold mmapCall
  rw [if_neg (by omega)]
  refine Prog.Returns.after mallocOk ?_
  simp only [h]
  split
  · exact Prog.Returns.after () rfl
  · rfl

theorem mmapCall_fails : ∃ out, out.mapped = none ∧
    (mmapCall chipSize t srcAddr size memory).Returns out := by
  by_cases hcheck : srcAddr % mmuPageSize = 0 ∧ add32 srcAddr size ≤ chipSize
  · refine ⟨⟨.noMem, none, t, false⟩, rfl,
      @mmapCall_returns chipSize srcAddr size t memory _ hcheck false ?_⟩
    rw [spiFlashMmap, if_neg (by omega), if_neg (by omega), if_pos (by simp)]
  · refine ⟨⟨.invalidArg, none, t, false⟩, rfl, ?_⟩
    rw [mmapCall, if_pos (by omega)]
    rfl

theorem mmapCall_makes (h : srcAddr % mmuPageSize = 0) :
    (mmapCall chipSize t srcAddr size memory).Makes FlashOp.GoesOn ↔ add32 srcAddr size ≤
      chipSize := by
  unfold mmapCall
  by_cases hle : add32 srcAddr size ≤ chipSize
  · rw [if_neg (by omega)]
    exact iff_of_true (Prog.Makes.op trivial) hle
  · rw [if_pos (by omega)]
    exact iff_of_false id hle

theorem cached_inside {start off : Nat} (hmade : MadeAt t srcAddr size .data out start)
    (hsrc : srcAddr % mmuPageSize = 0)
    (hcover : off + len ≤ pageCountOf size * mmuPageSize ∨ 64 ≤ pageCountOf size)
    (hlo : lo ≤ srcAddr + off)
    (hhi : srcAddr + off + len ≤ hi) :
    (FlashOp.cached out.mmu
      (Memory.data.regionAddr + (start - Memory.data.regionBegin) * mmuPageSize + off)
      len).Inside lo hi := by
  intro k hk hlen hwin
  have hsize : Memory.data.regionSize = 64 := rfl
  have hps : mmuPageSize = 65536 := rfl
  obtain ⟨j, rfl⟩ : ∃ j,
      k = Memory.data.regionAddr + (start - Memory.data.regionBegin) * mmuPageSize + j :=
    ⟨k - (Memory.data.regionAddr + (start - Memory.data.regionBegin) * mmuPageSize), by omega⟩
  have hj : j < pageCountOf size * mmuPageSize := by
    rcases hcover with h | h
    · omega
    · rw [hps] at hwin ⊢
      omega
  have hb := hmade.backed hsrc hj (by omega)
  exact ⟨srcAddr + j, by omega, by omega, hb.pro, hb.app⟩

end Map

/-! ### Encrypted writes -/

def down32 (a : Nat) : Nat := a / 32 * 32

def up32 (a : Nat) : Nat := down32 (a + 31)

def rowAt (destAddr size i : Nat) : Nat × Nat :=
  if i = 0 ∧ (destAddr + i) % 32 ≠ 0 then (16, destAddr + i - 16)
  else if size - i = 16 then (16, destAddr + i)
  else (32, destAddr + i)

section Encrypted

variable {lo hi chipSize : Nat} {t : Mmu}

theorem munmapCall_stays {handle : Nat} (a : Mmu → α) :
    Stays lo hi ((munmapCall t handle).bind fun t => Prog.ret (a t)) := by
  unfold munmapCall
  split <;> trivial

theorem readBlock_stays (hsrc : src % 16 = 0) (hlo : lo ≤ src) (h : src + 16 ≤ hi) :
    Stays lo hi (spiFlashReadEncrypted chipSize t src 16) := by
  unfold spiFlashReadEncrypted
  have hps : mmuPageSize = 65536 := rfl
  split
  · trivial
  have hle := Nat.div_mul_le_self src mmuPageSize
  refine Prog.Within.bind mmapCall_within ?_
  rintro out ⟨mallocOk, hout⟩
  rcases spiFlashMmap_some hout with ⟨-, hmapped, -⟩ | ⟨hpage, -, start, hmade⟩
  · simp only [hmapped]
    trivial
  · simp only [hmade.mapped]
    refine op_bind (cached_inside hmade hpage (.inl ?_) ?_ ?_) fun bs => ?_
    · unfold pageCountOf add32
      rw [hps]
      omega
    · omega
    · omega
    · exact munmapCall_stays _

theorem readBlock_returns (t : Mmu) (src : Nat) :
    ∃ r, (spiFlashReadEncrypted chipSize t src 16).Returns r := by
  unfold spiFlashReadEncrypted
  split
  · exact ⟨_, rfl⟩
  obtain ⟨out, hmapped, hret⟩ : ∃ out, out.mapped = none ∧ (mmapCall chipSize t
      (src / mmuPageSize * mmuPageSize) (add32 16 (src - src / mmuPageSize * mmuPageSize))
        .data).Returns
        out := mmapCall_fails
  refine ⟨(out.err, none, out.mmu), hret.bind ?_⟩
  simp only [hmapped]
  rfl

theorem encryptedRow_stays {size : Nat} (hhi : hi < 2 ^ 32) (hdest : destAddr % 16 = 0)
    (hi16 : i % 16 = 0)
    (hpos : destAddr + i < 2 ^ 32) (hlo : lo ≤ (rowAt destAddr size i).2)
    (hend : (rowAt destAddr size i).2 + 32 ≤ hi) :
    (encryptedRow chipSize t destAddr ssrc size i buf).Within (FlashOp.Inside lo hi)
      fun r => (r.1, r.2.1) = rowAt destAddr size i := by
  unfold encryptedRow
  rw [add32_eq (Nat.le_refl _) hpos]
  unfold rowAt at *
  split
  · rename_i h
    rw [if_pos h] at *
    rw [sub32_eq (by omega) hpos]
    refine Prog.Within.bind (readBlock_stays (by omega) hlo (by omega)) fun r _ => ?_
    rfl
  · rename_i h
    rw [if_neg h] at *
    split
    · rename_i hlast
      rw [if_pos hlast] at *
      simp only at hlo hend
      rw [add32_eq (n := hi) (by omega) hhi]
      refine Prog.Within.bind (readBlock_stays (by omega) (by omega) (by omega)) fun r _ => ?_
      rfl
    · rfl

theorem encryptedRow_returns (t : Mmu) {size : Nat} (ssrc : Bytes) (buf : List UInt8)
    (hpos : destAddr + i < 2 ^ 32) (hdest : destAddr % 16 = 0) (hi16 : i % 16 = 0) :
    ∃ r, (r.1, r.2.1) = rowAt destAddr size i ∧
      (encryptedRow chipSize t destAddr ssrc size i buf).Returns r := by
  unfold encryptedRow rowAt
  rw [add32_eq (Nat.le_refl _) hpos]
  by_cases h : i = 0 ∧ (destAddr + i) % 32 ≠ 0
  · simp only [if_pos h]
    rw [sub32_eq (by omega) hpos]
    obtain ⟨r, hr⟩ : ∃ r, (spiFlashReadEncrypted chipSize t (destAddr + i - 16) 16).Returns r :=
      readBlock_returns _ _
    exact ⟨(16, _, _, _), rfl, hr.bind rfl⟩
  · by_cases hlast : size - i = 16
    · simp only [if_neg h, if_pos hlast]
      obtain ⟨r, hr⟩ : ∃ r, (spiFlashReadEncrypted chipSize t (add32 (destAddr + i) 16) 16).Returns
          r :=
        readBlock_returns _ _
      exact ⟨(16, _, _, _), rfl, hr.bind rfl⟩
    · simp only [if_neg h, if_neg hlast]
      exact ⟨_, rfl, rfl⟩

theorem encryptedLoop_iff {size : Nat} (buf : List UInt8) (hhi : hi < 2 ^ 32)
    (hdest : destAddr % 16 = 0)
    (hsize : size % 16 = 0) (hi16 : i % 16 = 0) (hrow : i = 0 ∨ (destAddr + i) % 32 = 0)
    (hlo : lo ≤ destAddr) (hend : destAddr + size ≤ hi) (hn : size ≤ n + i) :
    Stays lo hi (encryptedLoop chipSize destAddr ssrc size n t i buf) ↔
      (i < size → lo ≤ down32 (destAddr + i) ∧ up32 (destAddr + size) ≤ hi) := by
  induction n generalizing t i buf with
  | zero => exact iff_of_true trivial fun h => by omega
  | succ n ih =>
    unfold encryptedLoop
    by_cases hlt : i < size
    swap
    · rw [if_pos hlt]
      exact iff_of_true trivial fun h => absurd h hlt
    rw [if_neg (not_not.mpr hlt)]
    obtain ⟨hra, hrs⟩ : (rowAt destAddr size i).2 = down32 (destAddr + i) ∧
      ((rowAt destAddr size i).1 = 16 ∧
          (i + 16 = size ∨ (destAddr + (i + 16)) % 32 = 0 ∧ (destAddr + i) % 32 = 16) ∨
        (rowAt destAddr size i).1 = 32 ∧ i + 32 ≤ size ∧ (destAddr + i) % 32 = 0) := by
      unfold rowAt down32
      split
      · exact ⟨by omega, .inl ⟨rfl, by omega⟩⟩
      · split
        · exact ⟨by omega, .inl ⟨rfl, by omega⟩⟩
        · exact ⟨by omega, .inr ⟨rfl, by omega⟩⟩
    generalize hrowAt : rowAt destAddr size i = row at hra hrs
    obtain ⟨rowSize, rowAddr⟩ := row
    have hnext : add32 i rowSize = i + rowSize := add32_eq (n := size) (by omega) (by omega)
    have hrest : ∀ u bs, Stays lo hi (encryptedLoop chipSize destAddr ssrc size n u
      (i + rowSize) bs) ↔
        (i + rowSize < size → up32 (destAddr + size) ≤ hi) := by
      intro u bs
      by_cases hlast : i + 16 = size
      · refine iff_of_true ?_ fun h => by omega
        unfold encryptedLoop
        cases n with
        | zero => trivial
        | succ n =>
          simp only
          rw [if_pos (by omega)]
          trivial
      · rw [ih bs (by omega) (by omega) (by omega)]
        unfold down32
        omega
    have hend32 : (i + rowSize < size → up32 (destAddr + size) ≤ hi) → rowAddr + 32 ≤ hi →
        up32 (destAddr + size) ≤ hi := by
      unfold up32 down32 at *
      omega
    have hrow32 : up32 (destAddr + size) ≤ hi → rowAddr + 32 ≤ hi := by
      unfold up32 down32 at *
      omega
    constructor
    · intro h _
      obtain ⟨⟨rs, ra, bs, u⟩, hr, hret⟩ : ∃ r, (r.1, r.2.1) = rowAt destAddr size i ∧
          (encryptedRow chipSize t destAddr ssrc size i buf).Returns r :=
        encryptedRow_returns t ssrc buf (by omega) hdest hi16
      rw [hrowAt] at hr
      cases hr
      have h := h.of_returns hret
      have hgo := answer h ((RomResult.ok, bs) : RomResult × List UInt8)
      rw [hnext] at hgo
      exact ⟨hra ▸ h.1.1, hend32 ((hrest _ _).mp hgo) h.1.2⟩
    · intro h
      obtain ⟨hdown, hup⟩ := h hlt
      refine Prog.Within.bind (encryptedRow_stays hhi hdest hi16 (by omega) (by rw [hrowAt]; omega)
        (by rw [hrowAt]; exact hrow32 hup)) fun r hr => ?_
      rw [hrowAt] at hr
      cases hr
      refine op_bind ⟨le_of_le_of_eq hdown hra.symm, hrow32 hup⟩ fun rc => ?_
      split
      · trivial
      · rw [hnext]
        exact (hrest _ _).mpr fun _ => hup

theorem spiFlashWriteEncrypted_iff {size : Nat} (hhi : hi < 2 ^ 32) (hdest : destAddr % 16 = 0)
    (hsize : size % 16 = 0) (hlo : lo ≤ destAddr) (hend : destAddr + size ≤ hi) (hpos : 0 < size) :
    Stays lo hi (spiFlashWriteEncrypted chipSize t destAddr ssrc size buf) ↔
      lo ≤ down32 destAddr ∧ up32 (destAddr + size) ≤ hi := by
  have hloop : Stays lo hi (encryptedLoop chipSize destAddr ssrc size size t 0 buf) ↔
      (0 < size → lo ≤ down32 (destAddr + 0) ∧ up32 (destAddr + size) ≤ hi) :=
    encryptedLoop_iff buf hhi hdest hsize rfl (.inl rfl) hlo hend (by omega)
  rw [Nat.add_zero, forall_prop_of_true hpos] at hloop
  unfold spiFlashWriteEncrypted
  rw [if_neg (by omega), if_neg (by omega), ← hloop]
  constructor
  · intro h
    have h := answer h RomResult.ok
    exact h.of_bind
  · intro h
    refine op_bind trivial fun rc => ?_
    split
    · exact h.bind fun _ _ => trivial
    · trivial

end Encrypted

/-! ### Accesses that go on -/

section GoesOn

theorem spiFlashRead_makes {size : Nat} (h : add32 src size ≤ chipSize) (hsize : 0 < size) :
    (spiFlashRead chipSize src dsti size dst).Makes FlashOp.GoesOn := by
  unfold spiFlashRead
  rw [if_neg (by omega), if_neg (by omega)]
  split
  · exact Prog.Makes.op trivial
  · have hp := readParts src dsti size (by omega)
    unfold readLarge
    simp only [Prog.bind_eq]
    generalize (if src % 4 = 0 then 0 else 4 - src % 4) = srcMidOff at *
    generalize (if dsti % 4 = 0 then 0 else 4 - dsti % 4) = dstMidOff at *
    generalize align4 (size - max srcMidOff dstMidOff) = midSize at *
    obtain ⟨h1, h2, -, -, h5, h6⟩ := hp
    obtain ⟨n, rfl⟩ : ∃ n, midSize = n + 1 := ⟨midSize - 1, by omega⟩
    exact Prog.Makes.op trivial

theorem spiFlashWrite_makes {size : Nat} (h : add32 dst size ≤ chipSize) (hsize : 0 < size) :
    (spiFlashWrite chipSize direct t dst srcv size).Makes FlashOp.GoesOn := by
  unfold spiFlashWrite
  rw [if_neg (by omega), if_neg (by omega)]
  refine Prog.Makes.bind ?_ _
  unfold writeParts
  simp only [Prog.bind_eq]
  generalize min (sub32 (align4 (add32 dst 3)) dst) size = leftSize at *
  refine Prog.Makes.after RomResult.ok ?_
  rw [if_neg (by simp)]
  split
  · exact Prog.Makes.op trivial
  · generalize align4 (size - leftSize) = midSize at *
    cases midSize with
    | zero =>
      refine writeMid_returns.makes ?_
      rw [if_neg (by simp), if_pos (by omega)]
      exact .inl trivial
    | succ n =>
      exact Prog.Makes.op trivial

theorem spiFlashWriteEncrypted_makes {size : Nat} (haddr : destAddr < 2 ^ 32)
    (hdest : destAddr % 16 = 0)
    (hsize : size % 16 = 0) (hpos : 0 < size) :
    (spiFlashWriteEncrypted chipSize t destAddr ssrc size buf).Makes FlashOp.GoesOn := by
  unfold spiFlashWriteEncrypted
  rw [if_neg (by omega), if_neg (by omega)]
  refine Prog.Makes.after RomResult.ok ?_
  refine Prog.Makes.bind ?_ _
  obtain ⟨n, rfl⟩ : ∃ n, size = n + 1 := ⟨size - 1, by omega⟩
  obtain ⟨⟨rs, ra, bs, u⟩, -, hret⟩ : ∃ r, (r.1, r.2.1) = rowAt destAddr (n + 1) 0 ∧
      (encryptedRow chipSize t destAddr ssrc (n + 1) 0 buf).Returns r :=
    encryptedRow_returns t ssrc buf haddr hdest rfl
  exact hret.makes (Prog.Makes.op trivial)

theorem spiFlashEraseRange_makes {size : Nat} (h : add32 size startAddr ≤ chipSize)
    (hstart : startAddr % secSize = 0) (hsize : size % secSize = 0) (hpos : 0 < size) :
    (spiFlashEraseRange chipSize startAddr size).Makes FlashOp.GoesOn := by
  unfold spiFlashEraseRange
  rw [if_neg (by omega), if_neg (by omega), if_neg (by omega)]
  refine Prog.Makes.after RomResult.ok ?_
  rw [if_pos rfl]
  obtain ⟨n, hn⟩ : ∃ n, size / secSize = n + 1 := by
    refine ⟨size / secSize - 1, ?_⟩
    have : 0 < size / secSize := Nat.div_pos (Nat.le_of_dvd hpos (Nat.dvd_of_mod_eq_zero hsize))
      (by decide)
    omega
  rw [hn]
  unfold eraseLoop
  rw [if_neg (by omega)]
  split
  · exact Prog.Makes.op trivial
  · exact Prog.Makes.op trivial

end GoesOn

end EspIdf.SpiFlash
