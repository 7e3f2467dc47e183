import EspIdf.SpiFlash.Coherence

/-! A new mapping shows what is in flash, in runs of the functions that modify, map and unmap flash
where pages are mapped only if they were not erased since the last flush, or with one that was
written. -/

namespace EspIdf.SpiFlash

open EspIdf.Device

/-! ### Encrypted writes -/

variable {size : Nat}

section Encrypted

variable {boot : Nat → Bool} {t : Mmu} {live : List Mapping} {d : Dev} {chipSize : Nat}
  {busy : Nat → Prop}

theorem readBlock_post (hchip : chipSize ≤ 2 ^ 24) (hsrc : src + 16 < 2 ^ 32)
    (hk : Kept boot t live)
    (hfew : Few live) (hlast : t.lastHandle + 1 < 2 ^ 32) (hc : Coherent t d busy) :
    (spiFlashReadEncrypted chipSize t src 16).Post FlashOp.Effect
      (fun r d' => Kept boot r.2.2 live ∧ Coherent r.2.2 d' busy ∧
        r.2.2.lastHandle ≤ t.lastHandle + 1) d := by
  have hps : mmuPageSize = 65536 := rfl
  unfold spiFlashReadEncrypted
  split
  · exact ⟨hk, hc, Nat.le_succ _⟩
  rename_i hle
  rw [add32_eq (Nat.le_refl _) hsrc] at hle
  have hsize : add32 16 (src - src / mmuPageSize * mmuPageSize) = 16 + src % 65536 := by
    rw [hps, add32]
    omega
  have hcount : pageCountOf (16 + src % 65536) ≤ Memory.data.regionSize := by
    unfold pageCountOf add32
    rw [hps, show Memory.data.regionSize = 64 from rfl]
    omega
  have hroom : Roomy t (16 + src % 65536) .data := hk.roomy hfew hlast hcount
  simp only [hsize, Prog.bind_eq]
  refine Prog.Post.bind mmapCall_post fun out d' hm => ?_
  obtain ⟨mallocOk, hcall⟩ := hm.call
  obtain ⟨hkept, hlast'⟩ := hk.mmap hroom hlast hcall
  have hcoh := hc.mmap (.inl (by rw [hps]; omega)) hm
  rcases spiFlashMmap_some hcall with ⟨-, hnone, -⟩ | ⟨-, -, start, hmade⟩
  · rw [MmapOut.live_none hnone] at hkept
    simp only [hnone]
    exact ⟨hkept, hcoh, hlast'⟩
  · simp only [hmade.mapped]
    rw [hmade.live_eq] at hkept
    refine Prog.Post.op_bind fun bs d'' hd'' => ?_
    obtain ⟨rfl, -⟩ := hd''
    unfold munmapCall
    cases hun : spiFlashMunmap out.mmu (add32 t.lastHandle 1) with
    | none => trivial
    | some u =>
      have hkept' := hkept.munmap List.mem_cons_self hun
      obtain ⟨-, hlastu, hwritten⟩ := spiFlashMunmap_fields hun
      refine ⟨?_, ?_, ?_⟩
      · rwa [List.eraseP_cons_of_pos (by simp)] at hkept'
      · intro q hq hw
        exact hcoh q hq (hwritten ▸ hw)
      · exact hlastu ▸ hlast'

def readsLeft (size i : Nat) : Nat := (if i = 0 then 1 else 0) + if i < size then 1 else 0

theorem encryptedRow_post (hchip : chipSize ≤ 2 ^ 24) (hdest : destAddr % 16 = 0)
    (hsize : size % 16 = 0) (hi16 : i % 16 = 0) (hle : destAddr + size ≤ 2 ^ 24) (hlt : i < size)
    (hk : Kept boot t live) (hfew : Few live) (hlast : t.lastHandle + readsLeft size i < 2 ^ 32)
    (hc : Coherent t d busy) :
    (encryptedRow chipSize t destAddr ssrc size i buf).Post FlashOp.Effect
      (fun r d' => (r.1, r.2.1) = rowAt destAddr size i ∧ Kept boot r.2.2.2 live ∧
        Coherent r.2.2.2 d' busy ∧ r.2.2.2.lastHandle + readsLeft size (i + r.1) < 2 ^ 32) d := by
  unfold encryptedRow
  rw [add32_eq (n := 2 ^ 24) (by omega) (by decide)]
  unfold rowAt
  unfold readsLeft at *
  by_cases h : i = 0 ∧ (destAddr + i) % 32 ≠ 0
  · simp only [if_pos h]
    rw [sub32_eq (by omega) (by omega)]
    rw [if_pos h.1, if_pos hlt] at hlast
    refine Prog.Post.bind (readBlock_post hchip (by omega) hk hfew (by omega) hc) ?_
    rintro ⟨err, bs, u⟩ d' ⟨h1, h2, h3⟩
    refine ⟨rfl, h1, h2, ?_⟩
    simp only at h3 ⊢
    split <;> split <;> omega
  · by_cases h16 : size - i = 16
    · simp only [if_neg h, if_pos h16]
      rw [add32_eq (n := 2 ^ 25) (by omega) (by decide)]
      rw [if_pos hlt] at hlast
      refine Prog.Post.bind (readBlock_post hchip (by omega) hk hfew (by omega) hc) ?_
      rintro ⟨err, bs, u⟩ d' ⟨h1, h2, h3⟩
      refine ⟨rfl, h1, h2, ?_⟩
      simp only at h3 ⊢
      split <;> split <;> omega
    · simp only [if_neg h, if_neg h16]
      refine ⟨rfl, hk, hc, ?_⟩
      simp only
      split <;> split <;> split at hlast <;> omega

theorem encryptedLoop_post (buf : List UInt8) (hchip : chipSize ≤ 2 ^ 24)
    (hdest : destAddr % 16 = 0) (hsize : size % 16 = 0) (hi16 : i % 16 = 0)
    (hrow : i = 0 ∨ (destAddr + i) % 32 = 0 ∨ size ≤ i) (hle : destAddr + size ≤ 2 ^ 24)
    (hk : Kept boot t live) (hfew : Few live) (hlast : t.lastHandle + readsLeft size i < 2 ^ 32)
    (hc : Coherent t d (pagesOf destAddr size)) :
    (encryptedLoop chipSize destAddr ssrc size n t i buf).Post FlashOp.Effect
      (fun r d' => Kept boot r.2 live ∧ Coherent r.2 d' (pagesOf destAddr size)) d := by
  induction n generalizing t d i buf with
  | zero => exact ⟨hk, hc⟩
  | succ n ih =>
    unfold encryptedLoop
    split
    · exact ⟨hk, hc⟩
    rename_i hlt
    rw [not_not] at hlt
    refine Prog.Post.bind (encryptedRow_post hchip hdest hsize hi16 hle hlt hk hfew hlast hc) ?_
    rintro ⟨rowSize, rowAddr, bs, u⟩ d' ⟨hrowAt, hk', hc', hlast'⟩
    obtain ⟨hra, hrs⟩ : rowAddr = down32 (destAddr + i) ∧ (rowSize = 16 ∧
        (i + 16 = size ∨ (destAddr + (i + 16)) % 32 = 0) ∨
        rowSize = 32 ∧ i + 32 ≤ size ∧ (destAddr + i) % 32 = 0) := by
      unfold rowAt at hrowAt
      unfold down32
      split at hrowAt
      · simp only [Prod.mk.injEq] at hrowAt
        omega
      · split at hrowAt <;> simp only [Prod.mk.injEq] at hrowAt <;> omega
    have hnext : add32 i rowSize = i + rowSize := add32_eq (n := size) (by omega) (by omega)
    refine Prog.Post.op_bind fun rc d'' hd'' => ?_
    have hc'' := hc'.step (o := FlashOp.writeEncrypted rowAddr bs) (r := rc) (fun x h1 h2 => by
      unfold down32 at hra
      unfold pagesOf
      omega) hd''
    split
    · exact ⟨hk', hc''⟩
    · rw [hnext]
      exact ih rc.2 (by omega) (by omega) hk' hlast' hc''

theorem spiFlashWriteEncrypted_post (hchip : chipSize ≤ 2 ^ 24)
    (hle : destAddr + size ≤ 2 ^ 24) (hk : Kept boot t live) (hfew : Few live)
    (hlast : t.lastHandle + 2 < 2 ^ 32) (hc : Coherent t d fun _ => False) :
    (spiFlashWriteEncrypted chipSize t destAddr ssrc size buf).Post FlashOp.Effect
      (fun r d' => Kept boot r.2 live ∧ Coherent r.2 d' fun _ => False) d := by
  have hret : ∀ (u : Mmu) (e : EspErr) (d : Dev), Kept boot u live →
      Coherent u d (pagesOf destAddr size) → Prog.Post FlashOp.Effect
        (fun (r : EspErr × Mmu) d' => Kept boot r.2 live ∧ Coherent r.2 d' fun _ => False)
        (Prog.ret (e, u.markModifiedRegion destAddr size)) d := by
    intro u e d hk hc
    refine Prog.Post.ret_snd (Q := fun u d => Kept boot u live ∧ Coherent u d fun _ => False)
      ⟨?_, hc.mark hle⟩
    rw [Mmu.markModifiedRegion_eq u hle]
    exact hk.withWritten _
  unfold spiFlashWriteEncrypted
  split
  · exact ⟨hk, hc⟩
  split
  · exact ⟨hk, hc⟩
  have hc' : Coherent t d (pagesOf destAddr size) := hc.mono (by simp)
  refine Prog.Post.op_bind fun rc d' hd' => ?_
  obtain rfl : d' = d := hd'
  split
  · refine Prog.Post.bind (encryptedLoop_post buf hchip (by omega) (by omega) rfl (.inl rfl) hle hk
      hfew ?_ hc') ?_
    · unfold readsLeft
      split <;> split <;> omega
    · rintro ⟨rc, u⟩ d'' ⟨hk', hc''⟩
      exact hret u _ d'' hk' hc''
  · exact hret t _ d' hk hc'

end Encrypted

/-! ### Runs -/

def Later (d d' : Dev) : Prop :=
  d.changes < d'.changes ∨
    d'.changes = d.changes ∧ d'.flash = d.flash ∧ ∀ c ∈ d'.past, c ∈ d.past

theorem Later.refl (d : Dev) : Later d d := .inr ⟨rfl, rfl, fun _ => id⟩

theorem Later.le (h : Later d d') : d.changes ≤ d'.changes := by
  unfold Later at h
  omega

theorem Later.trans (h : Later d d') (h' : Later d' d'') : Later d d'' := by
  rcases h with h | ⟨h1, h2, h3⟩
  · exact .inl (Nat.lt_of_lt_of_le h h'.le)
  · rcases h' with h' | ⟨h1', h2', h3'⟩
    · exact .inl (h1 ▸ h')
    · exact .inr ⟨h1'.trans h1, h2'.trans h2, fun c hc => h3 c (h3' c hc)⟩

theorem Effect.later {o : FlashOp} {d d' : Dev} {r : o.Ret} (h : o.Effect d r d') : Later d d' := by
  cases o with
  | unlock | malloc | read _ _ =>
    obtain rfl : d' = d := h
    exact .refl _
  | cacheFlush =>
    obtain rfl : d' = { d with past := [], erased := fun _ => False } := h
    exact .inr ⟨rfl, rfl, by simp⟩
  | write addr data => exact .inl (by have := h.1.changes; omega)
  | writeEncrypted addr row => exact .inl (by have := h.1.changes; omega)
  | eraseSector sector => exact .inl (by have := h.1.changes; omega)
  | eraseBlock block => exact .inl (by have := h.1.changes; omega)
  | cached t va size =>
    obtain ⟨rfl, -⟩ := h
    exact .refl _

theorem Ends.later {α : Type} {p : FlashProg α} {d d' : Dev} {a : α}
    (h : p.Ends FlashOp.Effect d a d') : Later d d' := by
  induction h with
  | ret => exact .refl _
  | call hr _ ih => exact (Effect.later hr).trans ih

/-- The live mappings after `spi_flash_mmap` returned `out`, each with the number of modifications
of flash before it was made. -/
def MmapOut.timed (out : MmapOut) (srcAddr : Nat) (memory : Memory) (changes : Nat)
    (live : List (Mapping × Nat)) : List (Mapping × Nat) :=
  match out.mapped, out.mmu.entries with
  | some _, entry :: _ => (⟨entry, srcAddr / mmuPageSize, memory⟩, changes) :: live
  | _, _ => live

/-- A call of `spi_flash_mmap` whose range does not overflow and is not longer than the window, with
counters and handles that do not overflow, and with pages of which none was erased since the last
flush or one is in `written_pages`. -/
structure MayMap (t : Mmu) (d : Dev) (live : List Mapping) (srcAddr size : Nat) (memory : Memory) :
    Prop where
  range : srcAddr + size < 2 ^ 32
  count : pageCountOf size ≤ memory.regionSize
  few : Few live
  handle : t.lastHandle + 1 < 2 ^ 32
  current : (∀ q, pagesOf srcAddr size q → ¬ d.erased q) ∨
    ∃ q < 256, pagesOf srcAddr size q ∧ t.writtenPages q = true

/-- Runs from the boot state, with the live mappings.  Every mapping meets `MayMap`; ranges that are
written do not overflow. -/
inductive History (chipSize : Nat) (t0 : Mmu) (d0 : Dev) : Mmu → Dev → List (Mapping × Nat) → Prop
  | boot : History chipSize t0 d0 t0 d0 []
  | write {t t' : Mmu} {d d' : Dev} {live : List (Mapping × Nat)} (direct : Bool) (dst : Nat)
      (srcv : Bytes) (size : Nat) {err : EspErr} : History chipSize t0 d0 t d live →
      dst + size < 2 ^ 32 →
      (spiFlashWrite chipSize direct t dst srcv size).Ends FlashOp.Effect d (err, t') d' →
      History chipSize t0 d0 t' d' live
  | writeEncrypted {t t' : Mmu} {d d' : Dev} {live : List (Mapping × Nat)} (destAddr : Nat)
      (ssrc : Bytes) (size : Nat) (buf : List UInt8) {err : EspErr} :
      History chipSize t0 d0 t d live → destAddr + size ≤ 2 ^ 24 → Few (live.map Prod.fst) →
      t.lastHandle + 2 < 2 ^ 32 →
      (spiFlashWriteEncrypted chipSize t destAddr ssrc size buf).Ends FlashOp.Effect d
        (err, t') d' →
      History chipSize t0 d0 t' d' live
  | eraseRange {t : Mmu} {d d' : Dev} {live : List (Mapping × Nat)} (startAddr size : Nat)
      {err : EspErr} : History chipSize t0 d0 t d live →
      (spiFlashEraseRange chipSize startAddr size).Ends FlashOp.Effect d err d' →
      History chipSize t0 d0 t d' live
  | mmap {t : Mmu} {d d' : Dev} {live : List (Mapping × Nat)} (srcAddr size : Nat) (memory : Memory)
      {out : MmapOut} : History chipSize t0 d0 t d live →
      MayMap t d (live.map Prod.fst) srcAddr size memory →
      (mmapCall chipSize t srcAddr size memory).Ends FlashOp.Effect d out d' →
      History chipSize t0 d0 out.mmu d' (out.timed srcAddr memory d'.changes live)
  | munmap {t t' : Mmu} {d : Dev} {live : List (Mapping × Nat)} {g : Mapping × Nat} :
      History chipSize t0 d0 t d live → g ∈ live → spiFlashMunmap t g.1.entry.handle = some t' →
      History chipSize t0 d0 t' d (live.eraseP (·.1.entry.handle = g.1.entry.handle))

def Mapping.Current (d : Dev) (g : Mapping) : Prop := ∀ c ∈ d.past, ∀ x,
  g.physPage ≤ x / 65536 → x / 65536 < g.physPage + g.entry.count → c x = d.flash x

structure HistInv (boot : Nat → Bool) (t : Mmu) (d : Dev) (live : List (Mapping × Nat)) : Prop where
  kept : Kept boot t (live.map Prod.fst)
  coherent : Coherent t d fun _ => False
  made : ∀ g ∈ live, g.2 ≤ d.changes
  current : ∀ g ∈ live, g.2 = d.changes → g.1.Current d

section Runs

variable {boot : Nat → Bool} {t : Mmu} {d d' : Dev} {live : List (Mapping × Nat)} {chipSize : Nat}

theorem HistInv.later (h : HistInv boot t d live) (hl : Later d d') (hg : g ∈ live) :
    g.2 ≤ d'.changes ∧ (g.2 = d'.changes → g.1.Current d') := by
  have hmade := h.made g hg
  refine ⟨Nat.le_trans hmade hl.le, fun heq => ?_⟩
  rcases hl with hlt | ⟨hch, hflash, hpast⟩
  · omega
  · intro c hc x h1 h2
    rw [hflash]
    exact h.current g hg (heq.trans hch) c (hpast c hc) x h1 h2

theorem HistInv.mmap (hchip : chipSize ≤ 2 ^ 24) (h : HistInv boot t d live)
    (hmay : MayMap t d (live.map Prod.fst) srcAddr size memory)
    (hm : Mapped chipSize t srcAddr size memory d out d') :
    HistInv boot out.mmu d' (out.timed srcAddr memory d'.changes live) := by
  obtain ⟨mallocOk, hcall⟩ := hm.call
  have hroom : Roomy t size memory := h.kept.roomy hmay.few hmay.handle hmay.count
  obtain ⟨hkept, -⟩ := h.kept.mmap hroom hmay.handle hcall
  have hlater : Later d d' := by
    refine .inr ⟨hm.changes, hm.flash, fun c hc => ?_⟩
    rcases hm.cache with hnil | ⟨-, rfl⟩
    · rw [hnil] at hc
      simp at hc
    · exact hc
  rcases spiFlashMmap_some hcall with ⟨-, hnone, hmmu⟩ | ⟨halign, hadd, start, hmade⟩
  · have hlive : out.timed srcAddr memory d'.changes live = live := by
      unfold MmapOut.timed
      rw [hnone]
    rw [MmapOut.live_none hnone] at hkept
    rw [hlive]
    have hrange : srcAddr + size ≤ 2 ^ 24 ∨ chipSize < add32 srcAddr size := by
      rw [add32_eq (Nat.le_refl _) hmay.range]
      omega
    exact ⟨hkept, h.coherent.mmap hrange hm, fun g hg => (h.later hlater hg).1, fun g hg =>
      (h.later hlater hg).2⟩
  · have hle : srcAddr + size ≤ 2 ^ 24 := by
      rw [add32_eq (Nat.le_refl _) hmay.range] at hadd
      omega
    have hlive : out.timed srcAddr memory d'.changes live = (⟨⟨add32 t.lastHandle 1, start,
        pageCountOf size⟩, srcAddr / mmuPageSize, memory⟩, d'.changes) :: live := by
      unfold MmapOut.timed
      rw [hmade.mapped, hmade.mmu]
    rw [hmade.live_eq] at hkept
    rw [hlive]
    refine ⟨hkept, h.coherent.mmap (.inl hle) hm, fun g hg => ?_, fun g hg heq => ?_⟩
    · rcases List.mem_cons.mp hg with rfl | hg
      · exact Nat.le_refl _
      · exact (h.later hlater hg).1
    · rcases List.mem_cons.mp hg with rfl | hg
      · intro c hc x h1 h2
        refine h.coherent.current hle hm hmade hmay.current (x / 65536) ?_ c hc x rfl
        have hps : mmuPageSize = 65536 := rfl
        simp only [hps] at h1 h2 halign
        unfold pageCountOf at h2
        rw [hps, add32_eq (n := 2 ^ 25) (by omega) (by decide)] at h2
        unfold pagesOf
        omega
      · exact (h.later hlater hg).2 heq

theorem HistInv.munmap (h : HistInv boot t d live) (hg : g ∈ live)
    (ht' : spiFlashMunmap t g.1.entry.handle = some t') :
    HistInv boot t' d (live.eraseP (·.1.entry.handle = g.1.entry.handle)) := by
  have hsub : ∀ x ∈ live.eraseP (·.1.entry.handle = g.1.entry.handle), x ∈ live := fun x hx =>
    List.mem_of_mem_eraseP hx
  obtain ⟨-, -, hwritten⟩ := spiFlashMunmap_fields ht'
  have hkept := h.kept.munmap (List.mem_map_of_mem hg) ht'
  rw [List.eraseP_map] at hkept
  exact ⟨hkept, fun q hq hw => h.coherent q hq (hwritten ▸ hw), fun x hx => h.made x (hsub x hx),
    fun x hx => h.current x (hsub x hx)⟩

theorem History.inv {t0 : Mmu} {d0 : Dev} (hchip : chipSize ≤ 2 ^ 24) (hboot : Boot t0)
    (hpast : d0.past = []) (h : History chipSize t0 d0 t d live) :
    HistInv (fun i => t0.usedAtBoot i) t d live := by
  induction h with
  | boot =>
    refine ⟨⟨⟨hboot.inStep, .inr rfl⟩, .inr hboot.refcnt, ?_⟩, ?_, by simp, by simp⟩
    · rw [hboot.entries]
      simp
    · intro q _ _ _ _ c hc
      rw [hpast] at hc
      simp at hc
  | write direct dst srcv size _ hwrap hends ih =>
    have hl := Ends.later hends
    obtain ⟨⟨w, hw⟩, hc⟩ := (spiFlashWrite_coherent hchip hwrap ih.coherent).ends hends
    have hk := hw ▸ ih.kept.withWritten w
    exact ⟨hk, hc, fun g hg => (ih.later hl hg).1, fun g hg => (ih.later hl hg).2⟩
  | writeEncrypted destAddr ssrc size buf _ hle hfew hlast hends ih =>
    have hl := Ends.later hends
    obtain ⟨hk, hc⟩ := (spiFlashWriteEncrypted_post hchip hle ih.kept hfew hlast ih.coherent).ends
      hends
    exact ⟨hk, hc, fun g hg => (ih.later hl hg).1, fun g hg => (ih.later hl hg).2⟩
  | eraseRange startAddr size _ hends ih =>
    have hl := Ends.later hends
    have hc := (spiFlashEraseRange_coherent ih.coherent).ends hends
    exact ⟨ih.kept, hc, fun g hg => (ih.later hl hg).1, fun g hg => (ih.later hl hg).2⟩
  | mmap srcAddr size memory _ hmay hends ih => exact ih.mmap hchip hmay (mmapCall_post.ends hends)
  | munmap _ hg ht' ih => exact ih.munmap hg ht'

end Runs

/-- In every run whose mappings meet `MayMap`, a read through a live mapping, with no modification
of flash since it was made, returns what is in flash. -/
theorem fresh_mapping_current {chipSize : Nat} {t0 t : Mmu} {d0 d d' : Dev}
    {live : List (Mapping × Nat)} {g : Mapping} (hchip : chipSize ≤ 2 ^ 24) (hboot : Boot t0)
    (hpast : d0.past = []) (h : History chipSize t0 d0 t d live) (hg : (g, d.changes) ∈ live)
    {off size : Nat} {bs : List UInt8} (hsize : off + size ≤ g.entry.count * mmuPageSize)
    (hread : (FlashOp.cached t (g.memory.regionAddr +
      (g.entry.page - g.memory.regionBegin) * mmuPageSize + off) size).Effect d bs d') :
    bs = d.flash.read (g.physPage * mmuPageSize + off) size := by
  have hinv := h.inv hchip hboot hpast
  have hmem : g ∈ live.map Prod.fst := List.mem_map_of_mem hg
  have hinit : t.mmapInit = t := hinv.kept.run.init.resolve_right (List.ne_nil_of_mem hmem)
  have hstep := hinv.kept.run.inStep
  rw [hinit] at hstep
  have hwin := hstep.window g hmem
  have hshown := hstep.shown g hmem
  have hcur : g.Current d := hinv.current _ hg rfl
  obtain ⟨-, hlen, hvis⟩ := hread
  symm
  rw [Bytes.read_eq_iff]
  refine ⟨hlen, fun k hk => ?_⟩
  have hps : mmuPageSize = 65536 := rfl
  unfold Mapping.InWindow at hwin
  obtain ⟨hentry, hmod⟩ := mmuEntry_window g.memory
    (k := (g.entry.page - g.memory.regionBegin) * mmuPageSize + (off + k))
    (by rw [hps] at hsize ⊢; omega)
  have hdiv : ((g.entry.page - g.memory.regionBegin) * mmuPageSize + (off + k)) / mmuPageSize =
      g.entry.page - g.memory.regionBegin + (off + k) / mmuPageSize := by
    rw [Nat.add_comm, Nat.add_mul_div_right _ _ (by decide), Nat.add_comm]
  have hmod' : ((g.entry.page - g.memory.regionBegin) * mmuPageSize + (off + k)) % mmuPageSize =
      (off + k) % mmuPageSize := by
    rw [Nat.add_comm, Nat.add_mul_mod_self_right]
  have hpage : (off + k) / mmuPageSize < g.entry.count :=
    Nat.div_lt_of_lt_mul (by rw [Nat.mul_comm]; omega)
  obtain ⟨hpro, happ⟩ := hshown _ hpage
  have hbyte : (g.physPage + (off + k) / mmuPageSize) * mmuPageSize + (off + k) % mmuPageSize =
      g.physPage * mmuPageSize + off + k := by
    have := Nat.div_add_mod' (off + k) mmuPageSize
    rw [Nat.add_mul]
    omega
  obtain ⟨c, hc, hb⟩ := hvis k hk
  rw [show g.memory.regionAddr + (g.entry.page - g.memory.regionBegin) * mmuPageSize + off + k =
    g.memory.regionAddr + ((g.entry.page - g.memory.regionBegin) * mmuPageSize +
      (off + k)) by omega,
    hentry, hdiv, hmod, hmod', show g.memory.regionBegin + (g.entry.page - g.memory.regionBegin +
    (off + k) / mmuPageSize) = g.entry.page + (off + k) / mmuPageSize by omega, hpro, happ, hbyte,
    or_self] at hb
  have hsame : c (g.physPage * mmuPageSize + off + k) =
      d.flash (g.physPage * mmuPageSize + off + k) := by
    rcases hc with rfl | hc
    · rfl
    · have hquot : (g.physPage * mmuPageSize + off + k) / 65536 =
          g.physPage + (off + k) / mmuPageSize := by
        rw [Nat.add_assoc, hps, Nat.add_comm, Nat.add_mul_div_right _ _ (by decide), Nat.add_comm]
      exact hcur c hc _ (hquot ▸ Nat.le_add_right _ _) (hquot ▸ Nat.add_lt_add_left hpage _)
  rw [← hsame, hb]

theorem mmapCall_ends {chipSize : Nat}
    (hcheck : srcAddr % mmuPageSize = 0 ∧ add32 srcAddr size ≤ chipSize)
    (h : spiFlashMmap chipSize true t srcAddr size memory = some out) :
    (mmapCall chipSize t srcAddr size memory).Ends FlashOp.Effect d out
      (if out.flushed then { d with past := [], erased := fun _ => False } else d) := by
  unfold mmapCall
  rw [if_neg (by omega)]
  simp only [Prog.bind_eq, Prog.op_bind, Prog.pure_eq]
  refine .call (r := true) rfl ?_
  simp only [h]
  split
  · exact .call (r := ()) rfl .ret
  · exact .ret

def blankDev : Dev := ⟨fun _ => 0xff, [], fun _ => False, 0⟩

/-- The flash after `[1, 2, 3, 4]` was written at `0x70000`; the cache may hold the old contents. -/
def writtenDev : Dev :=
  ⟨blankDev.flash.program 0x70000 [1, 2, 3, 4], [blankDev.flash], fun _ => False, 1⟩

theorem write_ends (t : Mmu) : (spiFlashWrite 0x400000 true t 0x70000
    (fun x => [1, 2, 3, 4].getD x 0) 4).Ends FlashOp.Effect blankDev
      (.ok, t.markModifiedRegion 0x70000 4) writtenDev := by
  have hchanges : Dev.Changes blankDev writtenDev 0x70000 4 :=
    ⟨fun x hx => Bytes.program_out (by simp only [List.length_cons, List.length_nil]; omega),
      fun c hc => .inr fun x _ => by rw [List.mem_singleton.1 hc], rfl⟩
  refine .call (r := RomResult.ok) rfl ?_
  refine .call (r := RomResult.ok) ⟨hchanges, rfl, fun _ => rfl⟩ ?_
  exact .ret

theorem fresh_mapping_current_written : ∃ t d live, History 0x400000 bootPage5 blankDev t d live ∧
    (⟨⟨2, 1, 1⟩, 7, .data⟩, d.changes) ∈ live ∧ d.flash.read 0x70000 4 = [1, 2, 3, 4] ∧
    ∀ bs d', (FlashOp.cached t (0x3F410000 + 0) 4).Effect d bs d' → bs = [1, 2, 3, 4] := by
  have hcall : ∃ out out', spiFlashMmap 0x400000 true bootPage5 0x70000 0x10000 .data = some out ∧
      out.flushed = true ∧ out.mapped = some (0x3F410000, 1) ∧ out.mmu.entries = [⟨1, 1, 1⟩] ∧
      out.mmu.lastHandle = 1 ∧ (out.mmu.markModifiedRegion 0x70000 4).writtenPages 7 = true ∧
      spiFlashMmap 0x400000 true (out.mmu.markModifiedRegion 0x70000 4) 0x70000 0x10000 .data =
        some out' ∧ out'.flushed = true ∧ out'.mapped = some (0x3F410000, 2) ∧
      out'.mmu.entries = [⟨2, 1, 1⟩, ⟨1, 1, 1⟩] :=
    ⟨_, _, rfl, rfl, rfl, rfl, rfl, rfl, rfl, rfl, rfl, rfl⟩
  obtain ⟨out, out', hout, hflushed, hmapped, hentries, hlast, hwritten, hout', hflushed', hmapped',
    hentries'⟩ := hcall
  have hends := mmapCall_ends (d := blankDev) (by decide) hout
  rw [hflushed, if_pos rfl] at hends
  have hmay : MayMap bootPage5 blankDev [] 0x70000 0x10000 .data :=
    ⟨by decide, by decide, fun i _ => by simp, by decide, .inl fun _ _ => id⟩
  have hist : History 0x400000 bootPage5 blankDev out.mmu blankDev _ :=
    .mmap 0x70000 0x10000 .data .boot hmay hends
  have htimed : out.timed 0x70000 .data 0 [] = [(⟨⟨1, 1, 1⟩, 7, .data⟩, 0)] := by
    unfold MmapOut.timed
    rw [hmapped, hentries]
    rfl
  rw [show blankDev.changes = 0 from rfl, htimed] at hist
  have hist' := hist.write true 0x70000 _ 4 (by decide) (write_ends out.mmu)
  have hends' := mmapCall_ends (d := writtenDev) (by decide) hout'
  rw [hflushed', if_pos rfl] at hends'
  have hmay' : MayMap (out.mmu.markModifiedRegion 0x70000 4) writtenDev [⟨⟨1, 1, 1⟩, 7, .data⟩]
      0x70000 0x10000 .data := by
    refine ⟨by decide, by decide, fun i _ => ?_, ?_, .inr ⟨7, by decide, by simp [pagesOf], hwritten⟩⟩
    · rw [List.countP_singleton]
      split <;> decide
    · rw [show (out.mmu.markModifiedRegion 0x70000 4).lastHandle = 1 from hlast]
      decide
  have hist'' := hist'.mmap 0x70000 0x10000 .data hmay' hends'
  have htimed' : out'.timed 0x70000 .data 1 [(⟨⟨1, 1, 1⟩, 7, .data⟩, 0)] =
      [(⟨⟨2, 1, 1⟩, 7, .data⟩, 1), (⟨⟨1, 1, 1⟩, 7, .data⟩, 0)] := by
    unfold MmapOut.timed
    rw [hmapped', hentries']
    rfl
  rw [show Dev.changes { writtenDev with past := [], erased := fun _ => False } = 1 from rfl,
    htimed'] at hist''
  have hsize : 0 + 4 ≤ (⟨2, 1, 1⟩ : MmapEntry).count * mmuPageSize := by decide
  refine ⟨_, _, _, hist'', List.mem_cons_self .., by decide +kernel, fun bs d' hread => ?_⟩
  have hbs := fresh_mapping_current (by decide) bootPage5_boot rfl hist'' (List.mem_cons_self ..)
    hsize hread
  have hflash : writtenDev.flash.read (7 * mmuPageSize + 0) 4 = [1, 2, 3, 4] := by decide +kernel
  exact hbs.trans hflash
def zeroDev : Dev := ⟨fun _ => 0, [], fun _ => False, 0⟩

theorem mapping_after_erase_stale : ∃ out out' d d',
    (mmapCall 0x400000 bootPage5 0x70000 0x10000 .data).Ends FlashOp.Effect zeroDev out d ∧
    (spiFlashEraseRange 0x400000 0x70000 0x1000).Ends FlashOp.Effect d .ok d' ∧
    (mmapCall 0x400000 out.mmu 0x70000 0x10000 .data).Ends FlashOp.Effect d' out' d' ∧
    out'.err = .ok ∧ out'.mapped = some (0x3F410000, 2) ∧ d'.flash 0x70000 = 0xff ∧
    (FlashOp.cached out'.mmu 0x3F410000 1).Effect d' [0] d' := by
  have hcall : ∃ out out', spiFlashMmap 0x400000 true bootPage5 0x70000 0x10000 .data = some out ∧
      out.flushed = true ∧
      spiFlashMmap 0x400000 true out.mmu 0x70000 0x10000 .data = some out' ∧
      out'.flushed = false ∧ out'.err = .ok ∧ out'.mapped = some (0x3F410000, 2) ∧
      out'.mmu.proTable 1 = 7 := ⟨_, _, rfl, rfl, rfl, rfl, rfl, rfl, rfl⟩
  obtain ⟨out, out', hout, hflushed, hout', hflushed', herr, hmapped, hpro⟩ := hcall
  have hends := mmapCall_ends (d := zeroDev) (by decide) hout
  rw [hflushed] at hends
  refine ⟨out, out', _, ⟨zeroDev.flash.erase 0x70000 0x1000, [zeroDev.flash], fun q => False ∨
    q = 7, 1⟩,
    hends, ?_, ?_, herr, hmapped, rfl, rfl, rfl, fun i hi => ?_⟩
  · have hchanges : Dev.Changes { zeroDev with past := [], erased := fun _ => False }
        ⟨zeroDev.flash.erase 0x70000 0x1000, [zeroDev.flash], fun q => False ∨ q = 7, 1⟩
        (secSize * 112) secSize :=
      ⟨fun x hx => if_neg hx, fun c hc => .inr fun x _ => by simp at hc; rw [hc], rfl⟩
    refine .call (r := RomResult.ok) rfl ?_
    refine .call (r := RomResult.ok) ⟨hchanges, rfl, fun _ => rfl⟩ ?_
    exact .ret
  · have h := mmapCall_ends (d := ⟨zeroDev.flash.erase 0x70000 0x1000, [zeroDev.flash],
      fun q => False ∨ q = 7, 1⟩) (by decide) hout'
    rwa [hflushed'] at h
  · obtain rfl : i = 0 := by omega
    exact ⟨zeroDev.flash, .inr (List.mem_cons_self ..), .inl rfl⟩

end EspIdf.SpiFlash
