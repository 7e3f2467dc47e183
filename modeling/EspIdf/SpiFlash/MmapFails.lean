import EspIdf.SpiFlash.Mapping

/-! When `spi_flash_mmap` has to fail.  A place of a request is a run of `page_count` entries of the
window, usable if each entry is unused or shows the wanted flash page already.  The search looks at
every place but the last one. -/

namespace EspIdf.SpiFlash

/-- States that calls of `spi_flash_mmap` and `spi_flash_munmap` lead to, with any arguments, from a
start where nothing is counted yet.  A call that fails an assertion leads nowhere. -/
inductive Called (chipSize : Nat) : Mmu → Prop
  | boot {t : Mmu} (hrefcnt : ∀ i, t.refcnt i = 0) : Called chipSize t
  | mmap {t : Mmu} {mallocOk : Bool} {srcAddr size : Nat} {memory : Memory} {out : MmapOut}
      (h : Called chipSize t)
      (hout : spiFlashMmap chipSize mallocOk t srcAddr size memory = some out) :
      Called chipSize out.mmu
  | munmap {t t' : Mmu} {handle : Nat} (h : Called chipSize t)
      (ht : spiFlashMunmap t handle = some t') : Called chipSize t'

/-! ### The tables of the two CPUs -/

def Mmu.Same (t : Mmu) : Prop := ∀ i < mmuPageCount, t.refcnt i ≠ 0 → t.proTable i = t.appTable i

namespace Mmu.Same

variable {t t' : Mmu}

section

variable (h : t.Same)
include h

theorem mmapInit : t.mmapInit.Same := by
  intro i hi hr
  unfold Mmu.mmapInit at hr ⊢
  split_ifs at hr ⊢ with h0
  · exact h i hi hr
  · by_cases hused : t.usedAtBoot i = true
    · -- an entry that differed between the CPUs was dropped, so this one does not
      have hboot : t.bootEntry i &&& invalidEntryVal = 0 := (of_decide_eq_true hused).1
      simp only [hi, hused, not_true_eq_false, and_false, if_false]
      by_contra hne
      rw [bootEntry, if_pos hne] at hboot
      exact absurd hboot (by decide)
    · simp only [hi, Bool.eq_false_iff.mpr hused, Bool.false_eq_true, not_false_eq_true, and_self,
        if_true]

theorem withWritten (w : Nat → Bool) : (t.withWritten w).Same := h

theorem prepared (srcAddr size : Nat) : (t.prepared srcAddr size).Same :=
  h.mmapInit.withWritten _

theorem withPages (i val n : Nat) : (t.withPages i val n).Same := by
  intro j hj hr
  simp only [Mmu.withPages] at hr ⊢
  split_ifs with hin
  · rfl
  · rw [if_neg hin] at hr
    exact h j hj hr

theorem withoutPages (i n : Nat) : (t.withoutPages i n).Same := by
  intro j hj hr
  simp only [Mmu.withoutPages] at hr ⊢
  split_ifs with hin
  · rfl
  · exact h j hj (by split_ifs at hr <;> omega)

theorem releasePages (ht : t.releasePages i n = some t') : t'.Same := by
  induction n generalizing t i with
  | zero =>
    cases ht
    exact h
  | succ n ih =>
    rw [Mmu.releasePages] at ht
    split_ifs at ht
    rw [releasePage_eq] at ht
    exact ih (h.withoutPages i 1) ht

theorem mmap {chipSize srcAddr size : Nat}
    (hout : spiFlashMmap chipSize mallocOk t srcAddr size memory = some out) :
    out.mmu.Same := by
  rcases spiFlashMmap_some hout with ⟨-, -, hmmu | ⟨hmmu, -⟩⟩ | ⟨-, -, start, hmade⟩
  · rw [hmmu]
    exact h
  · rw [hmmu]
    exact h.prepared srcAddr size
  · rw [hmade.mmu]
    exact (h.prepared srcAddr size).withPages start _ _

theorem munmap {handle : Nat} (ht : spiFlashMunmap t handle = some t') : t'.Same := by
  unfold spiFlashMunmap at ht
  split at ht
  · cases ht
  · obtain ⟨u, hu, rfl⟩ := Option.map_eq_some_iff.mp ht
    have hsame : u.Same := h.releasePages hu
    exact hsame

end

end Mmu.Same

theorem Called.same {chipSize : Nat} (h : Called chipSize t) : t.Same := by
  induction h with
  | boot hrefcnt => exact fun i _ hr => absurd (hrefcnt i) hr
  | mmap _ hout ih => exact ih.mmap hout
  | munmap _ ht ih => exact ih.munmap ht

/-! ### The search -/

namespace Mmu

variable {t : Mmu} {page count start n : Nat}

/-- Place `start` of the window is usable: `count` consecutive entries from there, each unused or
showing the wanted flash page. -/
def Usable (t : Mmu) (memory : Memory) (page count start : Nat) : Prop :=
  memory.regionBegin ≤ start ∧ start + count ≤ memory.regionBegin + memory.regionSize ∧
    t.MayShow start page count

theorem Same.fits_iff (h : t.Same) (hend : start + count ≤ mmuPageCount) :
    t.fits start page count = true ↔ t.MayShow start page count := by
  rw [Mmu.fits_iff]
  constructor
  · intro hfits k hk
    refine ⟨by omega, ?_⟩
    by_cases hr : t.refcnt (start + k) = 0
    · exact .inl hr
    · have hpro := hfits k hk hr
      exact .inr ⟨hpro, (h _ (by omega) hr).symm.trans hpro⟩
  · intro hshow k hk hr
    exact ((hshow k hk).2.resolve_left hr).1

theorem findStart_first (t : Mmu) (page count start n : Nat) :
    ∀ s, start ≤ s → s < t.findStart page count start n → t.fits s page count = false := by
  induction n generalizing start with
  | zero =>
    intro s hs hlt
    simp only [findStart] at hlt
    omega
  | succ n ih =>
    intro s hs hlt
    rw [findStart] at hlt
    split_ifs at hlt with hfits
    · omega
    · rcases Nat.eq_or_lt_of_le hs with rfl | hs
      · exact Bool.eq_false_iff.mpr hfits
      · exact ih (start + 1) s hs hlt

end Mmu

def Succeeds (r : Option MmapOut) : Prop := ∃ out, r = some out ∧ out.err = .ok

def OnlyLastUsable (t : Mmu) (memory : Memory) (page count : Nat) : Prop :=
  count ≤ memory.regionSize ∧
  ∀ start, t.Usable memory page count start ↔
    start = memory.regionBegin + memory.regionSize - count

section Search

variable {t : Mmu} {chipSize srcAddr size : Nat} {memory : Memory}

theorem mmap_succeeds_iff (hsame : t.Same) (h1 : srcAddr % mmuPageSize = 0)
    (h2 : add32 srcAddr size ≤ chipSize) (hcount : pageCountOf size ≤ memory.regionSize) :
    Succeeds (spiFlashMmap chipSize true t srcAddr size memory) ↔
      ∃ start, (t.prepared srcAddr size).Usable memory (srcAddr / mmuPageSize) (pageCountOf size)
        start ∧ start ≠ memory.regionBegin + memory.regionSize - pageCountOf size := by
  have hp := hsame.prepared srcAddr size
  have hle := memory.region_le
  set u := t.prepared srcAddr size with hu
  have hrounds : ((memory.regionBegin : Int) + memory.regionSize - pageCountOf size -
      memory.regionBegin).toNat = memory.regionSize - pageCountOf size := by omega
  obtain ⟨hfirst, hlast, hfits⟩ := u.findStart_spec (srcAddr / mmuPageSize) (pageCountOf size)
    memory.regionBegin (memory.regionSize - pageCountOf size)
  have hnone := u.findStart_first (srcAddr / mmuPageSize) (pageCountOf size)
    memory.regionBegin (memory.regionSize - pageCountOf size)
  rw [spiFlashMmap_eq h1 h2, Mmu.searchEnd, hrounds]
  set start := u.findStart (srcAddr / mmuPageSize) (pageCountOf size) memory.regionBegin
    (memory.regionSize - pageCountOf size)
  constructor
  · rintro ⟨out, hout, herr⟩
    split_ifs at hout with hend
    · cases hout
      cases herr
    · refine ⟨start, ⟨hfirst, by omega, ?_⟩, by omega⟩
      exact (hp.fits_iff (by omega)).mp (hfits (by omega))
  · rintro ⟨s, ⟨hbegin, hstop, hshow⟩, hs⟩
    have hlt : start < memory.regionBegin + (memory.regionSize - pageCountOf size) := by
      by_contra hge
      have hno := hnone s hbegin (by omega)
      rw [(hp.fits_iff (by omega)).mpr hshow] at hno
      cases hno
    rw [if_neg (by omega)]
    have hshow' := (hp.fits_iff (by omega)).mp (hfits hlt)
    obtain ⟨out, hout⟩ : ∃ out, u.mapAt (srcAddr / mmuPageSize) (pageCountOf size) start memory
      (t.ensureUnmodifiedRegion srcAddr size).2 = some out := mapAt_of _ hshow'
    exact ⟨out, hout, (mapAt_some hout).2.1⟩

/-- In every state that calls lead to, a request with a usable place succeeds, unless that place is
the last of the window and the only one. -/
theorem mmap_finds_place_iff (srcAddr size : Nat) (memory : Memory) (h : Called chipSize t)
    (h1 : srcAddr % mmuPageSize = 0) (h2 : add32 srcAddr size ≤ chipSize) :
    ((∃ start, (t.prepared srcAddr size).Usable memory (srcAddr / mmuPageSize) (pageCountOf size)
        start) → Succeeds (spiFlashMmap chipSize true t srcAddr size memory)) ↔
      ¬ OnlyLastUsable (t.prepared srcAddr size) memory (srcAddr / mmuPageSize)
        (pageCountOf size) := by
  constructor
  · rintro hfinds ⟨hcount, honly⟩
    obtain ⟨s, hs, hne⟩ := (mmap_succeeds_iff h.same h1 h2 hcount).mp
      (hfinds ⟨_, (honly _).mpr rfl⟩)
    exact hne ((honly s).mp hs)
  · rintro hnot ⟨s, hs⟩
    have hcount : pageCountOf size ≤ memory.regionSize := by
      have := hs.1
      have := hs.2.1
      omega
    refine (mmap_succeeds_iff h.same h1 h2 hcount).mpr ?_
    by_contra hno
    have hlast : ∀ s', (t.prepared srcAddr size).Usable memory (srcAddr / mmuPageSize)
        (pageCountOf size) s' → s' = memory.regionBegin + memory.regionSize - pageCountOf size :=
      fun s' hs' => by_contra fun hne => hno ⟨s', hs', hne⟩
    exact hnot ⟨hcount, fun s' => ⟨hlast s', fun hs' => hs' ▸ hlast s hs ▸ hs⟩⟩

end Search

theorem mmap_finds_place_page7 :
    ¬ OnlyLastUsable (bootPage5.prepared 0x70000 mmuPageSize) .data 7 1 ∧
      ((∃ start, (bootPage5.prepared 0x70000 mmuPageSize).Usable .data 7 1 start) →
        Succeeds (spiFlashMmap 0x800000 true bootPage5 0x70000 mmuPageSize .data)) := by
  have hcalled : Called 0x800000 bootPage5 := .boot fun _ => rfl
  have hiff := mmap_finds_place_iff 0x70000 mmuPageSize .data hcalled (by decide) (by decide)
  have hone : ∀ k < 1, 1 + k < mmuPageCount ∧
      ((bootPage5.prepared 0x70000 mmuPageSize).refcnt (1 + k) = 0 ∨
        (bootPage5.prepared 0x70000 mmuPageSize).proTable (1 + k) = 7 + k ∧
        (bootPage5.prepared 0x70000 mmuPageSize).appTable (1 + k) = 7 + k) := by decide +kernel
  have hnot : ¬ OnlyLastUsable (bootPage5.prepared 0x70000 mmuPageSize) .data 7 1 := by
    rintro ⟨-, honly⟩
    exact absurd ((honly 1).mp ⟨by decide, by decide, hone⟩) (by decide)
  exact ⟨hnot, hiff.mpr hnot⟩

theorem last_place_not_tried : Called 0x800000 bootPage5 ∧
    (bootPage5.prepared 0x100000 (63 * mmuPageSize)).Usable .data 16 63 1 ∧
    (spiFlashMmap 0x800000 true bootPage5 0x100000 (63 * mmuPageSize) .data).map (·.err) =
      some .noMem := by
  have hshow : ∀ k < 63, 1 + k < mmuPageCount ∧
      ((bootPage5.prepared 0x100000 (63 * mmuPageSize)).refcnt (1 + k) = 0 ∨
        (bootPage5.prepared 0x100000 (63 * mmuPageSize)).proTable (1 + k) = 16 + k ∧
        (bootPage5.prepared 0x100000 (63 * mmuPageSize)).appTable (1 + k) = 16 + k) := by
    decide +kernel
  exact ⟨.boot fun _ => rfl, ⟨by decide, by decide, hshow⟩, by decide +kernel⟩

end EspIdf.SpiFlash
