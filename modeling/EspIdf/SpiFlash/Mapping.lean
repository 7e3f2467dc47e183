import EspIdf.Device.Runs
import EspIdf.SpiFlash.Mmap
import Mathlib.Data.List.Nodup

/-! Live mappings.  The reference count of an MMU entry is the number of mappings that cover it, and
the entries of a mapping point at its flash pages as long as it is live. -/

namespace EspIdf.SpiFlash

open EspIdf.Runs

namespace Mmu

variable {t t' : Mmu} {i j n page pos start val : Nat}

theorem fits_iff : t.fits pos page n = true ↔
    ∀ k < n, t.refcnt (pos + k) ≠ 0 → t.proTable (pos + k) = page + k := by
  induction n generalizing pos page with
  | zero => simp [fits]
  | succ n ih =>
    rw [fits, Bool.and_eq_true, ih]
    constructor
    · rintro ⟨h0, h⟩ k hk hr
      cases k with
      | zero =>
        simp only [Nat.add_zero] at hr ⊢
        simpa [hr] using h0
      | succ k =>
        have := h k (by omega)
        rw [show pos + 1 + k = pos + (k + 1) by omega] at this
        omega
    · intro h
      refine ⟨?_, fun k hk => ?_⟩
      · have := h 0 (by omega)
        simpa [Classical.or_iff_not_imp_left] using this
      · have := h (k + 1) (by omega)
        rw [show pos + 1 + k = pos + (k + 1) by omega]
        intro hr
        omega

theorem findStart_spec (t : Mmu) (page count start n : Nat) :
    start ≤ t.findStart page count start n ∧ t.findStart page count start n ≤ start + n ∧
      (t.findStart page count start n < start + n →
        t.fits (t.findStart page count start n) page count = true) := by
  induction n generalizing start with
  | zero => simp [findStart]
  | succ n ih =>
    rw [findStart]
    split
    · rename_i hfits
      exact ⟨Nat.le_refl _, by omega, fun _ => hfits⟩
    · obtain ⟨h1, h2, h3⟩ := ih (start + 1)
      exact ⟨by omega, by omega, fun hlt => h3 (by omega)⟩

/-- The entries that `setupPages` leaves: `n` entries from `i` point at the pages from `val`, and
each is counted once more. -/
def withPages (t : Mmu) (i val n : Nat) : Mmu :=
  { t with
    proTable := fun j => if i ≤ j ∧ j < i + n then val + (j - i) else t.proTable j
    appTable := fun j => if i ≤ j ∧ j < i + n then val + (j - i) else t.appTable j
    refcnt := fun j => if i ≤ j ∧ j < i + n then (t.refcnt j + 1) % 256 else t.refcnt j }

def MayShow (t : Mmu) (i val n : Nat) : Prop :=
  ∀ k < n, i + k < mmuPageCount ∧
    (t.refcnt (i + k) = 0 ∨ t.proTable (i + k) = val + k ∧ t.appTable (i + k) = val + k)

theorem withPages_zero (t : Mmu) (i val : Nat) : t.withPages i val 0 = t := by
  have h : ∀ j, ¬ (i ≤ j ∧ j < i + 0) := by omega
  simp only [withPages, h, if_false]

theorem setupPage_eq (h : t.refcnt i = 0 ∨ t.proTable i = val ∧ t.appTable i = val) :
    (t.setupPage i val).1 = t.withPages i val 1 := by
  have hin : ∀ j, i ≤ j ∧ j < i + 1 ↔ j = i := by omega
  unfold setupPage
  split
  · ext j <;> simp only [withPages, hin, Function.update_apply]
    · split_ifs with hj
      · subst hj; simp
      · rfl
    · split_ifs with hj
      · subst hj; simp
      · rfl
    · split_ifs with hj
      · subst hj; rfl
      · rfl
  · have hpro : t.proTable i = val := by tauto
    have happ : t.appTable i = val := by tauto
    ext j <;> simp only [withPages, hin, Function.update_apply]
    · split_ifs with hj
      · subst hj; simp [hpro]
      · rfl
    · split_ifs with hj
      · subst hj; simp [happ]
      · rfl
    · split_ifs with hj
      · subst hj; rfl
      · rfl

theorem withPages_succ (t : Mmu) (i val n : Nat) :
    (t.withPages i val 1).withPages (i + 1) (val + 1) n = t.withPages i val (n + 1) := by
  ext j <;> simp only [withPages]
  all_goals split_ifs <;> first | rfl | omega

theorem mayShow_succ : t.MayShow i val (n + 1) ↔ (i < mmuPageCount ∧
    (t.refcnt i = 0 ∨ t.proTable i = val ∧ t.appTable i = val)) ∧
    (t.withPages i val 1).MayShow (i + 1) (val + 1) n := by
  have hother : ∀ k, ¬ (i ≤ i + 1 + k ∧ i + 1 + k < i + 1) := by omega
  simp only [MayShow, withPages, hother, if_false]
  constructor
  · intro h
    refine ⟨h 0 (by omega), fun k hk => ?_⟩
    have := h (k + 1) (by omega)
    rwa [show i + (k + 1) = i + 1 + k by omega, show val + (k + 1) = val + 1 + k by omega] at this
  · rintro ⟨h0, h⟩ k hk
    cases k with
    | zero => exact h0
    | succ k =>
      have := h k (by omega)
      rwa [show i + (k + 1) = i + 1 + k by omega, show val + (k + 1) = val + 1 + k by omega]

theorem setupPages_of (h : t.MayShow i val n) :
    ∃ needFlush, t.setupPages i val n = some (t.withPages i val n, needFlush) := by
  induction n generalizing t i val with
  | zero => exact ⟨false, by rw [withPages_zero]; rfl⟩
  | succ n ih =>
    obtain ⟨⟨hi, hok⟩, hrest⟩ := mayShow_succ.mp h
    obtain ⟨needFlush, hn⟩ := ih hrest
    refine ⟨(t.setupPage i val).2 || needFlush, ?_⟩
    rw [setupPages, if_neg (by omega), if_neg (not_not.mpr hok)]
    simp only [setupPage_eq hok, hn, withPages_succ, Option.map_some]

theorem mayShow_of_setupPages (h : t.setupPages i val n = some r) : t.MayShow i val n := by
  induction n generalizing t i val r with
  | zero => exact fun k hk => absurd hk (Nat.not_lt_zero k)
  | succ n ih =>
    rw [setupPages] at h
    split_ifs at h with hi hok
    simp only [setupPage_eq hok, Option.map_eq_some_iff] at h
    obtain ⟨r', hr', -⟩ := h
    exact mayShow_succ.mpr ⟨⟨by omega, hok⟩, ih hr'⟩

def withoutPages (t : Mmu) (i n : Nat) : Mmu :=
  { t with
    proTable := fun j => if (i ≤ j ∧ j < i + n) ∧ t.refcnt j - 1 = 0 then invalidEntryVal
      else t.proTable j
    appTable := fun j => if (i ≤ j ∧ j < i + n) ∧ t.refcnt j - 1 = 0 then invalidEntryVal
      else t.appTable j
    refcnt := fun j => if i ≤ j ∧ j < i + n then t.refcnt j - 1 else t.refcnt j }

theorem withoutPages_zero (t : Mmu) (i : Nat) : t.withoutPages i 0 = t := by
  have h : ∀ j, ¬ (i ≤ j ∧ j < i + 0) := by omega
  simp only [withoutPages, h, false_and, if_false]

theorem releasePage_eq (t : Mmu) (i : Nat) : t.releasePage i = t.withoutPages i 1 := by
  have hin : ∀ j, i ≤ j ∧ j < i + 1 ↔ j = i := by omega
  unfold releasePage
  split <;> rename_i hz <;> ext j <;> simp only [withoutPages, hin, Function.update_apply]
  all_goals by_cases hj : j = i
  all_goals first | (subst hj; simp [hz]) | simp [hj]

theorem withoutPages_succ (t : Mmu) (i n : Nat) :
    (t.withoutPages i 1).withoutPages (i + 1) n = t.withoutPages i (n + 1) := by
  ext j <;> simp only [withoutPages]
  all_goals split_ifs <;> first | rfl | omega

theorem releasePages_of (h : ∀ k < n, t.refcnt (i + k) ≠ 0) :
    t.releasePages i n = some (t.withoutPages i n) := by
  induction n generalizing t i with
  | zero => rw [withoutPages_zero]; rfl
  | succ n ih =>
    have h0 : t.refcnt i ≠ 0 := h 0 (by omega)
    rw [releasePages, if_neg h0, releasePage_eq, ih, withoutPages_succ]
    intro k hk
    have := h (k + 1) (by omega)
    rw [show i + (k + 1) = i + 1 + k by omega] at this
    simpa only [withoutPages, show ¬ (i ≤ i + 1 + k ∧ i + 1 + k < i + 1) by omega, if_false]
      using this

def withWritten (t : Mmu) (w : Nat → Bool) : Mmu := { t with writtenPages := w }

@[simp] theorem withWritten_entries (t : Mmu) (w : Nat → Bool) : (t.withWritten w).entries =
    t.entries := rfl

@[simp] theorem withWritten_lastHandle (t : Mmu) (w : Nat → Bool) :
    (t.withWritten w).lastHandle = t.lastHandle := rfl

@[simp] theorem withWritten_writtenPages (t : Mmu) (w : Nat → Bool) :
    (t.withWritten w).writtenPages = w := rfl

theorem ensureUnmodifiedRegion_fields (t : Mmu) (a n : Nat) :
    ∃ w, (t.ensureUnmodifiedRegion a n).1 = t.withWritten w := by
  have hloop : ∀ rounds stop addr, ∃ w, (updateLoop false stop rounds t addr).1 =
      t.withWritten w := by
    intro rounds stop
    induction rounds with
    | zero => exact fun _ => ⟨_, rfl⟩
    | succ rounds ih =>
      intro addr
      simp only [updateLoop, Bool.false_eq_true, if_false]
      split_ifs <;> first | exact ⟨_, rfl⟩ | exact ih _
  exact hloop _ _ _

end Mmu

/-! ### The invariant -/

/-- A live mapping: its entry in the list, the flash page it starts with, and its window. -/
structure Mapping where
  entry : MmapEntry
  physPage : Nat
  memory : Memory
  deriving DecidableEq, Repr

namespace Mapping

def covers (i : Nat) (g : Mapping) : Bool := g.entry.page ≤ i ∧ i < g.entry.page + g.entry.count

theorem covers_iff {g : Mapping} {i : Nat} :
    g.covers i = true ↔ g.entry.page ≤ i ∧ i < g.entry.page + g.entry.count := decide_eq_true_iff

def InWindow (g : Mapping) : Prop := g.memory.regionBegin ≤ g.entry.page ∧
  g.entry.page + g.entry.count ≤ g.memory.regionBegin + g.memory.regionSize

def Shown (t : Mmu) (g : Mapping) : Prop := ∀ k < g.entry.count,
  t.proTable (g.entry.page + k) = g.physPage + k ∧ t.appTable (g.entry.page + k) = g.physPage + k

end Mapping

structure InStep (boot : Nat → Bool) (t : Mmu) (live : List Mapping) : Prop where
  zero : boot 0 = true
  entries : t.entries = live.map (·.entry)
  handles : (live.map (·.entry.handle)).Nodup
  window : ∀ g ∈ live, g.InWindow
  shown : ∀ g ∈ live, g.Shown t
  refcnt : ∀ i < mmuPageCount, t.refcnt i = live.countP (·.covers i) + if boot i then 1 else 0
  same : ∀ i < mmuPageCount, t.refcnt i ≠ 0 → t.proTable i = t.appTable i

theorem Memory.region_le (memory : Memory) : memory.regionBegin + memory.regionSize ≤
    mmuPageCount := by
  cases memory <;> decide

section Steps

variable {boot : Nat → Bool} {t : Mmu} {live : List Mapping} {g : Mapping}

section

variable (h : InStep boot t live)
include h

theorem InStep.init_eq : t.mmapInit = t := by
  have h0 := h.refcnt 0 (by decide)
  rw [h.zero, if_pos rfl] at h0
  rw [Mmu.mmapInit, if_pos (by omega)]

theorem InStep.withWritten (w : Nat → Bool) :
    InStep boot (t.withWritten w) live where
  zero := h.zero
  entries := h.entries
  handles := h.handles
  window := h.window
  shown := h.shown
  refcnt := h.refcnt
  same := h.same

theorem InStep.refcnt_pos (hg : g ∈ live) (hi : g.covers i = true) : t.refcnt i ≠ 0 := by
  have hw := h.window g hg
  have hle := g.memory.region_le
  have hlt : i < mmuPageCount := by
    simp only [Mapping.covers, decide_eq_true_eq] at hi
    unfold Mapping.InWindow at hw
    omega
  have hpos : 0 < live.countP (·.covers i) := List.countP_pos_iff.mpr ⟨g, hg, hi⟩
  rw [h.refcnt i hlt]
  omega

theorem InStep.add (hw : g.InWindow)
    (hfit : ∀ k < g.entry.count, t.refcnt (g.entry.page + k) ≠ 0 →
      t.proTable (g.entry.page + k) = g.physPage + k)
    (hfew : ∀ i < mmuPageCount, t.refcnt i < 255)
    (hhandle : ∀ e ∈ t.entries, e.handle ≠ g.entry.handle) :
    InStep boot { t.withPages g.entry.page g.physPage g.entry.count with
      entries := g.entry :: t.entries, lastHandle := g.entry.handle } (g :: live) where
  zero := h.zero
  entries := by rw [List.map_cons, h.entries]
  handles := by
    rw [List.map_cons, List.nodup_cons]
    refine ⟨fun hmem => ?_, h.handles⟩
    obtain ⟨g', hg', heq⟩ := List.mem_map.mp hmem
    exact hhandle g'.entry (h.entries ▸ List.mem_map_of_mem hg') heq
  window g' hg' := by
    rcases List.mem_cons.mp hg' with rfl | hg'
    · exact hw
    · exact h.window g' hg'
  shown g' hg' k hk := by
    simp only [Mmu.withPages]
    rcases List.mem_cons.mp hg' with rfl | hg'
    · rw [if_pos (by omega), if_pos (by omega), Nat.add_sub_cancel_left]
      exact ⟨rfl, rfl⟩
    · have hold := h.shown g' hg' k hk
      split_ifs with hin
      · -- an entry that both mappings cover shows the page of the old one, and the new one fits
        have hr : t.refcnt (g'.entry.page + k) ≠ 0 := h.refcnt_pos hg' (by
          simp only [Mapping.covers, decide_eq_true_eq]
          omega)
        have := hfit (g'.entry.page + k - g.entry.page) (by omega)
        rw [show g.entry.page + (g'.entry.page + k - g.entry.page) =
          g'.entry.page + k by omega] at this
        rw [← this hr]
        exact ⟨hold.1, hold.1⟩
      · exact hold
  refcnt i hi := by
    have h1 := h.refcnt i hi
    have h2 := hfew i hi
    simp only [Mmu.withPages, List.countP_cons, Mapping.covers, decide_eq_true_eq]
    split_ifs at h1 ⊢ <;> simp only [Mapping.covers] at h1 <;> omega
  same i hi hr := by
    simp only [Mmu.withPages] at hr ⊢
    split_ifs with hin
    · rfl
    · rw [if_neg hin] at hr
      exact h.same i hi hr

theorem InStep.drop (hg : g ∈ live) :
    InStep boot { t.withoutPages g.entry.page g.entry.count with
      entries := t.entries.eraseP (·.handle = g.entry.handle) }
      (live.eraseP (·.entry.handle = g.entry.handle)) := by
  obtain ⟨g', l1, l2, hnot, hhandle, hlive, herase⟩ := List.exists_of_eraseP
    (p := fun g' : Mapping => decide (g'.entry.handle = g.entry.handle)) hg (by simp)
  -- handles are different, so the mapping dropped is this one
  obtain rfl : g' = g := List.inj_on_of_nodup_map h.handles (by rw [hlive]; simp) hg
    (of_decide_eq_true hhandle)
  have hsub : ∀ g' ∈ l1 ++ l2, g' ∈ live := by
    intro g' hg'
    rw [hlive]
    simp only [List.mem_append, List.mem_cons] at hg' ⊢
    tauto
  have hcount : ∀ i, live.countP (·.covers i) =
      (l1 ++ l2).countP (·.covers i) + if g'.covers i then 1 else 0 := by
    intro i
    rw [hlive]
    simp only [List.countP_append, List.countP_cons]
    omega
  rw [herase]
  refine ⟨h.zero, ?_, ?_, fun g' hg' => h.window g' (hsub g' hg'), ?_, ?_, ?_⟩
  · simp only [h.entries, List.eraseP_map, ← herase]
    rfl
  · have := h.handles
    rw [hlive] at this
    simp only [List.map_append, List.map_cons] at this ⊢
    exact this.sublist (List.Sublist.append_left (List.sublist_cons_self _ _) _)
  · intro g2 hg2 k hk
    have hold := h.shown g2 (hsub g2 hg2) k hk
    have hw2 := h.window g2 (hsub g2 hg2)
    have hle := g2.memory.region_le
    have hlt : g2.entry.page + k < mmuPageCount := by
      unfold Mapping.InWindow at hw2
      omega
    have hcov : 0 < (l1 ++ l2).countP (·.covers (g2.entry.page + k)) :=
      List.countP_pos_iff.mpr ⟨g2, hg2, by simp only [Mapping.covers, decide_eq_true_eq]; omega⟩
    have hr := h.refcnt _ hlt
    rw [hcount] at hr
    -- another mapping covers the entry, so it is not released
    have hkeep : ¬ ((g'.entry.page ≤ g2.entry.page + k ∧ g2.entry.page + k <
      g'.entry.page + g'.entry.count) ∧
        t.refcnt (g2.entry.page + k) - 1 = 0) := by
      rintro ⟨hin, hz⟩
      rw [if_pos (Mapping.covers_iff.mpr hin)] at hr
      omega
    simp only [Mmu.withoutPages, if_neg hkeep]
    exact hold
  · intro i hi
    have hr := h.refcnt i hi
    rw [hcount] at hr
    simp only [Mmu.withoutPages]
    by_cases hin : g'.entry.page ≤ i ∧ i < g'.entry.page + g'.entry.count
    · rw [if_pos (Mapping.covers_iff.mpr hin)] at hr
      rw [if_pos hin]
      omega
    · rw [if_neg (mt Mapping.covers_iff.mp hin)] at hr
      rw [if_neg hin]
      omega
  · intro i hi hr
    simp only [Mmu.withoutPages] at hr ⊢
    split_ifs with h1
    · rfl
    · exact h.same i hi (by split_ifs at hr <;> omega)

end

end Steps

/-! ### Calls -/

/-- The live mappings after `spi_flash_mmap` returned `out`. -/
def MmapOut.live (out : MmapOut) (srcAddr : Nat) (memory : Memory) (live : List Mapping) :
    List Mapping :=
  match out.mapped, out.mmu.entries with
  | some _, entry :: _ => ⟨entry, srcAddr / mmuPageSize, memory⟩ :: live
  | _, _ => live

/-- A mapping of `size` bytes is not longer than its window, no entry is counted so often that its
byte would overflow, and the next handle is not in use. -/
structure Roomy (t : Mmu) (size : Nat) (memory : Memory) : Prop where
  count : pageCountOf size ≤ memory.regionSize
  few : ∀ i < mmuPageCount, t.refcnt i < 255
  handle : ∀ e ∈ t.entries, e.handle ≠ add32 t.lastHandle 1

variable {out : MmapOut}

section Calls

variable {boot : Nat → Bool} {t : Mmu} {live : List Mapping} {chipSize srcAddr size : Nat}
  {memory : Memory} {mallocOk : Bool}

theorem mmapInit_withWritten (t : Mmu) (w : Nat → Bool) :
    (t.withWritten w).mmapInit = t.mmapInit.withWritten w := by
  unfold Mmu.mmapInit Mmu.withWritten
  by_cases h : t.refcnt 0 ≠ 0
  · rw [if_pos h, if_pos h]
  · rw [if_neg h, if_neg h]
    rfl

theorem mmapInit_refcnt_lt (h : ∀ i < mmuPageCount, t.refcnt i < 255) :
    ∀ i < mmuPageCount, t.mmapInit.refcnt i < 255 := by
  intro i hi
  unfold Mmu.mmapInit
  split
  · exact h i hi
  · simp only
    split
    · decide
    · exact h i hi

theorem mmapInit_entries (t : Mmu) :
    t.mmapInit.entries = t.entries ∧ t.mmapInit.lastHandle = t.lastHandle := by
  unfold Mmu.mmapInit
  split <;> exact ⟨rfl, rfl⟩

/-- The MMU that the search of `spi_flash_mmap` works on. -/
def Mmu.prepared (t : Mmu) (srcAddr size : Nat) : Mmu :=
  t.mmapInit.withWritten (t.ensureUnmodifiedRegion srcAddr size).1.writtenPages

theorem prepared_eq (t : Mmu) (srcAddr size : Nat) :
    (t.ensureUnmodifiedRegion srcAddr size).1.mmapInit = t.prepared srcAddr size := by
  obtain ⟨w, hw⟩ := t.ensureUnmodifiedRegion_fields srcAddr size
  rw [Mmu.prepared, hw, mmapInit_withWritten, Mmu.withWritten_writtenPages]

theorem prepared_entries (t : Mmu) (srcAddr size : Nat) : (t.prepared srcAddr size).entries =
    t.entries := by
  rw [Mmu.prepared, Mmu.withWritten_entries, (mmapInit_entries t).1]

theorem prepared_lastHandle (t : Mmu) (srcAddr size : Nat) :
    (t.prepared srcAddr size).lastHandle = t.lastHandle := by
  rw [Mmu.prepared, Mmu.withWritten_lastHandle, (mmapInit_entries t).2]

theorem prepared_refcnt_lt (h : ∀ i < mmuPageCount, t.refcnt i < 255) (srcAddr size : Nat) :
    ∀ i < mmuPageCount, (t.prepared srcAddr size).refcnt i < 255 := by
  exact mmapInit_refcnt_lt h

structure MadeAt (t : Mmu) (srcAddr size : Nat) (memory : Memory) (out : MmapOut) (start : Nat) :
    Prop where
  show_ : (t.prepared srcAddr size).MayShow start (srcAddr / mmuPageSize) (pageCountOf size)
  first : memory.regionBegin ≤ start
  last : pageCountOf size ≤ memory.regionSize →
    start + pageCountOf size ≤ memory.regionBegin + memory.regionSize
  err : out.err = .ok
  mapped : out.mapped = some (memory.regionAddr + (start - memory.regionBegin) * mmuPageSize,
    add32 t.lastHandle 1)
  mmu : out.mmu =
    { (t.prepared srcAddr size).withPages start (srcAddr / mmuPageSize) (pageCountOf size) with
      entries := ⟨add32 t.lastHandle 1, start, pageCountOf size⟩ :: t.entries
      lastHandle := add32 t.lastHandle 1 }
  flushed : (t.ensureUnmodifiedRegion srcAddr size).2 = true → out.flushed = true

theorem MmapOut.live_none (h : out.mapped = none) : out.live srcAddr memory live = live := by
  rw [MmapOut.live, h]

theorem MadeAt.live_eq {start : Nat} (h : MadeAt t srcAddr size memory out start) :
    out.live srcAddr memory live =
      ⟨⟨add32 t.lastHandle 1, start, pageCountOf size⟩, srcAddr / mmuPageSize, memory⟩ :: live := by
  rw [MmapOut.live, h.mapped, h.mmu]

theorem mapAt_some {start : Nat} {didFlush : Bool} {u : Mmu} {page count : Nat}
    (h : u.mapAt page count start memory didFlush = some out) :
    u.MayShow start page count ∧ out.err = .ok ∧
      out.mapped = some (memory.regionAddr + (start - memory.regionBegin) * mmuPageSize,
        add32 u.lastHandle 1) ∧
      out.mmu = { u.withPages start page count with
        entries := ⟨add32 u.lastHandle 1, start, count⟩ :: u.entries
        lastHandle := add32 u.lastHandle 1 } ∧
      (didFlush = true → out.flushed = true) := by
  unfold Mmu.mapAt at h
  split at h
  · cases h
  · rename_i u' needFlush hset
    have hshow := Mmu.mayShow_of_setupPages hset
    obtain ⟨needFlush', heq⟩ := Mmu.setupPages_of hshow
    rw [hset] at heq
    cases heq
    cases h
    exact ⟨hshow, rfl, rfl, rfl, fun hd => by simp [hd]⟩

theorem mapAt_of {start : Nat} (didFlush : Bool) {u : Mmu} {page count : Nat}
    (h : u.MayShow start page count) : ∃ out, u.mapAt page count start memory didFlush =
    some out := by
  obtain ⟨needFlush, heq⟩ := Mmu.setupPages_of h
  exact ⟨_, by unfold Mmu.mapAt; rw [heq]⟩

def Mmu.searchEnd (u : Mmu) (srcAddr size : Nat) (memory : Memory) : Nat :=
  u.findStart (srcAddr / mmuPageSize) (pageCountOf size) memory.regionBegin
    ((memory.regionBegin : Int) + memory.regionSize - pageCountOf size - memory.regionBegin).toNat

theorem searchEnd_spec (u : Mmu) (srcAddr size : Nat) (memory : Memory)
    (hne : (u.searchEnd srcAddr size memory : Int) ≠
      memory.regionBegin + memory.regionSize - pageCountOf size) :
    memory.regionBegin ≤ u.searchEnd srcAddr size memory ∧
    (pageCountOf size ≤ memory.regionSize → u.searchEnd srcAddr size memory + pageCountOf size ≤
          memory.regionBegin + memory.regionSize ∧
        u.fits (u.searchEnd srcAddr size memory) (srcAddr / mmuPageSize) (pageCountOf size) =
          true) := by
  obtain ⟨h1, h2, h3⟩ := u.findStart_spec (srcAddr / mmuPageSize)
    (pageCountOf size) memory.regionBegin
    ((memory.regionBegin : Int) + memory.regionSize - pageCountOf size - memory.regionBegin).toNat
  unfold Mmu.searchEnd at hne ⊢
  refine ⟨h1, fun hcount => ?_⟩
  exact ⟨by omega, h3 (by omega)⟩

theorem spiFlashMmap_eq (h1 : srcAddr % mmuPageSize = 0) (h2 : add32 srcAddr size ≤ chipSize) :
    spiFlashMmap chipSize true t srcAddr size memory =
      if ((t.prepared srcAddr size).searchEnd srcAddr size memory : Int) =
          memory.regionBegin + memory.regionSize - pageCountOf size then
        some ⟨.noMem, none, t.prepared srcAddr size, (t.ensureUnmodifiedRegion srcAddr size).2⟩
      else (t.prepared srcAddr size).mapAt (srcAddr / mmuPageSize) (pageCountOf size)
        ((t.prepared srcAddr size).searchEnd srcAddr size memory) memory
        (t.ensureUnmodifiedRegion srcAddr size).2 := by
  unfold spiFlashMmap Mmu.searchEnd
  rw [if_neg (not_not.mpr h1), if_neg (by omega), if_neg (by simp), prepared_eq]

theorem noMem_some {u : Mmu} {didFlush : Bool} (h : some ⟨.noMem, none, u, didFlush⟩ = some out) :
    out.err ≠ .ok ∧ out.mapped = none ∧ out.mmu = u ∧ out.flushed = didFlush := by
  cases h
  exact ⟨by simp, rfl, rfl, rfl⟩

theorem spiFlashMmap_some (h : spiFlashMmap chipSize mallocOk t srcAddr size memory = some out) :
    (out.err ≠ .ok ∧ out.mapped = none ∧ (out.mmu = t ∨ out.mmu = t.prepared srcAddr size ∧
      ((t.ensureUnmodifiedRegion srcAddr size).2 = true → out.flushed = true))) ∨
    srcAddr % mmuPageSize = 0 ∧ add32 srcAddr size ≤ chipSize ∧
      ∃ start, MadeAt t srcAddr size memory out start := by
  by_cases h1 : srcAddr % mmuPageSize = 0
  swap
  · rw [spiFlashMmap, if_pos h1] at h
    cases h
    exact .inl ⟨by simp, rfl, .inl rfl⟩
  by_cases h2 : add32 srcAddr size ≤ chipSize
  swap
  · rw [spiFlashMmap, if_neg (not_not.mpr h1), if_pos (by omega)] at h
    cases h
    exact .inl ⟨by simp, rfl, .inl rfl⟩
  by_cases h3 : mallocOk = true
  swap
  · rw [spiFlashMmap, if_neg (not_not.mpr h1), if_neg (by omega), if_pos h3] at h
    cases h
    exact .inl ⟨by simp, rfl, .inl rfl⟩
  subst h3
  rw [spiFlashMmap_eq h1 h2] at h
  split at h
  · obtain ⟨herr, hmapped, hmmu, hflushed⟩ := noMem_some h
    exact .inl ⟨herr, hmapped, .inr ⟨hmmu, fun hd => hflushed.trans hd⟩⟩
  · rename_i hne
    obtain ⟨hfirst, hlast⟩ := searchEnd_spec _ _ _ _ hne
    obtain ⟨hshow, herr, hmapped, hmmu, hflush⟩ := mapAt_some h
    rw [prepared_lastHandle] at hmapped hmmu
    rw [prepared_entries] at hmmu
    exact .inr ⟨h1, h2, _, hshow, hfirst, fun hc => (hlast hc).1, herr, hmapped, hmmu, hflush⟩

section

variable (h : InStep boot t.mmapInit live)
include h

theorem InStep.prepared (srcAddr size : Nat) :
    InStep boot (t.prepared srcAddr size) live := h.withWritten _

theorem InStep.mmap_returns (hroom : Roomy t size memory) :
    ∃ out, spiFlashMmap chipSize mallocOk t srcAddr size memory = some out := by
  by_cases h1 : srcAddr % mmuPageSize = 0
  swap
  · exact ⟨_, by rw [spiFlashMmap, if_pos h1]⟩
  by_cases h2 : add32 srcAddr size ≤ chipSize
  swap
  · exact ⟨_, by rw [spiFlashMmap, if_neg (not_not.mpr h1), if_pos (by omega)]⟩
  by_cases h3 : mallocOk = true
  swap
  · exact ⟨_, by rw [spiFlashMmap, if_neg (not_not.mpr h1), if_neg (by omega), if_pos h3]⟩
  subst h3
  rw [spiFlashMmap_eq h1 h2]
  split
  · exact ⟨_, rfl⟩
  · rename_i hne
    obtain ⟨hfirst, hlast⟩ := searchEnd_spec _ _ _ _ hne
    obtain ⟨hstop, hfits⟩ := hlast hroom.count
    have hle := memory.region_le
    refine mapAt_of _ fun k hk => ⟨by omega, ?_⟩
    by_cases hr : (t.prepared srcAddr size).refcnt
        ((t.prepared srcAddr size).searchEnd srcAddr size memory + k) = 0
    · exact .inl hr
    · have hpro := Mmu.fits_iff.mp hfits k hk hr
      have hsame := (h.prepared srcAddr size).same _ (by omega) hr
      exact .inr ⟨hpro, hsame.symm.trans hpro⟩

theorem InStep.mmap (hroom : Roomy t size memory)
    (hout : spiFlashMmap chipSize mallocOk t srcAddr size memory = some out) :
    InStep boot out.mmu.mmapInit (out.live srcAddr memory live) := by
  have hp := h.prepared srcAddr size
  rcases spiFlashMmap_some hout with ⟨-, hnone, hmmu⟩ | ⟨-, -, start, hmade⟩
  · rw [MmapOut.live_none hnone]
    rcases hmmu with hmmu | ⟨hmmu, -⟩
    · rw [hmmu]
      exact h
    · rw [hmmu, hp.init_eq]
      exact hp
  · set g : Mapping := ⟨⟨add32 t.lastHandle 1, start, pageCountOf size⟩,
      srcAddr / mmuPageSize, memory⟩
      with hg
    have hlive : out.live srcAddr memory live = g :: live := hmade.live_eq
    have hadd : InStep boot out.mmu (g :: live) := by
      rw [hmade.mmu, ← prepared_entries t srcAddr size]
      refine hp.add (g := g) ⟨hmade.first, hmade.last hroom.count⟩ ?_ ?_ ?_
      · intro k hk hr
        exact ((hmade.show_ k hk).2.resolve_left hr).1
      · exact prepared_refcnt_lt hroom.few srcAddr size
      · intro e he
        rw [prepared_entries] at he
        exact hroom.handle e he
    rw [hlive, hadd.init_eq]
    exact hadd

theorem InStep.munmap {g : Mapping} (hg : g ∈ live)
    (hinit : t.mmapInit = t) :
    ∃ t', spiFlashMunmap t g.entry.handle = some t' ∧ t'.mmapInit = t' ∧
      InStep boot t' (live.eraseP (·.entry.handle = g.entry.handle)) := by
  rw [hinit] at h
  have hfind : t.entries.find? (·.handle = g.entry.handle) = some g.entry := by
    have hmem : g.entry ∈ t.entries := h.entries ▸ List.mem_map_of_mem hg
    cases hf : t.entries.find? (·.handle = g.entry.handle) with
    | none => exact absurd (List.find?_eq_none.mp hf g.entry hmem) (by simp)
    | some e =>
      have he := List.mem_of_find?_eq_some hf
      rw [h.entries] at he
      obtain ⟨g', hg', rfl⟩ := List.mem_map.mp he
      have hhandle : g'.entry.handle = g.entry.handle := by simpa using List.find?_some hf
      rw [List.inj_on_of_nodup_map h.handles hg' hg hhandle]
  have hrel := Mmu.releasePages_of (t := t) (i := g.entry.page) (n := g.entry.count) fun k hk =>
    h.refcnt_pos hg (Mapping.covers_iff.mpr (by omega))
  have hdrop := h.drop hg
  exact ⟨_, by rw [spiFlashMunmap, hfind]; simp only [hrel, Option.map_some]; rfl, hdrop.init_eq, hdrop⟩

end

end Calls

/-! ### Runs -/

structure Boot (t : Mmu) : Prop where
  refcnt : ∀ i, t.refcnt i = 0
  entries : t.entries = []
  zero : t.usedAtBoot 0 = true

/-- Runs of `spi_flash_mmap` and `spi_flash_munmap` from the boot state `t0`, with the mappings that
are live.  Only live handles are unmapped, and every call for a mapping meets `Roomy`. -/
inductive Reach (chipSize : Nat) (t0 : Mmu) : Mmu → List Mapping → Prop
  | boot : Reach chipSize t0 t0 []
  | mmap {t : Mmu} {live : List Mapping} (mallocOk : Bool) (srcAddr size : Nat) (memory : Memory)
      {out : MmapOut} : Reach chipSize t0 t live → Roomy t size memory →
      spiFlashMmap chipSize mallocOk t srcAddr size memory = some out →
      Reach chipSize t0 out.mmu (out.live srcAddr memory live)
  | munmap {t t' : Mmu} {live : List Mapping} {g : Mapping} : Reach chipSize t0 t live → g ∈ live →
      spiFlashMunmap t g.entry.handle = some t' →
      Reach chipSize t0 t' (live.eraseP (·.entry.handle = g.entry.handle))

theorem Boot.inStep (h : Boot t0) : InStep (fun i => t0.usedAtBoot i) t0.mmapInit [] := by
  have hinit : t0.mmapInit = { t0 with
      proTable := fun i => if i < mmuPageCount ∧ ¬ t0.usedAtBoot i then invalidEntryVal
        else t0.proTable i
      appTable := fun i => if i < mmuPageCount ∧ ¬ t0.usedAtBoot i then invalidEntryVal
        else t0.appTable i
      refcnt := fun i => if i < mmuPageCount ∧ t0.usedAtBoot i then 1 else t0.refcnt i } := by
    rw [Mmu.mmapInit, if_neg (by simp [h.refcnt 0])]
  rw [hinit]
  refine ⟨h.zero, h.entries, List.nodup_nil, by simp, by simp, fun i hi => ?_, fun i hi hr => ?_⟩
  · simp [hi, h.refcnt i]
  · have hu : t0.usedAtBoot i = true := by
      by_contra hu
      simp [hu, h.refcnt i] at hr
    have heq : t0.proTable i = t0.appTable i := by
      by_contra hne
      simp [Mmu.usedAtBoot, Mmu.bootEntry, hne, invalidEntryVal] at hu
    simp only [hu, not_true_eq_false, and_false, if_false, heq]

structure RunInv (boot : Nat → Bool) (t : Mmu) (live : List Mapping) : Prop where
  inStep : InStep boot t.mmapInit live
  init : t.mmapInit = t ∨ live = []

variable {live : List Mapping}

theorem RunInv.mmap {boot : Nat → Bool} {t : Mmu}
    {chipSize srcAddr size : Nat} {memory : Memory} {mallocOk : Bool}
    (h : RunInv boot t live) (hroom : Roomy t size memory)
    (hout : spiFlashMmap chipSize mallocOk t srcAddr size memory = some out) :
    RunInv boot out.mmu (out.live srcAddr memory live) := by
  have hstep := h.inStep.mmap hroom hout
  refine ⟨hstep, ?_⟩
  rcases spiFlashMmap_some hout with ⟨-, hnone, hmmu⟩ | ⟨-, -, start, hmade⟩
  · rw [MmapOut.live_none hnone]
    rcases hmmu with hmmu | ⟨hmmu, -⟩
    · rw [hmmu]
      exact h.init
    · rw [hmmu]
      exact .inl (h.inStep.prepared srcAddr size).init_eq
  · left
    have h0 : out.mmu.refcnt 0 ≠ 0 := by
      have hp := h.inStep.prepared srcAddr size
      have hz := hp.refcnt 0 (by decide)
      rw [hp.zero, if_pos rfl] at hz
      have hlt := prepared_refcnt_lt hroom.few srcAddr size 0 (by decide)
      rw [hmade.mmu]
      simp only [Mmu.withPages]
      split_ifs <;> omega
    rw [Mmu.mmapInit, if_pos h0]

theorem RunInv.munmap (h : RunInv boot t live) (hg : g ∈ live) :
    ∃ t', spiFlashMunmap t g.entry.handle = some t' ∧
      RunInv boot t' (live.eraseP (·.entry.handle = g.entry.handle)) := by
  have hinit : t.mmapInit = t := h.init.resolve_right (List.ne_nil_of_mem hg)
  obtain ⟨t', ht', hinit', hstep⟩ := h.inStep.munmap hg hinit
  exact ⟨t', ht', hinit'.symm ▸ hstep, .inl hinit'⟩

theorem Reach.runInv {chipSize : Nat} (hboot : Boot t0) (h : Reach chipSize t0 t live) :
    RunInv (fun i => t0.usedAtBoot i) t live := by
  induction h with
  | boot => exact ⟨hboot.inStep, .inr rfl⟩
  | mmap mallocOk srcAddr size memory _ hroom hout ih => exact ih.mmap hroom hout
  | munmap _ hg ht' ih =>
    obtain ⟨t'', ht'', hinv⟩ := ih.munmap hg
    rw [ht'] at ht''
    cases ht''
    exact hinv

/-- In every run whose mappings fit their windows and whose counters do not overflow, no assertion
fails, live mappings lie in their windows and show their pages on both CPUs, and every counter is
the number of mappings that cover its entry, and one more if it was in use at boot. -/
theorem live_mappings_kept {chipSize : Nat} {t0 t : Mmu} {live : List Mapping} (hboot : Boot t0)
    (h : Reach chipSize t0 t live) :
    (∀ g ∈ live, g.InWindow ∧ g.Shown t) ∧
    (t.mmapInit = t ∨ t.entries = []) ∧
    (t.mmapInit = t → ∀ i < mmuPageCount,
      t.refcnt i = live.countP (·.covers i) + if t0.usedAtBoot i then 1 else 0) ∧
    (∀ mallocOk srcAddr size memory, Roomy t size memory →
      spiFlashMmap chipSize mallocOk t srcAddr size memory ≠ none) ∧
    (∀ g ∈ live, spiFlashMunmap t g.entry.handle ≠ none) := by
  have hinv := h.runInv hboot
  refine ⟨fun g hg => ?_, ?_, fun hinit i hi => ?_, ?_, fun g hg => ?_⟩
  · have hinit : t.mmapInit = t := hinv.init.resolve_right (List.ne_nil_of_mem hg)
    have hstep := hinv.inStep
    rw [hinit] at hstep
    exact ⟨hstep.window g hg, hstep.shown g hg⟩
  · refine hinv.init.imp_right fun hnil => ?_
    rw [← (mmapInit_entries t).1, hinv.inStep.entries, hnil]
    rfl
  · have := hinv.inStep.refcnt i hi
    rwa [hinit] at this
  · intro mallocOk srcAddr size memory hroom hnone
    obtain ⟨out, hout⟩ : ∃ out, spiFlashMmap chipSize mallocOk t srcAddr size memory = some out :=
      hinv.inStep.mmap_returns hroom
    rw [hnone] at hout
    cases hout
  · obtain ⟨t', ht', -⟩ := hinv.munmap hg
    rw [ht']
    simp

/-! ### Runs of given calls -/

inductive MapCall where
  | mmap (srcAddr size : Nat) (memory : Memory)
  | munmap (handle : Nat)

def mapStep (chipSize : Nat) (s : Mmu × List Mapping) : MapCall → Option (Mmu × List Mapping)
  | .mmap srcAddr size memory => (spiFlashMmap chipSize true s.1 srcAddr size memory).map fun out =>
      (out.mmu, out.live srcAddr memory s.2)
  | .munmap handle => if ∃ g ∈ s.2, g.entry.handle = handle then
      (spiFlashMunmap s.1 handle).map fun t => (t, s.2.eraseP (·.entry.handle = handle))
    else none

def MapOk (s : Mmu × List Mapping) : MapCall → Prop
  | .mmap _ size memory => Roomy s.1 size memory
  | .munmap _ => True

instance (t : Mmu) (size : Nat) (memory : Memory) : Decidable (Roomy t size memory) :=
  decidable_of_iff (pageCountOf size ≤ memory.regionSize ∧ (∀ i < mmuPageCount, t.refcnt i < 255) ∧
      ∀ e ∈ t.entries, e.handle ≠ add32 t.lastHandle 1)
    ⟨fun ⟨h1, h2, h3⟩ => ⟨h1, h2, h3⟩, fun ⟨h1, h2, h3⟩ => ⟨h1, h2, h3⟩⟩

instance (s : Mmu × List Mapping) : (c : MapCall) → Decidable (MapOk s c)
  | .mmap _ size memory => inferInstanceAs (Decidable (Roomy s.1 size memory))
  | .munmap _ => inferInstanceAs (Decidable True)

theorem Reach.step {chipSize : Nat} {t0 : Mmu} {s s' : Mmu × List Mapping} {c : MapCall}
    (h : Reach chipSize t0 s.1 s.2) (hok : MapOk s c) (hs' : mapStep chipSize s c = some s') :
    Reach chipSize t0 s'.1 s'.2 := by
  cases c with
  | mmap srcAddr size memory =>
    obtain ⟨out, hout, rfl⟩ := Option.map_eq_some_iff.1 hs'
    exact h.mmap true srcAddr size memory hok hout
  | munmap handle =>
    simp only [mapStep] at hs'
    split_ifs at hs' with hlive
    obtain ⟨g, hg, rfl⟩ := hlive
    obtain ⟨t', ht', rfl⟩ := Option.map_eq_some_iff.1 hs'
    exact h.munmap hg ht'

def bootPage5 : Mmu where
  proTable i := if i = 0 then 5 else invalidEntryVal
  appTable i := if i = 0 then 5 else invalidEntryVal
  refcnt _ := 0
  entries := []
  lastHandle := 0
  writtenPages _ := false

theorem bootPage5_boot : Boot bootPage5 := ⟨fun _ => rfl, rfl, by decide⟩

/-- Pages 7 and 8 are mapped, page 8 again on the same entry, and page 20; the first mapping is
given up, and page 9 takes its first entry. -/
def overlapping : List MapCall :=
  [.mmap (7 * mmuPageSize) (2 * mmuPageSize) .data, .mmap (8 * mmuPageSize) mmuPageSize .data,
    .mmap (20 * mmuPageSize) mmuPageSize .inst, .munmap 1,
      .mmap (9 * mmuPageSize) mmuPageSize .data]

theorem live_mappings_kept_overlapping : ∃ t live, Boot bootPage5 ∧
    Reach 0x400000 bootPage5 t live ∧
    live = [⟨⟨4, 1, 1⟩, 9, .data⟩, ⟨⟨3, 77, 1⟩, 20, .inst⟩, ⟨⟨2, 2, 1⟩, 8, .data⟩] ∧
    ∀ g ∈ live, g.InWindow ∧ g.Shown t := by
  have hok : Along (mapStep 0x400000) MapOk (bootPage5, []) overlapping := by decide +kernel
  have hruns := always_of_step (I := fun s => Reach 0x400000 bootPage5 s.1 s.2)
    (fun _ _ _ h hok hs' => h.step hok hs') .boot hok
  have hlive : (run (mapStep 0x400000) (bootPage5, []) overlapping).map (·.2) =
      some [⟨⟨4, 1, 1⟩, 9, .data⟩, ⟨⟨3, 77, 1⟩, 20, .inst⟩, ⟨⟨2, 2, 1⟩, 8, .data⟩] := by
    decide +kernel
  obtain ⟨⟨t, live⟩, hrun, rfl⟩ := Option.map_eq_some_iff.1 hlive
  have hreach := hruns.final hrun
  exact ⟨t, _, bootPage5_boot, hreach, rfl, (live_mappings_kept bootPage5_boot hreach).1⟩

theorem long_mapping_asserts : spiFlashMmap 0x1000000 true bootPage5 0 (65 * mmuPageSize) .data =
    none := by
  rfl

end EspIdf.SpiFlash
