import Mathlib.Algebra.Order.Group.Nat
import EspIdf.Log.Levels

/-! The cache of `log.c` is a min-heap on the generations of its entries, whose tags differ, as long
as the generations do not wrap around. -/

namespace EspIdf.Log

open LogState
open Function (update update_of_ne update_self)

/-! ### Bubbling down -/

section Bubble

variable {cache : Nat → CachedTagEntry} {index next rounds : Nat}

/-- Each of the first `count` entries has a generation that is at least its parent's. -/
def HeapOrdered (count : Nat) (cache : Nat → CachedTagEntry) : Prop :=
  ∀ i < count, 0 < i → (cache ((i - 1) / 2)).generation ≤ (cache i).generation

structure HeapExcept (cache : Nat → CachedTagEntry) (index : Nat) : Prop where
  ordered : ∀ i < tagCacheSize, 0 < i → (i - 1) / 2 ≠ index →
    (cache ((i - 1) / 2)).generation ≤ (cache i).generation
  grand : ∀ i < tagCacheSize, 0 < i → (i - 1) / 2 = index → 0 < index →
    (cache ((index - 1) / 2)).generation ≤ (cache i).generation
  largest : ∀ i < tagCacheSize, (cache i).generation ≤ (cache index).generation

@[simp] theorem heapSwap_left : heapSwap cache index next index = cache next := if_pos rfl

theorem heapSwap_right (h : next ≠ index) : heapSwap cache index next next = cache index := by
  rw [heapSwap, if_neg h, if_pos rfl]

theorem heapSwap_other (h : i ≠ index) (h' : i ≠ next) : heapSwap cache index next i = cache i := by
  rw [heapSwap, if_neg h, if_neg h']

theorem HeapExcept.swap (h : HeapExcept cache index) (hlt : next < tagCacheSize)
    (hnext : next = index * 2 + 1 ∨ next = index * 2 + 2)
    (hleft : (cache next).generation ≤ (cache (index * 2 + 1)).generation)
    (hright : (cache next).generation ≤ (cache (index * 2 + 2)).generation) :
    HeapExcept (heapSwap cache index next) next := by
  have hne : next ≠ index := by omega
  refine ⟨fun i hi hpos hparent => ?_, fun i hi hpos hparent _ => ?_, fun i hi => ?_⟩
  · by_cases hiparent : (i - 1) / 2 = index
    · rw [hiparent, heapSwap_left]
      by_cases hin : i = next
      · rw [hin, heapSwap_right hne]
        exact h.largest next hlt
      · rw [heapSwap_other (by omega) hin]
        -- the other child
        rcases (by omega : i = index * 2 + 1 ∨ i = index * 2 + 2) with rfl | rfl
        · exact hleft
        · exact hright
    · rw [heapSwap_other hiparent hparent]
      by_cases hii : i = index
      · subst hii
        rw [heapSwap_left]
        exact h.grand next hlt (by omega) (by omega) hpos
      · rw [heapSwap_other hii (by omega)]
        exact h.ordered i hi hpos hiparent
  · rw [show (next - 1) / 2 = index by omega, heapSwap_left, heapSwap_other (by omega) (by omega),
      ← hparent]
    exact h.ordered i hi hpos (by omega)
  · rw [heapSwap_right hne, heapSwap_apply]
    refine h.largest _ ?_
    rw [Equiv.swap_apply_def]
    split_ifs <;> omega

theorem heapBubbleDown_ordered (h : HeapExcept cache index) (hindex : index < tagCacheSize)
    (hrounds : tagCacheSize ≤ index + rounds) :
    HeapOrdered tagCacheSize (heapBubbleDown rounds cache index) := by
  have hsize : tagCacheSize = 31 := rfl
  induction rounds generalizing cache index with
  | zero => omega
  | succ rounds ih =>
    by_cases hleaf : index < tagCacheSize / 2
    · obtain ⟨next, hnext, hleft, hright, heq⟩ := @heapBubbleDown_succ rounds index cache hleaf
      rw [heq]
      exact ih (h.swap (by omega) hnext hleft hright) (by omega) (by omega)
    · rw [heapBubbleDown_leaf (Nat.le_of_not_lt hleaf)]
      exact fun i hi hpos => h.ordered i hi hpos (by omega)

theorem HeapOrdered.root_le (h : HeapOrdered count cache) :
    ∀ i < count, (cache 0).generation ≤ (cache i).generation := by
  intro i
  induction i using Nat.strongRecOn with
  | ind i ih =>
    intro hi
    by_cases hpos : 0 < i
    · exact (ih ((i - 1) / 2) (by omega) (by omega)).trans (h i hi hpos)
    · rw [Nat.eq_zero_of_not_pos hpos]

end Bubble

/-! ### The cache -/

structure CacheOk (n : Nat) (s : LogState) : Prop where
  count : s.cacheEntryCount ≤ tagCacheSize
  tags : ∀ i < s.cacheEntryCount, ∀ j < s.cacheEntryCount, (s.cache i).tag = (s.cache j).tag → i = j
  heap : HeapOrdered s.cacheEntryCount s.cache
  older : ∀ i < s.cacheEntryCount, (s.cache i).generation < s.cacheMaxGeneration
  calls : s.cacheMaxGeneration ≤ n

/-- `s'` has the entries of `s` but for the one at `i`, and `entry`, which is younger than the
others. -/
structure Replaced (s : LogState) (i : Nat) (entry : CachedTagEntry) (s' : LogState) : Prop where
  count : s'.cacheEntryCount = s.cacheEntryCount
  entry : ∃ k < s.cacheEntryCount, s'.cache k = entry ∧
    ∀ j < s.cacheEntryCount, j ≠ k → (s'.cache j).generation < entry.generation
  others : ∀ j < s.cacheEntryCount, j ≠ i → ∃ k < s.cacheEntryCount, s'.cache k = s.cache j

section Cache

variable {n i : Nat} {s : LogState} {entry : CachedTagEntry}

section

variable (h : CacheOk n s)
include h

theorem CacheOk.generation_eq (hn : n < 2 ^ 29) :
    s.generation = s.cacheMaxGeneration := Nat.mod_eq_of_lt (by have := h.calls; omega)

theorem CacheOk.maxGeneration_next (hn : n < 2 ^ 29) :
    s.nextGeneration.cacheMaxGeneration = s.cacheMaxGeneration + 1 :=
  Nat.mod_eq_of_lt (by have := h.calls; omega)

theorem CacheOk.except (hfull : s.cacheEntryCount = tagCacheSize)
    (hgen : entry.generation = s.cacheMaxGeneration) :
    HeapExcept (update s.cache i entry) i := by
  have hheap := h.heap
  have holder := h.older
  rw [hfull] at hheap holder
  refine ⟨fun j hj hpos hparent => ?_, fun j hj hpos hparent hi => ?_, fun j hj => ?_⟩
  · rw [update_of_ne hparent]
    by_cases hji : j = i
    · rw [hji, update_self, hgen]
      exact (holder _ (by omega)).le
    · rw [update_of_ne hji]
      exact hheap j hj hpos
  · rw [update_of_ne (by omega), update_of_ne (by omega)]
    exact (hheap i (by omega) hi).trans (hparent ▸ hheap j hj hpos)
  · rw [update_self, hgen]
    by_cases hji : j = i
    · rw [hji, update_self, hgen]
    · rw [update_of_ne hji]
      exact (holder j hj).le

theorem CacheOk.replaceEntry (hn : n < 2 ^ 29)
    (hfull : s.cacheEntryCount = tagCacheSize) (hi : i < tagCacheSize)
    (hgen : entry.generation = s.cacheMaxGeneration)
    (htag : ∀ j < tagCacheSize, j ≠ i → (s.cache j).tag ≠ entry.tag) :
    CacheOk (n + 1) (s.nextGeneration.replaceEntry i entry) ∧
      Replaced s i entry (s.nextGeneration.replaceEntry i entry) := by
  have htags := h.tags
  have holder := h.older
  have hcalls := h.calls
  have hmax := h.maxGeneration_next hn
  rw [hfull] at htags holder
  obtain ⟨σ, hσ, hσ', hcache⟩ := @heapBubbleDown_perm tagCacheSize i (update s.cache i entry) hi
  have hentry : ∀ k, σ k = i → (s.nextGeneration.replaceEntry i entry).cache k = entry :=
    fun k hk => (hcache k).trans (by rw [hk, update_self])
  have hother : ∀ k, σ k ≠ i → (s.nextGeneration.replaceEntry i entry).cache k = s.cache (σ k) :=
    fun k hk => (hcache k).trans (update_of_ne hk _ _)
  refine ⟨⟨h.count, fun j hj k hk heq => σ.injective ?_, ?_, fun j hj => ?_,
    by rw [LogState.replaceEntry, hmax]; omega⟩, rfl, ?_, fun j hj hne => ?_⟩
  · have hj := hσ j (hfull ▸ hj)
    have hk := hσ k (hfull ▸ hk)
    by_cases hji : σ j = i <;> by_cases hki : σ k = i
    · rw [hji, hki]
    · rw [hentry j hji, hother k hki] at heq
      exact absurd heq.symm (htag _ hk hki)
    · rw [hentry k hki, hother j hji] at heq
      exact absurd heq (htag _ hj hji)
    · rw [hother j hji, hother k hki] at heq
      exact htags _ hj _ hk heq
  · change HeapOrdered s.cacheEntryCount (heapBubbleDown tagCacheSize _ i)
    rw [hfull]
    exact heapBubbleDown_ordered (h.except hfull hgen) hi (Nat.le_add_left _ _)
  · change _ < s.nextGeneration.cacheMaxGeneration
    rw [hmax]
    by_cases hji : σ j = i
    · rw [hentry j hji, hgen]
      exact Nat.lt_succ_self _
    · rw [hother j hji]
      exact (holder _ (hσ j (hfull ▸ hj))).trans (Nat.lt_succ_self _)
  · refine ⟨σ.symm i, hfull ▸ hσ' i hi, hentry _ (σ.apply_symm_apply i), fun j hj hne => ?_⟩
    rw [hother j fun heq => hne (σ.eq_symm_apply.mpr heq), hgen]
    exact holder _ (hσ j (hfull ▸ hj))
  · refine ⟨σ.symm j, hfull ▸ hσ' j (hfull ▸ hj), ?_⟩
    rw [hother _ (by rwa [σ.apply_symm_apply]), σ.apply_symm_apply]

theorem CacheOk.append (hn : n < 2 ^ 29) (hroom : s.cacheEntryCount < tagCacheSize)
    (hgen : entry.generation = s.cacheMaxGeneration)
    (htag : ∀ j < s.cacheEntryCount, (s.cache j).tag ≠ entry.tag) :
    CacheOk (n + 1) { s.nextGeneration with
      cache := update s.cache s.cacheEntryCount entry
      cacheEntryCount := s.cacheEntryCount + 1 } := by
  have hcalls := h.calls
  have hmax := h.maxGeneration_next hn
  have hold : ∀ j < s.cacheEntryCount, update s.cache s.cacheEntryCount entry j = s.cache j :=
    fun j hj => update_of_ne (by omega) _ _
  have hnew : update s.cache s.cacheEntryCount entry s.cacheEntryCount = entry :=
    update_self ..
  refine ⟨hroom, fun j hj k hk heq => ?_, fun j hj hpos => ?_, fun j hj => ?_, ?_⟩ <;>
    dsimp only at *
  · rcases Nat.lt_succ_iff_lt_or_eq.mp hj with hj | rfl <;>
      rcases Nat.lt_succ_iff_lt_or_eq.mp hk with hk | rfl
    · rw [hold j hj, hold k hk] at heq
      exact h.tags j hj k hk heq
    · rw [hold j hj, hnew] at heq
      exact absurd heq (htag j hj)
    · rw [hold k hk, hnew] at heq
      exact absurd heq.symm (htag k hk)
    · rfl
  · rw [hold _ (by omega)]
    rcases Nat.lt_succ_iff_lt_or_eq.mp hj with hj | rfl
    · rw [hold j hj]
      exact h.heap j hj hpos
    · rw [hnew, hgen]
      exact (h.older _ (by omega)).le
  · rw [hmax]
    rcases Nat.lt_succ_iff_lt_or_eq.mp hj with hj | rfl
    · rw [hold j hj]
      exact (h.older j hj).trans (Nat.lt_succ_self _)
    · rw [hnew, hgen]
      exact Nat.lt_succ_self _
  · omega

theorem CacheOk.mono (hle : n ≤ n') : CacheOk n' s :=
  ⟨h.count, h.tags, h.heap, h.older, h.calls.trans hle⟩

theorem CacheOk.lookup (hn : n < 2 ^ 29) (hi : i < s.cacheEntryCount) :
    ∃ s', s.getCachedLogLevel (s.cache i).tag = some ((s.cache i).level, s') ∧ CacheOk (n + 1) s' ∧
      if s.cacheEntryCount = tagCacheSize then
        Replaced s i { s.cache i with generation := s.cacheMaxGeneration } s'
      else s' = s := by
  have hfind : (List.range s.cacheEntryCount).find?
      (fun j => decide ((s.cache j).tag = (s.cache i).tag)) =
      some i := by
    have hsome : ((List.range s.cacheEntryCount).find? fun j =>
        decide ((s.cache j).tag = (s.cache i).tag)).isSome :=
      List.find?_isSome.mpr ⟨i, List.mem_range.mpr hi, by simp⟩
    obtain ⟨j, hj⟩ := Option.isSome_iff_exists.mp hsome
    have htag : (s.cache j).tag = (s.cache i).tag := by simpa using List.find?_some hj
    rw [hj, h.tags j (List.mem_range.mp (List.mem_of_find?_eq_some hj)) i hi htag]
  rw [getCachedLogLevel, hfind, h.generation_eq hn]
  refine ⟨_, rfl, ?_⟩
  split_ifs with hfull
  · exact h.replaceEntry hn hfull (hfull ▸ hi) rfl fun j hj hne heq =>
      hne (h.tags j (hfull ▸ hj) i hi heq)
  · exact ⟨h.mono (Nat.le_succ n), rfl⟩

theorem CacheOk.add (hn : n < 2 ^ 29)
    (hnew : ∀ j < s.cacheEntryCount, (s.cache j).tag ≠ tag) (level : LogLevel) :
    CacheOk (n + 1) (s.addToCache tag level) ∧ (s.cacheEntryCount = tagCacheSize →
      Replaced s 0 ⟨tag, level, s.cacheMaxGeneration⟩ (s.addToCache tag level)) := by
  rw [addToCache, h.generation_eq hn]
  split_ifs with hroom
  · exact ⟨h.append hn hroom rfl hnew, fun hfull => absurd hroom (by omega)⟩
  · have hfull : s.cacheEntryCount = tagCacheSize := by have := h.count; omega
    obtain ⟨hok, hreplaced⟩ := @CacheOk.replaceEntry n 0 s
      ⟨tag, level, s.cacheMaxGeneration⟩ h hn hfull
      (by decide) rfl fun j hj _ => hnew j (hfull ▸ hj)
    exact ⟨hok, fun _ => hreplaced⟩

end

theorem getCachedLogLevel_none (h : s.getCachedLogLevel tag = none) :
    ∀ j < s.cacheEntryCount, (s.cache j).tag ≠ tag := by
  intro j hj heq
  rw [getCachedLogLevel] at h
  cases hfind : (List.range s.cacheEntryCount).find? fun k => decide ((s.cache k).tag = tag) with
  | none => simpa [heq] using List.find?_eq_none.mp hfind j (List.mem_range.mpr hj)
  | some k => simp [hfind] at h

theorem CacheOk.write (h : CacheOk n s) (hn : n < 2 ^ 29) (level : LogLevel) (tag : Nat)
    (text : Tag) :
    CacheOk (n + 1) (s.espLogWrite level tag text).2 := by
  rw [espLogWrite]
  cases hget : s.getCachedLogLevel tag with
  | none => exact (h.add hn (getCachedLogLevel_none hget) _).1
  | some r =>
    have hcached : ∃ i < s.cacheEntryCount, (s.cache i).tag = tag := by
      by_contra hno
      have hnone : ((List.range s.cacheEntryCount).find? fun k => decide ((s.cache k).tag = tag)) =
          none := List.find?_eq_none.mpr fun k hk heq =>
        hno ⟨k, List.mem_range.mp hk, of_decide_eq_true heq⟩
      simp [getCachedLogLevel, hnone] at hget
    obtain ⟨i, hi, rfl⟩ := hcached
    obtain ⟨s', hs', hok, -⟩ := h.lookup hn hi
    rw [hs'] at hget
    cases hget
    exact hok

theorem stateAfter_cacheOk (hlen : h.length ≤ 2 ^ 29) : CacheOk h.length (stateAfter h) := by
  induction h with
  | nil => exact ⟨by decide, by simp [stateAfter, initial], by simp [stateAfter, initial, HeapOrdered],
      by simp [stateAfter, initial], Nat.le_refl _⟩
  | cons c h ih =>
    rw [List.length_cons] at hlen
    have hok := ih (by omega)
    cases c with
    | set t level =>
      unfold stateAfter espLogLevelSet
      split_ifs
      · exact ⟨by simp [clearLogLevelList], by simp [clearLogLevelList],
          by simp [clearLogLevelList, HeapOrdered], by simp [clearLogLevelList], Nat.zero_le _⟩
      · have hok' := hok.mono (Nat.le_succ _)
        exact ⟨hok'.count, hok'.tags, hok'.heap, hok'.older, hok'.calls⟩
    | write level tag text => exact hok.write (by omega) level tag text

end Cache

/-- Before the generations wrap around: the cached tags differ and their entries are a min-heap; a
lookup of a cached tag gives its level and, if the cache is full, makes it the youngest entry, with
all other entries kept; a new tag in a full cache replaces an entry with the smallest generation. -/
theorem cache_is_heap {h : List Call} {s : LogState} (hlen : h.length < 2 ^ 29)
    (hs : s = stateAfter h) :
    (∀ i < s.cacheEntryCount, ∀ j < s.cacheEntryCount, (s.cache i).tag = (s.cache j).tag → i = j) ∧
    HeapOrdered s.cacheEntryCount s.cache ∧
    (∀ i < s.cacheEntryCount, ∃ s',
      s.getCachedLogLevel (s.cache i).tag = some ((s.cache i).level, s') ∧
      if s.cacheEntryCount = tagCacheSize then
        Replaced s i { s.cache i with generation := s.cacheMaxGeneration } s'
      else s' = s) ∧
    ∀ tag level, s.getCachedLogLevel tag = none → s.cacheEntryCount = tagCacheSize →
      Replaced s 0 ⟨tag, level, s.cacheMaxGeneration⟩ (s.addToCache tag level) ∧
      ∀ j < s.cacheEntryCount, (s.cache 0).generation ≤ (s.cache j).generation := by
  subst hs
  have hok := stateAfter_cacheOk hlen.le
  refine ⟨hok.tags, hok.heap, fun i hi => ?_, fun tag level hnone hfull => ⟨?_, hok.heap.root_le⟩⟩
  · obtain ⟨s', hget, -, hkept⟩ := hok.lookup hlen hi
    exact ⟨s', hget, hkept⟩
  · exact (hok.add hlen (getCachedLogLevel_none hnone) level).2 hfull

/-- Tags 1 to 31 fill the cache, tag 1 is looked up, and tag 32 replaces tag 2; newest call
first. -/
def fullCache : List Call :=
  .write .info 32 [97] :: .write .info 1 [97] ::
    (List.range 31).reverse.map fun k => .write .info (k + 1) [97]

theorem cache_is_heap_full : ∃ s, s = stateAfter fullCache ∧ s.cacheEntryCount = tagCacheSize ∧
    HeapOrdered s.cacheEntryCount s.cache ∧ (∃ i < tagCacheSize, (s.cache i).tag = 1) ∧
    (∃ i < tagCacheSize, (s.cache i).tag = 32) ∧ ∀ i < tagCacheSize, (s.cache i).tag ≠ 2 :=
  ⟨_, rfl, by decide +kernel, (@cache_is_heap fullCache _ (by decide) rfl).2.1, by decide +kernel,
    by decide +kernel, by decide +kernel⟩

theorem lookup_not_refreshed : ∃ s level s',
    s = stateAfter [.write .info 2 [98], .write .info 1 [97]] ∧
    s.getCachedLogLevel 1 = some (level, s') ∧ s'.cache 0 = ⟨1, .verbose, 0⟩ ∧
    s'.cache 1 = ⟨2, .verbose, 1⟩ ∧ s'.cacheEntryCount = 2 ∧ s'.cacheMaxGeneration = 2 :=
  ⟨_, _, _, rfl, rfl, by decide, by decide, rfl, rfl⟩

end EspIdf.Log
