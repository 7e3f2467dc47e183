import Mathlib.Algebra.Group.Nat.Defs
import Mathlib.Data.List.Basic
import Mathlib.Logic.Equiv.Basic

/-! The log levels of `log.c`: a list of levels by tag text, a default, and a cache of levels by tag
address.  The level that counts for a message is the one that was set last. -/

namespace EspIdf.Log

/-- `esp_log_level_t`. -/
inductive LogLevel where
  | none
  | error
  | warn
  | info
  | debug
  | verbose
  deriving DecidableEq, Repr

def LogLevel.toNat : LogLevel → Nat
  | none => 0
  | error => 1
  | warn => 2
  | info => 3
  | debug => 4
  | verbose => 5

abbrev Tag := List UInt8

def wildcard : Tag := [42]

def tagCacheSize : Nat := 31

structure CachedTagEntry where
  tag : Nat
  level : LogLevel
  generation : Nat
  deriving DecidableEq, Repr

structure UncachedTagEntry where
  tag : Tag
  level : LogLevel
  deriving DecidableEq, Repr

structure LogState where
  defaultLevel : LogLevel
  tags : List UncachedTagEntry
  cache : Nat → CachedTagEntry
  cacheMaxGeneration : Nat
  cacheEntryCount : Nat

namespace LogState

def initial : LogState := ⟨.verbose, [], fun _ => ⟨0, .none, 0⟩, 0, 0⟩

def clearLogLevelList (s : LogState) : LogState :=
  { s with tags := [], cacheEntryCount := 0, cacheMaxGeneration := 0 }

def espLogLevelSet (s : LogState) (tag : Tag) (level : LogLevel) : LogState :=
  if tag = wildcard then { s with defaultLevel := level }.clearLogLevelList
  else { s with tags := s.tags ++ [⟨tag, level⟩] }

def heapSwap (cache : Nat → CachedTagEntry) (i j : Nat) : Nat → CachedTagEntry :=
  fun k => if k = i then cache j else if k = j then cache i else cache k

/-- `heap_bubble_down`.  Each round more than doubles a positive index, so there are fewer than
`TAG_CACHE_SIZE` rounds. -/
def heapBubbleDown : Nat → (Nat → CachedTagEntry) → Nat → Nat → CachedTagEntry
  | 0, cache, _ => cache
  | rounds + 1, cache, index =>
    if index < tagCacheSize / 2 then
      let leftIndex := index * 2 + 1
      let rightIndex := leftIndex + 1
      let next := if (cache leftIndex).generation < (cache rightIndex).generation then leftIndex
        else rightIndex
      heapBubbleDown rounds (heapSwap cache index next) next
    else cache

def nextGeneration (s : LogState) : LogState :=
  { s with cacheMaxGeneration := (s.cacheMaxGeneration + 1) % 2 ^ 32 }

def replaceEntry (s : LogState) (i : Nat) (entry : CachedTagEntry) : LogState :=
  { s with cache := heapBubbleDown tagCacheSize (Function.update s.cache i entry) i }

/-- The value of the 29-bit field `generation`. -/
def generation (s : LogState) : Nat := s.cacheMaxGeneration % 2 ^ 29

def getCachedLogLevel (s : LogState) (tag : Nat) : Option (LogLevel × LogState) :=
  match (List.range s.cacheEntryCount).find? fun i => (s.cache i).tag = tag with
  | none => none
  | some i =>
    some ((s.cache i).level,
      if s.cacheEntryCount = tagCacheSize then
        s.nextGeneration.replaceEntry i { s.cache i with generation := s.generation }
      else s)

def addToCache (s : LogState) (tag : Nat) (level : LogLevel) : LogState :=
  let entry : CachedTagEntry := ⟨tag, level, s.generation⟩
  if s.cacheEntryCount < tagCacheSize then
    { s.nextGeneration with
      cache := Function.update s.cache s.cacheEntryCount entry
      cacheEntryCount := s.cacheEntryCount + 1 }
  else s.nextGeneration.replaceEntry 0 entry

def getUncachedLogLevel (s : LogState) (tag : Tag) : Option LogLevel :=
  (s.tags.find? fun e => tag = e.tag).map (·.level)

def shouldOutput (levelForMessage levelForTag : LogLevel) : Bool :=
  levelForMessage.toNat ≤ levelForTag.toNat

/-- `esp_log_write` for a tag with text `text` at address `tag`: whether the message is printed. -/
def espLogWrite (s : LogState) (level : LogLevel) (tag : Nat) (text : Tag) : Bool × LogState :=
  match s.getCachedLogLevel tag with
  | some (levelForTag, s) => (shouldOutput level levelForTag, s)
  | none =>
    let levelForTag := (s.getUncachedLogLevel text).getD s.defaultLevel
    (shouldOutput level levelForTag, s.addToCache tag levelForTag)

end LogState

/-! ### Histories -/

/-- A call.  The tag of a message has an address and a text. -/
inductive Call where
  | set (tag : Tag) (level : LogLevel)
  | write (level : LogLevel) (tag : Nat) (text : Tag)
  deriving DecidableEq, Repr

def Call.text : Call → Tag
  | set tag _ => tag
  | write _ _ text => text

def stateAfter : List Call → LogState
  | [] => .initial
  | .set tag level :: h => (stateAfter h).espLogLevelSet tag level
  | .write level tag text :: h => ((stateAfter h).espLogWrite level tag text).2

/-- The level that was set last for a tag text or for `"*"`. -/
def lastLevel (tag : Tag) : List Call → LogLevel
  | [] => .verbose
  | .set t level :: h => if t = tag ∨ t = wildcard then level else lastLevel tag h
  | .write _ _ _ :: h => lastLevel tag h

def sinceWildcard : List Call → List Call
  | [] => []
  | .set t level :: h => if t = wildcard then [] else .set t level :: sinceWildcard h
  | .write level tag text :: h => .write level tag text :: sinceWildcard h

/-- The condition for a call after the history `h`, about the calls since the last setting for
`"*"`: a tag is set only if it was neither set nor logged, and a message's address was not used for
another text. -/
def CallOk (h : List Call) : Call → Prop
  | .set t _ => t = wildcard ∨ ∀ c ∈ sinceWildcard h, c.text ≠ t
  | .write _ tag text => ∀ level text', .write level tag text' ∈ sinceWildcard h → text' = text

def HistoryOk : List Call → Prop
  | [] => True
  | c :: h => CallOk h c ∧ HistoryOk h

/-- The state after the history `h`: a tag's level is found in the list, and cached levels are those
of messages logged since the last setting for `"*"`. -/
structure Current (h : List Call) (s : LogState) : Prop where
  uncached : ∀ t, (s.getUncachedLogLevel t).getD s.defaultLevel = lastLevel t h
  listed : ∀ e ∈ s.tags, ∃ c ∈ sinceWildcard h, c.text = e.tag
  cached : ∀ i < s.cacheEntryCount, ∃ level text,
    Call.write level (s.cache i).tag text ∈ sinceWildcard h ∧ (s.cache i).level = lastLevel text h
  count : s.cacheEntryCount ≤ tagCacheSize

section Current

open LogState

variable {h : List Call} {s : LogState}

theorem current_initial : Current [] .initial :=
  ⟨fun _ => rfl, by simp [initial], by simp [initial], Nat.zero_le _⟩

theorem heapSwap_apply (cache : Nat → CachedTagEntry) (i j k : Nat) :
    heapSwap cache i j k = cache (Equiv.swap i j k) := by
  rw [heapSwap, Equiv.swap_apply_def]
  split_ifs <;> rfl

variable {rounds index : Nat}

theorem heapBubbleDown_succ {cache : Nat → CachedTagEntry}
    (h : index < tagCacheSize / 2) : ∃ next, (next = index * 2 + 1 ∨ next = index * 2 + 2) ∧
      (cache next).generation ≤ (cache (index * 2 + 1)).generation ∧
      (cache next).generation ≤ (cache (index * 2 + 1 + 1)).generation ∧
      heapBubbleDown (rounds + 1) cache index =
        heapBubbleDown rounds (heapSwap cache index next) next := by
  refine ⟨_, ?_, ?_, ?_, by rw [heapBubbleDown, if_pos h]⟩ <;> split_ifs <;> omega

theorem heapBubbleDown_leaf {cache : Nat → CachedTagEntry}
    (h : tagCacheSize / 2 ≤ index) : heapBubbleDown rounds cache index = cache := by
  cases rounds with
  | zero => rfl
  | succ rounds => rw [heapBubbleDown, if_neg (Nat.not_lt.mpr h)]

theorem heapBubbleDown_perm {cache : Nat → CachedTagEntry}
    (hindex : index < tagCacheSize) : ∃ σ : Equiv.Perm Nat,
    (∀ k < tagCacheSize, σ k < tagCacheSize) ∧
      (∀ k < tagCacheSize, σ.symm k < tagCacheSize) ∧
      ∀ k, heapBubbleDown rounds cache index k = cache (σ k) := by
  induction rounds generalizing cache index with
  | zero => exact ⟨.refl _, fun _ h => h, fun _ h => h, fun _ => rfl⟩
  | succ rounds ih =>
    by_cases hleaf : index < tagCacheSize / 2
    · have hsize : tagCacheSize = 31 := rfl
      obtain ⟨next, hnext, -, -, heq⟩ := @heapBubbleDown_succ rounds index cache hleaf
      have hlt : next < tagCacheSize := by omega
      have hswap : ∀ k < tagCacheSize, Equiv.swap index next k < tagCacheSize := by
        intro k hk
        rw [Equiv.swap_apply_def]
        split_ifs <;> assumption
      obtain ⟨σ, hσ, hσ', hcache⟩ := @ih next (heapSwap cache index next) hlt
      refine ⟨σ.trans (Equiv.swap index next), fun k hk => hswap _ (hσ k hk),
        fun k hk => hσ' _ (hswap k hk), fun k => ?_⟩
      rw [heq, hcache, heapSwap_apply, Equiv.trans_apply]
    · rw [heapBubbleDown_leaf (Nat.le_of_not_lt hleaf)]
      exact ⟨.refl _, fun _ h => h, fun _ h => h, fun _ => rfl⟩

theorem current_setWildcard (level : LogLevel) :
    Current (.set wildcard level :: h) (s.espLogLevelSet wildcard level) := by
  unfold espLogLevelSet
  refine ⟨fun t => ?_, ?_, ?_, Nat.zero_le _⟩
  · simp [getUncachedLogLevel, clearLogLevelList, lastLevel]
  · simp [clearLogLevelList]
  · simp [clearLogLevelList]

theorem Current.setTag (hs : Current h s) (level : LogLevel) (ht : t ≠ wildcard)
    (hnew : ∀ c ∈ sinceWildcard h, c.text ≠ t) :
    Current (.set t level :: h) (s.espLogLevelSet t level) := by
  have hlast : ∀ u, u ≠ t → lastLevel u (.set t level :: h) = lastLevel u h := by
    intro u hu
    simp [lastLevel, ht, Ne.symm hu]
  have hsince : sinceWildcard (.set t level :: h) = .set t level :: sinceWildcard h := if_neg ht
  unfold espLogLevelSet
  rw [if_neg ht]
  refine ⟨fun u => ?_, fun e he => ?_, fun i hi => ?_, hs.count⟩
  · by_cases hu : u = t
    · -- the list had no entry for the tag
      subst hu
      have hnone : (s.tags.find? fun e => decide (u = e.tag)) = none := by
        rw [List.find?_eq_none]
        intro e he htag
        obtain ⟨c, hc, hct⟩ := hs.listed e he
        exact hnew c hc (hct.trans (of_decide_eq_true htag).symm)
      simp [getUncachedLogLevel, List.find?_append, hnone, lastLevel]
    · rw [hlast u hu, ← hs.uncached u]
      simp [getUncachedLogLevel, List.find?_append, hu]
  · rw [hsince]
    rcases List.mem_append.mp he with he | he
    · obtain ⟨c, hc, hct⟩ := hs.listed e he
      exact ⟨c, List.mem_cons_of_mem _ hc, hct⟩
    · rw [List.mem_singleton] at he
      exact ⟨_, List.mem_cons_self, by rw [he]; rfl⟩
  · obtain ⟨l, text, hmem, hlevel⟩ := hs.cached i hi
    refine ⟨l, text, by rw [hsince]; exact List.mem_cons_of_mem _ hmem, ?_⟩
    rw [hlast text (hnew _ hmem)]
    exact hlevel

theorem Current.write_of {text : Tag} (hs : Current h s) (htags : s'.tags = s.tags)
    (hdefault : s'.defaultLevel = s.defaultLevel) (hcount : s'.cacheEntryCount ≤ tagCacheSize)
    (hcache : ∀ i < s'.cacheEntryCount, ((s'.cache i).tag = tag ∧ (s'.cache i).level =
    lastLevel text h) ∨ ∃ j < s.cacheEntryCount, (s'.cache i).tag = (s.cache j).tag ∧
    (s'.cache i).level = (s.cache j).level) : Current (.write m tag text :: h) s' := by
  refine ⟨fun t => ?_, fun e he => ?_, fun i hi => ?_, hcount⟩
  · rw [getUncachedLogLevel, htags, hdefault]
    exact hs.uncached t
  · obtain ⟨c, hc, hct⟩ := hs.listed e (htags ▸ he)
    exact ⟨c, List.mem_cons_of_mem _ hc, hct⟩
  · rcases hcache i hi with ⟨htag, hlevel⟩ | ⟨j, hj, htag, hlevel⟩
    · exact ⟨m, text, by rw [htag]; exact List.mem_cons_self, hlevel⟩
    · obtain ⟨l, t, hmem, hl⟩ := hs.cached j hj
      exact ⟨l, t, by rw [htag]; exact List.mem_cons_of_mem _ hmem, hlevel.trans hl⟩

theorem replaceEntry_cases {i k : Nat} {entry : CachedTagEntry} (hi : i < tagCacheSize)
    (hk : k < tagCacheSize) : (s.replaceEntry i entry).cache k = entry ∨
      ∃ j < tagCacheSize, (s.replaceEntry i entry).cache k = s.cache j := by
  obtain ⟨σ, hσ, -, heq⟩ := @heapBubbleDown_perm tagCacheSize i (Function.update s.cache i entry) hi
  unfold replaceEntry
  dsimp only
  rw [heq]
  by_cases hki : σ k = i
  · left
    rw [hki, Function.update_self]
  · right
    exact ⟨σ k, hσ k hk, Function.update_of_ne hki _ _⟩

theorem Current.write {text : Tag} (hs : Current h s) (hok : CallOk h (.write m tag text)) :
    (s.espLogWrite m tag text).1 = shouldOutput m (lastLevel text h) ∧
      Current (.write m tag text :: h) (s.espLogWrite m tag text).2 := by
  unfold espLogWrite getCachedLogLevel
  cases hfind : (List.range s.cacheEntryCount).find? fun i => decide ((s.cache i).tag = tag) with
  | some i =>
    have htag : (s.cache i).tag = tag := by simpa using List.find?_some hfind
    have hi : i < s.cacheEntryCount := List.mem_range.mp (List.mem_of_find?_eq_some hfind)
    obtain ⟨l, t, hmem, hlevel⟩ := hs.cached i hi
    rw [hok l t (htag ▸ hmem)] at hlevel
    dsimp only
    refine ⟨by rw [hlevel], ?_⟩
    split_ifs with hfull
    · refine hs.write_of rfl rfl hs.count fun k hk => ?_
      have hk' : k < tagCacheSize := hfull ▸ hk
      rcases @replaceEntry_cases s.nextGeneration i k { s.cache i with generation := s.generation }
        (hfull ▸ hi) hk' with heq | ⟨j, hj, heq⟩
      · rw [heq]
        exact .inl ⟨htag, hlevel⟩
      · rw [heq]
        exact .inr ⟨j, hfull ▸ hj, rfl, rfl⟩
    · exact hs.write_of rfl rfl hs.count fun k hk => .inr ⟨k, hk, rfl, rfl⟩
  | none =>
    dsimp only
    rw [hs.uncached text]
    refine ⟨rfl, ?_⟩
    unfold addToCache
    split_ifs with hroom
    · refine hs.write_of rfl rfl hroom fun k hk => ?_
      dsimp only
      by_cases hlast : k = s.cacheEntryCount
      · rw [hlast, Function.update_self]
        exact .inl ⟨rfl, rfl⟩
      · rw [Function.update_of_ne hlast]
        exact .inr ⟨k, by dsimp only at hk; omega, rfl, rfl⟩
    · have hfull : s.cacheEntryCount = tagCacheSize := by
        have := hs.count
        omega
      refine hs.write_of rfl rfl hs.count fun k hk => ?_
      rcases @replaceEntry_cases s.nextGeneration 0 k ⟨tag, lastLevel text h, s.generation⟩
        (by decide) (hfull ▸ hk) with heq | ⟨j, hj, heq⟩
      · rw [heq]
        exact .inl ⟨rfl, rfl⟩
      · rw [heq]
        exact .inr ⟨j, hfull ▸ hj, rfl, rfl⟩

theorem stateAfter_current (hok : HistoryOk h) : Current h (stateAfter h) := by
  induction h with
  | nil => exact current_initial
  | cons c h ih =>
    obtain ⟨hc, hh⟩ := hok
    cases c with
    | set t level =>
      by_cases ht : t = wildcard
      · subst ht
        exact current_setWildcard level
      · exact (ih hh).setTag level ht (hc.resolve_left ht)
    | write m tag text => exact ((ih hh).write hc).2

end Current

/-- In a history that meets the condition, a message is printed if and only if its level is at most
the one that was set last for its tag. -/
theorem last_level_counts {h : List Call} {m : LogLevel} {tag : Nat} {text : Tag}
    (hok : HistoryOk (.write m tag text :: h)) :
    ((stateAfter h).espLogWrite m tag text).1 = true ↔ m.toNat ≤ (lastLevel text h).toNat := by
  rw [((stateAfter_current hok.2).write hok.1).1]
  exact decide_eq_true_iff

/-- The newest call first: a setting for all tags between two for the tag `a`, and one for `b`. -/
def severalSettings : List Call :=
  [.set [97] .warn, .set wildcard .info, .write .info 1 [97], .set [98] .error, .set [97] .debug]

theorem last_level_counts_several : HistoryOk (.write .warn 1 [97] :: severalSettings) ∧
    ((stateAfter severalSettings).espLogWrite .warn 1 [97]).1 = true := by
  have hok : HistoryOk (.write .warn 1 [97] :: severalSettings) := by
    simp [severalSettings, HistoryOk, CallOk, sinceWildcard, wildcard, Call.text]
  exact ⟨hok, (last_level_counts hok).mpr (by decide)⟩

theorem second_setting_ignored :
    ((stateAfter [.set [97] .verbose, .set [97] .error]).espLogWrite .info 1 [97]).1 = false ∧
      LogLevel.info.toNat ≤ (lastLevel [97] [.set [97] .verbose, .set [97] .error]).toNat := by
  decide

end EspIdf.Log
