import EspIdf.Device.Keeps
import EspIdf.Nvs.Items

/-! The writes of a page only clear bits of the flash.  `Ready` carries this: the table of the page
object has no bit that the one in flash has not, the header has the page's state, and everything
from `mNextFreeEntry` on is blank. -/

namespace EspIdf.Nvs

open EspIdf.Device

section Calls

variable {β : Type} {R : β → Bytes → Prop} {m : Bytes}

theorem spiFlashRead_legal (h : Legal R (f (.ok, m.read a n)) m) :
    Legal R ((spiFlashRead a n).bind f) m :=
  Legal.readBytes h

theorem spiFlashWrite_legal (hlen : bs.length % 4 = 0) (hclears : m.clears a bs = true)
    (h : Legal R (f .ok) (m.store a bs)) : Legal R ((spiFlashWrite a bs).bind f) m := by
  unfold spiFlashWrite
  simp only [Prog.bind_eq, Prog.bind_assoc, Prog.pure_eq, Prog.ret_bind]
  exact Legal.programWords hlen hclears h

theorem spiFlashEraseSector_legal (h : Legal R (f .ok) (m.erase (sec * sectorSize) sectorSize)) :
    Legal R ((spiFlashEraseSector sec).bind f) m :=
  Legal.eraseSector h

theorem clears_blank (h : ∀ x, a ≤ x → x < a + bs.length → m x = 0xff) : m.clears a bs = true := by
  rw [Bytes.clears_iff]
  intro i hi
  rw [h (a + i) (by omega) (by omega)]
  exact UInt8.neg_one_and

theorem word32_store (hw : w < 2 ^ 32) : word32 ((m.store a (le32 w)).read a 4) 0 = w := by
  have hread : (m.store a (le32 w)).read a 4 = le32 w := Bytes.read_store
  rw [hread, word32_le32 hw]

end Calls

/-! ### The table -/

/-- The table sets no bit that is clear in the one in flash at `b`. -/
def Below (t : EntryTable) (b : Nat) (m : Bytes) : Prop :=
  ∀ k < 8, word32 (m.read (b + entryTableOffset + k * 4) 4) 0 &&& t.word k = t.word k

theorem Below.set (hb : Below t b m) (hok : t.Ok) (hi : i < entryCount)
    (hlow : (t.get i).Lowers st) : Below (t.set i st) b m := by
  intro k hk
  rw [← hok.set_clears hi hlow k, ← Nat.and_assoc, hb k hk]

theorem Below.congr (hb : Below t b m) (h : ∀ x, b + 32 ≤ x → x < b + 64 → m' x = m x) :
    Below t b m' := by
  intro k hk
  rw [Bytes.read_congr fun x h1 h2 => h x _ _]
  · exact hb k hk
  all_goals
    simp only [entryTableOffset] at *
    omega

/-! The table of a blank sector. -/

theorem EntryTable.fresh_word (hk : k < 8) : EntryTable.fresh.word k = 0xffffffff := by
  have : k = 0 ∨ k = 1 ∨ k = 2 ∨ k = 3 ∨ k = 4 ∨ k = 5 ∨ k = 6 ∨ k = 7 := by omega
  rcases this with rfl | rfl | rfl | rfl | rfl | rfl | rfl | rfl <;> rfl

theorem EntryTable.fresh_ok : EntryTable.fresh.Ok where
  length := rfl
  word_lt k := by
    rcases Nat.lt_or_ge k 8 with hk | hk
    · rw [fresh_word hk]
      decide
    · rw [EnumTable.word, List.getD_eq_default _ _ (by simpa [fresh] using hk)]
      decide

theorem EntryTable.fresh_get (i : Nat) (hi : i < entryCount) : EntryTable.fresh.get i = .empty := by
  have h : ∀ i < 126, EntryTable.fresh.get i = .empty := by decide +kernel
  exact h i hi

theorem word32_blank {a : Nat} {m : Bytes} (h : ∀ x, a ≤ x → x < a + 4 → m x = 0xff) :
    word32 (m.read a 4) 0 = 0xffffffff := by
  have hread : m.read a 4 = [0xff, 0xff, 0xff, 0xff] := by
    simp only [Bytes.read, List.range, List.range.loop, List.map]
    rw [h (a + 0) (by omega) (by omega), h (a + 1) (by omega) (by omega),
      h (a + 2) (by omega) (by omega),
      h (a + 3) (by omega) (by omega)]
  rw [hread]
  rfl

theorem EntryTable.fresh_below {b : Nat} {m : Bytes}
    (h : ∀ x, b + 32 ≤ x → x < b + 64 → m x = 0xff) : Below EntryTable.fresh b m := by
  intro k hk
  rw [fresh_word hk, word32_blank fun x h1 h2 => h x _ _]
  · rfl
  all_goals
    simp only [entryTableOffset] at *
    omega

theorem headerBytes_state (st : PageState) (n : Nat) (b : Nat) (m : Bytes) :
    word32 ((m.store b (headerBytes st n)).read b 4) 0 = st.word := by
  have hst : st.word < 2 ^ 32 := by cases st <;> decide
  have hsplit : headerBytes st n = le32 st.word ++
      (headerBody n ++ le32 (headerCrc32 (headerBody n))) := by
    rw [headerBytes, List.append_assoc]
  rw [hsplit, Bytes.store_append, Bytes.read_store_out (by simp), word32_store hst]

/-- Only the states of the entries from `lo` up to `hi` have changed, and in flash only the
table. -/
structure Altered (p : Page) (m : Bytes) (p' : Page) (m' : Bytes) (lo hi : Nat) : Prop where
  base : p'.baseAddress = p.baseAddress
  state : p'.state = p.state
  next : p'.nextFreeEntry = p.nextFreeEntry
  first : p'.firstUsedEntry = p.firstUsedEntry
  ok : p'.entryTable.Ok
  below : Below p'.entryTable p.baseAddress m'
  get : ∀ j, j < lo ∨ hi ≤ j → p'.entryTable.get j = p.entryTable.get j
  out : ∀ x, x < p.baseAddress + 32 ∨ p.baseAddress + 64 ≤ x → m' x = m x

structure Like (p p' : Page) : Prop where
  base : p'.baseAddress = p.baseAddress
  state : p'.state = p.state
  next : p'.nextFreeEntry = p.nextFreeEntry
  first : p'.firstUsedEntry = p.firstUsedEntry
  table : p'.entryTable = p.entryTable

theorem Like.trans (h : Like p p') (h' : Like p' p'') : Like p p'' :=
  ⟨h'.base.trans h.base, h'.state.trans h.state, h'.next.trans h.next, h'.first.trans h.first,
    h'.table.trans h.table⟩

section Like

variable (p : Page)

theorem like_incUsed (n : Nat) : Like p (p.incUsed n) := by
  exact ⟨rfl, rfl, rfl, rfl, rfl⟩

theorem like_decUsed : Like p p.decUsed := by
  unfold Page.decUsed
  exact ⟨rfl, rfl, rfl, rfl, rfl⟩

theorem like_incErased : Like p p.incErased := by
  exact ⟨rfl, rfl, rfl, rfl, rfl⟩

theorem like_invalidateCache : Like p p.invalidateCache := ⟨rfl, rfl, rfl, rfl, rfl⟩

theorem like_hashList (l : HashList) : Like p { p with hashList := l } := ⟨rfl, rfl, rfl, rfl, rfl⟩

end Like

namespace Altered

variable {p p' p'' : Page} {m m' m'' : Bytes} {lo mid hi : Nat}

theorem of_like (hl : Like p p') (h : Altered p' m p'' m' lo hi) : Altered p m p'' m' lo hi where
  base := h.base.trans hl.base
  state := h.state.trans hl.state
  next := h.next.trans hl.next
  first := h.first.trans hl.first
  ok := h.ok
  below := hl.base ▸ h.below
  get j hj := by rw [h.get j hj, hl.table]
  out := hl.base ▸ h.out

theorem like (h : Altered p m p' m' lo hi) (hl : Like p' p'') : Altered p m p'' m' lo hi where
  base := hl.base.trans h.base
  state := hl.state.trans h.state
  next := hl.next.trans h.next
  first := hl.first.trans h.first
  ok := hl.table ▸ h.ok
  below := hl.table ▸ h.below
  get j hj := by rw [hl.table, h.get j hj]
  out := h.out

end Altered

section Alter

variable {β : Type} {R : β → Bytes → Prop} {m : Bytes} {p : Page} {f : EspErr × Page → WordProg β}

theorem writeTableWord_legal {k : Nat} {f : EspErr → WordProg β} (hk : k < 8)
    (hok : p.entryTable.Ok)
    (hb : Below p.entryTable p.baseAddress m)
    (h : ∀ m', Below p.entryTable p.baseAddress m' →
      (∀ x, x < p.baseAddress + 32 ∨ p.baseAddress + 64 ≤ x → m' x = m x) → Legal R (f .ok) m') :
    Legal R ((p.writeTableWord k).bind f) m := by
  refine spiFlashWrite_legal (by simp) (clears_le32 (hb k hk)) (h _ ?_ ?_)
  · intro j hj
    by_cases hjk : j = k
    · subst hjk
      rw [word32_store (hok.word_lt _), Nat.and_self]
    · rw [Bytes.read_store_out (by simp only [length_le32]; omega)]
      exact hb j hj
  · intro x hx
    apply Bytes.store_out
    simp only [entryTableOffset, length_le32]
    omega

theorem alterEntryState_legal (hok : p.entryTable.Ok) (hb : Below p.entryTable p.baseAddress m)
    (hlow : (p.entryTable.get i).Lowers st)
    (h : ∀ p' m', Altered p m p' m' i (i + 1) → Legal R (f (.ok, p')) m') :
    Legal R ((p.alterEntryState i st).bind f) m := by
  simp only [Page.alterEntryState, Page.setEntryState, Prog.bind_eq, Prog.bind_assoc, Prog.pure_eq,
    Prog.ret_bind]
  refine Prog.Keeps.assert fun hi => Prog.Keeps.assert fun _ => ?_
  have hi := of_decide_eq_true hi
  refine writeTableWord_legal (p := { p with entryTable := p.entryTable.set i st }) ?_
    (hok.set i st)
    (hb.set hok hi hlow) fun m' hb' hout => ?_
  · rw [EntryTable.getWordIndex_eq]
    unfold entryCount at hi
    omega
  · refine h _ m' ⟨rfl, rfl, rfl, rfl, hok.set i st, hb', fun j hj => ?_, hout⟩
    rw [hok.get_set hi, if_neg (by omega)]

theorem alterEntryRangeLoop_legal {start : Nat} (hok : p.entryTable.Ok)
    (hb : Below p.entryTable p.baseAddress m) (hw : 0 < n → wordIndex < 8)
    (hlow : ∀ i, start ≤ i → i < start + n → (p.entryTable.get i).Lowers st)
    (h : ∀ p' m', Altered p m p' m' start (start + n) → Legal R (f (.ok, p')) m') :
    Legal R ((p.alterEntryRangeLoop start st wordIndex n).bind f) m := by
  induction n generalizing p m wordIndex with
  | zero =>
    exact h p m ⟨rfl, rfl, rfl, rfl, hok, hb, fun _ _ => rfl, fun _ _ => rfl⟩
  | succ n ih =>
    simp only [Page.alterEntryRangeLoop, Page.setEntryState, Prog.bind_eq, Prog.bind_assoc,
      Prog.pure_eq, Prog.ret_bind]
    refine Prog.Keeps.assert fun hi => ?_
    have hi := of_decide_eq_true hi
    have hset := hok.set (start + n) st
    have hbset := hb.set hok hi (hlow _ (by omega) (by omega))
    generalize hnw : (if n = 0 then sizeMax else EnumTable.getWordIndex 2 (start + n - 1)) =
      nextWord
    have hnext : 0 < n → nextWord < 8 := by
      intro h0
      rw [← hnw, if_neg (by omega), EntryTable.getWordIndex_eq]
      unfold entryCount at hi
      omega
    have hlow' : ∀ i, start ≤ i → i < start + n →
        ((p.entryTable.set (start + n) st).get i).Lowers st := by
      intro i h1 h2
      rw [hok.get_set hi, if_neg (by omega)]
      exact hlow i h1 (by omega)
    have hrest : ∀ m1, Below (p.entryTable.set (start + n) st) p.baseAddress m1 →
        (∀ x, x < p.baseAddress + 32 ∨ p.baseAddress + 64 ≤ x → m1 x = m x) →
        Legal R (({ p with entryTable := p.entryTable.set (start + n) st }.alterEntryRangeLoop
          start st
          nextWord n).bind f) m1 := by
      intro m1 hb1 hout
      refine ih (p := { p with entryTable := p.entryTable.set (start + n) st }) hset hb1 hnext hlow'
        fun p' m' ha => h p' m' ⟨ha.base, ha.state, ha.next, ha.first, ha.ok, ha.below,
          fun j hj => ?_,
          fun x hx => (ha.out x hx).trans (hout x hx)⟩
      rw [ha.get j (by omega)]
      exact (hok.get_set hi).trans (if_neg (by omega))
    by_cases hsame : nextWord = wordIndex
    · rw [if_neg (by simpa using hsame)]
      exact hrest m hbset fun _ _ => rfl
    · rw [if_pos hsame]
      simp only [Prog.bind_assoc]
      refine writeTableWord_legal (p := { p with entryTable := p.entryTable.set (start + n) st })
        (hw (by omega)) hset hbset fun m1 hb1 hout => ?_
      exact hrest m1 hb1 hout

theorem alterEntryRangeState_legal {start : Nat} (hok : p.entryTable.Ok)
    (hb : Below p.entryTable p.baseAddress m)
    (hlow : ∀ i, start ≤ i → i < stop → (p.entryTable.get i).Lowers st)
    (h : ∀ p' m', stop ≤ entryCount → Altered p m p' m' start stop → Legal R (f (.ok, p')) m') :
    Legal R ((p.alterEntryRangeState start stop st).bind f) m := by
  simp only [Page.alterEntryRangeState, Prog.bind_eq, Prog.bind_assoc]
  refine Prog.Keeps.assert fun hstop => Prog.Keeps.assert fun hstart => ?_
  have hstop := of_decide_eq_true hstop
  have hstart := of_decide_eq_true hstart
  have hadd : start + (stop - start) = stop := by omega
  refine alterEntryRangeLoop_legal hok hb (fun _ => ?_) (hadd.symm ▸ hlow)
    (hadd.symm ▸ fun p' m' => h p' m' hstop)
  rw [EntryTable.getWordIndex_eq]
  unfold entryCount at hstop
  omega

end Alter

/-! ### A page and its sector -/

/-- What the methods of a page rely on, and keep. -/
structure Ready (p : Page) (m : Bytes) : Prop where
  dvd : p.baseAddress % sectorSize = 0
  ok : p.entryTable.Ok
  below : p.Open → Below p.entryTable p.baseAddress m
  header : p.Open → word32 (m.read p.baseAddress 4) 0 = p.state.word
  empty : p.Open → ∀ i, p.nextFreeEntry ≤ i → i < entryCount → p.entryTable.get i = .empty
  blank : p.Open → ∀ x, entryDataOffset + p.nextFreeEntry * entrySize ≤ x → x < sectorSize →
    m (p.baseAddress + x) = 0xff
  erased : p.state = .uninitialized → ∀ x < sectorSize, m (p.baseAddress + x) = 0xff
  closed : ¬ p.Open → p.nextFreeEntry = invalidEntry ∧ p.firstUsedEntry = invalidEntry

structure Moved (p : Page) (m : Bytes) (p' : Page) (m' : Bytes) : Prop where
  base : p'.baseAddress = p.baseAddress
  ready : Ready p' m'
  out : ∀ x, x < p.baseAddress ∨ p.baseAddress + sectorSize ≤ x → m' x = m x

structure Kept (p : Page) (m : Bytes) (p' : Page) (m' : Bytes) : Prop extends Moved p m p' m' where
  state : p'.state = p.state

namespace Ready

variable {p p' q : Page} {m m' m1 : Bytes} {lo hi : Nat}

theorem kept (h : Ready p m) : Kept p m p m := ⟨⟨rfl, h, fun _ _ => rfl⟩, rfl⟩

theorem like (h : Ready p m) (hl : Like p p') : Ready p' m := by
  have hopen : p'.Open ↔ p.Open := by unfold Page.Open; rw [hl.state]
  constructor
  · rw [hl.base]; exact h.dvd
  · rw [hl.table]; exact h.ok
  · intro ho; rw [hl.table, hl.base]; exact h.below (hopen.1 ho)
  · intro ho; rw [hl.base, hl.state]; exact h.header (hopen.1 ho)
  · intro ho; rw [hl.next, hl.table]; exact h.empty (hopen.1 ho)
  · intro ho; rw [hl.next, hl.base]; exact h.blank (hopen.1 ho)
  · rw [hl.state, hl.base]; exact h.erased
  · intro ho; rw [hl.next, hl.first]; exact h.closed fun ho' => ho (hopen.2 ho')

theorem frame (h : Ready p m)
    (hm : ∀ x, p.baseAddress ≤ x → x < p.baseAddress + sectorSize → m' x = m x) : Ready p m' where
  dvd := h.dvd
  ok := h.ok
  below ho := (h.below ho).congr fun x h1 h2 => hm x (by omega) (by unfold sectorSize; omega)
  header ho := by
    rw [← h.header ho]
    congr 1
    exact Bytes.read_congr fun x h1 h2 => hm x h1 (by unfold sectorSize; omega)
  empty := h.empty
  blank ho x h1 h2 := (hm _ (by omega) (by omega)).trans (h.blank ho x h1 h2)
  erased hs x hx := (hm _ (by omega) (by omega)).trans (h.erased hs x hx)
  closed := h.closed

theorem alter (h : Ready p m) (ho : p.Open) (ha : Altered p m1 q m' lo hi)
    (hb : p'.baseAddress = q.baseAddress) (hs : p'.state = q.state)
    (ht : p'.entryTable = q.entryTable)
    (hnext : p.nextFreeEntry ≤ p'.nextFreeEntry) (hhi : hi ≤ p'.nextFreeEntry)
    (hlow : ∀ x, x < p.baseAddress + 64 → m1 x = m x)
    (hhigh : ∀ x, p.baseAddress + sectorSize ≤ x → m1 x = m x)
    (hblank : ∀ x, entryDataOffset + p'.nextFreeEntry * entrySize ≤ x → x < sectorSize →
      m1 (p.baseAddress + x) = m (p.baseAddress + x)) : Kept p m p' m' := by
  have hbase : p'.baseAddress = p.baseAddress := hb.trans ha.base
  have hstate : p'.state = p.state := hs.trans ha.state
  have hopen : p'.Open := by
    unfold Page.Open
    rw [hstate]
    exact ho
  have hdata : ∀ x, p.baseAddress + 64 ≤ x → m' x = m1 x := fun x hx => ha.out x (.inr hx)
  refine ⟨⟨hbase, ⟨?_, ?_, fun _ => ?_, fun _ => ?_, fun _ i h1 h2 => ?_, fun _ x h1 h2 => ?_,
    fun hu => ?_, fun hn => absurd hopen hn⟩, fun x hx => ?_⟩, hstate⟩
  · rw [hbase]
    exact h.dvd
  · rw [ht]
    exact ha.ok
  · rw [ht, hbase]
    exact ha.below
  · rw [hbase, hstate, ← h.header ho]
    congr 1
    exact Bytes.read_congr fun x h1 h2 => (ha.out x (.inl (by omega))).trans (hlow x (by omega))
  · rw [ht, ha.get i (.inr (by omega))]
    exact h.empty ho i (by omega) h2
  · have hmul := Nat.mul_le_mul_right entrySize hnext
    rw [hbase, hdata _ (by unfold entryDataOffset at h1; omega), hblank x h1 h2]
    exact h.blank ho x (by omega) h2
  · rw [hstate] at hu
    unfold Page.Open at ho
    rw [hu] at ho
    simp at ho
  · unfold sectorSize at hx hhigh
    rcases hx with hx | hx
    · exact (ha.out x (.inl (by omega))).trans (hlow x (by omega))
    · exact (hdata x (by omega)).trans (hhigh x hx)

end Ready

namespace Moved

variable {p p' p'' : Page} {m m' m'' : Bytes}

theorem trans (h : Moved p m p' m') (h' : Moved p' m' p'' m'') : Moved p m p'' m'' :=
  ⟨h'.base.trans h.base, h'.ready, fun x hx => (h'.out x (h.base.symm ▸ hx)).trans (h.out x hx)⟩

end Moved

namespace Kept

theorem trans (h : Kept p m p' m') (h' : Kept p' m' p'' m'') : Kept p m p'' m'' :=
  ⟨h.toMoved.trans h'.toMoved, h'.state.trans h.state⟩

theorem like (h : Kept p m p' m') (hl : Like p' p'') : Kept p m p'' m' :=
  ⟨⟨hl.base.trans h.base, h.ready.like hl, h.out⟩, hl.state.trans h.state⟩

theorem of_like (hl : Like p p') (h : Kept p' m p'' m') : Kept p m p'' m' :=
  ⟨⟨h.base.trans hl.base, h.ready, fun x hx => h.out x (hl.base.symm ▸ hx)⟩, h.state.trans hl.state⟩

theorem opened (h : Kept p m p' m') (ho : p.Open) : p'.Open := by
  unfold Page.Open
  rw [h.state]
  exact ho

end Kept

end EspIdf.Nvs
