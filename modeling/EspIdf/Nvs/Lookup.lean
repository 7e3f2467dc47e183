import EspIdf.Nvs.Items
import EspIdf.Nvs.Storage

/-! What a lookup makes of the entries of the pages.  Where the hash list leads it straight to the
item, it finds it and changes nothing but the cached position; where no written entry has the key,
it finds nothing, whatever damaged entries it erases on its way. -/

namespace EspIdf.Nvs

open EspIdf.Device Prog

theorem Storage.setPage_page (s : Storage) (j : Nat) : s.setPage j (s.page j) = s := by
  simp only [Storage.setPage, Storage.withManager, PageManager.setPage, Storage.page,
    Function.update_eq_self]

theorem run_assert {β : Type} {f : Unit → WordProg β} {b : Bool} {r : β × Bytes}
    (h : run wordFlash ((Prog.assert b).bind f) m = some r) :
    b = true ∧ run wordFlash (f ()) m = some r := by
  cases b with
  | true => exact ⟨rfl, h⟩
  | false => cases h

instance (p : Page) : Decidable p.Open := inferInstanceAs (Decidable (_ ∨ _ ∨ _))

namespace Page

def entry (p : Page) (m : Bytes) (i : Nat) : Item :=
  .ofBytes (m.read (p.baseAddress + entryDataOffset + i * entrySize) entrySize)

theorem readEntry_run (p : Page) (hi : i < entryCount) (m : Bytes) :
    run wordFlash (p.readEntry i) m = some ((.ok, p.entry m i), m) := by
  simp only [readEntry, getEntryAddress, Prog.bind_eq, hi, decide_true, assert_true, ret_bind,
    Prog.pure_eq]
  rfl

/-- The entry is in use and has the head of an item with this name. -/
def Holds (p : Page) (m : Bytes) (name : List UInt8) (i : Nat) : Prop :=
  p.entryTable.get i = .written ∧ (p.entry m i).crc32 = (p.entry m i).calculateCrc32 ∧
    (p.entry m i).name = name

instance (p : Page) (m : Bytes) (name : List UInt8) (i : Nat) : Decidable (p.Holds m name i) :=
  inferInstanceAs (Decidable (_ ∧ _ ∧ _))

end Page

/-! ### Items that the hash list leads to -/

theorem HashList.find_lt {l : HashList} (h : l.find start item = i) (hi : i < entryCount) :
    ∃ n, l.blocks.flatten.find? (fun n =>
      start ≤ n.index && n.hash = item.hash24 && n.index ≠ 0xff) = some n ∧ n.index = i := by
  unfold find at h
  cases hfind : l.blocks.flatten.find? (fun n =>
      start ≤ n.index && n.hash = item.hash24 && n.index ≠ 0xff) with
  | none =>
    rw [hfind] at h
    unfold entryCount at hi
    simp [sizeMax] at h
    omega
  | some n =>
    rw [hfind] at h
    exact ⟨n, rfl, h⟩

theorem HashList.find_later {l : HashList} (h : l.find start item = i) (hi : i < entryCount)
    (hstart : start ≤ start') (hle : start' ≤ i) : l.find start' item = i := by
  obtain ⟨n, hfind, rfl⟩ := find_lt h hi
  obtain ⟨hn, before, after, hsplit, hbefore⟩ := List.find?_eq_some_iff_append.1 hfind
  have hlater : l.blocks.flatten.find? (fun n =>
      start' ≤ n.index && n.hash = item.hash24 && n.index ≠ 0xff) = some n := by
    refine List.find?_eq_some_iff_append.2 ⟨?_, before, after, hsplit, fun n' hn' => ?_⟩
    · simp only [Bool.and_eq_true, decide_eq_true_eq] at hn ⊢
      exact ⟨⟨hle, hn.1.2⟩, hn.2⟩
    · have := hbefore n' hn'
      simp only [Bool.not_eq_true', Bool.and_eq_false_iff, decide_eq_false_iff_not] at this ⊢
      exact this.imp_left fun h => h.imp_left fun h => by omega
  rw [find, hlater]
  rfl

theorem HashList.start_le {l : HashList} (h : l.find start item = i) (hi : i < entryCount) :
    start ≤ i := by
  obtain ⟨n, hfind, rfl⟩ := find_lt h hi
  have := List.find?_some hfind
  simp only [Bool.and_eq_true, decide_eq_true_eq] at this
  exact this.1.1

section Leads

variable {ns : UInt8} {dt : ItemType} {key : Key} {m : Bytes} {i j : Nat}

namespace Page

variable {p : Page}

theorem endEntry_le (p : Page) : p.endEntry ≤ entryCount := by
  unfold endEntry
  split <;> omega

theorem firstUsedEntry_le_findStart (p : Page) (ns : UInt8) (dt : ItemType) (key : Option Key) :
    p.firstUsedEntry ≤ p.findStart ns dt key 0 := by
  unfold findStart
  dsimp only
  split_ifs <;> omega

/-- The entry that `findItem` goes to first, by the hash list. -/
def cachedIndex (p : Page) (ns : UInt8) (dt : ItemType) (key : Key) : Nat :=
  p.hashList.find (p.findStart ns dt (some key) 0) (.make ns dt 0 (some key.text))

/-- The hash list leads a lookup of the key to the entry `i`, which has it, with any type. -/
structure Leads (p : Page) (m : Bytes) (ns : UInt8) (dt : ItemType) (key : Key) (i : Nat) : Prop
    where
  opened : p.Open
  nsIndex_ne : ns ≠ nsAny
  datatype_ne : dt ≠ .ANY
  index : p.cachedIndex ns dt key = i
  lt : i < p.endEntry
  holds : p.Holds m (cstr maxKeyLength key.text) i
  nsIndex : (p.entry m i).nsIndex = ns

/-- The page after the lookup has found its item at `i`. -/
def cached (p : Page) (ns : UInt8) (dt : ItemType) (key : Key) (i : Nat) : Page :=
  { p with findInfo := { CachedFindInfo.make ns dt (some key) with itemIndex := i } }

theorem findLoop_at (hstop : i < stop) (hi : i < entryCount)
    (h : p.Holds m (cstr maxKeyLength key.text) i) (hns : (p.entry m i).nsIndex = ns)
    (hdt : dt ≠ .ANY) (item : Item) :
    run wordFlash (findLoop ns dt (some key) 0 stop (rounds + 1) p item i) m =
      some (if (p.entry m i).datatype = dt then ⟨.ok, p.cached ns dt key i, i, p.entry m i⟩
        else ⟨.nvsTypeMismatch, p, 0, p.entry m i⟩, m) := by
  obtain ⟨hwritten, hvalid, hname⟩ := h
  simp only [findLoop, getEntryState, Prog.bind_eq, Prog.pure_eq, hi, decide_true, assert_true,
    ret_bind]
  rw [if_neg (not_not_intro hstop), if_neg (not_not_intro hwritten),
    run_bind_of _ (readEntry_run p hi m)]
  simp only [ne_eq, not_true_eq_false, if_false]
  rw [if_neg (not_not_intro hvalid), if_neg (by simp [hns]), if_neg (by
    simpa [Item.name] using hname.symm)]
  by_cases htype : (p.entry m i).datatype = dt
  · rw [if_neg (by simp [htype]), if_pos htype]
    rfl
  · rw [if_pos ⟨hdt, htype⟩, if_neg htype]
    rfl

theorem open_iff : p.Open ↔
    ¬ (p.state = .corrupt ∨ p.state = .invalid ∨ p.state = .uninitialized) := by
  unfold Open
  cases p.state <;> simp

theorem findItem_open (h : p.Open) (hns : ns ≠ nsAny) (hdt : dt ≠ .ANY) (item : Item) :
    p.findItem ns dt (some key) 0 item =
      if p.cachedIndex ns dt key < entryCount then
        findLoop ns dt (some key) 0 p.endEntry loopRounds p item (p.cachedIndex ns dt key)
      else .ret ⟨.nvsNotFound, p, 0, item⟩ := by
  unfold findItem
  rw [if_neg (open_iff.1 h), if_neg (by decide)]
  simp only
  rw [if_pos ⟨hns, hdt⟩]
  rfl

theorem findItem_closed (h : ¬ p.Open) (item : Item) :
    p.findItem ns dt (some key) 0 item = .ret ⟨.nvsNotFound, p, 0, item⟩ := by
  unfold findItem
  rw [if_pos (not_not.1 fun hn => h (open_iff.2 hn))]
  rfl

theorem Leads.findItem (h : p.Leads m ns dt key i) (item : Item) :
    run wordFlash (p.findItem ns dt (some key) 0 item) m =
      some (if (p.entry m i).datatype = dt then ⟨.ok, p.cached ns dt key i, i, p.entry m i⟩
        else ⟨.nvsTypeMismatch, p, 0, p.entry m i⟩, m) := by
  have hi : i < entryCount := h.lt.trans_le p.endEntry_le
  rw [findItem_open h.opened h.nsIndex_ne h.datatype_ne, h.index, if_pos hi]
  exact findLoop_at h.lt hi h.holds h.nsIndex h.datatype_ne item

/-- The cached position leads the next lookup to the same entry. -/
theorem Leads.cached (h : p.Leads m ns dt key i) : (p.cached ns dt key i).Leads m ns dt key i := by
  have hi : i < entryCount := h.lt.trans_le p.endEntry_le
  have hfind : p.hashList.find (p.findStart ns dt (some key) 0)
      (.make ns dt 0 (some key.text)) = i := h.index
  have hle := HashList.start_le hfind hi
  have hfirst := p.firstUsedEntry_le_findStart ns dt (some key)
  have hsame : (p.cached ns dt key i).findInfo.same (.make ns dt (some key)) = true := by
    simp [Page.cached, CachedFindInfo.make, CachedFindInfo.same]
  have hstart : (p.cached ns dt key i).findStart ns dt (some key) 0 =
      if i > p.firstUsedEntry ∧ i < entryCount then i else p.firstUsedEntry := by
    rw [findStart, hsame]
    rfl
  refine ⟨h.opened, h.nsIndex_ne, h.datatype_ne, ?_, h.lt, h.holds, h.nsIndex⟩
  rw [cachedIndex, hstart]
  split_ifs with hlater
  · exact HashList.find_later hfind hi hle (Nat.le_refl i)
  · exact HashList.find_later hfind hi (by omega) (by omega)

/-- A lookup goes on to the next page: the page is not in use, has no item of the key's hash, or has
the key with another type. -/
inductive Passes (p : Page) (m : Bytes) (ns : UInt8) (dt : ItemType) (key : Key) : Prop
  | closed (h : ¬ p.Open)
  | absent (hns : ns ≠ nsAny) (hdt : dt ≠ .ANY) (h : entryCount ≤ p.cachedIndex ns dt key)
  | otherType (i : Nat) (h : p.Leads m ns dt key i) (hdt : (p.entry m i).datatype ≠ dt)

theorem Passes.findItem (h : p.Passes m ns dt key) (item : Item) :
    ∃ err item', err ≠ .ok ∧
      run wordFlash (p.findItem ns dt (some key) 0 item) m = some (⟨err, p, 0, item'⟩, m) := by
  cases h with
  | closed h =>
    refine ⟨.nvsNotFound, item, by decide, ?_⟩
    rw [findItem_closed h]
    rfl
  | absent hns hdt h =>
    refine ⟨.nvsNotFound, item, by decide, ?_⟩
    by_cases hopen : p.Open
    · rw [findItem_open hopen hns hdt, if_neg (by omega)]
      rfl
    · rw [findItem_closed hopen]
      rfl
  | otherType i h hdt =>
    refine ⟨.nvsTypeMismatch, p.entry m i, by decide, ?_⟩
    rw [h.findItem, if_neg hdt]

end Page

namespace Storage

variable {s : Storage}

/-- A lookup is led to the entry `i` of the page `j`, which has the key and the type. -/
structure Leads (s : Storage) (m : Bytes) (ns : UInt8) (dt : ItemType) (key : Key) (j i : Nat) :
    Prop where
  pages : ∃ before after, s.pageManager.pageList = before ++ j :: after ∧ j ∉ before ∧
    ∀ j' ∈ before, (s.page j').Passes m ns dt key
  page : (s.page j).Leads m ns dt key i
  datatype : ((s.page j).entry m i).datatype = dt

theorem findOn_passes (h : ∀ j ∈ js, (s.page j).Passes m ns dt key) (js' : List Nat) (item : Item) :
    ∃ item', run wordFlash (s.findOn ns dt key item (js ++ js')) m =
      run wordFlash (s.findOn ns dt key item' js') m := by
  induction js generalizing item with
  | nil => exact ⟨item, rfl⟩
  | cons j js ih =>
    obtain ⟨err, item', herr, hfind⟩ := (h j (List.mem_cons_self ..)).findItem item
    obtain ⟨item'', hrest⟩ := ih (fun j' hj' => h j' (List.mem_cons_of_mem _ hj')) item'
    refine ⟨item'', ?_⟩
    rw [List.cons_append, findOn]
    simp only [Prog.bind_eq]
    rw [run_bind_of _ hfind]
    simp only [if_neg herr, setPage_page]
    exact hrest

theorem Leads.findItem (h : s.Leads m ns dt key j i) :
    run wordFlash (s.findItem ns dt key) m =
      some ((.ok, s.setPage j ((s.page j).cached ns dt key i), some j, (s.page j).entry m i),
        m) := by
  obtain ⟨before, after, hlist, -, hbefore⟩ := h.pages
  obtain ⟨item, hrun⟩ := findOn_passes hbefore (j :: after) Page.noItem
  have hfind := h.page.findItem item
  rw [if_pos h.datatype] at hfind
  rw [Storage.findItem, hlist, hrun, findOn]
  simp only [Prog.bind_eq]
  rw [run_bind_of _ hfind]
  rfl

theorem page_setPage_self (s : Storage) (j : Nat) (p : Page) : (s.setPage j p).page j = p :=
  Function.update_self ..

theorem page_setPage_ne (s : Storage) (p : Page) (h : j' ≠ j) : (s.setPage j p).page j' =
    s.page j' :=
  Function.update_of_ne h ..

theorem Leads.cached (h : s.Leads m ns dt key j i) :
    (s.setPage j ((s.page j).cached ns dt key i)).Leads m ns dt key j i := by
  obtain ⟨before, after, hlist, hj, hbefore⟩ := h.pages
  refine ⟨⟨before, after, hlist, hj, fun j' hj' => ?_⟩, ?_, ?_⟩
  · rw [page_setPage_ne s _ fun heq : j' = j => hj (heq ▸ hj')]
    exact hbefore j' hj'
  · rw [page_setPage_self]
    exact h.page.cached
  · rw [page_setPage_self]
    exact h.datatype

end Storage

end Leads

/-! ### Nothing to find -/

/-- Flash calls that read, or program words of the entry table of the page at `b`. -/
def TableOp (b : Nat) : WordOp → Prop
  | .read _ _ => True
  | .program a word => b + entryTableOffset ≤ a ∧ a + word.length ≤ b + entryDataOffset
  | .erase _ => False

/-- All entries of all pages are the same; their states may differ. -/
def SameEntries (m m' : Bytes) : Prop :=
  ∀ x, entryDataOffset ≤ x % sectorSize → m' x = m x

theorem SameEntries.trans (h : SameEntries m m') (h' : SameEntries m' m'') : SameEntries m m'' :=
  fun x hx => (h' x hx).trans (h x hx)

theorem sameEntries_of_tableOp (hb : b % sectorSize = 0) (h : TableOp b o) (m : Bytes) :
    SameEntries m (wordFlash o m).2 := by
  intro x hx
  cases o with
  | read a n => rfl
  | program a word =>
    simp only [wordFlash]
    split
    · refine Bytes.store_out ?_
      have h1 : b + 32 ≤ a := h.1
      have h2 : a + word.length ≤ b + 64 := h.2
      have hx : 64 ≤ x % 4096 := hx
      have hb : b % 4096 = 0 := hb
      omega
    · rfl
  | erase sector => exact h.elim

theorem run_sameEntries {p : WordProg α} (hb : b % sectorSize = 0) (h : Within (TableOp b) Q p)
    (hrun : run wordFlash p m = some (a, m')) : Q a ∧ SameEntries m m' := by
  induction p generalizing m with
  | ret a =>
    cases hrun
    exact ⟨h, fun _ _ => rfl⟩
  | halt => cases hrun
  | call o k ih =>
    obtain ⟨hq, hsame⟩ := ih _ (h.2 _) hrun
    exact ⟨hq, (sameEntries_of_tableOp hb h.1 m).trans hsame⟩

theorem within_assert {P : WordOp → Prop} {Q : β → Prop} {f : Unit → WordProg β} {b : Bool}
    (h : b = true → Within P Q (f ())) : Within P Q ((Prog.assert b).bind f) := by
  cases b with
  | true => exact h rfl
  | false => trivial

theorem EntryTable.get_set_erased {t : EntryTable} (h : (t.set i .erased).get j = .written) :
    t.get j = .written := by
  by_cases hi : EnumTable.getWordIndex 2 i < t.data.length
  · by_cases hij : i = j
    · subst hij
      rw [EntryTable.get, EntryTable.set,
        EnumTable.get_set_self (by decide) (bits_lt .erased) hi] at h
      cases h
    · rwa [EntryTable.get, EntryTable.set,
        EnumTable.get_set_ne (by decide) (bits_lt .erased) hij hi] at h
  · rwa [EntryTable.set, EnumTable.set, List.set_eq_of_length_le (by omega)] at h

namespace Page

/-- Entries may have been erased. -/
structure Fewer (p p' : Page) : Prop where
  base : p'.baseAddress = p.baseAddress
  written : ∀ i, p'.entryTable.get i = .written → p.entryTable.get i = .written

theorem Fewer.trans (h : Fewer p p') (h' : Fewer p' p'') : Fewer p p'' :=
  ⟨h'.base.trans h.base, fun i hi => h.written i (h'.written i hi)⟩

theorem Fewer.erase (h : Fewer p p') (i : Nat) :
    Fewer p { p' with entryTable := p'.entryTable.set i .erased } :=
  ⟨h.base, fun j hj => h.written j (EntryTable.get_set_erased hj)⟩

theorem Fewer.like (h : Fewer p p') (hb : p''.baseAddress = p'.baseAddress)
    (ht : p''.entryTable = p'.entryTable) : Fewer p p'' :=
  ⟨hb.trans h.base, fun i hi => h.written i (ht ▸ hi)⟩

theorem Fewer.decUsed (h : Fewer p p') : Fewer p p'.decUsed := by
  unfold Page.decUsed
  exact ⟨h.base, h.written⟩

theorem Fewer.incErased (h : Fewer p p') : Fewer p p'.incErased := ⟨h.base, h.written⟩

variable {p q : Page} {index : Nat}

theorem writeTableWord_within (hb : q.baseAddress = b) (hk : k < 8) :
    Within (TableOp b) (fun _ => True) (q.writeTableWord k) := by
  subst hb
  refine ⟨⟨?_, ?_⟩, fun r => ?_⟩
  · exact Nat.le_add_right ..
  · show q.baseAddress + 32 + k * 4 + 4 ≤ q.baseAddress + 64
    omega
  · cases r <;> trivial

theorem alterEntryState_fewer (h : Fewer p q) :
    Within (TableOp p.baseAddress) (fun r => Fewer p r.2) (q.alterEntryState index .erased) := by
  refine within_assert fun hi => ?_
  simp only [setEntryState, Prog.bind_eq, Prog.pure_eq, Prog.bind_assoc, ret_bind]
  refine within_assert fun _ => ?_
  have hi : index < 126 := of_decide_eq_true hi
  have hk : EnumTable.getWordIndex 2 index < 8 := by
    show index / 16 < 8
    omega
  refine (writeTableWord_within (h.erase index).base hk).bind fun rc _ => ?_
  split
  · exact ⟨h.base, (h.erase index).written⟩
  · exact h.erase index

theorem alterEntryRangeLoop_fewer {n start wordIndex : Nat} (h : Fewer p q)
    (hend : start + n ≤ entryCount) (hword : n ≠ 0 → wordIndex = (start + n - 1) / 16) :
    Within (TableOp p.baseAddress) (fun r => Fewer p r.2)
      (q.alterEntryRangeLoop start .erased wordIndex n) := by
  induction n generalizing q wordIndex with
  | zero => exact h
  | succ n ih =>
    have hend : start + (n + 1) ≤ 126 := hend
    have hnext : n ≠ 0 → (if n = 0 then sizeMax else EnumTable.getWordIndex 2 (start + n - 1)) =
        (start + n - 1) / 16 := fun hn => by
      rw [if_neg hn]
      rfl
    simp only [alterEntryRangeLoop, setEntryState, Prog.bind_eq, Prog.pure_eq, Prog.bind_assoc,
      ret_bind]
    refine within_assert fun _ => ?_
    generalize (if n = 0 then sizeMax else EnumTable.getWordIndex 2 (start + n - 1)) = next at *
    split
    · have hk : wordIndex < 8 := by
        rw [hword (by omega)]
        omega
      refine (writeTableWord_within (h.erase (start + n)).base hk).bind fun rc _ => ?_
      split
      · exact h.erase _
      · exact ih (h.erase _) (by unfold entryCount; omega) hnext
    · exact ih (h.erase _) (by unfold entryCount; omega) hnext

theorem countErased_fewer (h : Fewer p q) (n : Nat) :
    Within (TableOp p.baseAddress) (fun q' => Fewer p q') (q.countErased index n) := by
  induction n generalizing q with
  | zero => exact h
  | succ n ih =>
    simp only [countErased, getEntryState, Prog.bind_eq, Prog.pure_eq, Prog.bind_assoc, ret_bind]
    refine within_assert fun _ => ?_
    split
    · exact ih h.decUsed.incErased
    · exact ih h.incErased

theorem readEntry_within {R : β → Prop} {f : EspErr × Item → WordProg β}
    (h : ∀ r, Within (TableOp b) R (f r)) : Within (TableOp b) R ((p.readEntry i).bind f) := by
  simp only [readEntry, getEntryAddress, Prog.bind_eq, Prog.pure_eq, Prog.bind_assoc, ret_bind]
  exact within_assert fun _ => ⟨trivial, fun _ => h _⟩

theorem eraseEntries_fewer (h : Fewer p q) (state : EntryState) :
    Within (TableOp p.baseAddress) (fun r => Fewer p r.2.2) (q.eraseEntries index state) := by
  have hone : ∀ {q' : Page} (f : Page → Page), Fewer p q' →
      (∀ q'', Fewer p q'' → Fewer p (f q'')) → ∀ n : Nat,
      Within (TableOp p.baseAddress) (fun r : EspErr × Nat × Page => Fewer p r.2.2)
        ((q'.alterEntryState index .erased).bind fun r => .ret (r.1, n, f r.2)) :=
    fun f hq hf n => (alterEntryState_fewer hq).bind fun r hr => hf _ hr
  unfold eraseEntries
  simp only [Prog.bind_eq, Prog.pure_eq]
  split
  · refine readEntry_within fun r => ?_
    split
    · exact h
    · split
      · exact hone (fun q => q.decUsed.incErased) h (fun _ hq => hq.decUsed.incErased) 1
      · refine (countErased_fewer h _).bind fun q' hq => ?_
        split
        · exact hone id hq (fun _ hq => hq) _
        · unfold alterEntryRangeState
          simp only [Prog.bind_eq, Prog.bind_assoc]
          refine within_assert fun hstop => within_assert fun hlt => ?_
          have hstop := of_decide_eq_true hstop
          have hlt := of_decide_eq_true hlt
          refine (alterEntryRangeLoop_fewer hq (by omega) fun _ => ?_).bind fun r hr => hr
          rw [Nat.add_sub_cancel' hlt.le]
          rfl
  · exact hone id h (fun _ hq => hq) 1

theorem eraseEntryAndSpan_fewer (p : Page) (index : Nat) :
    Within (TableOp p.baseAddress) (fun r => Fewer p r.2) (p.eraseEntryAndSpan index) := by
  simp only [eraseEntryAndSpan, getEntryState, Prog.bind_eq, Prog.pure_eq, Prog.bind_assoc,
    ret_bind]
  refine within_assert fun _ => within_assert fun _ => ?_
  split
  · trivial
  · rename_i hashList _
    refine (eraseEntries_fewer (p := p) (q := { p with hashList := hashList })
      ⟨rfl, fun _ h => h⟩ _).bind fun r hr => ?_
    obtain ⟨rc, span, q⟩ := r
    have hend : ∀ q', Fewer p q' → Within (TableOp p.baseAddress) (fun r => Fewer p r.2)
        (.ret (.ok, if index + span > q'.nextFreeEntry then
          { q' with nextFreeEntry := index + span } else q') : WordProg (EspErr × Page)) := by
      intro q' hq
      show Fewer p (if _ then _ else _)
      split
      · exact hq.like rfl rfl
      · exact hq
    simp only
    split
    · exact hr
    · split
      · simp only [updateFirstUsedEntry, Prog.bind_eq, Prog.pure_eq, Prog.bind_assoc, ret_bind]
        refine within_assert fun _ => hend { q with
          firstUsedEntry := firstWritten q.entryTable (index + span) (q.endEntry - (index + span)) }
            ?_
        exact hr.like rfl rfl
      · exact hend _ hr

theorem Holds.of_fewer (hfewer : Fewer p q) (hsame : SameEntries m m')
    (hb : p.baseAddress % sectorSize = 0) (hi : i < entryCount) (h : q.Holds m' name i) :
    p.Holds m name i := by
  have hentry : q.entry m' i = p.entry m i := by
    unfold entry
    rw [hfewer.base]
    congr 1
    refine Bytes.read_congr fun x h1 h2 => hsame x ?_
    simp only [entryDataOffset, entrySize, sectorSize, entryCount] at *
    omega
  obtain ⟨hwritten, hvalid, hname⟩ := h
  rw [hentry] at hvalid hname
  exact ⟨hfewer.written i hwritten, hvalid, hname⟩

/-- The page is a sector, and no entry of it has the name. -/
structure Without (p : Page) (m : Bytes) (name : List UInt8) : Prop where
  sector : p.baseAddress % sectorSize = 0
  none : ∀ i < entryCount, ¬ p.Holds m name i

theorem Without.of_fewer (h : p.Without m name) (hfewer : Fewer p q) (hsame : SameEntries m m') :
    q.Without m' name :=
  ⟨hfewer.base.symm ▸ h.sector, fun i hi hq => h.none i hi (hq.of_fewer hfewer hsame h.sector hi)⟩

variable {ns : UInt8} {dt : ItemType} {key : Key} {found : Found} {m m' : Bytes}

theorem Without.findLoop {item : Item} (h : p.Without m (cstr maxKeyLength key.text))
    (hrun : run wordFlash (Page.findLoop ns dt (some key) itemIndex stop rounds p item i) m =
      some (found, m')) : found.err ≠ .ok ∧ Fewer p found.page ∧ SameEntries m m' := by
  induction rounds generalizing p m item i with
  | zero => cases hrun
  | succ rounds ih =>
    have hrefl : Fewer p p ∧ SameEntries m m := ⟨⟨rfl, fun _ h => h⟩, fun _ _ => rfl⟩
    simp only [Page.findLoop, getEntryState, Prog.bind_eq, Prog.pure_eq, Prog.bind_assoc,
      ret_bind] at hrun
    split at hrun
    · cases hrun
      exact ⟨nofun, hrefl⟩
    obtain ⟨hi, hrun⟩ := run_assert hrun
    have hi : i < entryCount := of_decide_eq_true hi
    by_cases hwritten : p.entryTable.get i = .written
    case neg =>
      rw [if_pos hwritten] at hrun
      exact ih h hrun
    rw [if_neg (not_not_intro hwritten), run_bind_of _ (readEntry_run p hi m)] at hrun
    simp only [ne_eq, not_true_eq_false, if_false] at hrun
    by_cases hvalid : (p.entry m i).crc32 = (p.entry m i).calculateCrc32
    case neg =>
      -- a damaged head is erased, which leaves every entry as it is
      rw [if_pos hvalid] at hrun
      obtain ⟨⟨rc, q⟩, m₁, herase, hrun⟩ := (run_bind_iff _).1 hrun
      obtain ⟨hfewer, hsame⟩ := run_sameEntries h.sector (p.eraseEntryAndSpan_fewer i) herase
      obtain ⟨herr, hfewer', hsame'⟩ := ih (h.of_fewer hfewer hsame) hrun
      exact ⟨herr, hfewer.trans hfewer', hsame.trans hsame'⟩
    rw [if_neg (not_not_intro hvalid)] at hrun
    split at hrun
    · exact ih h hrun
    · split at hrun
      · exact ih h hrun
      · rename_i hname
        simp only [Option.any_some, decide_eq_true_eq, not_not] at hname
        exact (h.none i hi ⟨hwritten, hvalid, hname.symm⟩).elim

theorem Without.findItem {item : Item} (h : p.Without m (cstr maxKeyLength key.text))
    (hrun : run wordFlash (p.findItem ns dt (some key) 0 item) m = some (found, m')) :
    found.err ≠ .ok ∧ Fewer p found.page ∧ SameEntries m m' := by
  have hrefl : Fewer p p ∧ SameEntries m m := ⟨⟨rfl, fun _ h => h⟩, fun _ _ => rfl⟩
  unfold Page.findItem at hrun
  split at hrun
  · cases hrun
    exact ⟨nofun, hrefl⟩
  · rw [if_neg (by decide)] at hrun
    simp only at hrun
    split at hrun
    · split at hrun
      · exact h.findLoop hrun
      · cases hrun
        exact ⟨nofun, hrefl⟩
    · exact h.findLoop hrun

end Page

theorem Storage.findOn_without {s : Storage} {ns : UInt8} {dt : ItemType} {key : Key} {item : Item}
    (h : ∀ j ∈ js, (s.page j).Without m (cstr maxKeyLength key.text))
    (hrun : run wordFlash (s.findOn ns dt key item js) m = some (r, m')) : r.1 ≠ .ok := by
  induction js generalizing s m item with
  | nil =>
    cases hrun
    exact nofun
  | cons j js ih =>
    obtain ⟨found, m₁, hfind, hrun⟩ := (run_bind_iff _).1 hrun
    obtain ⟨herr, hfewer, hsame⟩ := (h j (List.mem_cons_self ..)).findItem hfind
    simp only [if_neg herr] at hrun
    refine ih (fun j' hj' => ?_) hrun
    by_cases heq : j' = j
    · subst heq
      rw [page_setPage_self]
      exact (h j' (List.mem_cons_self ..)).of_fewer hfewer hsame
    · rw [page_setPage_ne s _ heq]
      exact (h j' (List.mem_cons_of_mem _ hj')).of_fewer ⟨rfl, fun _ h => h⟩ hsame

end EspIdf.Nvs
