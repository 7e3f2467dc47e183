import EspIdf.Nvs.LegalPage

/-! Loading a page.  `Page::load` reads the first half of each line to see whether the sector is
blank, and the first word of an entry to see whether the entry is.  Where this is enough, the loaded
page is ready. -/

namespace EspIdf.Nvs

open EspIdf.Device
open Prog (bind_eq pure_eq ret)

def entryWord (m : Bytes) (b i : Nat) : Nat :=
  word32 (m.read (b + entryDataOffset + i * entrySize) 4) 0

def tableAt (m : Bytes) (b : Nat) : EntryTable :=
  Page.tableOfBytes (m.read (b + entryTableOffset) 32)

def HeaderOk (m : Bytes) (b : Nat) : Prop :=
  word32 (m.read b 32) 28 = headerCrc32 (((m.read b 32).drop 4).take 24)

/-- `Page::load` stops at entry `n` of the active page at `b`: it has the first empty entry in its
table and the ones up to `n` skipped, because they hold data. -/
structure StopsAt (m : Bytes) (b n : Nat) : Prop where
  header : word32 (m.read b 4) 0 = PageState.active.word
  crc : HeaderOk m b
  lt : n < entryCount
  start : ∃ e ≤ n, (tableAt m b).get e = .empty ∧ (∀ i < e, (tableAt m b).get i ≠ .empty) ∧
    ∀ i, e ≤ i → i < n → entryWord m b i ≠ 0xffffffff
  word : entryWord m b n = 0xffffffff

/-- What `Page::load` looks at tells whether the sector at `b`, and the rest of an active page, is
blank. -/
structure Checked (m : Bytes) (b : Nat) : Prop where
  blank : (∀ i < 128, ∀ j < 16, m (b + i * 32 + j) = 0xff) → ∀ x < sectorSize, m (b + x) = 0xff
  free : ∀ n, StopsAt m b n → (∀ i, n ≤ i → i < entryCount → (tableAt m b).get i = .empty) ∧
    ∀ x, entryDataOffset + n * entrySize ≤ x → x < sectorSize → m (b + x) = 0xff

section Table

variable {m m' : Bytes} {b : Nat}

theorem tableAt_eq : tableAt m b = tableOf fun x => m (b + x) := by
  unfold tableAt tableOf
  simp only [Bytes.read, Nat.add_assoc]

theorem tableAt_ok : (tableAt m b).Ok := by
  rw [tableAt_eq]
  exact tableOf_ok _

theorem tableAt_below : Below (tableAt m b) b m := by
  intro k hk
  rw [tableAt_eq, tableOf_word hk]
  have hread : (Bytes.read (fun x => m (b + x)) (entryTableOffset + 4 * k) 4) =
      m.read (b + entryTableOffset + k * 4) 4 := by
    simp only [Bytes.read]
    refine List.map_congr_left fun i _ => ?_
    congr 1
    omega
  rw [hread, Nat.and_self]

section

variable (h : ∀ x, b ≤ x → x < b + sectorSize → m' x = m x)
include h

theorem tableAt_congr : tableAt m' b = tableAt m b := by
  refine congrArg Page.tableOfBytes (Bytes.read_congr fun x h1 h2 => h x (by omega) ?_)
  unfold entryTableOffset at h2
  unfold sectorSize
  omega

theorem StopsAt.congr (hs : StopsAt m' b n) : StopsAt m b n := by
  have hn := hs.lt
  unfold entryCount at hn
  have hhead : m'.read b 4 = m.read b 4 :=
    Bytes.read_congr fun x h1 h2 => h x h1 (by unfold sectorSize; omega)
  have hcrc : m'.read b 32 = m.read b 32 :=
    Bytes.read_congr fun x h1 h2 => h x h1 (by unfold sectorSize; omega)
  have htable := tableAt_congr h
  have hword : ∀ i ≤ n, entryWord m' b i = entryWord m b i := by
    intro i hi
    refine congrArg (word32 · 0) (Bytes.read_congr fun x h1 h2 => h x (by omega) ?_)
    simp only [entryDataOffset, entrySize, sectorSize] at *
    omega
  obtain ⟨e, he, hempty, hbefore, hskip⟩ := hs.start
  rw [htable] at hempty hbefore
  refine ⟨hhead ▸ hs.header, ?_, hs.lt, ⟨e, he, hempty, hbefore, fun i h1 h2 => ?_⟩, ?_⟩
  · unfold HeaderOk
    rw [← hcrc]
    exact hs.crc
  · rw [← hword i (by omega)]
    exact hskip i h1 h2
  · rw [← hword n (Nat.le_refl _)]
    exact hs.word

end

theorem Checked.congr (hc : Checked m b) (h : ∀ x, b ≤ x → x < b + sectorSize → m' x = m x) :
    Checked m' b where
  blank hl x hx := by
    rw [h _ (by omega) (by omega)]
    refine hc.blank (fun i hi j hj => ?_) x hx
    rw [← h _ (by omega) (by unfold sectorSize; omega)]
    exact hl i hi j hj
  free n hs := by
    obtain ⟨h1, h2⟩ := hc.free n (hs.congr h)
    refine ⟨tableAt_congr h ▸ h1, fun x hx hx' => ?_⟩
    rw [h _ (by omega) (by omega)]
    exact h2 x hx hx'

end Table

namespace Page

variable {p : Page} {m : Bytes}

/-! ### The state of the page -/

theorem linesBlank_legal :
    Legal (fun r m' => m' = m ∧ r.1 = .ok ∧ (r.2 = true → ∀ k, i ≤ k → k < i + n → ∀ j < 16,
      m (p.baseAddress + k * 32 + j) = 0xff)) (p.linesBlank i n) m := by
  induction n generalizing i with
  | zero => exact ⟨rfl, rfl, fun _ k _ _ => by omega⟩
  | succ n ih =>
    refine spiFlashRead_legal ?_
    simp only [ne_eq, not_true_eq_false, if_false]
    split
    · exact ⟨rfl, rfl, by rintro ⟨⟩⟩
    · rename_i hline
      refine ih.mono ?_
      rintro r m' ⟨hm, hrc, hr⟩
      refine ⟨hm, hrc, fun hb k h1 h2 j hj => ?_⟩
      rcases Nat.eq_or_lt_of_le h1 with rfl | hlt
      · have hmem : m (p.baseAddress + i * 32 + j) ∈
            (m.read (p.baseAddress + i * 32) 32).take 16 := by
          rw [Bytes.read_take]
          exact List.mem_map.2 ⟨j, List.mem_range.2 hj, rfl⟩
        by_contra hne
        exact hline (List.any_eq_true.2 ⟨_, hmem, by simpa using hne⟩)
      · exact hr hb k (by omega) (by omega) j hj

theorem ofWord_open (h : PageState.ofWord w = st)
    (ho : st = .active ∨ st = .full ∨ st = .freeing ∨ st = .uninitialized) : w = st.word := by
  unfold PageState.ofWord at h
  split at h
  · subst h
    assumption
  · split at h
    · subst h
      assumption
    · split at h
      · subst h
        assumption
      · split at h
        · subst h
          assumption
        · subst h
          simp at ho

structure Stated (p : Page) (m : Bytes) (p' : Page) : Prop where
  base : p'.baseAddress = p.baseAddress
  next : p'.nextFreeEntry = p.nextFreeEntry
  first : p'.firstUsedEntry = p.firstUsedEntry
  table : p'.entryTable = p.entryTable
  header : p'.Open → word32 (m.read p.baseAddress 4) 0 = p'.state.word
  crc : p'.Open → HeaderOk m p.baseAddress
  erased : p'.state = .uninitialized → ∀ x < sectorSize, m (p.baseAddress + x) = 0xff

theorem Stated.of_state (hheader : st = .active ∨ st = .full ∨ st = .freeing →
    word32 (m.read p.baseAddress 4) 0 = st.word)
    (hcrc : HeaderOk m p.baseAddress)
    (herased : st = .uninitialized → ∀ x < sectorSize, m (p.baseAddress + x) = 0xff) :
    Stated p m { p with state := st, seqNumber := n } :=
  ⟨rfl, rfl, rfl, rfl, hheader, fun _ => hcrc, herased⟩

theorem loadState_legal (hp : p.state = .invalid) (hc : Checked m p.baseAddress) :
    Legal (fun r m' => m' = m ∧ r.1 = .ok ∧ Stated p m r.2) p.loadState m := by
  refine spiFlashRead_legal ?_
  simp only [ne_eq, not_true_eq_false, if_false]
  split
  · refine (linesBlank_legal).bind ?_
    rintro ⟨rc, empty⟩ m' ⟨rfl, hrc, hlines⟩
    obtain rfl : rc = .ok := hrc
    cases empty with
    | true =>
      refine ⟨rfl, rfl, rfl, rfl, rfl, rfl, fun ho => ?_, fun ho => ?_, fun _ =>
        hc.blank fun i hi j hj => ?_⟩
      · simp [Page.Open] at ho
      · simp [Page.Open] at ho
      · exact hlines rfl i (by omega) (by omega) j hj
    | false =>
      refine ⟨rfl, rfl, rfl, rfl, rfl, rfl, fun ho => ?_, fun ho => ?_, by rintro ⟨⟩⟩
      · simp [Page.Open] at ho
      · simp [Page.Open] at ho
  · rename_i hne
    split
    · refine ⟨rfl, rfl, rfl, rfl, rfl, rfl, fun ho => ?_, fun ho => ?_, fun hs => ?_⟩
      · simp [Page.Open, hp] at ho
      · simp [Page.Open, hp] at ho
      · simp [hp] at hs
    · rename_i hcrc
      refine ⟨rfl, rfl, .of_state (fun ho => ?_) (not_not.1 hcrc) fun hs => ?_⟩
      · refine ofWord_open rfl ?_
        rcases ho with h | h | h
        · exact .inl h
        · exact .inr (.inl h)
        · exact .inr (.inr (.inl h))
      · exact absurd (ofWord_open hs (.inr (.inr (.inr rfl)))) hne

/-! ### The entries -/

theorem countEntries_eq (p : Page) (i n : Nat) :
    (p.countEntries i n).baseAddress = p.baseAddress ∧ (p.countEntries i n).state = p.state ∧
      (p.countEntries i n).nextFreeEntry = p.nextFreeEntry ∧
      (p.countEntries i n).entryTable = p.entryTable := by
  induction n generalizing p i with
  | zero => exact ⟨rfl, rfl, rfl, rfl⟩
  | succ n ih =>
    unfold countEntries
    split
    · obtain ⟨h1, h2, h3, h4⟩ := ih ((if p.firstUsedEntry = invalidEntry then
        { p with firstUsedEntry := i } else p).incUsed 1) (i + 1)
      have hl := like_incUsed (if p.firstUsedEntry = invalidEntry then
        { p with firstUsedEntry := i } else p) 1
      refine ⟨h1.trans (hl.base.trans ?_), h2.trans (hl.state.trans ?_),
        h3.trans (hl.next.trans ?_),
        h4.trans (hl.table.trans ?_)⟩ <;> split <;> rfl
    · obtain ⟨h1, h2, h3, h4⟩ := ih p.incErased (i + 1)
      have hl := like_incErased p
      exact ⟨h1.trans hl.base, h2.trans hl.state, h3.trans hl.next, h4.trans hl.table⟩
    · exact ih p (i + 1)

theorem findNextFree_eq (p : Page) (i n : Nat) :
    (p.findNextFree i n = p ∧ ∀ k, i ≤ k → k < i + n → p.entryTable.get k ≠ .empty) ∨
    ∃ e, i ≤ e ∧ e < i + n ∧ p.entryTable.get e = .empty ∧
      (∀ k, i ≤ k → k < e → p.entryTable.get k ≠ .empty) ∧
      p.findNextFree i n = { p with nextFreeEntry := e } := by
  induction n generalizing i with
  | zero => exact .inl ⟨rfl, fun k _ _ => by omega⟩
  | succ n ih =>
    unfold findNextFree
    split
    · rename_i h
      exact .inr ⟨i, Nat.le_refl _, by omega, h, fun k _ _ => by omega, rfl⟩
    · rename_i h
      rcases ih (i + 1) with ⟨heq, hno⟩ | ⟨e, h1, h2, h3, h4, h5⟩
      · refine .inl ⟨heq, fun k hk hk' => ?_⟩
        rcases Nat.eq_or_lt_of_le hk with rfl | hlt
        · exact h
        · exact hno k (by omega) (by omega)
      · refine .inr ⟨e, by omega, by omega, h3, fun k hk hk' => ?_, h5⟩
        rcases Nat.eq_or_lt_of_le hk with rfl | hlt
        · exact h
        · exact h4 k (by omega) hk'

structure Skipping (p : Page) (m : Bytes) : Prop where
  dvd : p.baseAddress % sectorSize = 0
  ok : p.entryTable.Ok
  opened : p.Open
  below : Below p.entryTable p.baseAddress m
  header : word32 (m.read p.baseAddress 4) 0 = p.state.word
  free : ∀ n, p.nextFreeEntry ≤ n → n < entryCount →
    (∀ i, p.nextFreeEntry ≤ i → i < n → entryWord m p.baseAddress i ≠ 0xffffffff) →
    entryWord m p.baseAddress n = 0xffffffff →
    (∀ i, n ≤ i → i < entryCount → p.entryTable.get i = .empty) ∧
      ∀ x, entryDataOffset + n * entrySize ≤ x → x < sectorSize → m (p.baseAddress + x) = 0xff

namespace Skipping

theorem ready (h : Skipping p m)
    (hn : p.nextFreeEntry < entryCount → entryWord m p.baseAddress p.nextFreeEntry = 0xffffffff) :
    Ready p m where
  dvd := h.dvd
  ok := h.ok
  below _ := h.below
  header _ := h.header
  empty _ i h1 h2 :=
    (h.free p.nextFreeEntry (Nat.le_refl _) (by omega) (by omega) (hn (by omega))).1 i h1 h2
  blank _ x h1 h2 := by
    have hlt : p.nextFreeEntry < entryCount := by
      simp only [entryDataOffset, entrySize, sectorSize, entryCount] at *
      omega
    exact (h.free p.nextFreeEntry (Nat.le_refl _) hlt (by omega) (hn hlt)).2 x h1 h2
  erased hs := by
    have := h.opened
    simp [Page.Open, hs] at this
  closed hn := absurd h.opened hn

theorem skip (h : Skipping p m) (hw : entryWord m p.baseAddress p.nextFreeEntry ≠ 0xffffffff)
    (ha : Altered p m q m' p.nextFreeEntry (p.nextFreeEntry + 1))
    (hb : p'.baseAddress = q.baseAddress)
    (hs : p'.state = q.state) (ht : p'.entryTable = q.entryTable)
    (hnext : p'.nextFreeEntry = q.nextFreeEntry + 1) : Skipping p' m' := by
  have hbase := hb.trans ha.base
  have hstate := hs.trans ha.state
  have hn : p'.nextFreeEntry = p.nextFreeEntry + 1 := by rw [hnext, ha.next]
  have hword : ∀ i, entryWord m' p.baseAddress i = entryWord m p.baseAddress i := by
    intro i
    refine congrArg (word32 · 0) (Bytes.read_congr fun x h1 _ => ha.out x (.inr ?_))
    unfold entryDataOffset at h1
    omega
  refine ⟨hbase ▸ h.dvd, ht ▸ ha.ok, ?_, ?_, ?_, fun n h1 h2 hskip hword' => ?_⟩
  · unfold Page.Open
    rw [hstate]
    exact h.opened
  · rw [ht, hbase]
    exact ha.below
  · rw [hbase, hstate, ← h.header]
    congr 1
    exact Bytes.read_congr fun x h1 h2 => ha.out x (.inl (by omega))
  · rw [hbase, hword] at hword'
    obtain ⟨hempty, hblank⟩ := h.free n (by omega) h2 (fun i hi hi' => by
      rcases Nat.eq_or_lt_of_le hi with rfl | hlt
      · exact hw
      · rw [← hword, ← hbase]
        exact hskip i (by omega) hi') hword'
    refine ⟨fun i hi hi' => ?_, fun x hx hx' => ?_⟩
    · rw [ht, ha.get i (.inr (by omega))]
      exact hempty i hi hi'
    · rw [hbase, ha.out _ (.inr (by unfold entryDataOffset at hx; omega))]
      exact hblank x hx hx'

end Skipping

theorem skipHalfWritten_legal (h : Skipping p m) (hn : entryCount ≤ n + p.nextFreeEntry) :
    Legal (fun r m' => r.1 = .ok ∧ Kept p m r.2 m') (skipHalfWritten n p) m := by
  induction n generalizing p m with
  | zero => exact ⟨rfl, ⟨rfl, h.ready (by omega), fun _ _ => rfl⟩, rfl⟩
  | succ n ih =>
    simp only [skipHalfWritten, bind_eq, pure_eq]
    split
    · exact ⟨rfl, ⟨rfl, h.ready (by omega), fun _ _ => rfl⟩, rfl⟩
    · refine getEntryAddress_legal fun hlt => spiFlashRead_legal ?_
      simp only [ne_eq, not_true_eq_false, if_false]
      split
      · rename_i hw
        exact ⟨rfl, ⟨rfl, h.ready fun _ => hw, fun _ _ => rfl⟩, rfl⟩
      · rename_i hw
        refine getEntryState_legal fun _ => ?_
        refine alterEntryState_legal h.ok h.below (EntryState.lowers_erased _) fun q m' ha => ?_
        simp only [not_true_eq_false, if_false]
        have hstep : ∀ p', Like { q with nextFreeEntry := q.nextFreeEntry + 1 } p' →
            Legal (fun r m' => r.1 = .ok ∧ Kept p m r.2 m')
              (skipHalfWritten n p'.incErased) m' := by
          intro p' hl
          have hl := hl.trans (like_incErased p')
          have hn' : p'.incErased.nextFreeEntry = p.nextFreeEntry + 1 := by
            rw [hl.next, ← ha.next]
          refine (ih (h.skip hw ha hl.base hl.state hl.table hl.next) (by omega)).mono ?_
          rintro r m'' ⟨hok, hk⟩
          refine ⟨hok, ⟨hk.base.trans (hl.base.trans ha.base), hk.ready, fun x hx => ?_⟩,
            hk.state.trans (hl.state.trans ha.state)⟩
          have hbase : p'.incErased.baseAddress = p.baseAddress := hl.base.trans ha.base
          rw [hk.out x (by rw [hbase]; exact hx), ha.out x (by unfold sectorSize at hx; omega)]
        split
        · exact hstep _ (like_decUsed _)
        · exact hstep _ ⟨rfl, rfl, rfl, rfl, rfl⟩

theorem needErase_legal : Legal (fun _ m' => m' = m) (p.needErase j n) m := by
  induction n generalizing j with
  | zero => rfl
  | succ n ih =>
    refine getEntryState_legal fun _ => ?_
    split
    · rfl
    · exact ih

theorem scanItems_legal {item : Item} (hr : Ready p m) (ho : p.Open) :
    Legal (fun r m' => r.err = .ok ∧ Kept p m r.page m')
      (scanItems stop rounds p item lastItemIndex i) m := by
  induction rounds generalizing p m item lastItemIndex i with
  | zero => trivial
  | succ rounds ih =>
    simp only [scanItems, bind_eq, pure_eq]
    split
    · exact ⟨rfl, hr.kept⟩
    · refine getEntryState_legal fun _ => ?_
      split
      · exact ih hr ho
      · refine readEntry_legal fun item => ?_
        simp only [ne_eq, not_true_eq_false, if_false]
        have hl := like_hashList p (p.hashList.insert item i)
        have hr' := hr.like hl
        have hafter : ∀ {last j : Nat} {q : Page} {m' : Bytes}, Kept p m q m' →
            Legal (fun r m' => r.err = .ok ∧ Kept p m r.page m')
              (scanItems stop rounds q item last j) m' :=
          fun hk => (ih hk.ready (hk.opened ho)).mono fun _ _ h => ⟨h.1, hk.trans h.2⟩
        have hrest : ∀ span, Legal (fun r m' => r.err = .ok ∧ Kept p m r.page m')
            (if HashList.find (p.hashList.insert item i) 0 item < i then
              (eraseEntryAndSpan { p with hashList := p.hashList.insert item i }
                (HashList.find (p.hashList.insert item i) 0 item)).bind fun x =>
                  scanItems stop rounds x.2 item i (i + span)
            else scanItems stop rounds { p with hashList := p.hashList.insert item i } item i
              (i + span))
              m := by
          intro span
          split
          · exact (eraseEntryAndSpan_legal hr' ho).bind fun r m' h => hafter (.of_like hl h.2)
          · exact hafter (hr.kept.like hl)
        split
        · refine (eraseEntryAndSpan_legal hr' ho).bind ?_
          rintro ⟨err, q⟩ m' ⟨herr, hk⟩
          obtain rfl : err = .ok := herr
          exact hafter (.of_like hl hk)
        · split
          · refine needErase_legal.bind fun incomplete m' hm => ?_
            subst hm
            split
            · exact (eraseEntryAndSpan_legal hr' ho).bind fun r m' h => hafter (.of_like hl h.2)
            · exact hrest _
          · exact hrest _

theorem dropDuplicate_legal {item : Item} (hr : Ready p m) (ho : p.Open) :
    Legal (fun r m' => Kept p m r.2 m') (dropDuplicate keyAddr p item lastItemIndex) m := by
  simp only [dropDuplicate, bind_eq, pure_eq]
  split
  · exact hr.kept
  · refine (findItem_legal hr).bind ?_
    rintro found m' ⟨hk, -⟩
    split
    · refine (eraseEntryAndSpan_legal hk.ready (hk.opened ho)).bind ?_
      rintro ⟨err, q⟩ m'' ⟨herr, hk'⟩
      obtain rfl : err = .ok := herr
      exact hk.trans hk'
    · exact hk

theorem loadHashes_legal (hr : Ready p m) :
    Legal (fun r m' => Kept p m r.2 m') (loadHashes rounds p i) m := by
  induction rounds generalizing p i with
  | zero => trivial
  | succ rounds ih =>
    simp only [loadHashes, bind_eq, pure_eq]
    split
    · exact hr.kept
    · refine getEntryState_legal fun _ => ?_
      split
      · exact ih hr
      · refine readEntry_legal fun item => ?_
        have hl := like_hashList p (p.hashList.insert item i)
        exact (ih (hr.like hl)).mono fun _ _ h => .of_like hl h

structure Tabled (p : Page) (m : Bytes) : Prop where
  dvd : p.baseAddress % sectorSize = 0
  opened : p.Open
  table : p.entryTable = tableAt m p.baseAddress
  header : word32 (m.read p.baseAddress 4) 0 = p.state.word
  next : p.nextFreeEntry = invalidEntry

theorem Tabled.ready (h : Tabled p m) : Ready p m where
  dvd := h.dvd
  ok := h.table ▸ tableAt_ok
  below _ := h.table ▸ tableAt_below
  header _ := h.header
  empty _ i h1 h2 := by
    rw [h.next] at h1
    unfold invalidEntry at h1
    unfold entryCount at h2
    omega
  blank _ x h1 h2 := by
    rw [h.next] at h1
    simp only [invalidEntry, entrySize, sectorSize] at h1 h2
    omega
  erased hs := by
    have := h.opened
    simp [Page.Open, hs] at this
  closed hn := absurd h.opened hn

theorem loadActive_legal (h : Tabled p m) (hs : p.state = .active) (hcrc : HeaderOk m p.baseAddress)
    (hc : Checked m p.baseAddress) :
    Legal (fun r m' => Kept p m r.2 m') (loadActive keyAddr p) m := by
  have hrest : ∀ q m', Kept p m q m' → Legal (fun r m' => Kept p m r.2 m')
      ((scanItems q.endEntry loopRounds q noItem invalidEntry 0).bind fun scan =>
        if scan.err ≠ .ok then ret (scan.err, scan.page)
        else dropDuplicate keyAddr scan.page scan.item scan.lastItemIndex) m' := by
    intro q m' hk
    refine (scanItems_legal hk.ready (hk.opened h.opened)).bind ?_
    rintro scan m'' ⟨herr, hk'⟩
    have hk'' := hk.trans hk'
    rw [if_neg (by simpa using herr)]
    exact (dropDuplicate_legal hk''.ready (hk''.opened h.opened)).mono fun _ _ h => hk''.trans h
  have hskip : Legal (fun r m' => r.1 = .ok ∧ Kept p m r.2 m')
      (skipHalfWritten entryCount (p.findNextFree 0 entryCount)) m := by
    rcases findNextFree_eq p 0 entryCount with ⟨heq, -⟩ | ⟨e, -, -, hempty, hfirst, heq⟩
    · rw [heq]
      refine skipHalfWritten_legal ⟨h.dvd, h.ready.ok, h.opened, h.ready.below h.opened, h.header,
        fun n h1 h2 => ?_⟩ (by omega)
      rw [h.next] at h1
      unfold invalidEntry at h1
      unfold entryCount at h2
      omega
    · rw [heq]
      refine (skipHalfWritten_legal (p := { p with nextFreeEntry := e })
        ⟨h.dvd, h.ready.ok, h.opened,
        h.ready.below h.opened, h.header, fun n h1 h2 hskip hword => ?_⟩ (by omega)).mono
        fun r m' h' => ⟨h'.1, ⟨h'.2.base, h'.2.ready, h'.2.out⟩, h'.2.state⟩
      have htable : p.entryTable = tableAt m p.baseAddress := h.table
      rw [htable] at hempty hfirst ⊢
      refine hc.free n ⟨?_, hcrc, h2, ⟨e, h1, hempty, fun i hi => hfirst i (by omega) hi, hskip⟩,
        hword⟩
      rw [h.header, hs]
  refine hskip.bind ?_
  rintro ⟨err, q⟩ m' ⟨herr, hk⟩
  obtain rfl : err = .ok := herr
  exact hrest q m' hk

theorem mLoadEntryTable_legal (hdvd : p.baseAddress % sectorSize = 0) (ho : p.Open)
    (hheader : word32 (m.read p.baseAddress 4) 0 = p.state.word)
    (hnext : p.nextFreeEntry = invalidEntry)
    (hcrc : HeaderOk m p.baseAddress) (hc : Checked m p.baseAddress) :
    Legal (fun r m' => Moved p m r.2 m') (p.mLoadEntryTable keyAddr) m := by
  refine spiFlashRead_legal ?_
  simp only [ne_eq, not_true_eq_false, if_false]
  obtain ⟨q, hq⟩ : ∃ q, ({ p with
    entryTable := tableOfBytes (m.read (p.baseAddress + entryTableOffset) 32)
    usedEntryCount := 0
    erasedEntryCount := 0 } : Page).countEntries 0 entryCount = q := ⟨_, rfl⟩
  obtain ⟨hbase, hstate, hnext', htable⟩ := countEntries_eq ({ p with
    entryTable := tableOfBytes (m.read (p.baseAddress + entryTableOffset) 32)
    usedEntryCount := 0
    erasedEntryCount := 0 } : Page) 0 entryCount
  rw [hq] at hbase hstate hnext' htable ⊢
  have htabled : Tabled q m := by
    refine ⟨hbase ▸ hdvd, ?_, ?_, ?_, hnext'.trans hnext⟩
    · unfold Page.Open
      rw [hstate]
      exact ho
    · rw [hbase]
      exact htable
    · rw [hbase, hstate]
      exact hheader
  have hmoved : ∀ q' m', Kept q m q' m' → Moved p m q' m' :=
    fun q' m' hk => ⟨hk.base.trans hbase, hk.ready, fun x hx => hk.out x (hbase ▸ hx)⟩
  unfold loadItems
  split
  · rename_i hs
    exact (loadActive_legal htabled hs (hbase ▸ hcrc) (hbase ▸ hc)).mono fun r m' hk =>
      hmoved _ _ hk
  · exact (loadHashes_legal htabled.ready).mono fun r m' hk => hmoved _ _ hk

/-! ### `load` -/

theorem ready_closed (hdvd : p.baseAddress % sectorSize = 0) (hok : p.entryTable.Ok) (hn : ¬ p.Open)
    (herased : p.state = .uninitialized → ∀ x < sectorSize, m (p.baseAddress + x) = 0xff)
    (hnext : p.nextFreeEntry = invalidEntry) (hfirst : p.firstUsedEntry = invalidEntry) :
    Ready p m where
  dvd := hdvd
  ok := hok
  below ho := absurd ho hn
  header ho := absurd ho hn
  empty ho := absurd ho hn
  blank ho := absurd ho hn
  erased := herased
  closed _ := ⟨hnext, hfirst⟩

theorem load_legal (hc : Checked m (sec * sectorSize)) :
    Legal (fun r m' => r.1 = .ok ∧ Moved { Page.new with baseAddress := sec * sectorSize } m r.2 m')
      (Page.new.load keyAddr sec) m := by
  refine (loadState_legal rfl hc).bind ?_
  rintro ⟨rc, q⟩ m' ⟨rfl, hrc, hq⟩
  obtain rfl : rc = .ok := hrc
  have hbase : q.baseAddress = sec * sectorSize := hq.base
  have hdvd : q.baseAddress % sectorSize = 0 := by rw [hbase, Nat.mul_mod_left]
  have hok : q.entryTable.Ok := by
    rw [hq.table]
    exact EntryTable.fresh_ok
  simp only [ne_eq, not_true_eq_false, if_false]
  have hload : q.Open → Legal (fun (r : EspErr × Page) m'' => r.1 = .ok ∧
      Moved { Page.new with baseAddress := sec * sectorSize } m' r.2 m'')
      ((q.mLoadEntryTable keyAddr).bind fun x => ret (.ok, x.2)) m' := by
    intro ho
    refine (mLoadEntryTable_legal hdvd ho ?_ hq.next ?_ (hbase ▸ hc)).bind fun r m'' h => ?_
    · rw [hq.base]
      exact hq.header ho
    · rw [hq.base]
      exact hq.crc ho
    · exact ⟨rfl, h.base.trans hbase, h.ready, fun x hx => h.out x (hbase ▸ hx)⟩
  split
  · rename_i hs
    refine ⟨rfl, hbase, ready_closed hdvd hok ?_ ?_ hq.next hq.first, fun _ _ => rfl⟩
    · simp [Page.Open, hs]
    · rw [hq.base]
      exact hq.erased
  · rename_i hs
    exact hload (.inr (.inl hs))
  · rename_i hs
    exact hload (.inl hs)
  · rename_i hs
    exact hload (.inr (.inr hs))
  · refine ⟨rfl, hbase, ready_closed hdvd hok ?_ (by rintro ⟨⟩) hq.next hq.first, fun _ _ => rfl⟩
    simp [Page.Open]

end Page

end EspIdf.Nvs
