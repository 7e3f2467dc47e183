import EspIdf.Nvs.Legal

/-! Every method of a page keeps it ready, and writes nothing that sets a bit. -/

namespace EspIdf.Nvs

open EspIdf.Device
open Prog (bind_assoc bind_eq pure_eq ret ret_bind)

section Reads

variable {β : Type} {R : β → Bytes → Prop} {m : Bytes} {p : Page} {i : Nat}

theorem getEntryState_legal (h : i < entryCount → Legal R (f (p.entryTable.get i)) m) :
    Legal R ((p.getEntryState i).bind f) m := by
  simp only [Page.getEntryState, bind_eq, bind_assoc, pure_eq, ret_bind]
  exact Prog.Keeps.assert fun hi => h (of_decide_eq_true hi)

theorem getEntryAddress_legal (h : i < entryCount →
    Legal R (f (p.baseAddress + entryDataOffset + i * entrySize)) m) :
    Legal R ((p.getEntryAddress i).bind f) m := by
  simp only [Page.getEntryAddress, bind_eq, bind_assoc, pure_eq, ret_bind]
  exact Prog.Keeps.assert fun hi => h (of_decide_eq_true hi)

theorem readEntry_legal (h : ∀ item, Legal R (f (.ok, item)) m) :
    Legal R ((p.readEntry i).bind f) m := by
  simp only [Page.readEntry, bind_eq, bind_assoc, pure_eq, ret_bind]
  exact getEntryAddress_legal fun _ => spiFlashRead_legal (h _)

end Reads

namespace Page

variable {p : Page} {m : Bytes}

/-! ### Erasing -/

theorem countErased_legal (index n : Nat) :
    Legal (fun q m' => m' = m ∧ Like p q) (p.countErased index n) m := by
  induction n generalizing p with
  | zero => exact ⟨rfl, rfl, rfl, rfl, rfl, rfl⟩
  | succ n ih =>
    refine getEntryState_legal fun _ => ?_
    refine ih.mono fun q m' h => ⟨h.1, ?_⟩
    refine Like.trans ?_ h.2
    split
    · exact (like_decUsed p).trans (like_incErased _)
    · exact like_incErased p

theorem eraseEntries_legal {state : EntryState} (hok : p.entryTable.Ok)
    (hb : Below p.entryTable p.baseAddress m) :
    Legal (fun r m' => r.1 = .ok ∧ Altered p m r.2.2 m' index (index + r.2.1))
      (p.eraseEntries index state) m := by
  simp only [eraseEntries, bind_eq, pure_eq]
  split
  · refine readEntry_legal fun item => ?_
    simp only [ne_eq, not_true_eq_false, if_false]
    split
    · refine alterEntryState_legal hok hb (EntryState.lowers_erased _) fun p' m' ha => ?_
      exact ⟨rfl, ha.like ((like_decUsed p').trans (like_incErased _))⟩
    · refine (countErased_legal index item.span.toNat).bind fun q m' hq => ?_
      obtain ⟨rfl, hq⟩ := hq
      have hok' : q.entryTable.Ok := hq.table ▸ hok
      have hb' : Below q.entryTable q.baseAddress m' := by
        rw [hq.table, hq.base]
        exact hb
      split
      · rename_i hspan
        refine alterEntryState_legal hok' hb' (EntryState.lowers_erased _) fun p' m' ha => ?_
        refine ⟨rfl, ?_⟩
        simp only [hspan]
        exact ha.of_like hq
      · refine alterEntryRangeState_legal hok' hb' (fun _ _ _ => EntryState.lowers_erased _)
          fun p' m' _ ha => ?_
        exact ⟨rfl, ha.of_like hq⟩
  · refine alterEntryState_legal hok hb (EntryState.lowers_erased _) fun p' m' ha => ?_
    exact ⟨rfl, ha⟩

theorem eraseEntryAndSpan_legal (hr : Ready p m) (ho : p.Open) :
    Legal (fun r m' => r.1 = .ok ∧ Kept p m r.2 m') (p.eraseEntryAndSpan index) m := by
  refine getEntryState_legal fun hi => Prog.Keeps.assert fun _ => ?_
  split
  · trivial
  · rename_i hashList _
    have hend : ∀ (q p' : Page) (m' : Bytes) (span : Nat),
        Altered p m q m' index (index + span) → p'.baseAddress = q.baseAddress →
          p'.state = q.state →
        p'.entryTable = q.entryTable → p'.nextFreeEntry = q.nextFreeEntry →
        Kept p m (if index + span > p'.nextFreeEntry then
          { p' with nextFreeEntry := index + span } else p')
          m' := by
      intro q p' m' span ha hb hs ht hn
      have hn' := hn.trans ha.next
      split
      · exact hr.alter ho ha hb hs ht (by show _ ≤ index + span; omega) (Nat.le_refl _)
          (fun _ _ => rfl) (fun _ _ => rfl) fun _ _ _ => rfl
      · exact hr.alter ho ha hb hs ht (by omega) (by omega) (fun _ _ => rfl) (fun _ _ => rfl)
          fun _ _ _ => rfl
    refine (eraseEntries_legal (p := { p with hashList := hashList }) hr.ok (hr.below ho)).bind ?_
    rintro ⟨rc, span, q⟩ m' ⟨hrc, ha⟩
    obtain rfl : rc = .ok := hrc
    have ha : Altered p m q m' index (index + span) := .of_like (like_hashList p hashList) ha
    simp only [ne_eq, not_true_eq_false, if_false]
    split
    · simp only [updateFirstUsedEntry, bind_eq, bind_assoc, pure_eq, ret_bind]
      refine Prog.Keeps.assert fun _ => ?_
      exact ⟨rfl, hend q { q with
        firstUsedEntry := firstWritten q.entryTable (index + span) (q.endEntry - (index + span)) }
        m' span ha rfl rfl rfl rfl⟩
    · exact ⟨rfl, hend q q m' span ha rfl rfl rfl rfl⟩

/-! ### Finding -/

theorem findLoop_legal {item : Item} (hr : Ready p m) (ho : p.Open) :
    Legal (fun r m' => Kept p m r.page m')
      (findLoop ns dt key itemIndex stop rounds p item i) m := by
  induction rounds generalizing p m item i with
  | zero => trivial
  | succ rounds ih =>
    simp only [findLoop, bind_eq, pure_eq]
    split
    · exact hr.kept
    · refine getEntryState_legal fun _ => ?_
      split
      · exact ih hr ho
      · refine readEntry_legal fun item => ?_
        simp only [ne_eq, not_true_eq_false, if_false]
        split
        · refine (eraseEntryAndSpan_legal hr ho).bind ?_
          rintro r m' ⟨-, hk⟩
          exact (ih hk.ready (hk.opened ho)).mono fun _ _ h => hk.trans h
        · split
          · exact ih hr ho
          · split
            · exact ih hr ho
            · split
              · exact hr.kept
              · exact hr.kept.like ⟨rfl, rfl, rfl, rfl, rfl⟩

theorem open_of_not (h : ¬ (p.state = .corrupt ∨ p.state = .invalid ∨ p.state = .uninitialized)) :
    p.Open := by
  unfold Page.Open
  cases hs : p.state <;> simp [hs] at h ⊢

theorem findItem_legal {item : Item} (hr : Ready p m) :
    Legal (fun r m' => Kept p m r.page m' ∧ (r.err = .ok → p.Open))
      (p.findItem ns dt key itemIndex item) m := by
  simp only [findItem, pure_eq]
  split
  · exact ⟨hr.kept, by rintro ⟨⟩⟩
  · rename_i hstate
    have ho := open_of_not hstate
    have hloop : ∀ stop i, Legal (fun r m' => Kept p m r.page m' ∧ (r.err = .ok → p.Open))
        (findLoop ns dt key itemIndex stop loopRounds p item i) m :=
      fun stop i => (findLoop_legal hr ho).mono fun _ _ h => ⟨h, fun _ => ho⟩
    split
    · exact ⟨hr.kept, by rintro ⟨⟩⟩
    · split
      · split
        · split
          · exact hloop _ _
          · exact ⟨hr.kept, by rintro ⟨⟩⟩
        · exact hloop _ _
      · exact hloop _ _

theorem eraseItem_legal (hr : Ready p m) :
    Legal (fun r m' => Kept p m r.2 m') (p.eraseItem ns dt key) m := by
  refine (findItem_legal hr).bind ?_
  rintro found m' ⟨hk, hopen⟩
  split
  · exact hk
  · rename_i hok
    have ho := hk.opened (hopen (by simpa using hok))
    split
    · have hl := like_invalidateCache found.page
      exact (eraseEntryAndSpan_legal (hk.ready.like hl) ho).mono fun _ _ h =>
        hk.trans (.of_like hl h.2)
    · exact (eraseEntryAndSpan_legal hk.ready ho).mono fun _ _ h => hk.trans h.2

/-! ### Reading -/

theorem copyData_legal {i left n : Nat} :
    Legal (fun _ m' => m' = m) (p.copyData i left dst n) m := by
  induction n generalizing i left dst with
  | zero => rfl
  | succ n ih =>
    refine getEntryAddress_legal fun _ => spiFlashRead_legal ?_
    exact ih

theorem readItem_legal (hr : Ready p m) :
    Legal (fun r m' => Kept p m r.2.1 m') (p.readItem ns dt key buf) m := by
  simp only [readItem, bind_eq, pure_eq]
  split
  · exact hr.kept
  · refine (findItem_legal hr).bind ?_
    rintro found m' ⟨hk, hopen⟩
    split
    · exact hk
    · rename_i hok
      have ho := hk.opened (hopen (by simpa using hok))
      split
      · split
        · exact hk
        · exact hk
      · split
        · exact hk
        · refine copyData_legal.bind fun r m'' hm => ?_
          subst hm
          split
          · exact hk
          · split
            · refine (eraseEntryAndSpan_legal hk.ready ho).bind ?_
              rintro r m'' ⟨-, h⟩
              split
              · exact hk.trans h
              · exact hk.trans h
            · exact hk

/-! ### Writing -/

section

variable (hr : Ready p m)
include hr

theorem open_of_next (h : p.nextFreeEntry < entryCount) : p.Open := by
  by_contra hn
  have := (hr.closed hn).1
  unfold invalidEntry at this
  unfold entryCount at h
  omega

theorem entries_clear (ho : p.Open)
    (hlen : entryDataOffset + p.nextFreeEntry * entrySize + bs.length ≤ sectorSize) :
    m.clears (p.baseAddress + entryDataOffset + p.nextFreeEntry * entrySize) bs = true := by
  refine clears_blank fun x h1 h2 => ?_
  have := hr.blank ho (x - p.baseAddress) (by omega) (by omega)
  rwa [show p.baseAddress + (x - p.baseAddress) = x by omega] at this

theorem written_kept (ho : p.Open)
    (ha : Altered p (m.store (p.baseAddress + entryDataOffset + p.nextFreeEntry * entrySize) bs) q
    m' p.nextFreeEntry (p.nextFreeEntry + n))
    (hbs : bs.length = n * entrySize) (hn : p.nextFreeEntry + n ≤ entryCount)
    (hb : p'.baseAddress = q.baseAddress) (hs : p'.state = q.state)
    (ht : p'.entryTable = q.entryTable)
    (hnext : p'.nextFreeEntry = p.nextFreeEntry + n) : Kept p m p' m' := by
  simp only [entryCount] at hn
  refine hr.alter ho ha hb hs ht (by omega) (by omega) ?_ ?_ ?_
  · intro x hx
    exact Bytes.store_out (.inl (by simp only [entryDataOffset]; omega))
  · intro x hx
    exact Bytes.store_out (.inr (by simp only [entryDataOffset, entrySize, sectorSize] at *; omega))
  · intro x hx _
    exact Bytes.store_out (.inr (by simp only [entryDataOffset, entrySize] at *; omega))

theorem writeEntry_legal (hraw : raw.length = entrySize) :
    Legal (fun r m' => r.1 = .ok ∧ Kept p m r.2 m' ∧ r.2.nextFreeEntry = p.nextFreeEntry + 1)
      (p.writeEntry raw) m := by
  refine getEntryAddress_legal fun hi => ?_
  have ho := open_of_next hr hi
  have hi' := hi
  simp only [entryCount] at hi'
  refine spiFlashWrite_legal (by rw [hraw]; rfl)
    (entries_clear hr ho (by rw [hraw]; simp only [entryDataOffset, entrySize, sectorSize]; omega))
      ?_
  simp only [ne_eq, not_true_eq_false, if_false]
  refine alterEntryState_legal hr.ok ((hr.below ho).congr fun x _ h2 => ?_) ?_ fun q m' ha => ?_
  · exact Bytes.store_out (.inl (by simp only [entryDataOffset]; omega))
  · rw [hr.empty ho _ (Nat.le_refl _) hi]
    decide
  · simp only [not_true_eq_false, if_false]
    split
    · refine ⟨rfl, written_kept hr ho ha (by omega) hi rfl rfl rfl ?_, ?_⟩
      · exact congrArg (· + 1) ha.next
      · exact congrArg (· + 1) ha.next
    · refine ⟨rfl, written_kept hr ho ha (by omega) hi rfl rfl rfl ?_, ?_⟩
      · exact congrArg (· + 1) ha.next
      · exact congrArg (· + 1) ha.next

variable {data : List UInt8}

theorem writeEntryData_legal (hfit : p.nextFreeEntry + data.length / entrySize ≤ entryCount) :
    Legal (fun r m' => r.1 = .ok ∧ Kept p m r.2 m' ∧
      r.2.nextFreeEntry = p.nextFreeEntry + data.length / entrySize) (p.writeEntryData data) m := by
  refine Prog.Keeps.assert fun hmul => Prog.Keeps.assert fun _ => Prog.Keeps.assert fun _ => ?_
  have hmul := of_decide_eq_true hmul
  refine getEntryAddress_legal fun hi => ?_
  have ho := open_of_next hr hi
  simp only [entrySize, entryCount] at hmul hfit
  refine spiFlashWrite_legal (by omega)
    (entries_clear hr ho (by simp only [entryDataOffset, entrySize, sectorSize]; omega)) ?_
  refine alterEntryRangeState_legal hr.ok ((hr.below ho).congr fun x _ h2 => ?_) ?_ fun q m' _ ha =>
    ?_
  · exact Bytes.store_out (.inl (by simp only [entryDataOffset]; omega))
  · intro i h1 h2
    simp only [entrySize] at h2
    rw [hr.empty ho i h1 (by simp only [entryCount]; omega)]
    decide
  · refine ⟨rfl, written_kept hr ho ha (by simp only [entrySize]; omega)
      (by omega) rfl rfl rfl ?_, ?_⟩
    · exact congrArg (· + _) ha.next
    · exact congrArg (· + _) ha.next

theorem initializePage_legal :
    Legal (fun r m' => r.1 = .ok ∧ Moved p m r.2 m' ∧ r.2.Open) p.initializePage m := by
  simp only [initializePage, bind_eq, pure_eq]
  refine Prog.Keeps.assert fun hs => ?_
  have herased := hr.erased (of_decide_eq_true hs)
  have hlen : (headerBytes .active p.seqNumber).length = 32 := by
    simp [headerBytes, headerBody, le32]
  have hblank : ∀ x, p.baseAddress ≤ x → x < p.baseAddress + sectorSize → m x = 0xff := by
    intro x h1 h2
    have := herased (x - p.baseAddress) (by omega)
    rwa [show p.baseAddress + (x - p.baseAddress) = x by omega] at this
  have hout : ∀ x, x < p.baseAddress ∨ p.baseAddress + 32 ≤ x →
      m.store p.baseAddress (headerBytes .active p.seqNumber) x = m x :=
    fun x hx => Bytes.store_out hx
  have hbelow : Below EntryTable.fresh p.baseAddress
      (m.store p.baseAddress (headerBytes .active p.seqNumber)) := by
    refine EntryTable.fresh_below fun x h1 h2 => ?_
    rw [hout x (.inr h1)]
    exact hblank x (by omega) (by unfold sectorSize; omega)
  have hrest : ∀ x, 64 ≤ x → x < sectorSize →
      m.store p.baseAddress (headerBytes .active p.seqNumber) (p.baseAddress + x) = 0xff := by
    intro x h1 h2
    rw [hout _ (.inr (by omega))]
    exact herased x h2
  refine spiFlashWrite_legal (by rw [hlen]) (clears_blank fun x h1 h2 => hblank x h1 ?_) ?_
  · unfold sectorSize
    omega
  · refine ⟨rfl, ⟨rfl, ⟨hr.dvd, ?_, fun _ => ?_, fun _ => ?_, fun _ i _ hi => ?_,
      fun _ x h1 h2 => ?_,
      by rintro ⟨⟩, fun hn => absurd (.inl rfl) hn⟩, fun x hx => hout x ?_⟩, .inl rfl⟩
    · exact EntryTable.fresh_ok
    · exact hbelow
    · exact headerBytes_state .active _ _ _
    · exact EntryTable.fresh_get i hi
    · exact hrest x (le_trans (Nat.le_add_right _ _) h1) h2
    · unfold sectorSize at hx
      omega

theorem writeVarLength_legal {item : Item} (hitem : item.bytes.length = entrySize)
    (hfit : p.nextFreeEntry + (1 + (data.length + entrySize - 1) / entrySize) ≤ entryCount) :
    Legal (fun r m' => Kept p m r.2 m') (p.writeVarLength item data) m := by
  have htail : ∀ q m', Kept p m q m' → Legal (fun r m' => Kept p m r.2 m')
      (if data.length - data.length / entrySize * entrySize > 0 then
        q.writeEntry (tailEntry item (data.drop (data.length / entrySize * entrySize)))
      else ret (.ok, q)) m' := by
    intro q m' hk
    split
    · refine (writeEntry_legal hk.ready ?_).mono fun r m'' h => hk.trans h.2.1
      simp only [tailEntry, List.length_append, List.length_drop, List.length_replicate, hitem,
        entrySize]
      omega
    · exact hk
  refine (writeEntry_legal hr hitem).bind ?_
  rintro ⟨err, q⟩ m' ⟨herr, hk, hn⟩
  obtain rfl : err = .ok := herr
  have hn : q.nextFreeEntry = p.nextFreeEntry + 1 := hn
  simp only [ne_eq, not_true_eq_false, if_false]
  split
  · refine (writeEntryData_legal hk.ready ?_).bind ?_
    · simp only [hn, List.length_take, entrySize, entryCount] at hfit ⊢
      omega
    · rintro ⟨err, q'⟩ m'' ⟨herr, hk', -⟩
      obtain rfl : err = .ok := herr
      exact htail q' m'' (hk.trans hk')
  · exact htail q m' hk

theorem writeItemBody_legal (hdata : dt.varLength = false → data.length ≤ 8) :
    Legal (fun r m' => Kept p m r.2 m') (p.writeItemBody ns dt key data) m := by
  simp only [writeItemBody, pure_eq]
  split
  · exact hr.kept
  · split
    · exact hr.kept
    · split
      · exact hr.kept
      · rename_i hfit
        split
        · rename_i hv
          have hl := like_hashList p (p.hashList.insert
            (varLengthItem ns dt key.text data) p.nextFreeEntry)
          refine (writeVarLength_legal (hr.like hl) varLengthItem_sized.length_bytes ?_).mono
            fun _ _ h => .of_like hl h
          simp only [entriesCount, hv, if_true] at hfit
          show p.nextFreeEntry + _ ≤ _
          omega
        · rename_i hv
          have hl := like_hashList p (p.hashList.insert
            (primitiveItem ns dt key.text data) p.nextFreeEntry)
          exact (writeEntry_legal (hr.like hl)
            (primitiveItem_sized (hdata (by simpa using hv))).length_bytes).mono
            fun _ _ h => .of_like hl h.2.1

theorem writeItem_legal (hdata : dt.varLength = false → data.length ≤ 8) :
    Legal (fun r m' => Moved p m r.2 m') (p.writeItem ns dt key data) m := by
  simp only [writeItem, bind_eq, pure_eq]
  split
  · exact hr.kept.toMoved
  · split
    · refine (initializePage_legal hr).bind ?_
      rintro ⟨err, q⟩ m' ⟨herr, hk, -⟩
      obtain rfl : err = .ok := herr
      exact (writeItemBody_legal hk.ready hdata).mono fun _ _ h => hk.trans h.toMoved
    · exact (writeItemBody_legal hr hdata).mono fun _ _ h => h.toMoved

end

/-! ### The state of the page -/

section

variable (hr : Ready p m)
include hr

theorem alterPageState_legal (ho : p.Open) (hst : st = .full ∨ st = .freeing)
    (hlow : p.state.word &&& st.word = st.word) :
    Legal (fun r m' => r.1 = .ok ∧ Moved p m r.2 m' ∧ r.2.state = st) (p.alterPageState st) m := by
  have hword : st.word < 2 ^ 32 := by
    rcases hst with rfl | rfl <;> decide
  have hout : ∀ x, x < p.baseAddress ∨ p.baseAddress + 4 ≤ x →
      m.store p.baseAddress (le32 st.word) x = m x :=
    fun x hx => Bytes.store_out hx
  refine spiFlashWrite_legal (by simp) (clears_le32 (by rw [hr.header ho, hlow])) ?_
  have hopen : ({ p with state := st } : Page).Open := .inr hst
  refine ⟨rfl, ⟨rfl, ⟨hr.dvd, hr.ok, fun _ => ?_, fun _ => ?_, fun _ => hr.empty ho,
    fun _ x h1 h2 => ?_,
    fun hs => ?_, fun hn => absurd hopen hn⟩, fun x hx => hout x ?_⟩, rfl⟩
  · exact (hr.below ho).congr fun x h1 h2 => hout x (.inr (by omega))
  · exact word32_store hword
  · have h64 : 64 ≤ x := le_trans (Nat.le_add_right _ _) h1
    exact (hout _ (.inr (by show _ ≤ p.baseAddress + x; omega))).trans (hr.blank ho x h1 h2)
  · have hs : st = .uninitialized := hs
    rw [hs] at hst
    simp at hst
  · unfold sectorSize at hx
    omega

theorem markFreeing_legal :
    Legal (fun r m' => Moved p m r.2 m') p.markFreeing m := by
  simp only [markFreeing, pure_eq]
  split
  · exact hr.kept.toMoved
  · rename_i hs
    have hs : p.state = .full ∨ p.state = .active := by
      by_contra hn
      exact hs ⟨fun h => hn (.inl h), fun h => hn (.inr h)⟩
    refine (alterPageState_legal hr ?_ (.inr rfl) ?_).mono fun _ _ h => h.2.1
    · rcases hs with h | h
      · exact .inr (.inl h)
      · exact .inl h
    · rcases hs with h | h <;> rw [h] <;> decide

theorem markFull_legal : Legal (fun r m' => Moved p m r.2 m') p.markFull m := by
  simp only [markFull, pure_eq]
  split
  · exact hr.kept.toMoved
  · rename_i hs
    have hs : p.state = .active := by simpa using hs
    refine (alterPageState_legal hr (.inl hs) (.inl rfl) ?_).mono fun _ _ h => h.2.1
    rw [hs]
    decide

theorem erase_legal : Legal (fun r m' => Moved p m r.2 m') p.erase m := by
  have hsec : p.baseAddress / sectorSize * sectorSize = p.baseAddress :=
    Nat.div_mul_cancel (Nat.dvd_of_mod_eq_zero hr.dvd)
  have hclosed : ∀ {q : Page}, q.state = .uninitialized → ¬ q.Open := by
    intro q hq ho
    unfold Page.Open at ho
    rw [hq] at ho
    simp at ho
  refine spiFlashEraseSector_legal ?_
  rw [hsec]
  refine ⟨rfl, ⟨hr.dvd, hr.ok, fun ho => ?_, fun ho => ?_, fun ho => ?_, fun ho => ?_,
    fun _ x hx => ?_,
    fun _ => ⟨rfl, rfl⟩⟩, fun x hx => Bytes.erase_out hx⟩
  · exact absurd ho (hclosed rfl)
  · exact absurd ho (hclosed rfl)
  · exact absurd ho (hclosed rfl)
  · exact absurd ho (hclosed rfl)
  · exact Bytes.erase_in (Nat.le_add_right _ _) (Nat.add_lt_add_left hx _)

theorem setSeqNumber_kept (n : Nat) : Kept p m (p.setSeqNumber n).2 m := by
  unfold setSeqNumber
  split
  · exact hr.kept
  · exact hr.kept.like ⟨rfl, rfl, rfl, rfl, rfl⟩

end

/-! ### Moving -/

/-- From `p`, `other` and `m` to `p'`, `other'` and `m'` only the sectors of the two pages changed,
and both pages are ready. -/
structure MovedBoth (p other : Page) (m : Bytes) (p' other' : Page) (m' : Bytes) : Prop where
  base : p'.baseAddress = p.baseAddress
  base' : other'.baseAddress = other.baseAddress
  ready : Ready p' m'
  ready' : Ready other' m'
  out : ∀ x, x < p.baseAddress ∨ p.baseAddress + sectorSize ≤ x →
    x < other.baseAddress ∨ other.baseAddress + sectorSize ≤ x → m' x = m x

theorem moveEntries_legal (ho : Ready other m) :
    Legal (fun r m' => Kept other m r.2 m') (p.moveEntries i other n) m := by
  induction n generalizing other m i with
  | zero => exact ho.kept
  | succ n ih =>
    simp only [moveEntries, bind_eq, pure_eq]
    refine getEntryAddress_legal fun _ => spiFlashRead_legal ?_
    refine (writeEntry_legal ho Bytes.length_read).bind ?_
    rintro r m' ⟨-, hk, -⟩
    split
    · exact hk
    · exact (ih hk.ready).mono fun _ _ h => hk.trans h

def moveFirst (p other : Page) : WordProg (EspErr × Page × Page) := do
  let address ← p.getEntryAddress p.firstUsedEntry
  let (err, raw) ← spiFlashRead address entrySize
  if err ≠ .ok then return (err, p, other)
  let entry := Item.ofBytes raw
  let other := { other with hashList := other.hashList.insert entry other.nextFreeEntry }
  let (err, other) ← other.writeEntry raw
  if err ≠ .ok then return (err, p, other)
  Prog.assert (p.firstUsedEntry ≠ invalidEntry ∨ entry.span.toNat = 1)
  let (err, other) ← p.moveEntries (p.firstUsedEntry + 1) other (entry.span.toNat - 1)
  if err ≠ .ok then return (err, p, other)
  let (err, p) ← p.eraseEntryAndSpan p.firstUsedEntry
  return (err, p, other)

section Move

variable {other : Page} (hapart : p.baseAddress + sectorSize ≤ other.baseAddress ∨
  other.baseAddress + sectorSize ≤ p.baseAddress)
include hapart

theorem moveFirst_legal (hr : Ready p m) (hopen : p.Open) (ho : Ready other m) :
    Legal (fun r m' => MovedBoth p other m r.2.1 r.2.2 m') (p.moveFirst other) m := by
  simp only [moveFirst, bind_eq, pure_eq]
  refine getEntryAddress_legal fun _ => spiFlashRead_legal ?_
  have hl := like_hashList other (other.hashList.insert (Item.ofBytes
    (m.read (p.baseAddress + entryDataOffset + p.firstUsedEntry * entrySize) entrySize))
      other.nextFreeEntry)
  refine (writeEntry_legal (ho.like hl) Bytes.length_read).bind ?_
  rintro ⟨err, other1⟩ m1 ⟨herr, hk1, -⟩
  obtain rfl : err = .ok := herr
  have hk1 : Kept other m other1 m1 := .of_like hl hk1
  refine Prog.Keeps.assert fun _ => (moveEntries_legal hk1.ready).bind ?_
  rintro ⟨err, other2⟩ m2 hk2
  have hk2 : Kept other m other2 m2 := hk1.trans hk2
  have hr2 : Ready p m2 := hr.frame fun x h1 h2 => hk2.out x (by omega)
  split
  · exact ⟨rfl, hk2.base, hr2, hk2.ready, fun x _ hx => hk2.out x hx⟩
  · refine (eraseEntryAndSpan_legal hr2 hopen).bind ?_
    rintro r m3 ⟨-, hk3⟩
    refine ⟨hk3.base, hk2.base, hk3.ready, hk2.ready.frame fun x h1 h2 => hk3.out x ?_,
      fun x h1 h2 => (hk3.out x h1).trans (hk2.out x h2)⟩
    rw [hk2.base] at h1 h2
    omega

theorem moveItem_legal (hr : Ready p m) (ho : Ready other m) :
    Legal (fun r m' => MovedBoth p other m r.2.1 r.2.2 m') (p.moveItem other) m := by
  obtain ⟨q, hq⟩ : ∃ q, (if p.findInfo.itemIndex = p.firstUsedEntry then p.invalidateCache else p) =
      q :=
    ⟨_, rfl⟩
  have hl : Like p q := by
    rw [← hq]
    split
    · exact like_invalidateCache p
    · exact ⟨rfl, rfl, rfl, rfl, rfl⟩
  have hfirst : ∀ other' m', Moved other m other' m' → p.Open →
      Legal (fun r m' => MovedBoth p other m r.2.1 r.2.2 m') (q.moveFirst other') m' := by
    intro other' m' hm hopen
    have hr' : Ready q m' := (hr.like hl).frame fun x h1 h2 =>
      hm.out x (by rw [hl.base] at h1 h2; omega)
    refine (moveFirst_legal (by rw [hl.base, hm.base]; exact hapart) hr' ?_ hm.ready).mono
      fun r m'' h => ⟨h.base.trans hl.base, h.base'.trans hm.base, h.ready, h.ready',
        fun x h1 h2 => ?_⟩
    · unfold Page.Open
      rw [hl.state]
      exact hopen
    · rw [h.out x (by rw [hl.base]; exact h1) (by rw [hm.base]; exact h2)]
      exact hm.out x h2
  simp only [moveItem, bind_eq, pure_eq, hq]
  split
  · exact ⟨rfl, rfl, hr, ho, fun _ _ _ => rfl⟩
  · rename_i hne
    have hopen : p.Open := by
      by_contra hn
      exact hne (hr.closed hn).2
    split
    · refine (initializePage_legal ho).bind ?_
      rintro ⟨err, other'⟩ m' ⟨herr, hm, -⟩
      obtain rfl : err = .ok := herr
      exact hfirst other' m' hm hopen
    · exact hfirst other m ho.kept.toMoved hopen

end Move

end Page

end EspIdf.Nvs
