import EspIdf.Nvs.LegalLoad

/-! `Page::alterEntryRangeState` and power loss: what the table in flash says after any number of
its writes. -/

namespace EspIdf.Nvs

open EspIdf.Device

/-- `t` is `old` with the entries in `[lo, hi)` set to `st`. -/
def Changed (old t : EntryTable) (st : EntryState) (lo hi : Nat) : Prop :=
  ∀ i, t.get i = if lo ≤ i ∧ i < hi then st else old.get i

/-- A suffix of `[lo, hi)` is changed, cut where a word of the table starts. -/
def SuffixChanged (old t : EntryTable) (st : EntryState) (lo hi : Nat) : Prop :=
  ∃ c, lo ≤ c ∧ c ≤ hi ∧ (c = lo ∨ c = hi ∨ c % 16 = 0) ∧ Changed old t st c hi

theorem get_congr {t t' : EntryTable} (h : t.word (i / 16) = t'.word (i / 16)) : t.get i = t'.get i := by
  simp only [EntryTable.get, EnumTable.get, EntryTable.getWordIndex_eq, h]

section

variable {m : Bytes} {b k w i : Nat} {t : EntryTable}

theorem tableAt_store_word (hk : k < 8) (hw : w < 2 ^ 32) (j : Nat) :
    (tableAt (m.store (b + entryTableOffset + k * 4) (le32 w)) b).word j =
      if j = k then w else (tableAt m b).word j := by
  rw [tableAt_eq, tableAt_eq]
  rcases Nat.lt_or_ge j 8 with hj | hj
  · rw [tableOf_word hj, tableOf_word hj]
    have haddr : ∀ m' : Bytes, Bytes.read (fun x => m' (b + x)) (entryTableOffset + 4 * j) 4 =
        m'.read (b + entryTableOffset + j * 4) 4 := by
      intro m'
      simp only [Bytes.read, Nat.mul_comm j, Nat.add_assoc]
    rw [haddr, haddr]
    split_ifs with hjk
    · rw [hjk, word32_store hw]
    · rw [Bytes.read_store_out (by simp only [length_le32]; omega)]
  · rw [tableOf_word_out hj, tableOf_word_out hj, if_neg (by omega)]

theorem tableAt_store_get (hk : k < 8) (ht : t.Ok) (i : Nat) :
    (tableAt (m.store (b + entryTableOffset + k * 4) (le32 (t.word k))) b).get i =
      if i / 16 = k then t.get i else (tableAt m b).get i := by
  have hword := tableAt_store_word (m := m) (b := b) hk (ht.word_lt k) (i / 16)
  split_ifs with hi
  · apply get_congr
    rw [hword, if_pos hi, hi]
  · apply get_congr
    rw [hword, if_neg hi]

end

theorem writeTableWord_sat {C : Bytes → Prop} {Q : β → Bytes → Prop} {p : Page} {f : EspErr → WordProg β}
    (hC : C m) (haccept : Prog.Sat wordFlash H C Q (f .ok)
      (m.store (p.baseAddress + entryTableOffset + k * 4) (le32 (p.entryTable.word k))))
    (hrefuse : Prog.Sat wordFlash H C Q (f .flashOpFail) m) :
    Prog.Sat wordFlash H C Q ((p.writeTableWord k).bind f) m := by
  refine ⟨hC, ?_⟩
  simp only [wordFlash]
  split_ifs
  · exact haccept
  · exact hrefuse

/-- Where the changed entries start in flash while `n` entries from `start` on are left: behind the
word that the loop is in. -/
def flashFrom (start stop wordIndex n : Nat) : Nat :=
  if n = 0 then start else min stop (16 * (wordIndex + 1))

/-- The loop with `n` entries left: in RAM those from `start + n` on are changed, in flash those of
the words behind. -/
theorem alterEntryRangeLoop_sat (old : EntryTable) (st : EntryState) (start stop n wordIndex : Nat)
    (p : Page)
    (m : Bytes) (hok : p.entryTable.Ok) (hstop : stop ≤ entryCount) (hn : start + n ≤ stop)
    (hword : 0 < n → wordIndex = (start + n - 1) / 16)
    (hram : Changed old p.entryTable st (start + n) stop)
    (hflash : Changed old (tableAt m p.baseAddress) st (flashFrom start stop wordIndex n) stop) :
    Prog.Sat wordFlash False (fun m' => SuffixChanged old (tableAt m' p.baseAddress) st start stop)
      (fun r m' => r.1 = .ok → Changed old r.2.entryTable st start stop ∧
        Changed old (tableAt m' p.baseAddress) st start stop)
      (p.alterEntryRangeLoop start st wordIndex n) m := by
  unfold entryCount at hstop
  induction n generalizing p m wordIndex with
  | zero => exact ⟨⟨start, le_rfl, hn, .inl rfl, hflash⟩, fun _ => ⟨hram, hflash⟩⟩
  | succ n ih =>
    have hi : start + n < entryCount := by
      unfold entryCount
      omega
    have hset : Changed old (p.entryTable.set (start + n) st) st (start + n) stop := by
      intro j
      rw [hok.get_set hi, hram j]
      split_ifs <;> first | rfl | omega
    rw [flashFrom, if_neg (Nat.succ_ne_zero n)] at hflash
    have hsuffix : SuffixChanged old (tableAt m p.baseAddress) st start stop :=
      ⟨_, by omega, by omega, by omega, hflash⟩
    have hrest := fun m' nextWord => ih nextWord { p with
      entryTable := p.entryTable.set (start + n) st } m'
      (hok.set _ st) (by omega)
    simp only [Page.alterEntryRangeLoop, Page.setEntryState, Prog.bind_eq, Prog.pure_eq, Prog.ret_bind,
      decide_eq_true hi, Prog.assert_true]
    generalize hnext : (if n = 0 then sizeMax else EnumTable.getWordIndex 2 (start + n - 1)) = nextWord
    have hnext' : 0 < n → nextWord = (start + n - 1) / 16 := by
      intro h0
      rw [← hnext, if_neg (by omega), EntryTable.getWordIndex_eq]
    split_ifs with hother
    · -- the entry is the first of its word in the range: the word is written, or refused
      refine writeTableWord_sat hsuffix ?_ ⟨hsuffix, fun herr => by cases herr⟩
      apply hrest _ nextWord hnext' hset
      intro j
      rw [tableAt_store_get (by omega) (hok.set _ st), hset j, hflash j]
      have hfrom : flashFrom start stop nextWord n = start + n := by
        unfold flashFrom
        split_ifs with h0
        · omega
        · omega
      split_ifs <;> first | rfl | omega
    · have h0 : n ≠ 0 := by
        rintro rfl
        rw [if_pos rfl, sizeMax] at hnext
        omega
      apply hrest m nextWord hnext' hset
      rw [flashFrom, if_neg h0, Decidable.not_not.1 hother]
      exact hflash

/-- Power loss after any number of the writes leaves in flash a suffix of the range changed, cut at
a word of the table, so that entry `start` is changed last.  The call returns, and if it succeeds
then exactly the range is changed, in flash and in RAM; it succeeds if the new state only clears
bits. -/
theorem alterEntryRangeState_crash_ordered {p : Page} {m : Bytes} {start stop : Nat} (st : EntryState)
    (hstep : p.entryTable = tableAt m p.baseAddress) (hstart : start < stop)
    (hstop : stop ≤ entryCount) :
    (∀ n, SuffixChanged p.entryTable
      (tableAt (Prog.cut wordFlash n (p.alterEntryRangeState start stop st) m) p.baseAddress) st
        start stop) ∧
    ∃ r m', Prog.run wordFlash (p.alterEntryRangeState start stop st) m = some (r, m') ∧
      (r.1 = .ok → Changed p.entryTable r.2.entryTable st start stop ∧
        Changed p.entryTable (tableAt m' p.baseAddress) st start stop) ∧
      ((∀ i, start ≤ i → i < stop → (p.entryTable.get i).Lowers st) → r.1 = .ok) := by
  have hok : p.entryTable.Ok := hstep ▸ tableAt_ok
  have hsat := alterEntryRangeLoop_sat p.entryTable st start stop (stop - start)
    ((stop - 1) / 16) p m hok
    hstop (by omega)
    (fun _ => by congr 1; omega) (fun i => by rw [if_neg (by omega)])
    (fun i => by rw [flashFrom, if_neg (show ¬ stop - start = 0 by omega), if_neg (by omega), ← hstep])
  have hprog : p.alterEntryRangeState start stop st =
      p.alterEntryRangeLoop start st ((stop - 1) / 16) (stop - start) := by
    simp only [Page.alterEntryRangeState, decide_eq_true hstop, decide_eq_true hstart]
    rfl
  obtain ⟨r, m', hrun, -, hr⟩ := hsat.run_total
  rw [hprog]
  refine ⟨hsat.cut, r, m', hrun, hr, fun hlow => ?_⟩
  have hlegal := alterEntryRangeState_legal (R := fun (r : EspErr × Page) _ => r.1 = .ok)
    (f := Prog.ret) hok
    (hstep ▸ tableAt_below) hlow fun p' m' _ _ => rfl
  rw [Prog.bind_ret, hprog] at hlegal
  exact hlegal.run hrun

theorem alterEntryRangeState_crash_ordered_blank :
    SuffixChanged .fresh (tableAt (Prog.cut wordFlash 1 (Page.new.alterEntryRangeState 10 40 .written)
      Bytes.blank) 0) .written 10 40 :=
  (alterEntryRangeState_crash_ordered (p := .new) (m := Bytes.blank) .written (by decide) (by decide)
    (by decide)).1 1

end EspIdf.Nvs
