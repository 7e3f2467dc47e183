import EspIdf.Nvs.Page

/-! The table of entry states, in the page object and in the flash sector: what one change of a
state does to it, and what a range of changes leaves when power is lost on the way. -/

namespace EspIdf.Nvs

open EspIdf.Device

/-! ### Packed values -/

namespace EnumTable

variable {nbits i j k v w off : Nat} {t : EnumTable nbits}

theorem testBit_setField (hv : v < 2 ^ nbits) (hoff : off + nbits ≤ 32) (k : Nat) :
    ((w &&& (0xffffffff ^^^ (2 ^ nbits - 1) <<< off)) ||| v <<< off).testBit k =
      if off ≤ k ∧ k < off + nbits then v.testBit (k - off)
      else (w.testBit k && decide (k < 32)) := by
  have hff : (0xffffffff : Nat) = 2 ^ 32 - 1 := rfl
  rw [hff, Nat.testBit_or, Nat.testBit_and, Nat.testBit_xor, Nat.testBit_two_pow_sub_one]
  by_cases h1 : off ≤ k
  · by_cases h2 : k < off + nbits
    · simp [h1, h2, show k < 32 by omega, show k - off < nbits by omega]
    · have : v.testBit (k - off) = false :=
        Nat.testBit_lt_two_pow (hv.trans_le (Nat.pow_le_pow_right (by omega) (by omega)))
      simp [h1, h2, show ¬ k - off < nbits by omega, this]
  · simp [h1]

theorem testBit_getField : ((w >>> off) &&& (2 ^ nbits - 1)).testBit j =
    (w.testBit (off + j) && decide (j < nbits)) := by
  rw [Nat.testBit_and, Nat.testBit_shiftRight, Nat.testBit_two_pow_sub_one]

theorem offset_add_le (hdvd : nbits ∣ 32) : offset nbits i + nbits ≤ 32 := by
  have hn : 0 < nbits := Nat.pos_of_dvd_of_pos hdvd (by decide)
  have h : i % itemsPerWord nbits + 1 ≤ itemsPerWord nbits :=
    Nat.mod_lt _ (Nat.div_pos (Nat.le_of_dvd (by decide) hdvd) hn)
  calc offset nbits i + nbits = (i % itemsPerWord nbits + 1) * nbits := by rw [Nat.add_one_mul]; rfl
    _ ≤ itemsPerWord nbits * nbits := Nat.mul_le_mul_right _ h
    _ = 32 := Nat.div_mul_cancel hdvd

theorem offset_apart (hij : i ≠ j) (hw : getWordIndex nbits i = getWordIndex nbits j) :
    offset nbits i + nbits ≤ offset nbits j ∨ offset nbits j + nbits ≤ offset nbits i := by
  have hmod : i % itemsPerWord nbits ≠ j % itemsPerWord nbits := by
    intro h
    apply hij
    rw [← Nat.div_add_mod i (itemsPerWord nbits), ← Nat.div_add_mod j (itemsPerWord nbits), h]
    unfold getWordIndex at hw
    rw [hw]
  unfold offset
  rw [← Nat.add_one_mul, ← Nat.add_one_mul]
  rcases Nat.lt_or_gt_of_ne hmod with h | h
  · exact .inl (Nat.mul_le_mul_right _ h)
  · exact .inr (Nat.mul_le_mul_right _ h)

theorem word_set_self (hi : getWordIndex nbits i < t.data.length) :
    (t.set i v).word (getWordIndex nbits i) = (t.word (getWordIndex nbits i) &&&
      (0xffffffff ^^^ (2 ^ nbits - 1) <<< offset nbits i)) ||| v <<< offset nbits i := by
  simp [set, word, hi]

theorem word_set_ne (hk : k ≠ getWordIndex nbits i) : (t.set i v).word k = t.word k := by
  simp [set, word, List.getElem?_set_ne (Ne.symm hk)]

@[simp] theorem length_set : (t.set i v).data.length = t.data.length := by simp [set]

section

variable (hdvd : nbits ∣ 32) (hv : v < 2 ^ nbits)
include hdvd hv

theorem get_set_self (hi : getWordIndex nbits i < t.data.length) : (t.set i v).get i = v := by
  apply Nat.eq_of_testBit_eq
  intro k
  rw [get, testBit_getField, word_set_self hi, testBit_setField hv (offset_add_le hdvd)]
  by_cases hk : k < nbits
  · simp [hk]
  · have : v.testBit k = false :=
      Nat.testBit_lt_two_pow (hv.trans_le (Nat.pow_le_pow_right (by omega) (by omega)))
    simp [hk, this]

theorem get_set_ne (hij : i ≠ j)
    (hi : getWordIndex nbits i < t.data.length) : (t.set i v).get j = t.get j := by
  by_cases hw : getWordIndex nbits j = getWordIndex nbits i
  · apply Nat.eq_of_testBit_eq
    intro k
    rw [get, get, testBit_getField, hw, word_set_self hi,
      testBit_setField hv (offset_add_le hdvd)]
    by_cases hk : k < nbits
    · have hj : offset nbits j + nbits ≤ 32 := offset_add_le hdvd
      have hap := offset_apart hij hw.symm
      rw [if_neg (by omega)]
      simp [hk, show offset nbits j + k < 32 by omega]
    · simp [hk]
  · rw [get, get, word_set_ne hw]

theorem set_clears (hi : getWordIndex nbits i < t.data.length) (hle : t.get i &&& v = v) (k : Nat) :
    t.word k &&& (t.set i v).word k = (t.set i v).word k := by
  by_cases hk : k = getWordIndex nbits i
  · subst hk
    apply Nat.eq_of_testBit_eq
    intro b
    rw [Nat.testBit_and, word_set_self hi, testBit_setField hv (offset_add_le hdvd)]
    by_cases hb : offset nbits i ≤ b ∧ b < offset nbits i + nbits
    · rw [if_pos hb]
      have := congrArg (fun x => x.testBit (b - offset nbits i)) hle
      simp only [Nat.testBit_and] at this
      rw [get, testBit_getField, Nat.add_sub_cancel' hb.1,
        decide_eq_true (show b - offset nbits i < nbits by omega),
        Bool.and_true] at this
      exact this
    · rw [if_neg hb]
      cases t.word (getWordIndex nbits i) |>.testBit b <;> simp
  · rw [word_set_ne hk, Nat.and_self]

theorem word_set_lt (ht : ∀ k, t.word k < 2 ^ 32)
    (k : Nat) : (t.set i v).word k < 2 ^ 32 := by
  by_cases hk : k = getWordIndex nbits i
  · subst hk
    by_cases hi : getWordIndex nbits i < t.data.length
    · rw [word_set_self hi]
      apply Nat.lt_pow_two_of_testBit
      intro b hb
      have := offset_add_le (i := i) hdvd
      rw [testBit_setField hv this, if_neg (by omega), decide_eq_false (by omega), Bool.and_false]
    · have : (t.set i v).word (getWordIndex nbits i) = 0 := by
        simp [word, List.getElem?_eq_none (show (t.set i v).data.length ≤ _ by simpa using hi)]
      omega
  · rw [word_set_ne hk]
    exact ht k

end

end EnumTable

def EntryState.Lowers (old new : EntryState) : Prop := old.bits &&& new.bits = new.bits

instance (old new : EntryState) : Decidable (old.Lowers new) := inferInstanceAs (Decidable (_ = _))

theorem EntryState.lowers_erased (old : EntryState) : old.Lowers .erased := by cases old <;> decide

namespace EntryTable

variable {t : EntryTable} {i j k : Nat} {st : EntryState}

structure Ok (t : EntryTable) : Prop where
  length : t.data.length = 8
  word_lt : ∀ k, t.word k < 2 ^ 32

theorem ofBits_bits (st : EntryState) : EntryState.ofBits st.bits = st := by cases st <;> rfl

theorem bits_ofBits (h : n < 4) : (EntryState.ofBits n).bits = n := by
  match n, h with
  | 0, _ => rfl
  | 1, _ => rfl
  | 2, _ => rfl
  | 3, _ => rfl

theorem bits_lt (st : EntryState) : st.bits < 2 ^ 2 := by cases st <;> decide

theorem getWordIndex_eq (i : Nat) : EnumTable.getWordIndex 2 i = i / 16 := rfl

theorem bits_get (t : EntryTable) (i : Nat) : (t.get i).bits = EnumTable.get t i :=
  bits_ofBits (by
    have : EnumTable.get t i ≤ 2 ^ 2 - 1 := Nat.and_le_right
    omega)

theorem Ok.index_lt (ht : t.Ok) (hi : i < entryCount) :
    EnumTable.getWordIndex 2 i < t.data.length := by
  rw [ht.length, getWordIndex_eq]
  unfold entryCount at hi
  omega

theorem Ok.set (ht : t.Ok) (i : Nat) (st : EntryState) : (t.set i st).Ok where
  length := by rw [EntryTable.set, EnumTable.length_set, ht.length]
  word_lt := EnumTable.word_set_lt (by decide) (bits_lt st) ht.word_lt

theorem Ok.get_set (ht : t.Ok) (hi : i < entryCount) :
    (t.set i st).get j = if j = i then st else t.get j := by
  unfold EntryTable.get EntryTable.set
  split_ifs with h
  · subst h
    rw [EnumTable.get_set_self (by decide) (bits_lt st) (ht.index_lt hi), ofBits_bits]
  · rw [EnumTable.get_set_ne (by decide) (bits_lt st) (Ne.symm h) (ht.index_lt hi)]

theorem Ok.set_clears (ht : t.Ok) (hi : i < entryCount) (hle : (t.get i).Lowers st) (k : Nat) :
    t.word k &&& (t.set i st).word k = (t.set i st).word k :=
  EnumTable.set_clears (by decide) (bits_lt st) (ht.index_lt hi)
    (by rw [← bits_get]; exact hle) k

end EntryTable

/-! ### The table in a sector -/

def tableOf (S : Bytes) : EntryTable := Page.tableOfBytes (S.read entryTableOffset 32)

theorem word32_read {S : Bytes} {a n k : Nat} (h : k + 4 ≤ n) :
    word32 (S.read a n) k = word32 (S.read (a + k) 4) 0 := by
  simp only [word32]
  rw [Bytes.getD_read (by omega), Bytes.getD_read (by omega), Bytes.getD_read (by omega),
    Bytes.getD_read (by omega), Bytes.getD_read (by omega), Bytes.getD_read (by omega),
    Bytes.getD_read (by omega), Bytes.getD_read (by omega)]
  simp only [Nat.add_assoc, Nat.zero_add, Nat.add_zero]

theorem tableOf_word (hk : k < 8) :
    (tableOf S).word k = word32 (S.read (entryTableOffset + 4 * k) 4) 0 := by
  rw [← word32_read (show 4 * k + 4 ≤ 32 by omega), tableOf, Page.tableOfBytes, EnumTable.word,
    List.getD_eq_getElem?_getD, List.getElem?_map, List.getElem?_range hk, Option.map_some,
    Option.getD_some]

theorem tableOf_word_out (hk : 8 ≤ k) : (tableOf S).word k = 0 := by
  rw [tableOf, Page.tableOfBytes, EnumTable.word, List.getD_eq_default]
  simpa using hk

theorem tableOf_ok (S : Bytes) : (tableOf S).Ok where
  length := by simp [tableOf, Page.tableOfBytes]
  word_lt k := by
    rcases Nat.lt_or_ge k 8 with hk | hk
    · rw [tableOf_word hk]
      exact word32_lt _ _
    · rw [tableOf_word_out hk]
      decide

theorem clears_le32 {S : Bytes} {a w : Nat} (h : word32 (S.read a 4) 0 &&& w = w) :
    S.clears a (le32 w) = true := by
  have hbyte : ∀ i < 4, S (a + i) = .ofNat (word32 (S.read a 4) 0 / 2 ^ (8 * i)) := by
    intro i hi
    apply UInt8.toNat_inj.mp
    rw [UInt8.toNat_ofNat']
    simp only [word32]
    rw [Bytes.getD_read (by omega), Bytes.getD_read (by omega), Bytes.getD_read (by omega),
      Bytes.getD_read (by omega)]
    have h0 := (S (a + 0)).toNat_lt
    have h1 := (S (a + (0 + 1))).toNat_lt
    have h2 := (S (a + (0 + 2))).toNat_lt
    have h3 := (S (a + (0 + 3))).toNat_lt
    obtain rfl | rfl | rfl | rfl : i = 0 ∨ i = 1 ∨ i = 2 ∨ i = 3 := by omega
    · omega
    · simp at *; omega
    · simp at *; omega
    · simp at *; omega
  have hand : ∀ i < 4, S (a + i) &&& UInt8.ofNat (w / 2 ^ (8 * i)) = .ofNat (w / 2 ^ (8 * i)) := by
    intro i hi
    rw [hbyte i hi, ← UInt8.ofNat_and, ← Nat.and_div_two_pow, h]
  rw [Bytes.clears_iff]
  intro i hi
  have := hand i hi
  have hlt : i < 4 := hi
  obtain rfl | rfl | rfl | rfl : i = 0 ∨ i = 1 ∨ i = 2 ∨ i = 3 := by omega
  · simpa [le32] using this
  · simpa [le32] using this
  · simpa [le32] using this
  · simpa [le32] using this

end EspIdf.Nvs
