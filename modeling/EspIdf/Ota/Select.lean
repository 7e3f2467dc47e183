import EspIdf.Ota.Model
import Mathlib.Data.List.Nodup
import Mathlib.Data.List.Perm.Basic
import Mathlib.Data.Nat.ModEq

/-! What `esp_ota_set_boot_partition` selects.  The larger valid sequence number encodes a slot
modulo the number of slots; the number written is the least one, from the current one on, that
stands for the slot, if there is one of 32 bits. -/

namespace EspIdf.Ota

open EspIdf.Device
open OtaSelect (bytes ofBytes)

/-! ### Sequence numbers -/

/-- The least number from `seq` on that is `id + 1` modulo `count`. -/
def leastFrom (seq id count : Nat) : Nat := seq + (id + 1 + count - seq % count) % count

section Seq

variable {seq id count v : Nat}

theorem leastFrom_mod (seq : Nat) (hid : id < count) : leastFrom seq id count % count =
    (id + 1) % count := by
  have hlt : seq % count < count := Nat.mod_lt _ (by omega)
  have hsplit := Nat.mod_add_div seq count
  calc leastFrom seq id count % count
      = (seq + (id + 1 + count - seq % count)) % count := by rw [leastFrom, Nat.add_mod_mod]
    _ = (id + 1 + count * (seq / count + 1)) % count := by
        congr 1
        rw [Nat.mul_add]
        omega
    _ = (id + 1) % count := Nat.add_mul_mod_self_left _ _ _

theorem leastFrom_le (hid : id < count) (hv : seq ≤ v) (hmod : v % count = (id + 1) % count) :
    leastFrom seq id count ≤ v := by
  have hlt : seq % count < count := Nat.mod_lt _ (by omega)
  have hrest : (id + 1 + count - seq % count) % count = (v - seq) % count := by
    have h1 : (v - seq + seq % count) % count = (id + 1) % count := by
      rw [← hmod, Nat.add_mod, Nat.mod_mod, ← Nat.add_mod, Nat.sub_add_cancel hv]
    have h2 : (id + 1 + count - seq % count + seq % count) % count = (id + 1) % count := by
      rw [Nat.sub_add_cancel (by omega), Nat.add_mod_right]
    exact Nat.ModEq.add_right_cancel' (seq % count) (h2.trans h1.symm)
  have := Nat.mod_le (v - seq) count
  rw [leastFrom]
  omega

theorem leastFrom_self (hid : id < count) (hmod : seq % count = (id + 1) % count) :
    leastFrom seq id count = seq :=
  Nat.le_antisymm (leastFrom_le hid (Nat.le_refl _) hmod) (Nat.le_add_right _ _)

theorem seqLoop_some (h : seqLoop seq id count n i = some v) : seq ≤ v ∧ v < 2 ^ 32 := by
  induction n generalizing i with
  | zero => cases h
  | succ n ih =>
    unfold seqLoop at h
    split at h
    · exact ih h
    · cases h
      exact ⟨by omega, Nat.mod_lt _ (by decide)⟩

theorem seqLoop_least (hid : id < count) (hlt : leastFrom seq id count < 2 ^ 32)
    (hi : (id + 1) % count + i * count ≤ leastFrom seq id count)
    (hn : leastFrom seq id count < (id + 1) % count + (i + n) * count) :
    seqLoop seq id count n i = some (leastFrom seq id count) := by
  induction n generalizing i with
  | zero =>
    rw [Nat.add_zero i] at hn
    omega
  | succ n ih =>
    have hat : seqAt id count i = (id + 1) % count + i * count := Nat.mod_eq_of_lt (by omega)
    unfold seqLoop
    rw [hat]
    have hmod : ((id + 1) % count + i * count) % count = (id + 1) % count := by
      rw [Nat.add_mul_mod_self_right, Nat.mod_mod]
    split
    · refine ih ?_ (by rw [show i + 1 + n = i + (n + 1) by omega]; exact hn)
      -- the least number is past this one, so by at least `count`
      have hle : seq ≤ leastFrom seq id count := Nat.le_add_right _ _
      have hdiff := leastFrom_mod seq hid
      have hdvd : count ∣ leastFrom seq id count - ((id + 1) % count + i * count) :=
        (Nat.modEq_iff_dvd' hi).mp (hmod.trans hdiff.symm)
      have hge := Nat.le_of_dvd (by omega) hdvd
      rw [Nat.add_mul]
      omega
    · rw [Nat.le_antisymm hi (leastFrom_le hid (by omega) hmod)]

theorem nextSeq_least (hid : id < count) (hlt : leastFrom seq id count < 2 ^ 32) :
    nextSeq seq id count = some (leastFrom seq id count) := by
  refine seqLoop_least hid hlt ?_ ?_
  · have := leastFrom_mod seq hid
    have := Nat.mod_le (leastFrom seq id count) count
    omega
  · omega

theorem pred32_mod_iff (hid : id < count) (hv : v < 2 ^ 32) (hpos : 0 < v) :
    pred32 v % count = id ↔ v % count = (id + 1) % count := by
  have hpred : pred32 v = v - 1 := by
    unfold pred32
    omega
  rw [hpred]
  constructor
  · intro h
    rw [← h, Nat.add_mod, Nat.mod_mod, ← Nat.add_mod, Nat.sub_add_cancel hpos]
  · intro h
    have h1 : (v - 1 + 1) % count = (id + 1) % count := by rw [Nat.sub_add_cancel hpos, h]
    have h2 : (v - 1) % count = id % count := Nat.ModEq.add_right_cancel' 1 h1
    rw [h2, Nat.mod_eq_of_lt hid]

theorem pred32_zero_mod_iff (hid : (id + 1) % count = 0) (hlt : id < count) :
    pred32 0 % count = id ↔ 2 ^ 32 % count = 0 := by
  have hpred : pred32 0 + 1 = 2 ^ 32 := by decide
  have hid' : id + 1 = count := by
    by_contra hne
    rw [Nat.mod_eq_of_lt (by omega)] at hid
    omega
  constructor
  · intro h
    rw [← hpred, ← Nat.mod_add_mod, h, hid', Nat.mod_self]
  · intro h
    have h1 : (pred32 0 + 1) % count = (id + 1) % count := by rw [hpred, h, hid]
    have h2 : pred32 0 % count = id % count := Nat.ModEq.add_right_cancel' 1 h1
    rw [h2, Nat.mod_eq_of_lt hlt]

end Seq

/-! ### Entries -/

def best (s0 s1 : OtaSelect) : Option Nat :=
  if otaSelectValid s0 ∧ otaSelectValid s1 then some (max s0.otaSeq s1.otaSeq)
  else if otaSelectValid s0 then some s0.otaSeq
  else if otaSelectValid s1 then some s1.otaSeq
  else none

theorem otaSelectValid_iff :
    otaSelectValid s = true ↔ s.otaSeq ≠ 0xffffffff ∧ s.crc = otaSelectCrc s.otaSeq := by
  simp [otaSelectValid]

structure Wrote (s : OtaSelect) (seq : Nat) : Prop where
  otaSeq : s.otaSeq = seq
  crc : s.crc = otaSelectCrc seq

theorem Wrote.valid_iff (h : Wrote s seq) : otaSelectValid s = true ↔ seq ≠ 0xffffffff := by
  rw [otaSelectValid_iff, h.otaSeq, h.crc, and_iff_left rfl]

theorem ofBytes_bytes {s : OtaSelect} (hlabel : s.seqLabel.length = 24) (hseq : s.otaSeq < 2 ^ 32)
    (hcrc : s.crc < 2 ^ 32) :
    (ofBytes s.bytes).otaSeq = s.otaSeq ∧ (ofBytes s.bytes).crc = s.crc := by
  constructor
  · exact (word32_append_left (by simp)).trans (word32_le32 hseq)
  · rw [ofBytes, bytes]
    simp only
    rw [word32_append_right (by simp [hlabel])]
    simp only [List.length_append, length_le32, hlabel]
    exact word32_le32 hcrc

theorem read_rewritten {m : Bytes} {a : Nat} {bs : List UInt8} (hbs : bs.length = 32) :
    ((m.erase a secSize).program a bs).read a 32 = bs ∧
      ∀ b, b + 32 ≤ a ∨ a + secSize ≤ b → ((m.erase a secSize).program a bs).read b 32 =
        m.read b 32 := by
  have hsec : secSize = 4096 := rfl
  constructor
  · rw [Bytes.read_eq_iff]
    refine ⟨hbs, fun k hk => ?_⟩
    rw [Bytes.program_erased (by omega) (Bytes.erase_in (by omega) (by omega)),
      Nat.add_sub_cancel_left]
  · intro b hb
    refine Bytes.read_congr fun x h1 h2 => ?_
    rw [Bytes.program_out (by omega), Bytes.erase_out (by omega)]

section Rewrite

variable {m m' : Bytes} {seq : Nat} {s : OtaSelect} {secId : Fin 2}

/-- The contents of otadata after the entry of sector `secId` was rewritten. -/
def rewritten (m : Bytes) (secId : Fin 2) (seq : Nat) (s : OtaSelect) : Bytes :=
  (m.erase (secSize * secId) secSize).program (secSize * secId)
    (OtaSelect.bytes { s with otaSeq := seq, crc := otaSelectCrc seq })

theorem rewriteOtaSeq_ends_iff : (rewriteOtaSeq seq secId s).Ends OtaOp.Effect m .ok m' ↔
    m' = rewritten m secId seq s := by
  constructor
  · intro h
    obtain ⟨ret, m₁, ⟨-, herase⟩, h⟩ := Prog.ends_op_bind_iff.mp h
    by_cases hret : ret = .ok
    · rw [if_neg (not_not.mpr hret)] at h
      have hw := Prog.ends_op_iff.mp h
      rw [hw.2 rfl, herase hret, Nat.mul_comm]
      rfl
    · rw [if_pos hret] at h
      exact absurd (Prog.ends_ret_iff.mp h).1.symm hret
  · rintro rfl
    refine Prog.ends_op_bind_iff.mpr
      ⟨EspErr.ok, m.erase (secId * secSize) secSize, ⟨fun x hx => if_neg hx, fun _ => rfl⟩, ?_⟩
    refine Prog.ends_op_iff.mpr ⟨fun x hx => ?_, fun _ => ?_⟩
    · rw [rewritten, Bytes.program_out (by omega), Nat.mul_comm]
    · rw [rewritten, Nat.mul_comm]

theorem rewriteOtaSeq_safe : (rewriteOtaSeq seq secId s).Safe OtaOp.Effect m := by
  refine Prog.safe_op_bind_iff.mpr fun ret m₁ _ => ?_
  split
  · trivial
  · exact fun _ _ _ => trivial

theorem length_bytes (hlabel : s.seqLabel.length = 24) : s.bytes.length = 32 := by
  simp [bytes, hlabel]

theorem selects_rewritten (hseq : seq < 2 ^ 32) (hlabel : s.seqLabel.length = 24) :
    (Wrote (selects (rewritten m 0 seq s)).1 seq ∧ (selects (rewritten m 0 seq s)).2 =
      (selects m).2) ∧
    (Wrote (selects (rewritten m 1 seq s)).2 seq ∧ (selects (rewritten m 1 seq s)).1 =
      (selects m).1) := by
  have hcrc : otaSelectCrc seq < 2 ^ 32 := crc32Le_lt (by decide) _
  have hofBytes := @ofBytes_bytes { s with otaSeq := seq, crc := otaSelectCrc seq } hlabel hseq hcrc
  have hlen : (bytes { s with otaSeq := seq, crc := otaSelectCrc seq }).length = 32 :=
    length_bytes hlabel
  obtain ⟨h0, hother0⟩ := @read_rewritten m (secSize * (0 : Fin 2)) _ hlen
  obtain ⟨h1, hother1⟩ := @read_rewritten m (secSize * (1 : Fin 2)) _ hlen
  unfold selects rewritten
  refine ⟨⟨?_, ?_⟩, ?_, ?_⟩
  · have : ((m.erase (secSize * (0 : Fin 2)) secSize).program (secSize * (0 : Fin 2)) _).read 0 32 =
      _ := h0
    rw [this]
    exact ⟨hofBytes.1, hofBytes.2⟩
  · rw [hother0 secSize (.inr (by decide))]
  · have : ((m.erase (secSize * (1 : Fin 2)) secSize).program (secSize * (1 : Fin 2)) _).read
      secSize 32
      = _ := h1
    rw [this]
    exact ⟨hofBytes.1, hofBytes.2⟩
  · rw [hother1 0 (.inl (by decide))]

end Rewrite

section Rewrite

variable {m m' : Bytes} {id count : Nat}

theorem rewriteSelects_cases (id count : Nat) (s0 s1 : OtaSelect) :
    (best s0 s1 = none ∧ otaSelectValid s1 = false ∧
      rewriteSelects id count s0 s1 = rewriteOtaSeq (id + 1) 0 s0) ∨
    ∃ seq, best s0 s1 = some seq ∧ ((otaSelectValid s0 = true ∧ s0.otaSeq = seq ∧
        rewriteSelects id count s0 s1 = rewriteNext seq id count 1 s1) ∨
      (otaSelectValid s1 = true ∧ s1.otaSeq = seq ∧
        rewriteSelects id count s0 s1 = rewriteNext seq id count 0 s0)) := by
  unfold best rewriteSelects
  cases h0 : otaSelectValid s0 <;> cases h1 : otaSelectValid s1
  · exact .inl ⟨by simp, rfl, by simp⟩
  · exact .inr ⟨_, by simp, .inr ⟨rfl, rfl, by simp⟩⟩
  · exact .inr ⟨_, by simp, .inl ⟨rfl, rfl, by simp⟩⟩
  · right
    by_cases hge : s0.otaSeq ≥ s1.otaSeq
    · exact ⟨s0.otaSeq, by simp; omega, .inl ⟨rfl, rfl, by simp [hge]⟩⟩
    · exact ⟨s1.otaSeq, by simp; omega, .inr ⟨rfl, rfl, by simp [hge]⟩⟩

theorem best_comm (s0 s1 : OtaSelect) : best s0 s1 = best s1 s0 := by
  unfold best
  rw [Nat.max_comm]
  cases otaSelectValid s0 <;> cases otaSelectValid s1 <;> rfl

theorem best_wrote_snd (h0 : otaSelectValid s0 = true) (hseq : s0.otaSeq = seq) (h1 : Wrote s1 v)
    (hle : seq ≤ v) :
    best s0 s1 = some (if v = 0xffffffff then seq else v) := by
  unfold best
  by_cases hv : v = 0xffffffff
  · have : otaSelectValid s1 = false := by
      rw [← Bool.not_eq_true, h1.valid_iff]
      simpa using hv
    simp [h0, this, hv, hseq]
  · have : otaSelectValid s1 = true := h1.valid_iff.mpr hv
    simp [h0, this, hv, hseq, h1.otaSeq]
    omega

theorem best_wrote_fst (h1 : otaSelectValid s1 = true) (hseq : s1.otaSeq = seq) (h0 : Wrote s0 v)
    (hle : seq ≤ v) :
    best s0 s1 = some (if v = 0xffffffff then seq else v) := by
  rw [best_comm]
  exact best_wrote_snd h1 hseq h0 hle

theorem rewriteSelects_best (hid : id < count) (hcount : count ≤ 16)
    (h : (rewriteSelects id count (selects m).1 (selects m).2).Ends OtaOp.Effect m .ok m') :
    ∃ v, best (selects m').1 (selects m').2 = some v ∧
      ((best (selects m).1 (selects m).2 = none ∧ v = id + 1) ∨
      ∃ seq next, best (selects m).1 (selects m).2 = some seq ∧ nextSeq seq id count = some next ∧
        v = if next = 0xffffffff then seq else next) := by
  have hlabel0 : (selects m).1.seqLabel.length = 24 := by simp [selects, ofBytes]
  have hlabel1 : (selects m).2.seqLabel.length = 24 := by simp [selects, ofBytes]
  rcases rewriteSelects_cases id count (selects m).1 (selects m).2 with
    ⟨hbest, h1, heq⟩ | ⟨seq, hbest, ⟨h0, hseq, heq⟩ | ⟨h1, hseq, heq⟩⟩
  · rw [heq, rewriteOtaSeq_ends_iff] at h
    obtain ⟨⟨hw, hother⟩, -⟩ := @selects_rewritten m (id + 1) (selects m).1 (by omega) hlabel0
    refine ⟨id + 1, ?_, .inl ⟨hbest, rfl⟩⟩
    have hv : otaSelectValid (selects (rewritten m 0 (id + 1) (selects m).1)).1 = true :=
      hw.valid_iff.mpr (by omega)
    rw [h, best, hother, h1, hv, hw.otaSeq]
    simp
  · rw [heq, rewriteNext] at h
    cases hnext : nextSeq seq id count with
    | none =>
      rw [hnext] at h
      cases h
    | some next =>
      rw [hnext] at h
      obtain ⟨hle, hlt⟩ := seqLoop_some hnext
      obtain ⟨-, hw, hother⟩ := @selects_rewritten m next (selects m).2 hlt hlabel1
      rw [rewriteOtaSeq_ends_iff.mp h]
      exact ⟨_, best_wrote_snd (hother ▸ h0) (hother ▸ hseq) hw hle,
        .inr ⟨seq, next, hbest, hnext, rfl⟩⟩
  · rw [heq, rewriteNext] at h
    cases hnext : nextSeq seq id count with
    | none =>
      rw [hnext] at h
      cases h
    | some next =>
      rw [hnext] at h
      obtain ⟨hle, hlt⟩ := seqLoop_some hnext
      obtain ⟨⟨hw, hother⟩, -⟩ := @selects_rewritten m next (selects m).1 hlt hlabel0
      rw [rewriteOtaSeq_ends_iff.mp h]
      exact ⟨_, best_wrote_fst (hother ▸ h1) (hother ▸ hseq) hw hle,
        .inr ⟨seq, next, hbest, hnext, rfl⟩⟩

theorem rewriteSelects_safe_iff : (rewriteSelects id count s0 s1).Safe OtaOp.Effect m ↔
      ∀ seq, best s0 s1 = some seq → nextSeq seq id count ≠ none := by
  rcases rewriteSelects_cases id count s0 s1 with
    ⟨hbest, -, heq⟩ | ⟨seq, hbest, ⟨-, -, heq⟩ | ⟨-, -, heq⟩⟩
  · rw [heq, hbest]
    exact iff_of_true rewriteOtaSeq_safe (by simp)
  all_goals
    rw [heq, hbest, rewriteNext]
    cases hnext : nextSeq seq id count with
    | none => exact iff_of_false (fun h => h) fun h => h seq rfl hnext
    | some next => exact iff_of_true rewriteOtaSeq_safe fun seq' h => by cases h; simp [hnext]

theorem rewriteSelects_can {s0 s1 : OtaSelect}
    (h : ∀ seq, best s0 s1 = some seq → nextSeq seq id count ≠ none) :
    ∃ m', (rewriteSelects id count s0 s1).Ends OtaOp.Effect m .ok m' := by
  rcases rewriteSelects_cases id count s0 s1 with
    ⟨hbest, -, heq⟩ | ⟨seq, hbest, ⟨-, -, heq⟩ | ⟨-, -, heq⟩⟩
  · rw [heq]
    exact ⟨_, rewriteOtaSeq_ends_iff.mpr rfl⟩
  all_goals
    rw [heq, rewriteNext]
    cases hnext : nextSeq seq id count with
    | none => exact absurd hnext (h seq hbest)
    | some next => exact ⟨_, rewriteOtaSeq_ends_iff.mpr rfl⟩

/-- The mapping of otadata shows both entries. -/
def ShowsBoth (pos : Pos) : Prop :=
  pos.offset % 0x10000 + secSize + 32 ≤ (pos.size + 0xffff) / 0x10000 * 0x10000

instance (pos : Pos) : Decidable (ShowsBoth pos) := inferInstanceAs (Decidable (_ ≤ _))

theorem ShowsBoth.shown_iff (h : ShowsBoth pos) : Shown pos m r ↔ r = selects m := by
  unfold ShowsBoth at h
  have hfst : 32 ≤ mappedEnd pos := by
    rw [mappedEnd]
    omega
  have hsnd : secSize + 32 ≤ mappedEnd pos := by
    rw [mappedEnd]
    omega
  rw [Shown, Prod.ext_iff]
  exact ⟨fun hr => ⟨hr.1 hfst, hr.2 hsnd⟩, fun hr => ⟨fun _ => hr.1, fun _ => hr.2⟩⟩

theorem rewriteCopied_iff (hpos : ShowsBoth pos) :
    (((copySelects pos).bind fun r =>
      if r.1 ≠ .ok then Prog.ret r.1 else rewriteSelects id count r.2.1 r.2.2).Safe OtaOp.Effect m ↔
      (rewriteSelects id count (selects m).1 (selects m).2).Safe OtaOp.Effect m) ∧
    ∀ m', ((copySelects pos).bind fun r =>
      if r.1 ≠ .ok then Prog.ret r.1 else rewriteSelects id count r.2.1 r.2.2).Ends OtaOp.Effect m .ok m' ↔
      (rewriteSelects id count (selects m).1 (selects m).2).Ends OtaOp.Effect m .ok m' := by
  refine ⟨⟨fun hsafe => ?_, fun hsafe => ?_⟩, fun m' => ⟨fun hends => ?_, fun hends => ?_⟩⟩
  · have hrest := Prog.safe_op_bind_iff.mp hsafe (.ok, selects m) m
      ⟨rfl, fun _ => hpos.shown_iff.mpr rfl⟩
    rwa [if_neg (not_not.mpr rfl)] at hrest
  · refine Prog.safe_op_bind_iff.mpr fun r m₁ hr => ?_
    obtain ⟨rfl, hsel⟩ := hr
    split
    · trivial
    · rename_i hok
      rw [hpos.shown_iff.mp (hsel (not_not.mp hok))]
      exact hsafe
  · obtain ⟨r, m₁, ⟨rfl, hsel⟩, hrest⟩ := Prog.ends_op_bind_iff.mp hends
    by_cases hok : r.1 = .ok
    · rw [if_neg (not_not.mpr hok), hpos.shown_iff.mp (hsel hok)] at hrest
      exact hrest
    · rw [if_pos hok] at hrest
      exact absurd (Prog.ends_ret_iff.mp hrest).1.symm hok
  · refine Prog.ends_op_bind_iff.mpr ⟨(.ok, selects m), m, ⟨rfl, fun _ => hpos.shown_iff.mpr rfl⟩,
      ?_⟩
    rwa [if_neg (not_not.mpr rfl)]

end Rewrite

end EspIdf.Ota
