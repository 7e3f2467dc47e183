import EspIdf.Ota.Agree

/-! Power loss during `esp_ota_set_boot_partition`: the flash operations of a call in which none
fails, and what the boot loader selects after any number of them. -/

namespace EspIdf.Ota

open EspIdf.Device
open OtaSelect (bytes ofBytes)

/-! ### Flash operations -/

/-- An operation on the flash, with addresses in the otadata partition: a sector or block is erased,
or a word is written. -/
inductive FlashStep where
  | erase (a n : Nat)
  | word (a : Nat) (w : List UInt8)
  deriving DecidableEq, Repr

def FlashStep.apply (m : Bytes) : FlashStep → Bytes
  | erase a n => m.erase a n
  | word a w => m.program a w

def afterSteps (m : Bytes) (steps : List FlashStep) : Bytes := steps.foldl FlashStep.apply m

/-- The loop of `spi_flash_erase_range` from sector `r` of a range of `count` sectors, the first of
which is sector `start` of the flash and at `a` in the partition.  It has at most `fuel` more
rounds. -/
def eraseLoop (start a count : Nat) : Nat → Nat → List FlashStep
  | 0, _ => []
  | fuel + 1, r =>
    if r = count then []
    else if (start + r) % 16 = 0 ∧ count - r > 16 then
      .erase (a + secSize * r) (16 * secSize) :: eraseLoop start a count fuel (r + 16)
    else .erase (a + secSize * r) secSize :: eraseLoop start a count fuel (r + 1)

def wordSteps : Nat → Nat → List UInt8 → List FlashStep
  | 0, _, _ => []
  | fuel + 1, a, bs => .word a (bs.take 4) :: wordSteps fuel (a + 4) (bs.drop 4)

def Erasable (d : Part) (a n : Nat) : Prop := (d.pos.offset + a) % secSize = 0 ∧ n % secSize = 0

instance (d : Part) (a n : Nat) : Decidable (Erasable d a n) := inferInstanceAs (Decidable (_ ∧ _))

def OtaOp.steps (d : Part) : OtaOp → List FlashStep
  | copySelects _ => []
  | eraseRange a n =>
    if Erasable d a n then
      eraseLoop ((d.pos.offset + a) / secSize) a (n / secSize) (n / secSize) 0
    else []
  | write a src => wordSteps (src.length / 4) a src

def OtaOp.answer (d : Part) (m : Bytes) : (o : OtaOp) → o.Ret
  | copySelects _ => (.ok, selects m)
  | eraseRange a n => if Erasable d a n then .ok else .invalidArg
  | write _ _ => .ok

def stepsOf {α : Type} (d : Part) : OtaProg α → Bytes → List FlashStep
  | .ret _, _ => []
  | .halt, _ => []
  | .call o k, m => o.steps d ++ stepsOf d (k (o.answer d m)) (afterSteps m (o.steps d))

def boots (table : List Part) (m : Bytes) : Option Pos :=
  selectPart (loadPartitionTable table) (selects m).1 (selects m).2

/-- After any number of the operations of the call, the boot loader selects what it selected before,
or `p`. -/
def SwitchRight (table : List Part) (d : Part) (m : Bytes) (p : Part) : Prop :=
  ∀ k, boots table (afterSteps m ((stepsOf d (espOtaSetBootPartition table true (some p)) m).take
    k)) =
      boots table m ∨
    boots table (afterSteps m ((stepsOf d (espOtaSetBootPartition table true (some p)) m).take k)) =
      some p.pos

/-! ### Rewriting an entry -/

theorem afterSteps_wordSteps {fuel k : Nat} : ∀ {m : Bytes} {a : Nat} {bs : List UInt8},
    bs.length = 4 * fuel →
      ∃ i ≤ fuel, afterSteps m ((wordSteps fuel a bs).take k) = m.program a (bs.take (4 * i)) := by
  induction fuel generalizing k with
  | zero =>
    intro m a bs _
    refine ⟨0, le_rfl, ?_⟩
    rw [wordSteps, List.take_nil]
    exact (@Bytes.program_ones m a 0).symm
  | succ fuel ih =>
    intro m a bs hlen
    cases k with
    | zero => exact ⟨0, by omega, (@Bytes.program_ones m a 0).symm⟩
    | succ k =>
      obtain ⟨i, hi, hafter⟩ := @ih k (m.program a (bs.take 4)) (a + 4) (bs.drop 4)
        (by rw [List.length_drop]; omega)
      refine ⟨i + 1, by omega, ?_⟩
      have hlen4 : (bs.take 4).length = 4 := by
        rw [List.length_take]
        omega
      have hsplit : bs.take (4 * (i + 1)) = bs.take 4 ++ (bs.drop 4).take (4 * i) := by
        rw [Nat.mul_add, Nat.add_comm, List.take_add]
      rw [hsplit, Bytes.program_append, hlen4, ← hafter]
      rfl

section Entry

variable {m : Bytes} {a i seq : Nat} {s : OtaSelect}

def partlyWritten (m : Bytes) (a i seq : Nat) (s : OtaSelect) : Bytes :=
  (m.erase a secSize).program a
    ((OtaSelect.bytes { s with otaSeq := seq, crc := otaSelectCrc seq }).take (4 * i))

section

variable (hlabel : s.seqLabel.length = 24)
include hlabel

theorem read_partlyWritten_out (hb : b + 32 ≤ a ∨ a + secSize ≤ b) :
    (partlyWritten m a i seq s).read b 32 = m.read b 32 := by
  have hsec : secSize = 4096 := rfl
  have hlen : ((bytes { s with otaSeq := seq, crc := otaSelectCrc seq }).take
      (4 * i)).length ≤ 32 := by
    rw [List.length_take, @length_bytes { s with otaSeq := seq, crc := otaSelectCrc seq } hlabel]
    omega
  refine Bytes.read_congr fun x h1 h2 => ?_
  rw [partlyWritten, Bytes.program_out (by omega), Bytes.erase_out (by omega)]

theorem selects_partlyWritten :
    (selects (partlyWritten m (secSize * (1 : Fin 2)) i seq s)).1 = (selects m).1 ∧
    (selects (partlyWritten m (secSize * (0 : Fin 2)) i seq s)).2 = (selects m).2 := by
  unfold selects
  constructor
  · rw [read_partlyWritten_out hlabel (.inl (by decide))]
  · dsimp only
    rw [read_partlyWritten_out hlabel (.inr (by decide))]

theorem valid_partlyWritten (hseq : seq < 2 ^ 32) (hi : i ≤ 8)
    (hvalid : otaSelectValid (.ofBytes ((partlyWritten m a i seq s).read a 32)) = true) :
    (ofBytes ((partlyWritten m a i seq s).read a 32)).otaSeq = seq := by
  have hsec : secSize = 4096 := rfl
  have hbs := @length_bytes { s with otaSeq := seq, crc := otaSelectCrc seq } hlabel
  have htake : ((bytes { s with otaSeq := seq, crc := otaSelectCrc seq }).take
      (4 * i)).length = 4 * i := by
    rw [List.length_take]
    omega
  have hread : (partlyWritten m a i seq s).read a 32 =
      (bytes { s with otaSeq := seq, crc := otaSelectCrc seq }).take (4 * i) ++
        List.replicate (32 - 4 * i) 0xff := by
    rw [Bytes.read_eq_iff]
    refine ⟨by simp [htake]; omega, fun k hk => ?_⟩
    rw [partlyWritten, Bytes.program_erased (by omega) (Bytes.erase_in (by omega) (by omega)),
      Nat.add_sub_cancel_left]
    by_cases hki : k < 4 * i
    · rw [List.getD_append _ _ _ _ (by omega)]
    · rw [List.getD_append_right _ _ _ _ (by omega), List.getD_eq_default _ _ (by omega),
        List.getD_replicate _ (by omega)]
  rw [hread] at hvalid ⊢
  cases i with
  | zero =>
    rw [List.take_zero] at hvalid
    exact absurd hvalid (by decide)
  | succ i =>
    have hsplit : (bytes { s with otaSeq := seq, crc := otaSelectCrc seq }).take (4 * (i + 1)) =
        le32 seq ++ ((bytes { s with otaSeq := seq, crc := otaSelectCrc seq }).drop 4).take
          (4 * i) := by
      rfl
    refine (word32_append_left (by omega)).trans ?_
    rw [hsplit, word32_append_left (by simp), word32_le32 hseq]

end

theorem steps_eraseSector (h : Erasable d a secSize) :
    (OtaOp.eraseRange a secSize).steps d = [.erase a secSize] := by
  have hone : secSize / secSize = 1 := rfl
  rw [OtaOp.steps.eq_def]
  simp only [if_pos h, hone, eraseLoop, Nat.zero_ne_one, if_false]
  rw [if_neg (by omega), Nat.mul_zero, Nat.add_zero]

theorem stepsOf_rewriteOtaSeq (d : Part) (secId : Fin 2) (hlabel : s.seqLabel.length = 24) :
    stepsOf d (rewriteOtaSeq seq secId s) m =
      if Erasable d (secSize * secId) secSize then
        .erase (secSize * secId) secSize :: wordSteps 8 (secSize * secId)
          (bytes { s with otaSeq := seq, crc := otaSelectCrc seq })
      else [] := by
  have hlen := @length_bytes { s with otaSeq := seq, crc := otaSelectCrc seq } hlabel
  have hwrite : (OtaOp.write (secSize * secId)
      (bytes { s with otaSeq := seq, crc := otaSelectCrc seq })).steps d =
      wordSteps 8 (secSize * secId)
        (bytes { s with otaSeq := seq, crc := otaSelectCrc seq }) := by
    rw [OtaOp.steps.eq_def]
    simp only [hlen]
  have hcall : rewriteOtaSeq seq secId s = .call (.eraseRange (secSize * secId) secSize) fun ret =>
      if ret ≠ .ok then .ret ret else .call (.write (secSize * secId)
        (bytes { s with otaSeq := seq, crc := otaSelectCrc seq })) .ret := by
    rw [rewriteOtaSeq, Nat.mul_comm]
    rfl
  rw [hcall, stepsOf]
  by_cases her : Erasable d (secSize * secId) secSize
  · have hanswer : OtaOp.answer d m (.eraseRange (secSize * secId) secSize) = .ok := if_pos her
    rw [hanswer, if_neg (by simp), if_pos her, steps_eraseSector her, stepsOf, hwrite]
    rfl
  · have hanswer : OtaOp.answer d m (.eraseRange (secSize * secId) secSize) = .invalidArg :=
      if_neg her
    have hnone : (OtaOp.eraseRange (secSize * secId) secSize).steps d = [] := if_neg her
    rw [hanswer, if_neg her, hnone]
    rfl

theorem rewriteOtaSeq_states (d : Part) (secId : Fin 2) (hlabel : s.seqLabel.length = 24)
    (k : Nat) :
    afterSteps m ((stepsOf d (rewriteOtaSeq seq secId s) m).take k) = m ∨
    ∃ i ≤ 8, afterSteps m ((stepsOf d (rewriteOtaSeq seq secId s) m).take k) =
      partlyWritten m (secSize * secId) i seq s := by
  rw [stepsOf_rewriteOtaSeq d secId hlabel]
  by_cases her : Erasable d (secSize * secId) secSize
  · rw [if_pos her]
    cases k with
    | zero => exact .inl rfl
    | succ k =>
      obtain ⟨i, hi, hafter⟩ := @afterSteps_wordSteps 8 k (m.erase (secSize * secId) secSize)
        (secSize * secId) (bytes { s with otaSeq := seq, crc := otaSelectCrc seq })
        (length_bytes hlabel)
      exact .inr ⟨i, hi, hafter⟩
  · rw [if_neg her, List.take_nil]
    exact .inl rfl

end Entry

/-! ### Selections -/

section Table

variable {table : List Part} {n : Nat} {m m' : Bytes} {p d : Part}

def slotPos (table : List Part) (n v : Nat) : Pos := (loadPartitionTable table).ota (pred32 v % n)

theorem TableOk.boots_some (h : TableOk table n)
    (hbest : best (selects m).1 (selects m).2 = some v) : boots table m =
    some (slotPos table n v) := by
  have hblank : ¬ ((selects m).1.otaSeq = 0xffffffff ∧ (selects m).2.otaSeq = 0xffffffff) :=
    not_blank_of_best hbest
  rw [boots, selectPart_readable h.otaInfo_readable, selectEntry, h.appCount_eq]
  unfold best at hbest
  split_ifs at hbest ⊢ <;> (cases hbest; rfl)

theorem TableOk.boots_none (h : TableOk table n)
    (hf : (loadPartitionTable table).factory.offset ≠ 0)
    (hbest : best (selects m).1 (selects m).2 = none) :
    boots table m = some (loadPartitionTable table).factory := by
  unfold best at hbest
  rw [boots, selectPart_readable h.otaInfo_readable, selectEntry]
  split_ifs at hbest ⊢ <;> rfl

theorem TableOk.slotPos_eq (h : TableOk table n) (hp : p ∈ table) (hota : p.IsOta)
    (hv : pred32 v % n = subTypeId p.subtype) : slotPos table n v = p.pos := by
  rw [slotPos, hv, h.ota_eq hp hota]

theorem best_kept {seq next : Nat}
    (h : (otaSelectValid s0 = true ∧ s0.otaSeq = seq ∧
    (otaSelectValid s1 = true → s1.otaSeq = next)) ∨
    (otaSelectValid s1 = true ∧ s1.otaSeq = seq ∧ (otaSelectValid s0 = true → s0.otaSeq = next)))
    (hle : seq ≤ next) : best s0 s1 = some seq ∨ best s0 s1 = some next := by
  rcases h with ⟨hvalid, rfl, hother⟩ | ⟨hvalid, rfl, hother⟩
  · cases h1 : otaSelectValid s1
    · exact .inl (by simp [best, hvalid, h1])
    · right
      rw [best, if_pos ⟨hvalid, h1⟩, hother h1, Nat.max_eq_right hle]
  · cases h0 : otaSelectValid s0
    · exact .inl (by simp [best, hvalid, h0])
    · right
      rw [best, if_pos ⟨h0, hvalid⟩, hother h0, Nat.max_eq_left hle]

theorem rewriteNext_states {seq next id count : Nat} (hnext : nextSeq seq id count = some next)
    (hkept : (secId = 1 ∧ otaSelectValid (selects m).1 = true ∧ (selects m).1.otaSeq = seq) ∨
    (secId = 0 ∧ otaSelectValid (selects m).2 = true ∧ (selects m).2.otaSeq = seq))
    (hbest : best (selects m).1 (selects m).2 = some seq) (hlabel : s.seqLabel.length = 24)
    (k : Nat) :
    let m' := afterSteps m ((stepsOf d (rewriteNext seq id count secId s) m).take k)
    best (selects m').1 (selects m').2 = some seq ∨ best (selects m').1 (selects m').2 =
      some next := by
  obtain ⟨hle, hlt⟩ := seqLoop_some hnext
  rw [rewriteNext, hnext]
  rcases rewriteOtaSeq_states d secId hlabel k with heq | ⟨i, hi, heq⟩
  · rw [heq]
    exact .inl hbest
  · rw [heq]
    refine best_kept ?_ hle
    rcases hkept with ⟨rfl, hvalid, hseq⟩ | ⟨rfl, hvalid, hseq⟩
    · left
      rw [(selects_partlyWritten hlabel).1]
      exact ⟨hvalid, hseq, valid_partlyWritten hlabel hlt hi⟩
    · right
      rw [(selects_partlyWritten hlabel).2]
      exact ⟨hvalid, hseq, valid_partlyWritten hlabel hlt hi⟩

theorem slotPos_next (h : TableOk table n) (hp : p ∈ table) (hota : p.IsOta)
    (hid : subTypeId p.subtype < n)
    (hfit : leastFrom seq (subTypeId p.subtype) n < 2 ^ 32) :
    slotPos table n (leastFrom seq (subTypeId p.subtype) n) = slotPos table n seq ∨
      slotPos table n (leastFrom seq (subTypeId p.subtype) n) = p.pos := by
  by_cases hzero : leastFrom seq (subTypeId p.subtype) n = 0
  · -- the least number is 0 only from 0 on
    have hle : seq ≤ leastFrom seq (subTypeId p.subtype) n := Nat.le_add_right _ _
    left
    rw [hzero, show seq = 0 by omega]
  · right
    exact h.slotPos_eq hp hota ((pred32_mod_iff hid hfit (by omega)).mpr (leastFrom_mod seq hid))

theorem TableOk.switchRight_slot (h : TableOk table n)
    (hf : (loadPartitionTable table).factory.offset ≠ 0) (hp : p ∈ table) (hota : p.IsOta)
    (hfit : ∀ seq, best (selects m).1 (selects m).2 = some seq →
      leastFrom seq (subTypeId p.subtype) n < 2 ^ 32) : SwitchRight table d m p := by
  have hid := h.mem_slots hp hota
  obtain ⟨d', hd', -⟩ := h.findOtadata
  have hsub : p.subtype ≠ subtypeAppFactory := by
    have := hota.2
    rw [subtypeAppFactory]
    omega
  intro k
  by_cases habort : Aborts table n
  · -- the count aborts before any operation
    have hprog : espOtaSetBootPartition table true (some p) = Prog.halt := by
      simp only [espOtaSetBootPartition, hota.1, hsub, hd', espRewriteOtaData, h.count_eq.1 habort,
        not_true_eq_false, if_false, if_true]
    rw [hprog, stepsOf, List.take_nil]
    exact .inl rfl
  · have hsteps : stepsOf d (espOtaSetBootPartition table true (some p)) m =
        stepsOf d (rewriteSelects (subTypeId p.subtype) n (selects m).1 (selects m).2) m := by
      obtain ⟨d', -, hprog⟩ := h.setBoot_prog habort hota.1 hsub hid
      have hanswer : OtaOp.answer d m (.copySelects d'.pos) = (.ok, selects m) := rfl
      rw [hprog, copySelects, Prog.op_bind, stepsOf, hanswer, if_neg (by simp)]
      exact List.nil_append _
    obtain ⟨hlabel0, hlabel1⟩ := length_seqLabel m
    rw [hsteps]
    rcases rewriteSelects_cases (subTypeId p.subtype) n (selects m).1 (selects m).2 with
      ⟨hbest, h1, heq⟩ | ⟨seq, hbest, hcase⟩
    · rw [heq]
      rcases rewriteOtaSeq_states d 0 hlabel0 k with hstate | ⟨i, hi, hstate⟩
      · rw [hstate]
        exact .inl rfl
      · have hle := h.le
        have hother := (@selects_partlyWritten m i (subTypeId p.subtype + 1) _ hlabel0).2
        rw [hstate]
        cases h0 : otaSelectValid (selects (partlyWritten m (secSize * (0 : Fin 2)) i
            (subTypeId p.subtype + 1) (selects m).1)).1
        · left
          rw [h.boots_none hf hbest, h.boots_none hf]
          rw [best, hother, h1, h0]
          rfl
        · right
          have hseq := valid_partlyWritten hlabel0 (by omega) hi h0
          rw [h.boots_some (v := subTypeId p.subtype + 1)]
          · rw [h.slotPos_eq hp hota ((pred32_mod_iff hid (by omega) (by omega)).mpr rfl)]
          · rw [best, hother, h1, h0]
            exact congrArg some hseq
    · have hnext := nextSeq_least hid (hfit seq hbest)
      have hboth : ∀ m', best (selects m').1 (selects m').2 = some seq ∨
          best (selects m').1 (selects m').2 = some (leastFrom seq (subTypeId p.subtype) n) →
          boots table m' = boots table m ∨ boots table m' = some p.pos := by
        rintro m' (hm' | hm')
        · left
          rw [h.boots_some hm', h.boots_some hbest]
        · rw [h.boots_some hm', h.boots_some hbest, Option.some.injEq, Option.some.injEq]
          exact slotPos_next h hp hota hid (hfit seq hbest)
      rcases hcase with ⟨h0, hseq, heq⟩ | ⟨h1, hseq, heq⟩
      · rw [heq]
        exact hboth _ (rewriteNext_states hnext (.inl ⟨rfl, h0, hseq⟩) hbest hlabel1 k)
      · rw [heq]
        exact hboth _ (rewriteNext_states hnext (.inr ⟨rfl, h1, hseq⟩) hbest hlabel0 k)

/-! ### The factory partition -/

theorem eraseLoop_states {start count fuel : Nat} : ∀ {r k : Nat}, r ≤ count →
    ∃ r', r ≤ r' ∧ r' ≤ count ∧ afterSteps (m.erase 0 (secSize * r))
      ((eraseLoop start 0 count fuel r).take k) = m.erase 0 (secSize * r') := by
  have hstep : ∀ r j, (m.erase 0 (secSize * r)).erase (0 + secSize * r) (j * secSize) =
      m.erase 0 (secSize * (r + j)) := by
    intro r j
    rw [Bytes.erase_erase, Nat.mul_add, Nat.mul_comm j]
  induction fuel with
  | zero =>
    intro r k hr
    rw [eraseLoop, List.take_nil]
    exact ⟨r, le_rfl, hr, rfl⟩
  | succ fuel ih =>
    intro r k hr
    cases k with
    | zero => exact ⟨r, le_rfl, hr, rfl⟩
    | succ k =>
      rw [eraseLoop]
      split_ifs with hend hblock
      · exact ⟨r, le_rfl, hr, rfl⟩
      · obtain ⟨r', hle, hle', hafter⟩ := @ih (r + 16) k (by omega)
        rw [← hstep] at hafter
        exact ⟨r', by omega, hle', hafter⟩
      · obtain ⟨r', hle, hle', hafter⟩ := @ih (r + 1) k (by omega)
        rw [← hstep] at hafter
        exact ⟨r', by omega, hle', hafter⟩

def FirstAlone (d : Part) : Prop :=
  Erasable d 0 d.pos.size ∧ ¬ (d.pos.offset / secSize % 16 = 0 ∧ d.pos.size / secSize > 16)

theorem eraseAll_states (k : Nat) :
    (∃ r, (r = 1 → FirstAlone d) ∧ afterSteps m (((OtaOp.eraseRange 0 d.pos.size).steps d).take k) =
      m.erase 0 (secSize * r)) := by
  rw [OtaOp.steps.eq_def]
  dsimp only
  by_cases her : Erasable d 0 d.pos.size
  · rw [if_pos her]
    cases k with
    | zero => exact ⟨0, by simp, Bytes.erase_zero.symm⟩
    | succ k =>
      cases hcount : d.pos.size / secSize with
      | zero => exact ⟨0, by simp, Bytes.erase_zero.symm⟩
      | succ count =>
        rw [eraseLoop, if_neg (by omega)]
        split_ifs with hblock
        · obtain ⟨r, hle, -, hafter⟩ := @eraseLoop_states m (d.pos.offset / secSize)
            (count + 1) count
            (0 + 16) k (by omega)
          refine ⟨r, by omega, ?_⟩
          rw [← hafter]
          rfl
        · obtain ⟨r, -, -, hafter⟩ := @eraseLoop_states m (d.pos.offset / secSize) (count + 1) count
            (0 + 1) k (by omega)
          refine ⟨r, fun _ => ⟨her, ?_⟩, ?_⟩
          · rw [hcount]
            simpa using hblock
          · rw [← hafter]
            rfl
  · rw [if_neg her, List.take_nil]
    exact ⟨0, by simp, Bytes.erase_zero.symm⟩

theorem eraseAll_first (h : FirstAlone d) (hsize : 2 * secSize ≤ d.pos.size) :
    afterSteps m (((OtaOp.eraseRange 0 d.pos.size).steps d).take 1) = m.erase 0 secSize := by
  have hsec : secSize = 4096 := rfl
  have hpos : d.pos.size / secSize ≠ 0 := by
    rw [hsec] at hsize ⊢
    omega
  obtain ⟨count, hcount⟩ := Nat.exists_eq_succ_of_ne_zero hpos
  have hblock := h.2
  rw [hcount] at hblock
  rw [OtaOp.steps.eq_def]
  simp only [if_pos h.1, Nat.add_zero, hcount, eraseLoop]
  rw [if_neg (by omega), if_neg (by simpa using hblock)]
  rfl

theorem selects_erase_first : (selects (m.erase 0 secSize)).1.otaSeq = 0xffffffff ∧
    (selects (m.erase 0 secSize)).2 = (selects m).2 := by
  refine ⟨erased_otaSeq (by decide), ?_⟩
  unfold selects
  dsimp only
  rw [Bytes.read_erase_out (.inr (by decide))]

theorem otaSelectValid_blank (h : s.otaSeq = 0xffffffff) : otaSelectValid s = false := by
  simp [otaSelectValid, h]

/-- When only the first sector is erased alone and both entries were valid, the second entry stands
for the slot that was selected, or for the partition to be set. -/
def EraseOk (table : List Part) (n : Nat) (d : Part) (m : Bytes) (p : Part) : Prop :=
  FirstAlone d → otaSelectValid (selects m).1 = true → otaSelectValid (selects m).2 = true →
    (selects m).2.otaSeq < (selects m).1.otaSeq →
    slotPos table n (selects m).2.otaSeq = slotPos table n (selects m).1.otaSeq ∨
      slotPos table n (selects m).2.otaSeq = p.pos

theorem TableOk.boots_first (h : TableOk table n)
    (hf : (loadPartitionTable table).factory.offset ≠ 0) : boots table (m.erase 0 secSize) =
      some (if otaSelectValid (selects m).2 = true then slotPos table n (selects m).2.otaSeq
        else (loadPartitionTable table).factory) := by
  obtain ⟨h0, h1⟩ := @selects_erase_first m
  have hinvalid := otaSelectValid_blank h0
  split_ifs with hvalid
  · exact h.boots_some (by simp [best, hinvalid, h1, hvalid])
  · refine h.boots_none hf ?_
    rw [best, h1, hinvalid]
    simp [hvalid]

theorem TableOk.switchRight_factory (h : TableOk table n)
    (hf : (loadPartitionTable table).factory.offset ≠ 0)
    (hd : findFirst table typeData subtypeDataOta = some d) (hsize : 2 * secSize ≤ d.pos.size)
    (htype : p.type = typeApp) (hsub : p.subtype = subtypeAppFactory)
    (hpos : p.pos = (loadPartitionTable table).factory) :
    SwitchRight table d m p ↔ EraseOk table n d m p := by
  have hsec : secSize = 4096 := rfl
  have hsteps : stepsOf d (espOtaSetBootPartition table true (some p)) m =
      (OtaOp.eraseRange 0 d.pos.size).steps d := by
    have hprog : espOtaSetBootPartition table true (some p) =
        .call (.eraseRange 0 d.pos.size) .ret := by
      simp only [espOtaSetBootPartition, htype, hsub, hd, not_true_eq_false, if_false, if_true]
      rfl
    rw [hprog, stepsOf, stepsOf, List.append_nil]
  unfold SwitchRight
  rw [hsteps]
  constructor
  · intro hright hfirst h0 h1 hlt
    have hold : boots table m = some (slotPos table n (selects m).1.otaSeq) := by
      refine h.boots_some ?_
      rw [best, if_pos ⟨h0, h1⟩, Nat.max_eq_left (by omega)]
    have hone := hright 1
    rw [eraseAll_first hfirst hsize, h.boots_first hf, if_pos h1, hold] at hone
    simpa using hone
  · intro hok k
    obtain ⟨r, hfirst, hstate⟩ := @eraseAll_states m d k
    rw [hstate]
    obtain rfl | rfl | ⟨r, rfl⟩ : r = 0 ∨ r = 1 ∨ ∃ k, r = k + 2 := by
      rcases r with _ | _ | r
      · exact .inl rfl
      · exact .inr (.inl rfl)
      · exact .inr (.inr ⟨r, rfl⟩)
    · left
      rw [Nat.mul_zero, Bytes.erase_zero]
    · have hfirst := hfirst rfl
      rw [Nat.mul_one, h.boots_first hf]
      cases h1 : otaSelectValid (selects m).2
      · right
        rw [if_neg (by simp), hpos]
      · cases h0 : otaSelectValid (selects m).1
        · left
          exact (h.boots_some (by simp [best, h0, h1])).symm
        · by_cases hlt : (selects m).2.otaSeq < (selects m).1.otaSeq
          · have hold : boots table m = some (slotPos table n (selects m).1.otaSeq) := by
              refine h.boots_some ?_
              rw [best, if_pos ⟨h0, h1⟩, Nat.max_eq_left (by omega)]
            rw [hold, Option.some.injEq, Option.some.injEq]
            exact hok hfirst h0 h1 hlt
          · left
            refine (h.boots_some ?_).symm
            rw [best, if_pos ⟨h0, h1⟩, Nat.max_eq_right (by omega)]
    · right
      have hge : 2 * 4096 ≤ secSize * (r + 2) := by
        rw [hsec]
        omega
      have h0 : (selects (m.erase 0 (secSize * (r + 2)))).1.otaSeq = 0xffffffff :=
        erased_otaSeq (by omega)
      have h1 : (selects (m.erase 0 (secSize * (r + 2)))).2.otaSeq = 0xffffffff :=
        erased_otaSeq (by omega)
      rw [hpos]
      refine h.boots_none hf ?_
      rw [best, otaSelectValid_blank h0, otaSelectValid_blank h1]
      rfl

end Table

def factoryPart : Part := ⟨typeApp, subtypeAppFactory, ⟨0x210000, 0x100000⟩, []⟩

def bootTable : List Part := [otadataPart, factoryPart, ota0, ota1]

theorem bootTable_ok : TableOk bootTable 2 where
  pos := by decide
  le := by decide
  slots := by decide
  otadata := ⟨otadataPart, by decide, by decide, by decide, by decide⟩

end EspIdf.Ota
