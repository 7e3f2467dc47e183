import EspIdf.Ota.Select

/-! The sequence number that `esp_rewrite_ota_data` writes, where it writes it, and how many rounds
its loop makes. -/

namespace EspIdf.Ota

open EspIdf.Device

section NextSeq

variable {seq id count : Nat}

theorem leastFrom_isLeast (hid : id < count) (hpos : 1 ≤ seq) :
    IsLeast {v | seq ≤ v ∧ (v - 1) % count = id} (leastFrom seq id count) := by
  have hiff : ∀ v, 1 ≤ v → ((v - 1) % count = id ↔ v % count = (id + 1) % count) := by
    intro v hv
    constructor
    · intro h
      rw [← h, Nat.mod_add_mod, Nat.sub_add_cancel hv]
    · intro h
      have heq : (v - 1 + 1) % count = (id + 1) % count := by rw [Nat.sub_add_cancel hv, h]
      have hcancel := Nat.ModEq.add_right_cancel' 1 heq
      rwa [Nat.ModEq, Nat.mod_eq_of_lt hid] at hcancel
  have hle : seq ≤ leastFrom seq id count := Nat.le_add_right _ _
  exact ⟨⟨hle, (hiff _ (by omega)).mpr (leastFrom_mod seq hid)⟩, fun v hv =>
    leastFrom_le hid hv.1 ((hiff v (hpos.trans hv.1)).mp hv.2)⟩

theorem seqLoop_rounds (hid : id < count) (hlt : seq + count < 2 ^ 32) :
    ∃ rounds ≤ (seq + count - 1) / count,
      seqLoop seq id count (rounds + 1) 0 = some (leastFrom seq id count) := by
  have hleast : leastFrom seq id count < seq + count :=
    Nat.add_lt_add_left (Nat.mod_lt _ (by omega)) seq
  have hsplit := Nat.mod_add_div (leastFrom seq id count) count
  rw [leastFrom_mod seq hid, Nat.mul_comm] at hsplit
  refine ⟨leastFrom seq id count / count, Nat.div_le_div_right (by omega), ?_⟩
  refine seqLoop_least hid (by omega) ?_ ?_
  · omega
  · rw [Nat.zero_add, Nat.add_mul]
    omega

def OtaSelect.Has (s : OtaSelect) (seq : Nat) : Prop := otaSelectValid s = true ∧ s.otaSeq = seq

theorem rewriteSelects_sector {s0 s1 : OtaSelect} (hbest : best s0 s1 = some seq) :
    (s0.Has seq ∧ rewriteSelects id count s0 s1 = rewriteNext seq id count 1 s1) ∨
      (s1.Has seq ∧ ¬ s0.Has seq ∧ rewriteSelects id count s0 s1 =
        rewriteNext seq id count 0 s0) := by
  unfold best at hbest
  unfold rewriteSelects OtaSelect.Has
  cases h0 : otaSelectValid s0 <;> cases h1 : otaSelectValid s1 <;>
    simp only [h0, h1, Bool.false_eq_true, and_self, and_false, false_and, if_true, if_false,
      Option.some.injEq, reduceCtorEq] at hbest ⊢
  · exact .inr ⟨⟨trivial, hbest⟩, not_false, by rw [hbest]⟩
  · exact .inl ⟨⟨trivial, hbest⟩, by rw [hbest]⟩
  · by_cases hge : s0.otaSeq ≥ s1.otaSeq
    · rw [max_eq_left hge] at hbest
      exact .inl ⟨⟨trivial, hbest⟩, by simp only [if_pos hge, ← hbest]⟩
    · rw [max_eq_right (by omega)] at hbest
      exact .inr ⟨⟨trivial, hbest⟩, fun h => by omega, by simp only [if_neg hge, ← hbest]⟩

end NextSeq

/-- With a valid entry of otadata and `seq` the number that counts: the loop ends after at most as
many rounds as there are multiples of `count` up to `seq`, rounded up; the call can succeed and
cannot abort; and a call that succeeds leaves the entry with `seq` (the first one, if both have it)
and writes the least number of the slot from `seq` on, with its checksum, to the other sector. -/
theorem next_sequence_number {table : List Part} {subtype count seq : Nat} {d : Part} {m : Bytes}
    (hdata : findFirst table typeData subtypeDataOta = some d) (hshows : ShowsBoth d.pos)
    (hcount : getOtaPartitionCount table = some count) (hid : subTypeId subtype < count)
    (hbest : best (selects m).1 (selects m).2 = some seq) (hpos : 1 ≤ seq)
    (hseq : seq < 2 ^ 32 - count) :
    ∃ t, IsLeast {v | seq ≤ v ∧ (v - 1) % count = subTypeId subtype} t ∧
      (∃ rounds ≤ (seq + count - 1) / count,
        seqLoop seq (subTypeId subtype) count (rounds + 1) 0 = some t) ∧
      (espRewriteOtaData table subtype).Safe OtaOp.Effect m ∧
      (∃ m', (espRewriteOtaData table subtype).Ends OtaOp.Effect m .ok m') ∧
      ∀ m', (espRewriteOtaData table subtype).Ends OtaOp.Effect m .ok m' →
        ((selects m).1.Has seq ∧ (selects m').1 = (selects m).1 ∧ Wrote (selects m').2 t) ∨
        ((selects m).2.Has seq ∧ ¬ (selects m).1.Has seq ∧ (selects m').2 = (selects m).2 ∧
          Wrote (selects m').1 t) := by
  have hleast := leastFrom_isLeast hid hpos
  have hlt : leastFrom seq (subTypeId subtype) count < 2 ^ 32 := by
    have hmod : (subTypeId subtype + 1 + count - seq % count) % count < count :=
      Nat.mod_lt _ (by omega)
    rw [leastFrom]
    omega
  have hnext := nextSeq_least hid hlt
  have hprog : espRewriteOtaData table subtype = (copySelects d.pos).bind fun r =>
      if r.1 ≠ .ok then Prog.ret r.1 else rewriteSelects (subTypeId subtype) count r.2.1 r.2.2 := by
    simp only [espRewriteOtaData, hdata, hcount, if_neg (Nat.not_le.mpr hid)]
    rfl
  have hloop : ∀ seq', best (selects m).1 (selects m).2 = some seq' →
      nextSeq seq' (subTypeId subtype) count ≠ none := by
    intro seq' hseq'
    rw [hbest, Option.some.injEq] at hseq'
    rw [← hseq', hnext]
    simp
  obtain ⟨hsafe, hends⟩ := @rewriteCopied_iff m (subTypeId subtype) count _ hshows
  rw [hprog]
  refine ⟨_, hleast, seqLoop_rounds hid (by omega), hsafe.mpr (rewriteSelects_safe_iff.mpr hloop),
    ?_,
    fun m' hm' => ?_⟩
  · obtain ⟨m', hm'⟩ := rewriteSelects_can hloop
    exact ⟨m', (hends m').mpr hm'⟩
  · have hm' := (hends m').mp hm'
    rcases rewriteSelects_sector hbest with ⟨hhas, heq⟩ | ⟨hhas, hnot, heq⟩
    · rw [heq, rewriteNext, hnext, rewriteOtaSeq_ends_iff] at hm'
      obtain ⟨-, hwrote, hkept⟩ := @selects_rewritten m _ (selects m).2 hlt
        (by simp [selects, OtaSelect.ofBytes])
      rw [hm']
      exact .inl ⟨hhas, hkept, hwrote⟩
    · rw [heq, rewriteNext, hnext, rewriteOtaSeq_ends_iff] at hm'
      obtain ⟨⟨hwrote, hkept⟩, -⟩ := @selects_rewritten m _ (selects m).1 hlt
        (by simp [selects, OtaSelect.ofBytes])
      rw [hm']
      exact .inr ⟨hhas, hnot, hkept, hwrote⟩

theorem next_sequence_number_two : ∃ t,
    IsLeast {v | 1 ≤ v ∧ (v - 1) % 2 = 1} t ∧ (espRewriteOtaData
      [⟨typeData, subtypeDataOta, ⟨0xd000, 0x2000⟩, []⟩, ⟨typeApp, 0x10, ⟨0x10000, 0x10000⟩, []⟩,
        ⟨typeApp, 0x11, ⟨0x20000, 0x10000⟩, []⟩] 0x11).Safe OtaOp.Effect
      (rewritten (fun _ => 0xff) 0 1 ⟨0, List.replicate 24 0xff, 0⟩) := by
  obtain ⟨t, hleast, -, hsafe, -⟩ := @next_sequence_number
    [⟨typeData, subtypeDataOta, ⟨0xd000, 0x2000⟩, []⟩, ⟨typeApp, 0x10, ⟨0x10000, 0x10000⟩, []⟩,
      ⟨typeApp, 0x11, ⟨0x20000, 0x10000⟩, []⟩] 0x11 2 1
        ⟨typeData, subtypeDataOta, ⟨0xd000, 0x2000⟩, []⟩
    (rewritten (fun _ => 0xff) 0 1 ⟨0, List.replicate 24 0xff, 0⟩)
    (by decide) (by decide) (by decide) (by decide) (by decide +kernel) (by decide) (by decide)
  exact ⟨t, hleast, hsafe⟩

theorem rounds_exceed_count : seqLoop 2 0 1 2 0 = none ∧ seqLoop 2 0 1 3 0 = some 2 := by
  decide

end EspIdf.Ota
