import EspIdf.Ota.Boot
import Mathlib.Data.List.Perm.Subperm

/-! Boot loader and application read otadata with separate code: the one counts every OTA slot of
the table and keeps the last entry of each number, the other counts from `ota_0` on and takes the
first.  For which tables do they agree whatever otadata holds? -/

namespace EspIdf.Ota

open EspIdf.Device

/-! ### Accepted tables -/

structure PartInfo where
  magic : Nat
  part : Part

def maxEntries : Nat := 0xc00 / 32

def verifyLoop (chipSize : Nat) (raw : Nat → PartInfo) : Nat → Nat → Except EspErr Nat
  | 0, _ => .error .invalidState
  | n + 1, k =>
    let part := raw k
    if part.magic = 0xffff ∧ part.part.type = 0xff ∧ part.part.subtype = 0xff then .ok k
    else if part.magic ≠ 0x50aa then .error .invalidState
    else if part.part.pos.offset > chipSize ∨
        (part.part.pos.offset + part.part.pos.size) % 2 ^ 32 > chipSize then .error .invalidSize
    else verifyLoop chipSize raw n (k + 1)

/-- The number of entries, or the error. -/
def espPartitionTableBasicVerify (chipSize : Nat) (raw : Nat → PartInfo) : Except EspErr Nat :=
  verifyLoop chipSize raw maxEntries 0

def tableOf (raw : Nat → PartInfo) (n : Nat) : List Part := (List.range n).map fun k => (raw k).part

theorem verifyLoop_le {chipSize : Nat} : ∀ {n k : Nat},
    verifyLoop chipSize raw n k = .ok num → num ≤ k + n := by
  intro n
  induction n with
  | zero => exact fun h => nomatch h
  | succ n ih =>
    intro k h
    simp only [verifyLoop] at h
    split_ifs at h with h1 h2 h3
    · cases h
      omega
    · have := ih h
      omega

/-! ### The selection of the boot loader -/

def Blank (sa sb : OtaSelect) : Prop := sa.otaSeq = 0xffffffff ∧ sb.otaSeq = 0xffffffff

instance (sa sb : OtaSelect) : Decidable (Blank sa sb) := inferInstanceAs (Decidable (_ ∧ _))

/-- The selection takes a sequence number modulo `app_count`, which is 0. -/
def DividesByZero (bs : BootloaderState) (sa sb : OtaSelect) : Prop :=
  Readable bs.otaInfo ∧ (best sa sb).isSome ∧ bs.appCount = 0

/-- The index into `bs.ota` that the selection uses, if it uses one. -/
def selectedIndex (bs : BootloaderState) (sa sb : OtaSelect) : Option Nat :=
  if Readable bs.otaInfo then
    if Blank sa sb then
      if bs.factory.offset ≠ 0 then none else some 0
    else (best sa sb).map (pred32 · % bs.appCount)
  else none

/-- The contents of otadata when the application starts: without a factory partition the boot loader
writes the sequence numbers 1 and 0 to an empty otadata. -/
def otadataAfter (bs : BootloaderState) (m : Bytes) : Bytes :=
  let (sa, sb) := selects m
  if Readable bs.otaInfo ∧ Blank sa sb ∧ bs.factory.offset = 0 then
    let sa := { sa with otaSeq := 1, crc := otaSelectCrc 1 }
    let sb := { sb with otaSeq := 0, crc := otaSelectCrc 0 }
    (((m.erase 0 secSize).erase secSize secSize).program 0 sa.bytes).program secSize sb.bytes
  else m

/-- The boot loader does not divide by zero, uses only slots of the table, and whatever it boots,
the application takes for booted, whatever it can read of otadata. -/
structure BootRight (table : List Part) (m : Bytes) : Prop where
  divides : ¬ DividesByZero (loadPartitionTable table) (selects m).1 (selects m).2
  present : ∀ i, selectedIndex (loadPartitionTable table) (selects m).1 (selects m).2 = some i →
    ∃ p ∈ table, p.IsOta ∧ p.subtype = subtypeAppOtaMin + i
  agrees : ∀ pos, selectPart (loadPartitionTable table) (selects m).1 (selects m).2 = some pos →
    ∀ d r, findFirst table typeData subtypeDataOta = some d →
      Shown d.pos (otadataAfter (loadPartitionTable table) m) r →
      ∃ p, espOtaGetBootPartition table r.1 r.2 = some (some p) ∧ p.pos = pos

/-- The first and the last factory entry have one position, or the last is at offset 0, which the
boot loader takes for none. -/
def FactoryOk (table : List Part) : Prop :=
  ∀ p, (table.filter fun p => p.type = typeApp ∧ p.subtype = subtypeAppFactory).getLast? = some p →
    p.pos.offset ≠ 0 → ∃ q, findFirst table typeApp subtypeAppFactory = some q ∧ q.pos = p.pos

theorem factoryOk_iff : FactoryOk table ↔ ((loadPartitionTable table).factory.offset ≠ 0 →
      ∃ q, findFirst table typeApp subtypeAppFactory = some q ∧
        q.pos = (loadPartitionTable table).factory) := by
  rw [FactoryOk, factory_eq]
  cases (table.filter fun p => p.type = typeApp ∧ p.subtype = subtypeAppFactory).getLast? with
  | none => simp
  | some p => simp

/-! ### Entries in flash -/

theorem program_erase_comm {m : Bytes} {a b n : Nat} {bs : List UInt8} (h : a + bs.length ≤ b) :
    (m.erase b n).program a bs = (m.program a bs).erase b n := by
  funext x
  by_cases hx : b ≤ x ∧ x < b + n
  · rw [Bytes.erase_in hx.1 hx.2, Bytes.program_out (by omega), Bytes.erase_in hx.1 hx.2]
  · rw [Bytes.erase_out (by omega), Bytes.program, Bytes.erase_out (by omega), Bytes.program]

theorem length_seqLabel (m : Bytes) :
    (selects m).1.seqLabel.length = 24 ∧ (selects m).2.seqLabel.length = 24 := by
  simp [selects, OtaSelect.ofBytes]

theorem best_otadataAfter {bs : BootloaderState} {m : Bytes} (hread : Readable bs.otaInfo)
    (hblank : Blank (selects m).1 (selects m).2)
    (hfactory : bs.factory.offset = 0) :
    best (selects (otadataAfter bs m)).1 (selects (otadataAfter bs m)).2 = some 1 := by
  obtain ⟨hlabel0, hlabel1⟩ := length_seqLabel m
  have hlen : (OtaSelect.bytes { (selects m).1 with otaSeq := 1, crc := otaSelectCrc 1 }).length =
      32 :=
    length_bytes hlabel0
  have hafter : otadataAfter bs m = rewritten (rewritten m 0 1 (selects m).1) 1 0
      (selects m).2 := by
    simp only [otadataAfter, rewritten]
    rw [if_pos ⟨hread, hblank, hfactory⟩, program_erase_comm (by rw [hlen]; decide)]
    rfl
  obtain ⟨⟨hw0, -⟩, -⟩ := @selects_rewritten m 1 (selects m).1 (by decide) hlabel0
  obtain ⟨-, hw1, hother⟩ := @selects_rewritten (rewritten m 0 1 (selects m).1) 0 (selects m).2
    (by decide) hlabel1
  rw [← hafter] at hw1 hother
  rw [← hother] at hw0
  rw [best, if_pos ⟨hw0.valid_iff.mpr (by decide), hw1.valid_iff.mpr (by decide)⟩, hw0.otaSeq,
    hw1.otaSeq]
  rfl

theorem exists_best (hv : v < 0xffffffff) : ∃ m : Bytes, best (selects m).1 (selects m).2 =
    some v := by
  obtain ⟨hlabel, -⟩ := length_seqLabel blankFlash
  obtain ⟨⟨hw, hother⟩, -⟩ := @selects_rewritten blankFlash v (selects blankFlash).1
    (by omega) hlabel
  refine ⟨rewritten blankFlash 0 v (selects blankFlash).1, ?_⟩
  have hinvalid : otaSelectValid (selects blankFlash).2 = false := rfl
  rw [best, hother, hinvalid, if_neg (by simp), if_pos (hw.valid_iff.mpr (by omega)), hw.otaSeq]

theorem not_blank_of_best (h : best sa sb = some v) : ¬ Blank sa sb := by
  rintro ⟨h0, h1⟩
  have hv0 : otaSelectValid sa = false := by simp [otaSelectValid, h0]
  have hv1 : otaSelectValid sb = false := by simp [otaSelectValid, h1]
  simp [best, hv0, hv1] at h

/-! ### Tables for which they agree -/

section Table

variable {table : List Part} {n : Nat}

theorem TableOk.slot_booted (h : TableOk table n) (hk : k < n) :
    ∃ p ∈ table, p.IsOta ∧ p.subtype = subtypeAppOtaMin + k ∧
      findFirst table typeApp (subtypeAppOtaMin + k) = some p ∧
      p.pos = (loadPartitionTable table).ota k := by
  obtain ⟨p, hp, hota, hsub, hfind⟩ := h.findSlot hk
  refine ⟨p, hp, hota, hsub, hfind, ?_⟩
  have hle := h.le
  have hid : subTypeId p.subtype = k := by
    rw [subTypeId, hsub, subtypeAppOtaMin]
    omega
  rw [← h.ota_eq hp hota, hid]

theorem TableOk.getBoot_none (h : TableOk table n) (habort : ¬ Aborts table n)
    (hbest : best s0 s1 = none) :
    espOtaGetBootPartition table s0 s1 = some (findFirst table typeApp subtypeAppFactory) := by
  obtain ⟨d, hd, -⟩ := h.findOtadata
  unfold best at hbest
  unfold espOtaGetBootPartition
  simp only [hd, h.count_eq.2 habort]
  split_ifs at hbest ⊢ <;> rfl

theorem TableOk.bootRight (h : TableOk table n) (habort : ¬ Aborts table n)
    (hfactory : FactoryOk table)
    (m : Bytes) : BootRight table m := by
  have hread := h.otaInfo_readable
  have hpos := h.pos
  -- the mapping shows both entries
  suffices hshown : ¬ DividesByZero (loadPartitionTable table) (selects m).1 (selects m).2 ∧
      (∀ i, selectedIndex (loadPartitionTable table) (selects m).1 (selects m).2 = some i →
        ∃ p ∈ table, p.IsOta ∧ p.subtype = subtypeAppOtaMin + i) ∧
      ∀ pos, selectPart (loadPartitionTable table) (selects m).1 (selects m).2 = some pos →
        ∃ p, espOtaGetBootPartition table (selects (otadataAfter (loadPartitionTable table) m)).1
          (selects (otadataAfter (loadPartitionTable table) m)).2 = some (some p) ∧ p.pos = pos by
    obtain ⟨d, hd, -, hplaced⟩ := h.findOtadata
    refine ⟨hshown.1, hshown.2.1, fun pos hsel d' r hd' hr => ?_⟩
    obtain rfl : d = d' := Option.some.inj (hd.symm.trans hd')
    rw [hplaced.shows.shown_iff.mp hr]
    exact hshown.2.2 pos hsel
  rw [factoryOk_iff] at hfactory
  cases hbest : best (selects m).1 (selects m).2 with
  | some v =>
    have hblank := not_blank_of_best hbest
    have hlt : pred32 v % n < n := Nat.mod_lt _ hpos
    obtain ⟨p, hp, hota, hsub, hfind, hppos⟩ := h.slot_booted hlt
    obtain ⟨hget, hload⟩ := h.booted habort hbest
    refine ⟨?_, ?_, ?_⟩
    · rintro ⟨-, -, hzero⟩
      rw [h.appCount_eq] at hzero
      omega
    · intro i hi
      rw [selectedIndex, if_pos hread, if_neg hblank, hbest, Option.map_some, h.appCount_eq,
        Option.some.injEq] at hi
      exact ⟨p, hp, hota, hi ▸ hsub⟩
    · intro pos hpos'
      have hafter : otadataAfter (loadPartitionTable table) m = m := if_neg fun hc => hblank hc.2.1
      rw [hload, Option.some.injEq] at hpos'
      rw [hafter, hget, hfind]
      exact ⟨p, rfl, hppos.trans hpos'⟩
  | none =>
    have hdivides : ¬ DividesByZero (loadPartitionTable table) (selects m).1 (selects m).2 := by
      rintro ⟨-, hsome, -⟩
      rw [hbest] at hsome
      cases hsome
    obtain ⟨p, hp, hota, hsub, hfind, hppos⟩ := h.slot_booted hpos
    refine ⟨hdivides, ?_, ?_⟩
    · intro i hi
      rw [selectedIndex, hbest, Option.map_none] at hi
      split_ifs at hi
      cases hi
      exact ⟨p, hp, hota, hsub⟩
    · intro pos hpos'
      by_cases hf : (loadPartitionTable table).factory.offset ≠ 0
      · obtain ⟨q, hq, hqpos⟩ := hfactory hf
        have hafter : otadataAfter (loadPartitionTable table) m = m := if_neg fun hc => hf hc.2.2
        have hload : pos = (loadPartitionTable table).factory := by
          unfold best at hbest
          rw [selectPart_readable hread] at hpos'
          unfold selectEntry at hpos'
          split_ifs at hbest hpos' <;> exact (Option.some.inj hpos').symm
        rw [hafter, h.getBoot_none habort hbest, hq]
        exact ⟨q, rfl, hqpos.trans hload.symm⟩
      · -- the boot loader writes otadata
        have hload : Blank (selects m).1 (selects m).2 ∧
            pos = (loadPartitionTable table).ota 0 := by
          rw [selectPart_readable hread] at hpos'
          unfold selectEntry at hpos'
          by_cases hb : (selects m).1.otaSeq = 0xffffffff ∧ (selects m).2.otaSeq = 0xffffffff
          · rw [if_pos hb, if_neg hf] at hpos'
            exact ⟨hb, (Option.some.inj hpos').symm⟩
          · unfold best at hbest
            split_ifs at hbest hpos'
        obtain ⟨hget, -⟩ := h.booted habort (best_otadataAfter hread hload.1 (not_not.mp hf))
        have hslot : pred32 1 % n = 0 := by
          rw [show pred32 1 = 0 from rfl, Nat.zero_mod]
        rw [hget, hslot, hfind]
        exact ⟨p, rfl, hppos.trans hload.2.symm⟩

theorem slots_of_bootRight (hlen : table.length < 0xfffffffe)
    (hread : Readable (loadPartitionTable table).otaInfo) (h : ∀ m, BootRight table m) :
    1 ≤ (table.filter (·.IsOta)).length ∧ (table.filter (·.IsOta)).length ≤ 16 ∧
      ((table.filter (·.IsOta)).map Part.subtype).Perm
        ((List.range (table.filter (·.IsOta)).length).map (subtypeAppOtaMin + ·)) := by
  have happ : (loadPartitionTable table).appCount = (table.filter (·.IsOta)).length := by
    rw [loadPartitionTable, foldl_loadEntry_appCount, Nat.zero_add]
  have hcount : (table.filter (·.IsOta)).length ≤ table.length := List.length_filter_le _ _
  generalize hN : (table.filter (·.IsOta)).length = N at *
  have hpos : 1 ≤ N := by
    by_contra hzero
    obtain ⟨m, hm⟩ := exists_best (v := 1) (by decide)
    exact (h m).divides ⟨hread, by rw [hm]; rfl, by omega⟩
  have hslot : ∀ i < N, ∃ p ∈ table, p.IsOta ∧ p.subtype = subtypeAppOtaMin + i := by
    intro i hi
    obtain ⟨m, hm⟩ := exists_best (v := i + 1) (by omega)
    refine (h m).present i ?_
    have hpred : pred32 (i + 1) = i := by
      rw [pred32]
      omega
    rw [selectedIndex, if_pos hread, if_neg (not_blank_of_best hm), hm, Option.map_some, happ,
      hpred, Nat.mod_eq_of_lt hi]
  refine ⟨hpos, ?_, ?_⟩
  · obtain ⟨p, -, hota, hsub⟩ := hslot (N - 1) (by omega)
    have := hota.2
    rw [hsub, subtypeAppOtaMin] at this
    omega
  · have hnodup : ((List.range N).map (subtypeAppOtaMin + ·)).Nodup :=
      List.Nodup.map (fun a b hab => by simpa using hab) List.nodup_range
    have hsub : (List.range N).map (subtypeAppOtaMin + ·) ⊆
        (table.filter (·.IsOta)).map Part.subtype := by
      intro x hx
      obtain ⟨i, hi, rfl⟩ := List.mem_map.mp hx
      obtain ⟨p, hp, hota, hps⟩ := hslot i (List.mem_range.mp hi)
      exact List.mem_map.mpr ⟨p, List.mem_filter.mpr ⟨hp, by simpa using hota⟩, hps⟩
    exact ((hnodup.subperm hsub).perm_of_length_le (by simp [hN])).symm

end Table

theorem blank_blankFlash : (selects blankFlash).1.otaSeq = 0xffffffff ∧
    (selects blankFlash).2.otaSeq = 0xffffffff := by decide

/-- A table whose otadata is larger than what `bootloader_mmap` maps boots nothing. -/
theorem bootRight_of_large (hread : bootloaderMmapMax < (loadPartitionTable table).otaInfo.size)
    (hoff : (loadPartitionTable table).otaInfo.offset ≠ 0) (m : Bytes) : BootRight table m where
  divides h := absurd h.1.2.2 (by omega)
  present i h := by
    rw [selectedIndex, if_neg fun h => absurd h.2.2 (by omega)] at h
    cases h
  agrees pos h := by
    rw [selectPart, if_pos hoff, if_pos hread] at h
    split_ifs at h

/-- For an accepted table with one otadata partition, at an offset that is not 0, of at least two
sectors, and with both entries in the application's mapping: boot loader and application agree for
all contents of otadata exactly if the OTA slots are `ota_0` to `ota_(n - 1)`, each once, the
factory entries have one position, and there are not both 16 slots and a test partition; or otadata
is too large for the boot loader, which then boots nothing. -/
theorem boot_agrees_iff {chipSize num : Nat} {raw : Nat → PartInfo}
    (hverify : espPartitionTableBasicVerify chipSize raw = .ok num) {d : Part}
    (hotadata : (tableOf raw num).filter (fun p => p.type = typeData ∧ p.subtype = subtypeDataOta) =
    [d])
    (hoff : d.pos.offset ≠ 0) (hsize : 2 * secSize ≤ d.pos.size) (hplaced : Placed d.pos) :
    (∀ m, BootRight (tableOf raw num) m) ↔ bootloaderMmapMax < d.pos.size ∨
      ∃ n, TableOk (tableOf raw num) n ∧ ¬ Aborts (tableOf raw num) n ∧
        FactoryOk (tableOf raw num) := by
  have hinfo := otaInfo_single hotadata
  by_cases hlarge : bootloaderMmapMax < d.pos.size
  · exact iff_of_true (bootRight_of_large (hinfo ▸ hlarge) (hinfo ▸ hoff)) (.inl hlarge)
  rw [or_iff_right hlarge]
  constructor
  · intro hright
    have hread : Readable d.pos := ⟨hoff, hsize, Nat.not_lt.mp hlarge⟩
    have hread' : Readable (loadPartitionTable (tableOf raw num)).otaInfo := hinfo ▸ hread
    have hnum : num ≤ 0 + maxEntries := verifyLoop_le hverify
    have hlen : (tableOf raw num).length < 0xfffffffe := by
      rw [tableOf, List.length_map, List.length_range]
      exact Nat.lt_of_le_of_lt hnum (by decide)
    obtain ⟨hpos, hle, hslots⟩ := slots_of_bootRight hlen hread' hright
    obtain ⟨n, htable⟩ : ∃ n, TableOk (tableOf raw num) n :=
      ⟨_, hpos, hle, hslots, d, hotadata, hread, hplaced⟩
    -- an empty otadata shows the rest
    obtain ⟨q, hq, -, hqplaced⟩ := htable.findOtadata
    have hagrees := fun pos hsel => (hright blankFlash).agrees pos hsel q _ hq
      (hqplaced.shows.shown_iff.mpr rfl)
    have hselect : ∀ pos, pos = (if (loadPartitionTable (tableOf raw num)).factory.offset ≠ 0
          then (loadPartitionTable (tableOf raw num)).factory
          else (loadPartitionTable (tableOf raw num)).ota 0) →
        selectPart (loadPartitionTable (tableOf raw num)) (selects blankFlash).1
          (selects blankFlash).2 = some pos := by
      rintro pos rfl
      rw [selectPart_readable hread', selectEntry, if_pos blank_blankFlash]
      split_ifs <;> rfl
    have habort : ¬ Aborts (tableOf raw num) n := by
      intro habort
      obtain ⟨p, hget, -⟩ := hagrees _ (hselect _ rfl)
      simp only [espOtaGetBootPartition, hq, htable.count_eq.1 habort] at hget
      cases hget
    refine ⟨n, htable, habort, factoryOk_iff.mpr fun hf => ?_⟩
    obtain ⟨p, hget, hp⟩ := hagrees _ (hselect _ (if_pos hf).symm)
    have hafter : otadataAfter (loadPartitionTable (tableOf raw num)) blankFlash = blankFlash :=
      if_neg fun hc => hf hc.2.2
    rw [hafter, htable.getBoot_none habort best_blank, Option.some.injEq] at hget
    exact ⟨p, hget, hp⟩
  · rintro ⟨n, h, habort, hfactory⟩ m
    exact h.bootRight habort hfactory m

/-- The entries of `otaTable`, and the end of the table. -/
def otaRaw (k : Nat) : PartInfo :=
  match otaTable[k]? with
  | some p => ⟨0x50aa, p⟩
  | none => ⟨0xffff, ⟨0xff, 0xff, ⟨0, 0⟩, []⟩⟩

theorem boot_agrees_otaTable : espPartitionTableBasicVerify 0x400000 otaRaw = .ok 4 ∧
    ∀ m, BootRight (tableOf otaRaw 4) m := by
  have hverify : espPartitionTableBasicVerify 0x400000 otaRaw = .ok 4 := rfl
  refine ⟨hverify, (boot_agrees_iff hverify (d := otadataPart) (by decide) (by decide)
    (by decide) ⟨by decide, by decide⟩).mpr
      (.inr ⟨2, otaTable_ok, fun h => absurd h.1 (by decide), ?_⟩)⟩
  intro p hp
  cases hp

/-- A table with otadata and the slot `ota_1`: the sequence number 1 selects slot 0. -/
def gapRaw (k : Nat) : PartInfo :=
  match [otadataPart, ota1][k]? with
  | some p => ⟨0x50aa, p⟩
  | none => ⟨0xffff, ⟨0xff, 0xff, ⟨0, 0⟩, []⟩⟩

theorem absent_slot_selected :
    (∃ m, DividesByZero (loadPartitionTable [otadataPart]) (selects m).1 (selects m).2) ∧
    espPartitionTableBasicVerify 0x400000 gapRaw = .ok 2 ∧ tableOf gapRaw 2 = [otadataPart, ota1] ∧
    ∃ m, selectedIndex (loadPartitionTable [otadataPart, ota1]) (selects m).1 (selects m).2 =
      some 0 ∧
      ¬ ∃ p ∈ [otadataPart, ota1], p.IsOta ∧ p.subtype = subtypeAppOtaMin + 0 := by
  obtain ⟨m, hm⟩ := exists_best (v := 1) (by decide)
  refine ⟨⟨m, by decide, by rw [hm]; rfl, by decide⟩, rfl, rfl, m, ?_, by decide⟩
  rw [selectedIndex, if_neg (not_blank_of_best hm), hm]
  rfl

end EspIdf.Ota
