import EspIdf.Ota.Select
import Mathlib.Data.List.Induction

/-! The partition that is booted after `esp_ota_set_boot_partition` succeeded, by
`esp_ota_get_boot_partition` and by the boot loader. -/

namespace EspIdf.Ota

open EspIdf.Device

/-! ### Partition tables -/

def Part.IsOta (p : Part) : Prop := p.type = typeApp ∧ p.subtype / 16 = 1

instance (p : Part) : Decidable p.IsOta := inferInstanceAs (Decidable (_ ∧ _))

/-- The boot loader reads the entries of otadata at `pos`. -/
def Readable (pos : Pos) : Prop :=
  pos.offset ≠ 0 ∧ 2 * secSize ≤ pos.size ∧ pos.size ≤ bootloaderMmapMax

instance (pos : Pos) : Decidable (Readable pos) := inferInstanceAs (Decidable (_ ∧ _))

theorem selectPart_readable {bs : BootloaderState} (h : Readable bs.otaInfo) (sa sb : OtaSelect) :
    selectPart bs sa sb = selectEntry bs sa sb := by
  rw [selectPart, if_pos h.1, if_neg (Nat.not_lt.mpr h.2.1), if_neg (Nat.not_lt.mpr h.2.2)]

/-- otadata can be erased, and the mapping of it shows both entries. -/
structure Placed (pos : Pos) : Prop where
  sectors : pos.offset % secSize = 0 ∧ pos.size % secSize = 0
  shows : ShowsBoth pos

/-- The OTA slots of the table are `ota_0` to `ota_(n - 1)`, each once, and it has one otadata
partition, of at least two sectors. -/
structure TableOk (table : List Part) (n : Nat) : Prop where
  pos : 1 ≤ n
  le : n ≤ 16
  slots : ((table.filter (·.IsOta)).map Part.subtype).Perm
    ((List.range n).map (subtypeAppOtaMin + ·))
  otadata : ∃ d, table.filter (fun p => p.type = typeData ∧ p.subtype = subtypeDataOta) = [d] ∧
    Readable d.pos ∧ Placed d.pos

section Table

variable {table : List Part} {n : Nat}

theorem TableOk.findOtadata (h : TableOk table n) :
    ∃ d, findFirst table typeData subtypeDataOta = some d ∧ Readable d.pos ∧ Placed d.pos := by
  obtain ⟨d, hd, hplace⟩ := h.otadata
  refine ⟨d, ?_, hplace⟩
  have hfind := congrArg List.head? hd
  rw [List.head?_filter, List.head?_cons] at hfind
  rw [findFirst, ← hfind]
  congr 1
  funext p
  refine decide_eq_decide.mpr ⟨fun h => ⟨h.1.symm, ?_⟩, fun h => ⟨h.1.symm, .inr h.2.symm⟩⟩
  exact (h.2.resolve_left (by decide)).symm

theorem TableOk.mem_slots (h : TableOk table n) (hp : p ∈ table) (hota : p.IsOta) :
    subTypeId p.subtype < n := by
  have hmem : p.subtype ∈ (table.filter (·.IsOta)).map Part.subtype :=
    List.mem_map_of_mem (List.mem_filter.mpr ⟨hp, by simpa using hota⟩)
  obtain ⟨k, hk, heq⟩ := List.mem_map.mp (h.slots.mem_iff.mp hmem)
  have := List.mem_range.mp hk
  unfold subTypeId
  rw [← heq, subtypeAppOtaMin]
  omega

theorem TableOk.slot_unique (h : TableOk table n) (hp : p ∈ table) (hq : q ∈ table) (hpo : p.IsOta)
    (hqo : q.IsOta) (heq : p.subtype = q.subtype) : p = q := by
  have hnodup : ((table.filter (·.IsOta)).map Part.subtype).Nodup := by
    rw [h.slots.nodup_iff]
    refine List.Nodup.map (fun a b hab => ?_) List.nodup_range
    simpa using hab
  exact List.inj_on_of_nodup_map hnodup (List.mem_filter.mpr ⟨hp, by simpa using hpo⟩)
    (List.mem_filter.mpr ⟨hq, by simpa using hqo⟩) heq

theorem findFirst_some {type : Nat} (hne : subtype ≠ 0xff)
    (h : findFirst table type subtype = some p) : p ∈ table ∧ p.type = type ∧
    p.subtype = subtype := by
  have hprop := List.find?_some h
  simp only [decide_eq_true_eq] at hprop
  exact ⟨List.mem_of_find?_eq_some h, hprop.1.symm, (hprop.2.resolve_left hne).symm⟩

theorem findFirst_none {type : Nat} (hne : subtype ≠ 0xff) :
    findFirst table type subtype = none ↔ ∀ p ∈ table, ¬ (p.type = type ∧ p.subtype = subtype) := by
  unfold findFirst
  rw [List.find?_eq_none]
  refine forall₂_congr fun p _ => not_congr ?_
  simp only [decide_eq_true_eq, hne, false_or]
  exact and_congr eq_comm eq_comm

theorem TableOk.findSlot (h : TableOk table n) (hk : k < n) :
    ∃ p ∈ table, p.IsOta ∧ p.subtype = subtypeAppOtaMin + k ∧
      findFirst table typeApp (subtypeAppOtaMin + k) = some p := by
  have hle := h.le
  have hne : subtypeAppOtaMin + k ≠ 0xff := by
    rw [subtypeAppOtaMin]
    omega
  have hmem : subtypeAppOtaMin + k ∈ (table.filter (·.IsOta)).map Part.subtype :=
    h.slots.mem_iff.mpr (List.mem_map_of_mem (List.mem_range.mpr hk))
  obtain ⟨p, hp, hsub⟩ := List.mem_map.mp hmem
  obtain ⟨hp, hota⟩ := List.mem_filter.mp hp
  have hota : p.IsOta := by simpa using hota
  cases hfind : findFirst table typeApp (subtypeAppOtaMin + k) with
  | none => exact absurd ⟨hota.1, hsub⟩ ((findFirst_none hne).mp hfind p hp)
  | some q =>
    obtain ⟨hq, htype, hqsub⟩ := findFirst_some hne hfind
    have hqota : q.IsOta := ⟨htype, by rw [hqsub, subtypeAppOtaMin]; omega⟩
    exact ⟨p, hp, hota, hsub, by rw [h.slot_unique hq hp hqota hota (hqsub.trans hsub.symm)]⟩

theorem TableOk.noSlot (h : TableOk table n) (hk : n ≤ k) (hlt : k < 16) :
    findFirst table typeApp (subtypeAppOtaMin + k) = none := by
  rw [findFirst_none (by rw [subtypeAppOtaMin]; omega)]
  rintro p hp ⟨htype, hsub⟩
  have := h.mem_slots hp ⟨htype, by rw [hsub, subtypeAppOtaMin]; omega⟩
  rw [subTypeId, hsub, subtypeAppOtaMin] at this
  omega

def Aborts (table : List Part) (n : Nat) : Prop :=
  n = 16 ∧ ∃ p ∈ table, p.type = typeApp ∧ p.subtype = subtypeAppTest

theorem TableOk.countLoop_eq (h : TableOk table n) (hk : k ≤ n) (hr : n < rounds + k) :
    (Aborts table n → countLoop table rounds k = none) ∧
      (¬ Aborts table n → countLoop table rounds k = some n) := by
  have hle := h.le
  induction rounds generalizing k with
  | zero => omega
  | succ rounds ih =>
    unfold countLoop
    by_cases hkn : k = n
    · subst hkn
      by_cases h16 : k = 16
      · have hiff : (∃ p ∈ table, p.type = typeApp ∧ p.subtype = subtypeAppTest) ↔
            ¬ findFirst table typeApp (subtypeAppOtaMin + k) = none := by
          rw [findFirst_none (by rw [subtypeAppOtaMin]; omega), h16]
          simp [subtypeAppOtaMin, subtypeAppTest]
        constructor
        · intro ha
          have := hiff.mp ha.2
          rw [if_neg (by simpa using this), if_pos (by omega)]
        · intro ha
          have : findFirst table typeApp (subtypeAppOtaMin + k) = none := by
            by_contra hne
            exact ha ⟨h16, hiff.mpr hne⟩
          rw [if_pos (by simp [this])]
      · rw [h.noSlot (Nat.le_refl _) (by omega)]
        exact ⟨fun ha => absurd ha.1 h16, fun _ => rfl⟩
    · obtain ⟨p, -, -, -, hfind⟩ := h.findSlot (show k < n by omega)
      rw [hfind, if_neg (by simp), if_neg (by omega)]
      exact ih (by omega) (by omega)

theorem TableOk.count_eq (h : TableOk table n) :
    (Aborts table n → getOtaPartitionCount table = none) ∧
    (¬ Aborts table n → getOtaPartitionCount table = some n) :=
  h.countLoop_eq (Nat.zero_le _) (by have := h.le; omega)

/-! ### The boot loader's state -/

theorem foldl_loadEntry_pos (f : BootloaderState → Pos) (q : Part → Bool)
    (hf : ∀ bs p, f (loadEntry bs p) = if q p then p.pos else f bs) (bs : BootloaderState) :
    f (table.foldl loadEntry bs) = (((table.filter q).getLast?).map Part.pos).getD (f bs) := by
  induction table using List.reverseRecOn with
  | nil => rfl
  | append_singleton l p ih =>
    rw [List.foldl_append, List.foldl_cons, List.foldl_nil, hf, List.filter_append]
    cases hq : q p
    · simp only [Bool.false_eq_true, if_false,
        List.filter_cons_of_neg (by simp [hq] : ¬ q p = true),
        List.filter_nil, List.append_nil, ih]
    · simp only [if_true, List.filter_cons_of_pos hq, List.filter_nil, List.getLast?_append,
        List.getLast?_singleton, Option.some_or, Option.map_some, Option.getD_some]

theorem foldl_loadEntry_appCount (bs : BootloaderState) :
    (table.foldl loadEntry bs).appCount = bs.appCount + (table.filter (·.IsOta)).length := by
  induction table generalizing bs with
  | nil => rfl
  | cons p l ih =>
    rw [List.foldl_cons, ih]
    by_cases hota : p.IsOta
    · have hstep : (loadEntry bs p).appCount = bs.appCount + 1 := by
        have h1 := hota.1
        have h2 := hota.2
        have hf : p.subtype ≠ subtypeAppFactory := by rw [subtypeAppFactory]; omega
        have ht : p.subtype ≠ subtypeAppTest := by rw [subtypeAppTest]; omega
        rw [loadEntry, if_pos h1, if_neg hf, if_neg ht, if_pos h2]
      rw [List.filter_cons_of_pos (by simpa using hota), List.length_cons]
      omega
    · have hstep : (loadEntry bs p).appCount = bs.appCount := by
        unfold loadEntry
        split_ifs with h1 h2 h3 h4 <;> first | rfl | exact absurd ⟨h1, h4⟩ hota
      rw [hstep, List.filter_cons_of_neg (by simpa using hota)]

theorem TableOk.appCount_eq (h : TableOk table n) : (loadPartitionTable table).appCount = n := by
  have hlen := h.slots.length_eq
  rw [List.length_map, List.length_map, List.length_range] at hlen
  rw [loadPartitionTable, foldl_loadEntry_appCount, hlen, Nat.zero_add]

theorem otaInfo_single (hd : table.filter
    (fun p => p.type = typeData ∧ p.subtype = subtypeDataOta) = [d]) :
    (loadPartitionTable table).otaInfo = d.pos := by
  have hpos := @foldl_loadEntry_pos table BootloaderState.otaInfo
    (fun p => p.type = typeData ∧ p.subtype = subtypeDataOta) (fun bs p => by
      unfold loadEntry
      by_cases h1 : p.type = typeApp
      · split_ifs with h3 h4 h5 h6 <;> first | rfl | simp_all [typeApp, typeData]
      · split_ifs <;> simp_all) ⟨⟨0, 0⟩, ⟨0, 0⟩, ⟨0, 0⟩, fun _ => ⟨0, 0⟩, 0⟩
  rw [hd] at hpos
  exact hpos

theorem TableOk.otaInfo_readable (h : TableOk table n) :
    Readable (loadPartitionTable table).otaInfo := by
  obtain ⟨d, hd, hread, -⟩ := h.otadata
  rw [otaInfo_single hd]
  exact hread

theorem factory_eq : (loadPartitionTable table).factory =
    (((table.filter fun p => p.type = typeApp ∧ p.subtype = subtypeAppFactory).getLast?).map
      Part.pos).getD ⟨0, 0⟩ :=
  foldl_loadEntry_pos BootloaderState.factory _ (fun bs p => by
    unfold loadEntry
    split_ifs <;> simp_all) _

theorem TableOk.ota_eq (h : TableOk table n) (hp : p ∈ table) (hota : p.IsOta) :
    (loadPartitionTable table).ota (subTypeId p.subtype) = p.pos := by
  have hpos := @foldl_loadEntry_pos table (fun bs => bs.ota (subTypeId p.subtype))
    (fun q => q.IsOta ∧ subTypeId q.subtype = subTypeId p.subtype) (fun bs q => by
      unfold loadEntry Part.IsOta subTypeId
      by_cases h1 : q.type = typeApp
      · by_cases h2 : q.subtype / 16 = 1
        · have hf : q.subtype ≠ subtypeAppFactory := by rw [subtypeAppFactory]; omega
          have ht : q.subtype ≠ subtypeAppTest := by rw [subtypeAppTest]; omega
          by_cases h3 : q.subtype % 16 = p.subtype % 16
          · simp [h1, h2, hf, ht, h3]
          · simp [h1, h2, hf, ht, h3, Function.update_of_ne (Ne.symm h3)]
        · simp only [h1, h2, if_true, if_false, false_and, and_false, decide_false,
            Bool.false_eq_true]
          split_ifs <;> rfl
      · simp only [h1, if_false, false_and, decide_false, Bool.false_eq_true]
        split_ifs <;> rfl) ⟨⟨0, 0⟩, ⟨0, 0⟩, ⟨0, 0⟩, fun _ => ⟨0, 0⟩, 0⟩
  refine hpos.trans ?_
  cases hlast : (table.filter fun q => q.IsOta ∧ subTypeId q.subtype =
    subTypeId p.subtype).getLast? with
  | none =>
    rw [List.getLast?_eq_none_iff, List.filter_eq_nil_iff] at hlast
    exact absurd (hlast p hp) (by simpa using hota)
  | some q =>
    obtain ⟨hq, hprop⟩ := List.mem_filter.mp (List.mem_of_getLast? hlast)
    have hprop : q.IsOta ∧ subTypeId q.subtype = subTypeId p.subtype := by simpa using hprop
    have hsub : q.subtype = p.subtype := by
      have h1 := hprop.1.2
      have h2 := hota.2
      have h3 := hprop.2
      unfold subTypeId at h3
      omega
    rw [h.slot_unique hq hp hprop.1 hota hsub]
    rfl

/-! ### What is booted -/

theorem TableOk.booted (h : TableOk table n) (habort : ¬ Aborts table n)
    (hbest : best s0 s1 = some v) :
    espOtaGetBootPartition table s0 s1 = some
      (findFirst table typeApp (subtypeAppOtaMin + pred32 v % n)) ∧
      selectPart (loadPartitionTable table) s0 s1 =
        some ((loadPartitionTable table).ota (pred32 v % n)) := by
  obtain ⟨d, hd, -⟩ := h.findOtadata
  have hn : n ≠ 0 := by have := h.pos; omega
  have hslot : ∀ seq, espOtaGetBootPartition.slot table n seq =
      some (findFirst table typeApp (subtypeAppOtaMin + pred32 seq % n)) := fun _ => if_neg hn
  -- a valid entry is not blank
  have hblank : ¬ (s0.otaSeq = 0xffffffff ∧ s1.otaSeq = 0xffffffff) := by
    rintro ⟨h0, h1⟩
    have hv0 : otaSelectValid s0 = false := by simp [otaSelectValid, h0]
    have hv1 : otaSelectValid s1 = false := by simp [otaSelectValid, h1]
    simp [best, hv0, hv1] at hbest
  rw [selectPart_readable h.otaInfo_readable]
  unfold espOtaGetBootPartition selectEntry
  simp only [hd, h.count_eq.2 habort, if_neg hblank, h.appCount_eq, hslot]
  unfold best at hbest
  split_ifs at hbest ⊢ with h1 h2 h3
  · cases hbest
    exact ⟨rfl, rfl⟩
  · cases hbest
    exact ⟨rfl, rfl⟩
  · cases hbest
    exact ⟨rfl, rfl⟩

/-- After the call, the application and the boot loader select `p`, whatever the application can
read of otadata. -/
def Selects (table : List Part) (otadata : Bytes) (p : Part) : Prop :=
  (espOtaSetBootPartition table true (some p)).Safe OtaOp.Effect otadata ∧
  ∀ otadata', (espOtaSetBootPartition table true (some p)).Ends OtaOp.Effect otadata .ok otadata' →
    (∀ d r, findFirst table typeData subtypeDataOta = some d → Shown d.pos otadata' r →
      espOtaGetBootPartition table r.1 r.2 = some (some p)) ∧
    selectPart (loadPartitionTable table) (selects otadata').1 (selects otadata').2 = some p.pos

theorem TableOk.get_shown_iff (h : TableOk table n) {otadata : Bytes} {res : Option (Option Part)} :
    (∀ d r, findFirst table typeData subtypeDataOta = some d → Shown d.pos otadata r →
      espOtaGetBootPartition table r.1 r.2 = res) ↔
      espOtaGetBootPartition table (selects otadata).1 (selects otadata).2 = res := by
  obtain ⟨d, hd, -, hplaced⟩ := h.findOtadata
  constructor
  · exact fun hall => hall d _ hd (hplaced.shows.shown_iff.mpr rfl)
  · intro hget d' r hd' hr
    obtain rfl : d = d' := Option.some.inj (hd.symm.trans hd')
    rw [hplaced.shows.shown_iff.mp hr, hget]

/-- From the current sequence number on there is one of 32 bits, other than the one that marks an
empty entry, that stands for slot `id`.  Sequence number 0 stands for the last slot only if the
number of slots divides `2 ^ 32`. -/
def SeqOk (n id : Nat) (s0 s1 : OtaSelect) : Prop :=
  ∀ seq, best s0 s1 = some seq → leastFrom seq id n < 0xffffffff ∧
    (leastFrom seq id n = 0 → 2 ^ 32 % n = 0)

/-- The condition for `p` to be selected. -/
def Selectable (table : List Part) (n : Nat) (otadata : Bytes) (p : Part) : Prop :=
  ¬ Aborts table n ∧
  if p.subtype = subtypeAppFactory then
    findFirst table typeApp subtypeAppFactory = some p ∧
      (if (loadPartitionTable table).factory.offset ≠ 0 then (loadPartitionTable table).factory
        else (loadPartitionTable table).ota 0) = p.pos
  else if p.subtype / 16 = 1 then
    SeqOk n (subTypeId p.subtype) (selects otadata).1 (selects otadata).2
  else n ≤ subTypeId p.subtype

theorem erased_otaSeq {m : Bytes} {a size : Nat} (h : a + 4 ≤ size) :
    (OtaSelect.ofBytes ((m.erase 0 size).read a 32)).otaSeq = 0xffffffff := by
  have hread : (m.erase 0 size).read a 4 = [0xff, 0xff, 0xff, 0xff] := by
    rw [Bytes.read_eq_iff]
    refine ⟨rfl, fun k hk => ?_⟩
    rw [Bytes.erase_in (by omega) (by omega)]
    match k, hk with
    | 0, _ | 1, _ | 2, _ | 3, _ => rfl
  have htake := @Bytes.read_take (m.erase 0 size) a 32 4
  have hword : ∀ bs : List UInt8, word32 bs 0 = word32 (bs.take 4) 0 := by
    intro bs
    simp [word32, List.getD_eq_getElem?_getD]
  refine (hword _).trans ?_
  rw [htake, show min 4 32 = 4 from rfl, hread]
  rfl

theorem TableOk.selects_factory (h : TableOk table n) (habort : ¬ Aborts table n) {p : Part}
    (htype : p.type = typeApp) (hsub : p.subtype = subtypeAppFactory) (otadata : Bytes) :
    Selects table otadata p ↔ findFirst table typeApp subtypeAppFactory = some p ∧
      (if (loadPartitionTable table).factory.offset ≠ 0 then (loadPartitionTable table).factory
        else (loadPartitionTable table).ota 0) = p.pos := by
  obtain ⟨d, hd, ⟨-, hdsize, -⟩, -⟩ := h.findOtadata
  have hprog : espOtaSetBootPartition table true (some p) = eraseRange 0 d.pos.size := by
    simp [espOtaSetBootPartition, htype, hsub, hd]
  have hends : ∀ m', (eraseRange 0 d.pos.size).Ends OtaOp.Effect otadata .ok m' ↔
      m' = otadata.erase 0 d.pos.size := by
    intro m'
    refine Prog.ends_op_iff.trans ⟨fun he => he.2 rfl, ?_⟩
    rintro rfl
    exact ⟨fun x hx => if_neg hx, fun _ => rfl⟩
  have hsec : 2 * secSize = 8192 := rfl
  have h0 : (selects (otadata.erase 0 d.pos.size)).1.otaSeq = 0xffffffff := erased_otaSeq (by omega)
  have h1 : (selects (otadata.erase 0 d.pos.size)).2.otaSeq = 0xffffffff :=
    erased_otaSeq (by omega)
  have hget : espOtaGetBootPartition table (selects (otadata.erase 0 d.pos.size)).1
      (selects (otadata.erase 0 d.pos.size)).2 =
        some (findFirst table typeApp subtypeAppFactory) := by
    unfold espOtaGetBootPartition
    simp only [hd, h.count_eq.2 habort, h0, h1, and_self, if_true]
  have hboot : selectPart (loadPartitionTable table) (selects (otadata.erase 0 d.pos.size)).1
      (selects (otadata.erase 0 d.pos.size)).2 =
      some (if (loadPartitionTable table).factory.offset ≠ 0 then (loadPartitionTable table).factory
        else (loadPartitionTable table).ota 0) := by
    rw [selectPart_readable h.otaInfo_readable, selectEntry, if_pos ⟨h0, h1⟩]
    split <;> rfl
  unfold Selects
  simp only [h.get_shown_iff]
  rw [hprog]
  constructor
  · rintro ⟨-, hall⟩
    obtain ⟨hg, hb⟩ := hall _ ((hends _).mpr rfl)
    rw [hget] at hg
    rw [hboot] at hb
    exact ⟨Option.some.inj hg, Option.some.inj hb⟩
  · rintro ⟨hg, hb⟩
    refine ⟨fun _ _ _ => trivial, fun m' hm' => ?_⟩
    rw [(hends m').mp hm', hget, hboot, hg, hb]
    exact ⟨rfl, rfl⟩

theorem TableOk.setBoot_prog (h : TableOk table n) (habort : ¬ Aborts table n)
    (htype : p.type = typeApp)
    (hsub : p.subtype ≠ subtypeAppFactory) (hid : subTypeId p.subtype < n) :
    ∃ d : Part, ShowsBoth d.pos ∧ espOtaSetBootPartition table true (some p) =
      (copySelects d.pos).bind fun r =>
        if r.1 ≠ .ok then Prog.ret r.1 else rewriteSelects (subTypeId p.subtype) n r.2.1 r.2.2 := by
  obtain ⟨d, hd, -, hplaced⟩ := h.findOtadata
  refine ⟨d, hplaced.shows, ?_⟩
  simp only [espOtaSetBootPartition, htype, hsub, hd, espRewriteOtaData, h.count_eq.2 habort,
    not_true_eq_false, if_false, if_true, Nat.not_le.mpr hid]
  rfl

theorem TableOk.setBoot_eq (h : TableOk table n) (habort : ¬ Aborts table n) {p : Part}
    (htype : p.type = typeApp) (hsub : p.subtype ≠ subtypeAppFactory)
    (hid : subTypeId p.subtype < n) {otadata : Bytes} :
    ((espOtaSetBootPartition table true (some p)).Safe OtaOp.Effect otadata ↔
      (rewriteSelects (subTypeId p.subtype) n (selects otadata).1 (selects otadata).2).Safe
        OtaOp.Effect otadata) ∧
    ∀ m', (espOtaSetBootPartition table true (some p)).Ends OtaOp.Effect otadata .ok m' ↔
      (rewriteSelects (subTypeId p.subtype) n (selects otadata).1 (selects otadata).2).Ends
        OtaOp.Effect otadata .ok m' := by
  obtain ⟨d, hshows, hprog⟩ := h.setBoot_prog habort htype hsub hid
  rw [hprog]
  exact rewriteCopied_iff hshows

def bestAfter (n id : Nat) : Option Nat → Option Nat
  | none => some (id + 1)
  | some seq => (nextSeq seq id n).map fun next => if next = 0xffffffff then seq else next

theorem bestAfter_some {id : Nat} (h : bestAfter n id (best s0 s1) = some v) :
    ∀ seq, best s0 s1 = some seq → nextSeq seq id n ≠ none := by
  intro seq hbest hnone
  rw [hbest, bestAfter, hnone] at h
  cases h

theorem bestAfter_iff {id : Nat} (hid : id < n) (hn : n ≤ 16)
    (hlt : ∀ seq, best s0 s1 = some seq → seq < 0xffffffff) :
    (∃ v, bestAfter n id (best s0 s1) = some v ∧ pred32 v % n = id) ↔ SeqOk n id s0 s1 := by
  unfold SeqOk
  cases hbest : best s0 s1 with
  | none =>
    refine iff_of_true ⟨id + 1, rfl, ?_⟩ (by simp)
    exact (pred32_mod_iff hid (by omega) (by omega)).mpr rfl
  | some seq =>
    have hseq := hlt seq hbest
    have hnear : leastFrom seq id n < seq + n := by
      have := Nat.mod_lt (id + 1 + n - seq % n) (show n > 0 by omega)
      unfold leastFrom
      omega
    -- the number that is already there stands for `id` only if nothing needs to be counted
    have hstay : leastFrom seq id n ≠ seq → 0 < seq → pred32 seq % n ≠ id := by
      intro hne hpos hslot
      exact hne (leastFrom_self hid ((pred32_mod_iff hid (by omega) hpos).mp hslot))
    simp only [Option.some.injEq, forall_eq', bestAfter]
    by_cases hfit : leastFrom seq id n < 2 ^ 32
    · rw [nextSeq_least hid hfit]
      simp only [Option.map_some, Option.some.injEq, exists_eq_left']
      by_cases htop : leastFrom seq id n = 0xffffffff
      · rw [if_pos htop]
        exact iff_of_false (hstay (by omega) (by omega)) (by omega)
      · rw [if_neg htop]
        by_cases hzero : leastFrom seq id n = 0
        · have hmod := leastFrom_mod seq hid
          rw [hzero] at hmod
          rw [hzero, pred32_zero_mod_iff hmod.symm hid]
          simp
        · refine iff_of_true ?_ ⟨by omega, fun h => absurd h hzero⟩
          exact (pred32_mod_iff hid hfit (by omega)).mpr (leastFrom_mod seq hid)
    · refine iff_of_false ?_ (by omega)
      rintro ⟨v, hv, hslot⟩
      obtain ⟨next, hnext, hv⟩ := Option.map_eq_some_iff.mp hv
      obtain ⟨hge, hnlt⟩ := seqLoop_some hnext
      split at hv
      · subst hv
        exact hstay (by omega) (by omega) hslot
      · subst hv
        have := leastFrom_le hid hge ((pred32_mod_iff hid hnlt (by omega)).mp hslot)
        omega

theorem best_selects_lt (h : best (selects m).1 (selects m).2 = some seq) : seq < 0xffffffff := by
  have hlt0 : (selects m).1.otaSeq < 2 ^ 32 := word32_lt _ _
  have hlt1 : (selects m).2.otaSeq < 2 ^ 32 := word32_lt _ _
  unfold best at h
  simp only [otaSelectValid_iff] at h
  split_ifs at h with hboth hfst hsnd <;> cases h <;> omega

theorem TableOk.slot_iff (h : TableOk table n) (hp : p ∈ table) (hj : j < n) :
    findFirst table typeApp (subtypeAppOtaMin + j) = some p ∧
      (loadPartitionTable table).ota j = p.pos ↔ p.IsOta ∧ j = subTypeId p.subtype := by
  have hle := h.le
  obtain ⟨q, hq, hqota, hqsub, hfind⟩ := h.findSlot hj
  have hqid : subTypeId q.subtype = j := by
    rw [subTypeId, hqsub, subtypeAppOtaMin]
    omega
  rw [hfind]
  constructor
  · rintro ⟨heq, -⟩
    cases heq
    exact ⟨hqota, hqid.symm⟩
  · rintro ⟨hota, rfl⟩
    have hsub : q.subtype = p.subtype := by
      have := hota.2
      rw [hqsub, subTypeId, subtypeAppOtaMin]
      omega
    rw [h.slot_unique hq hp hqota hota hsub]
    exact ⟨rfl, h.ota_eq hp hota⟩

theorem TableOk.selects_slot (h : TableOk table n) (habort : ¬ Aborts table n) (hp : p ∈ table)
    (htype : p.type = typeApp) (hsub : p.subtype ≠ subtypeAppFactory)
    (hid : subTypeId p.subtype < n)
    (otadata : Bytes) :
    Selects table otadata p ↔
      p.IsOta ∧ SeqOk n (subTypeId p.subtype) (selects otadata).1 (selects otadata).2 := by
  obtain ⟨hsafe, hends⟩ := @TableOk.setBoot_eq table n h habort p htype hsub hid otadata
  have hafter : ∀ m', (rewriteSelects (subTypeId p.subtype) n (selects otadata).1
      (selects otadata).2).Ends OtaOp.Effect otadata .ok m' →
      best (selects m').1 (selects m').2 =
        bestAfter n (subTypeId p.subtype) (best (selects otadata).1 (selects otadata).2) := by
    intro m' hm'
    obtain ⟨v, hv, ⟨hbest, rfl⟩ | ⟨seq, next, hbest, hnext, rfl⟩⟩ :=
      rewriteSelects_best hid h.le hm'
    · rw [hv, hbest, bestAfter]
    · rw [hv, hbest, bestAfter, hnext, Option.map_some]
  have hmod (v : Nat) : pred32 v % n < n := Nat.mod_lt _ h.pos
  -- what is selected after any run that returns OK
  have hboot : ∀ v m', best (selects m').1 (selects m').2 = some v →
      ((espOtaGetBootPartition table (selects m').1 (selects m').2 = some (some p) ∧
        selectPart (loadPartitionTable table) (selects m').1 (selects m').2 = some p.pos) ↔
      p.IsOta ∧ pred32 v % n = subTypeId p.subtype) := by
    intro v m' hv
    obtain ⟨hget, hload⟩ := h.booted habort hv
    rw [hget, hload, Option.some.injEq, Option.some.injEq]
    exact h.slot_iff hp (hmod v)
  rw [← bestAfter_iff hid h.le fun seq hseq => best_selects_lt hseq, Selects]
  simp only [h.get_shown_iff]
  constructor
  · rintro ⟨hs, hall⟩
    obtain ⟨m', hm'⟩ := rewriteSelects_can (rewriteSelects_safe_iff.mp (hsafe.mp hs))
    obtain ⟨v, hv, -⟩ := rewriteSelects_best hid h.le hm'
    obtain ⟨hota, hslot⟩ := (hboot v m' hv).mp (hall m' ((hends m').mpr hm'))
    exact ⟨hota, v, (hafter m' hm').symm.trans hv, hslot⟩
  · rintro ⟨hota, v, hv, hslot⟩
    refine ⟨hsafe.mpr (rewriteSelects_safe_iff.mpr (bestAfter_some hv)), fun m' hm' => ?_⟩
    exact (hboot v m' ((hafter m' ((hends m').mp hm')).trans hv)).mpr ⟨hota, hslot⟩

theorem TableOk.not_selects (h : TableOk table n) (habort : Aborts table n)
    (htype : p.type = typeApp)
    (otadata : Bytes) : ¬ Selects table otadata p := by
  obtain ⟨d, hd, -⟩ := h.findOtadata
  have hcount := h.count_eq.1 habort
  rw [Selects]
  simp only [h.get_shown_iff]
  rintro ⟨hsafe, hall⟩
  by_cases hsub : p.subtype = subtypeAppFactory
  · have hprog : espOtaSetBootPartition table true (some p) = eraseRange 0 d.pos.size := by
      simp [espOtaSetBootPartition, htype, hsub, hd]
    have hends : (eraseRange 0 d.pos.size).Ends OtaOp.Effect otadata .ok
        (otadata.erase 0 d.pos.size) :=
      Prog.ends_op_iff.mpr ⟨fun x hx => if_neg hx, fun _ => rfl⟩
    obtain ⟨hget, -⟩ := hall _ (hprog ▸ hends)
    simp [espOtaGetBootPartition, hd, hcount] at hget
  · have hprog : espOtaSetBootPartition table true (some p) = Prog.halt := by
      simp [espOtaSetBootPartition, htype, hsub, hd, espRewriteOtaData, hcount]
    rw [hprog] at hsafe
    exact hsafe

/-- Exactly when is the partition that was set the one that is booted. -/
theorem set_boot_selects_iff (h : TableOk table n) {p : Part} (hp : p ∈ table)
    (htype : p.type = typeApp) (otadata : Bytes) :
    Selects table otadata p ↔ Selectable table n otadata p := by
  unfold Selectable
  by_cases habort : Aborts table n
  · exact iff_of_false (h.not_selects habort htype otadata) fun hs => hs.1 habort
  rw [and_iff_right habort]
  split
  · rename_i hsub
    exact h.selects_factory habort htype hsub otadata
  · rename_i hsub
    by_cases hid : subTypeId p.subtype < n
    · rw [h.selects_slot habort hp htype hsub hid otadata]
      split
      · rename_i hota
        exact and_iff_right ⟨htype, hota⟩
      · rename_i hota
        exact iff_of_false (fun hs => hota hs.1.2) (by omega)
    · obtain ⟨d, hd, -⟩ := h.findOtadata
      have hota : ¬ p.subtype / 16 = 1 := fun hota => hid (h.mem_slots hp ⟨htype, hota⟩)
      have hprog : espOtaSetBootPartition table true (some p) = Prog.ret .invalidArg := by
        simp only [espOtaSetBootPartition, htype, hsub, hd, espRewriteOtaData, h.count_eq.2 habort,
          not_true_eq_false, if_false, if_true, Nat.not_lt.mp hid]
        rfl
      rw [if_neg hota]
      refine iff_of_true ?_ (Nat.not_lt.mp hid)
      unfold Selects
      rw [hprog]
      refine ⟨trivial, fun m' hm' => ?_⟩
      exact absurd (Prog.ends_ret_iff.mp hm').1 (by decide)

end Table

/-! ### A table with a test partition -/

def otadataPart : Part := ⟨typeData, subtypeDataOta, ⟨0xd000, 0x2000⟩, []⟩

def ota0 : Part := ⟨typeApp, subtypeAppOtaMin, ⟨0x10000, 0x100000⟩, []⟩

def ota1 : Part := ⟨typeApp, subtypeAppOtaMin + 1, ⟨0x110000, 0x100000⟩, []⟩

def testPart : Part := ⟨typeApp, subtypeAppTest, ⟨0x210000, 0x100000⟩, []⟩

def otaTable : List Part := [otadataPart, ota0, ota1, testPart]

theorem otaTable_ok : TableOk otaTable 2 where
  pos := by decide
  le := by decide
  slots := by decide
  otadata := ⟨otadataPart, by decide, by decide, by decide, by decide⟩

def blankFlash : Bytes := fun _ => 0xff

theorem best_blank : best (selects blankFlash).1 (selects blankFlash).2 = none := by
  have h0 : otaSelectValid (selects blankFlash).1 = false := rfl
  have h1 : otaSelectValid (selects blankFlash).2 = false := rfl
  simp [best, h0, h1]

theorem set_boot_selects_ota1 : TableOk otaTable 2 ∧ Selects otaTable blankFlash ota1 := by
  refine ⟨otaTable_ok, (set_boot_selects_iff otaTable_ok (by decide) rfl blankFlash).mpr ?_⟩
  refine ⟨fun h => absurd h.1 (by decide), ?_⟩
  rw [if_neg (by decide), if_pos (by decide), SeqOk, best_blank]
  simp

theorem set_boot_test_boots_ota0 : TableOk otaTable 2 ∧ testPart ∈ otaTable ∧ ota0 ≠ testPart ∧
    ∃ otadata, (espOtaSetBootPartition otaTable true (some testPart)).Ends OtaOp.Effect
      blankFlash .ok
        otadata ∧
      espOtaGetBootPartition otaTable (selects otadata).1 (selects otadata).2 = some (some ota0) ∧
      selectPart (loadPartitionTable otaTable) (selects otadata).1 (selects otadata).2 =
        some ota0.pos := by
  have habort : ¬ Aborts otaTable 2 := fun h => absurd h.1 (by decide)
  have hid : subTypeId testPart.subtype < 2 := by decide
  obtain ⟨-, hends⟩ := @TableOk.setBoot_eq _ _ otaTable_ok habort testPart rfl
    (by decide) hid blankFlash
  obtain ⟨m', hm'⟩ := @rewriteSelects_can blankFlash (subTypeId testPart.subtype) 2
    (selects blankFlash).1 (selects blankFlash).2 (by rw [best_blank]; simp)
  have hbest : best (selects m').1 (selects m').2 = some 1 := by
    obtain ⟨v, hv, ⟨-, rfl⟩ | ⟨seq, -, hsome, -⟩⟩ := rewriteSelects_best hid (by decide) hm'
    · exact hv
    · cases hsome
  obtain ⟨hget, hload⟩ := otaTable_ok.booted habort hbest
  exact ⟨otaTable_ok, by decide, by decide, m', (hends m').mpr hm', hget, hload⟩

end EspIdf.Ota
