import Mathlib.Order.Bounds.Defs
import EspIdf.PartitionTable.GenPart

/-! Where the partitions of a table lie: what `PartitionTable.verify` guarantees, and the places
that `PartitionTable.from_csv` chooses for rows without an offset. -/

namespace EspIdf.PartitionTable

open EspIdf.ListSort

section Verify

variable {py : Python} {t : List PartitionDefinition}

theorem forM_verify_iff : t.forM PartitionDefinition.verify = .ok () ↔ ∀ p ∈ t,
    p.verify = .ok () := by
  induction t with
  | nil => simp [pure, Except.pure]
  | cons p ps ih =>
    rw [List.forall_mem_cons, ← ih, List.forM]
    cases p.verify with
    | error e => simp [bind, Except.bind]
    | ok u => simp [bind, Except.bind]

theorem verify_iff : verify py t = .ok () ↔
    (∀ p ∈ t, p.verify = .ok ()) ∧ ∃ ps, sorted py t = .ok ps ∧ checkOverlaps none ps = .ok () := by
  rw [verify, ← forM_verify_iff, bind_eq_ok]
  simp only [bind_eq_ok]
  exact ⟨fun ⟨_, heach, h⟩ => ⟨heach, h⟩, fun ⟨heach, h⟩ => ⟨(), heach, h⟩⟩

theorem PartitionDefinition.verify_iff {p : PartitionDefinition} :
    p.verify = .ok () ↔ ∃ offset, p.offset = some offset ∧ offset % alignment p.type = 0 := by
  unfold PartitionDefinition.verify
  cases p.offset with
  | none => simp
  | some offset => simp

theorem checkOverlaps_some :
    checkOverlaps (some (lastOffset, lastSize)) (p :: t) = .ok () ↔
      0x5000 ≤ p.start ∧ lastOffset + lastSize ≤ p.start ∧
        checkOverlaps (some (p.start, p.size)) t = .ok () := by
  rw [checkOverlaps, PartitionDefinition.start]
  split_ifs with hbelow hoverlap
  · exact ⟨fun h => (by cases h), fun h => absurd h.1 (by omega)⟩
  · exact ⟨fun h => (by cases h), fun h => absurd h.2.1 (by omega)⟩
  · exact ⟨fun h => ⟨by omega, by omega, h⟩, fun h => h.2.2⟩

theorem checkOverlaps_none :
    checkOverlaps none (p :: t) = .ok () ↔
      0x5000 ≤ p.start ∧ checkOverlaps (some (p.start, p.size)) t = .ok () := by
  rw [checkOverlaps, PartitionDefinition.start]
  split_ifs with hbelow
  · exact ⟨fun h => (by cases h), fun h => absurd h.1 (by omega)⟩
  · exact ⟨fun h => ⟨by omega, h⟩, fun h => h.2⟩

def Apart (p q : PartitionDefinition) : Prop :=
  ∀ x, ¬ (p.start ≤ x ∧ x < p.start + p.size ∧ q.start ≤ x ∧ x < q.start + q.size)

theorem checkOverlaps_ends (hsorted : t.Pairwise fun p q => p.start ≤ q.start)
    (h : checkOverlaps (some (lastOffset, lastSize)) t = .ok ()) :
    (∀ p ∈ t, lastOffset + lastSize ≤ p.start) ∧ t.Pairwise fun p q => p.start + p.size ≤
      q.start := by
  induction t generalizing lastOffset lastSize with
  | nil => simp
  | cons p ps ih =>
    obtain ⟨hfirst, hps⟩ := List.pairwise_cons.mp hsorted
    obtain ⟨-, hlast, hrest⟩ := checkOverlaps_some.mp h
    obtain ⟨hends, hpairs⟩ := ih hps hrest
    refine ⟨List.forall_mem_cons.mpr ⟨hlast, fun q hq => hlast.trans (hfirst q hq)⟩,
      List.pairwise_cons.mpr ⟨hends, hpairs⟩⟩

theorem checkOverlaps_apart (hsorted : t.Pairwise fun p q => p.start ≤ q.start)
    (h : checkOverlaps none t = .ok ()) : t.Pairwise Apart := by
  have hpairs : t.Pairwise fun p q => p.start + p.size ≤ q.start := by
    cases t with
    | nil => exact .nil
    | cons p ps =>
      obtain ⟨hends, hpairs⟩ :=
        checkOverlaps_ends (List.pairwise_cons.mp hsorted).2 (checkOverlaps_none.mp h).2
      exact List.pairwise_cons.mpr ⟨hends, hpairs⟩
  exact hpairs.imp fun hle x hx => by omega

def Located (t : List PartitionDefinition) : Prop :=
  ∀ p ∈ t, ∃ offset, p.offset = some offset ∧ 0x5000 ≤ offset ∧ offset % alignment p.type = 0

theorem verified_located (h : verify py t = .ok ()) : Located t ∧ t.Pairwise Apart := by
  obtain ⟨heach, ps, hps, hcheck⟩ := verify_iff.mp h
  obtain ⟨hperm, hsorted⟩ := sorted_sorts hps
  constructor
  · intro p hp
    obtain ⟨offset, hoffset, halign⟩ := PartitionDefinition.verify_iff.mp (heach p hp)
    have hbehind := checkOverlaps_ok hcheck (hperm.mem_iff.mpr hp)
    rw [hoffset] at hbehind
    exact ⟨offset, hoffset, hbehind, halign⟩
  · have hsymm : ∀ {p q : PartitionDefinition}, Apart p q → Apart q p := fun h x hx =>
      h x ⟨hx.2.2.1, hx.2.2.2, hx.1, hx.2.1⟩
    exact (hperm.pairwise_iff hsymm).mp (checkOverlaps_apart hsorted hcheck)

end Verify

/-! ### Sizes -/

/-- The rows of a table with a negative size, which gives the end of the partition, have their end
behind their offset. -/
def EndsBehind : Int → List PartitionDefinition → Prop
  | _, [] => True
  | lastEnd, e :: es =>
    let offset := e.offset.getD (padded lastEnd e.type)
    (e.size < 0 → offset ≤ -e.size) ∧
      EndsBehind (offset + if e.size < 0 then -e.size - offset else e.size) es

theorem fixUp_size_iff : (∀ p ∈ fixUp lastEnd rows, 0 ≤ p.size) ↔ EndsBehind lastEnd rows := by
  induction rows generalizing lastEnd with
  | nil => simp [fixUp, EndsBehind]
  | cons e es ih =>
    rw [fixUp, List.forall_mem_cons, ih]
    refine and_congr_left fun _ => ?_
    dsimp only
    split_ifs <;> omega

/-- A verified table has its partitions behind itself, aligned and apart from each other. -/
theorem verified_table_apart (py : Python) :
    (∀ t, verify py t = .ok () → Located t ∧ t.Pairwise Apart) ∧
    (∀ b t, fromBinary b = .ok t → ∀ p ∈ t, 0 ≤ p.size) ∧
    ∀ text rows, fromCsvLines py 1 (text.splitOn 10) = .ok rows →
      ∃ t, fromCsv py text = .ok t ∧ ((∀ p ∈ t, 0 ≤ p.size) ↔ EndsBehind 0x5000 rows) := by
  refine ⟨fun t h => verified_located h, fun b t h p hp => ?_, fun text rows h =>
    ⟨_, by rw [fromCsv, h]; rfl, fixUp_size_iff⟩⟩
  obtain ⟨_, _, _, size, -, -, -, hsize⟩ := fromBinaryLoop_fields h p hp
  omega

def longPython : Python where
  int
    | 45 :: v => (intLiteral v).map (- ·)
    | v => intLiteral v
  expandvars := id
  maxLong := 0x7fffffffffffffff

theorem verified_table_apart_nvs :
    let t : List PartitionDefinition := [⟨str "factory", 0, 0, some 0x10000, 0x100000, false⟩,
      ⟨str "nvs", 1, 2, some 0x5000, 0x4000, false⟩, ⟨str "phy", 1, 1, some 0x9000, 0x1000, false⟩]
    Located t ∧ t.Pairwise Apart :=
  (verified_table_apart longPython).1 _ (by decide +kernel)

theorem negative_size_verified : ∃ t, fromCsv longPython (str "x,data,nvs,0x10000,-0x1000") =
    .ok t ∧
    verify longPython t = .ok () ∧ ∃ p ∈ t, p.size < 0 :=
  ⟨[⟨str "x", 1, 2, some 0x10000, -0xf000, false⟩], by decide +kernel, by decide +kernel, _,
    List.mem_cons_self, by decide⟩

/-! ### Rows without an offset -/

def step (type : Int) : Int := if type = appType then 0x10000 else 4

def leastStart (lastEnd type : Int) : Int := (lastEnd + (step type - 1)) / step type * step type

/-- Each partition starts at the least multiple of its type's step that is not below the end of the
one before it, or `lastEnd`. -/
def Consecutive : Int → List PartitionDefinition → Prop
  | _, [] => True
  | lastEnd, p :: ps => ∃ offset, p.offset = some offset ∧
    IsLeast {m | step p.type ∣ m ∧ lastEnd ≤ m} offset ∧ Consecutive (offset + p.size) ps

/-- The distances between the starts of neighbours, placed one after the other from `lastEnd` on,
are at most `maxLong`. -/
def GapsFit (maxLong : Int) : Int → List PartitionDefinition → Prop
  | lastEnd, e :: e' :: es =>
    leastStart (leastStart lastEnd e.type + e.size) e'.type - leastStart lastEnd e.type ≤ maxLong ∧
      GapsFit maxLong (leastStart lastEnd e.type + e.size) (e' :: es)
  | _, _ => True

section Placement

variable {py : Python} {maxLong lastEnd : Int} {rows t : List PartitionDefinition}

theorem padded_eq (lastEnd type : Int) : padded lastEnd type = leastStart lastEnd type := by
  unfold padded leastStart step
  by_cases htype : type = appType
  · simp only [if_pos htype]
    split_ifs <;> omega
  · simp only [if_neg htype]
    split_ifs <;> omega

theorem isLeast_leastStart (lastEnd type : Int) :
    IsLeast {m | step type ∣ m ∧ lastEnd ≤ m} (leastStart lastEnd type) := by
  unfold leastStart step
  by_cases htype : type = appType
  · simp only [if_pos htype]
    exact ⟨⟨by omega, by omega⟩, fun m hm => by have := hm.1; have := hm.2; omega⟩
  · simp only [if_neg htype]
    exact ⟨⟨by omega, by omega⟩, fun m hm => by have := hm.1; have := hm.2; omega⟩

theorem fixUp_cons (hoffset : e.offset = none) (hsize : 0 ≤ e.size) : fixUp lastEnd (e :: es) =
      { e with offset := some (leastStart lastEnd e.type) } ::
        fixUp (leastStart lastEnd e.type + e.size) es := by
  rw [fixUp, hoffset, Option.getD_none, padded_eq]
  simp only [if_neg (Int.not_lt.mpr hsize)]

section

variable (h : ∀ e ∈ rows, e.offset = none ∧ 0 ≤ e.size)
include h

theorem consecutive_fixUp :
    Consecutive lastEnd (fixUp lastEnd rows) := by
  induction rows generalizing lastEnd with
  | nil => trivial
  | cons e es ih =>
    obtain ⟨⟨hoffset, hsize⟩, hes⟩ := List.forall_mem_cons.mp h
    rw [fixUp_cons hoffset hsize]
    exact ⟨_, rfl, isLeast_leastStart _ _, ih hes⟩

theorem fixUp_order :
    (fixUp lastEnd rows).map (fun p => { p with offset := none }) = rows := by
  induction rows generalizing lastEnd with
  | nil => rfl
  | cons e es ih =>
    obtain ⟨⟨hoffset, hsize⟩, hes⟩ := List.forall_mem_cons.mp h
    rw [fixUp_cons hoffset hsize, List.map_cons, ih hes, ← hoffset]

theorem isChain_fixUp :
    (fixUp lastEnd rows).IsChain (fun p q => q.start - p.start ≤ maxLong) ↔
      GapsFit maxLong lastEnd rows := by
  induction rows generalizing lastEnd with
  | nil => simp [fixUp, GapsFit]
  | cons e es ih =>
    obtain ⟨⟨hoffset, hsize⟩, hes⟩ := List.forall_mem_cons.mp h
    have ih := @ih (leastStart lastEnd e.type + e.size) hes
    rw [fixUp_cons hoffset hsize]
    cases es with
    | nil => simp [fixUp, GapsFit]
    | cons e' es =>
      obtain ⟨⟨hoffset', hsize'⟩, -⟩ := List.forall_mem_cons.mp hes
      rw [fixUp_cons hoffset' hsize'] at ih ⊢
      rw [List.isChain_cons_cons, ih]
      rfl

end

theorem Consecutive.cons {p : PartitionDefinition} (h : Consecutive lastEnd (p :: t)) :
    p.verify = .ok () ∧ lastEnd ≤ p.start ∧ Consecutive (p.start + p.size) t := by
  obtain ⟨offset, hoffset, ⟨⟨hstep, hle⟩, -⟩, hrest⟩ := h
  rw [PartitionDefinition.verify_iff, PartitionDefinition.start, hoffset]
  refine ⟨⟨offset, rfl, ?_⟩, hle, hrest⟩
  unfold step at hstep
  unfold alignment
  split_ifs at hstep ⊢ <;> omega

theorem Consecutive.verify (h : Consecutive lastEnd t) : ∀ p ∈ t, p.verify = .ok () := by
  induction t generalizing lastEnd with
  | nil => simp
  | cons p ps ih => exact List.forall_mem_cons.mpr ⟨h.cons.1, ih h.cons.2.2⟩

theorem Consecutive.sorted (h : Consecutive lastEnd t) (hsize : ∀ p ∈ t, 0 ≤ p.size) :
    (∀ p ∈ t, lastEnd ≤ p.start) ∧ t.Pairwise fun p q => p.start ≤ q.start := by
  induction t generalizing lastEnd with
  | nil => simp
  | cons p ps ih =>
    obtain ⟨hp, hps⟩ := List.forall_mem_cons.mp hsize
    obtain ⟨-, hle, hrest⟩ := h.cons
    obtain ⟨hall, hpairs⟩ := ih hrest hps
    exact ⟨List.forall_mem_cons.mpr ⟨hle, fun q hq => by have := hall q hq; omega⟩,
      List.pairwise_cons.mpr ⟨fun q hq => by have := hall q hq; omega, hpairs⟩⟩

theorem Consecutive.checkOverlaps (h : Consecutive (lastOffset + lastSize) t)
    (hsize : ∀ p ∈ t, 0 ≤ p.size)
    (hlast : 0x5000 ≤ lastOffset + lastSize) :
    checkOverlaps (some (lastOffset, lastSize)) t = .ok () := by
  induction t generalizing lastOffset lastSize with
  | nil => rfl
  | cons p ps ih =>
    obtain ⟨hp, hps⟩ := List.forall_mem_cons.mp hsize
    obtain ⟨-, hle, hrest⟩ := h.cons
    exact checkOverlaps_some.mpr ⟨by omega, hle, ih hrest hps (by omega)⟩

/-- Of a list that is in order `sorted` compares the neighbours. -/
theorem sorted_ordered (h : t.Pairwise fun p q => p.start ≤ q.start) :
    (t.IsChain (fun p q => q.start - p.start ≤ py.maxLong) → sorted py t = .ok t) ∧
    (¬ t.IsChain (fun p q => q.start - p.start ≤ py.maxLong) →
      sorted py t = .error .overflowError) := by
  have hlt : ∀ p q : PartitionDefinition, p.start ≤ q.start →
      (q.lt py p = .ok false ↔ q.start - p.start ≤ py.maxLong) ∧
      (q.lt py p = .ok false ∨ q.lt py p = .error .overflowError) := by
    intro p q hle
    rw [PartitionDefinition.lt, PartitionDefinition.cmp]
    by_cases hfits : q.start - p.start ≤ py.maxLong
    · have hsign : ¬ q.start - p.start < 0 := by omega
      rw [if_pos ⟨by omega, hfits⟩]
      simp [bind, Except.bind, pure, Except.pure, hsign, hfits]
    · rw [if_neg fun hboth => hfits hboth.2]
      simp [bind, Except.bind, hfits]
  have hchain := h.isChain
  have hiff : t.IsChain (fun p q => q.start - p.start ≤ py.maxLong) ↔
      t.IsChain fun p q => q.lt py p = .ok false := by
    clear h
    induction hchain with
    | nil => simp
    | singleton => simp
    | cons_cons hle _ ih => rw [List.isChain_cons_cons, List.isChain_cons_cons, ih, (hlt _ _ hle).1]
  rw [hiff]
  exact ⟨sort_run, sort_raises (hchain.imp fun p q hle => (hlt p q hle).2)⟩

end Placement

/-- Rows without offsets and with sizes that are not negative are placed one after the other in
their order, each at the least multiple of its type's step. -/
theorem automatic_placement_iff {py : Python} {text : Str} {rows : List PartitionDefinition}
    (hrows : fromCsvLines py 1 (text.splitOn 10) = .ok rows)
    (hauto : ∀ e ∈ rows, e.offset = none ∧ 0 ≤ e.size) :
    ∃ t, fromCsv py text = .ok t ∧ t.map (fun p => { p with offset := none }) = rows ∧
      Consecutive 0x5000 t ∧ (verify py t = .ok () ↔ GapsFit py.maxLong 0x5000 rows) := by
  have hcons := @consecutive_fixUp 0x5000 rows hauto
  have hsize : ∀ p ∈ fixUp 0x5000 rows, 0 ≤ p.size := by
    intro p hp
    have hmem : { p with offset := none } ∈ rows := by
      rw [← @fixUp_order 0x5000 rows hauto]
      exact List.mem_map_of_mem hp
    exact (hauto _ hmem).2
  obtain ⟨hfits, hover⟩ := sorted_ordered (hcons.sorted hsize).2
  refine ⟨fixUp 0x5000 rows, by rw [fromCsv, hrows]; rfl, fixUp_order hauto, hcons, ?_⟩
  rw [verify_iff, ← isChain_fixUp hauto]
  constructor
  · rintro ⟨-, ps, hps, -⟩
    by_contra hchain
    rw [hover hchain] at hps
    cases hps
  · intro hchain
    refine ⟨hcons.verify, _, hfits hchain, ?_⟩
    cases ht : fixUp 0x5000 rows with
    | nil => rfl
    | cons p ps =>
      rw [ht] at hcons hsize
      obtain ⟨hp, hps⟩ := List.forall_mem_cons.mp hsize
      obtain ⟨-, hle, hrest⟩ := hcons.cons
      exact checkOverlaps_none.mpr ⟨hle, hrest.checkOverlaps hps (by omega)⟩

theorem automatic_placement_app : ∃ t, fromCsv longPython
    (str "nvs,data,nvs,,16k\nf,app,factory,,1M") = .ok t ∧
    Consecutive 0x5000 t ∧ verify longPython t = .ok () := by
  obtain ⟨t, ht, -, hcons, hverify⟩ := @automatic_placement_iff longPython
    (str "nvs,data,nvs,,16k\nf,app,factory,,1M")
    [⟨str "nvs", 1, 2, none, 0x4000, false⟩, ⟨str "f", 0, 0, none, 0x100000, false⟩]
    (by decide +kernel) (by decide +kernel)
  exact ⟨t, ht, hcons, hverify.mpr ⟨by decide +kernel, trivial⟩⟩

theorem placement_overflows : ∃ t,
    fromCsv longPython (str "a,data,nvs,,0x8000000000000000\nb,data,nvs,,4") = .ok t ∧
    verify longPython t = .error .overflowError :=
  ⟨[⟨str "a", 1, 2, some 0x5000, 0x8000000000000000, false⟩,
    ⟨str "b", 1, 2, some 0x8000000000005000, 4, false⟩], by decide +kernel, by decide +kernel⟩

end EspIdf.PartitionTable
