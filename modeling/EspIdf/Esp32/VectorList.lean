import EspIdf.Device.Runs

/-! The list of vector descriptors of `intr_alloc.c` for both processors.  `get_desc_for_int` keeps
it sorted until a descriptor would have to go before the head: then `insert_vector_desc` writes
through its `prev`, which is still `NULL`. -/

namespace EspIdf.VectorList

open EspIdf.Runs

/-- `cpu` and `intno` of a descriptor. -/
abbrev Key := Nat × Nat

/-- The loop of `insert_vector_desc` for `d` goes on behind `vd`. -/
def Before (vd d : Key) : Prop := vd.1 < d.1 ∨ vd.1 = d.1 ∧ vd.2 < d.2

instance : DecidableRel Before := fun _ _ => inferInstanceAs (Decidable (_ ∨ _))

def insertBehind (d : Key) : List Key → List Key
  | [] => [d]
  | vd :: rest => if Before vd d then vd :: insertBehind d rest else d :: vd :: rest

/-- `none` is a write through a null pointer. -/
def insertVectorDesc (d : Key) : List Key → Option (List Key)
  | [] => some [d]
  | vd :: rest => if Before vd d then some (vd :: insertBehind d rest) else none

structure Request where
  cpu : Nat
  intno : Nat
  malloc : Bool
  cpu_lt : cpu < 2
  intno_lt : intno < 32

def Request.key (r : Request) : Key := (r.cpu, r.intno)

def getDescForInt (list : List Key) (r : Request) : Option (List Key) :=
  if r.key ∈ list then some list
  else if r.malloc then insertVectorDesc r.key list
  else some list

theorem Before.trans (h : Before a b) (h' : Before b c) : Before a c := by
  unfold Before at *
  omega

theorem before_or (hne : a ≠ b) : Before a b ∨ Before b a := by
  have : ¬ (a.1 = b.1 ∧ a.2 = b.2) := fun h => hne (Prod.ext h.1 h.2)
  unfold Before
  omega

theorem mem_insertBehind : k ∈ insertBehind d list ↔ k = d ∨ k ∈ list := by
  induction list with
  | nil => simp [insertBehind]
  | cons vd rest ih =>
    rw [insertBehind]
    split
    · rw [List.mem_cons, ih, List.mem_cons]
      exact or_left_comm
    · exact List.mem_cons

theorem insertBehind_sorted (h : list.Pairwise Before) (hnew : d ∉ list) :
    (insertBehind d list).Pairwise Before := by
  induction list with
  | nil => simp [insertBehind]
  | cons vd rest ih =>
    obtain ⟨hvd, hrest⟩ := List.pairwise_cons.mp h
    rw [List.mem_cons, not_or] at hnew
    rw [insertBehind]
    split
    · refine List.pairwise_cons.mpr ⟨fun k hk => ?_, ih hrest hnew.2⟩
      rcases mem_insertBehind.mp hk with rfl | hk
      · assumption
      · exact hvd k hk
    · have hd : Before d vd := (before_or hnew.1).resolve_right ‹_›
      refine List.pairwise_cons.mpr ⟨fun k hk => ?_, h⟩
      rcases List.mem_cons.mp hk with rfl | hk
      · exact hd
      · exact hd.trans (hvd k hk)

/-- The list with its head, which no call changes. -/
structure Headed (first : Key) (list : List Key) : Prop where
  head : ∃ rest, list = first :: rest
  sorted : list.Pairwise Before

theorem Headed.step (h : Headed first list) (hafter : r.malloc = true → ¬ Before r.key first) :
    ∃ list', getDescForInt list r = some list' ∧ Headed first list' ∧
      ∀ k, k ∈ list' ↔ k ∈ list ∨ r.malloc = true ∧ r.key = k := by
  rw [getDescForInt]
  split
  case isTrue hmem =>
    exact ⟨list, rfl, h, fun k => ⟨.inl, fun hk => hk.elim id fun hk => hk.2 ▸ hmem⟩⟩
  case isFalse hmem =>
    split
    case isTrue hmalloc =>
      obtain ⟨⟨rest, rfl⟩, hsorted⟩ := h
      rw [List.mem_cons, not_or] at hmem
      have hfirst : Before first r.key := (before_or hmem.1).resolve_left (hafter hmalloc)
      have hmem' : r.key ∉ first :: rest := by simpa using hmem
      refine ⟨insertBehind r.key (first :: rest), ?_, ⟨⟨insertBehind r.key rest, ?_⟩,
        insertBehind_sorted hsorted hmem'⟩, fun k => ?_⟩
      · rw [insertVectorDesc, insertBehind, if_pos hfirst, if_pos hfirst]
      · rw [insertBehind, if_pos hfirst]
      · rw [mem_insertBehind, or_comm, eq_comm (a := k)]
        simp [hmalloc]
    case isFalse hmalloc => exact ⟨list, rfl, h, fun k => by simp [hmalloc]⟩

theorem Headed.crash (h : Headed first list) (hmalloc : r.malloc = true)
    (hbefore : Before r.key first) : getDescForInt list r = none := by
  obtain ⟨⟨rest, rfl⟩, hsorted⟩ := h
  have hback : ¬ Before first r.key := by
    unfold Before at *
    omega
  have hmem : r.key ∉ first :: rest := by
    intro hk
    rcases List.mem_cons.mp hk with hk | hk
    · rw [hk] at hbefore hback
      exact hback hbefore
    · exact hback ((List.pairwise_cons.mp hsorted).1 _ hk)
  rw [getDescForInt, if_neg hmem, if_pos hmalloc, insertVectorDesc, if_neg hback]

/-- All calls return, and the list has exactly the pairs that were requested while there was memory,
each once and in order. -/
def Kept (rs : List Request) : Prop :=
  ∃ list, run getDescForInt [] rs = some list ∧ list.Pairwise Before ∧
    ∀ k, k ∈ list ↔ ∃ r ∈ rs, r.malloc = true ∧ r.key = k

theorem Headed.run_iff (h : Headed first list) :
    (∃ list', run getDescForInt list rs = some list' ∧ list'.Pairwise Before ∧
      ∀ k, k ∈ list' ↔ k ∈ list ∨ ∃ r ∈ rs, r.malloc = true ∧ r.key = k) ↔
      ∀ r ∈ rs, r.malloc = true → ¬ Before r.key first := by
  induction rs generalizing list with
  | nil => simpa using h.sorted
  | cons r rs ih =>
    rw [List.forall_mem_cons]
    by_cases hafter : r.malloc = true → ¬ Before r.key first
    · obtain ⟨list1, hstep, hlist1, hmem⟩ := h.step hafter
      rw [and_iff_right hafter, ← ih hlist1]
      refine exists_congr fun list' => ?_
      rw [run, hstep]
      refine and_congr_right fun _ => and_congr_right fun _ => forall_congr' fun k => ?_
      simp only [hmem, or_assoc, List.mem_cons, or_and_right, exists_or, exists_eq_left]
    · have hcrash : getDescForInt list r = none := by
        simp only [not_forall, not_not] at hafter
        exact h.crash hafter.1 hafter.2
      refine iff_of_false ?_ fun hall => hafter hall.1
      rintro ⟨list', hrun, -⟩
      rw [run, hcrash] at hrun
      cases hrun

theorem Headed.single : Headed first [first] := ⟨⟨[], rfl⟩, List.pairwise_singleton _ _⟩

/-- The list is sorted and has every vector that got memory exactly if none of these belongs before
the first of them: an insertion never replaces the head. -/
theorem sorted_list_iff (rs : List Request) :
    Kept rs ↔ ∀ first ∈ rs.find? (·.malloc), ∀ r ∈ rs, r.malloc = true →
      ¬ Before r.key first.key := by
  induction rs with
  | nil => exact iff_of_true ⟨[], rfl, .nil, by simp⟩ (by simp)
  | cons r rs ih =>
    unfold Kept at *
    cases hmalloc : r.malloc with
    | false =>
      -- without memory nothing is inserted, and the list is still empty
      have hstep : getDescForInt [] r = some [] := by simp [getDescForInt, hmalloc]
      simpa [run, hstep, hmalloc] using ih
    | true =>
      have hstep : getDescForInt [] r = some [r.key] := by
        simp [getDescForInt, hmalloc, insertVectorDesc]
      have hself : ¬ Before r.key r.key := by
        unfold Before
        omega
      have hmem : ∀ k, (∃ r' ∈ r :: rs, r'.malloc = true ∧ r'.key = k) ↔
          k ∈ [r.key] ∨ ∃ r' ∈ rs, r'.malloc = true ∧ r'.key = k := fun k => by
        simp only [List.mem_cons, or_and_right, exists_or, exists_eq_left, hmalloc, true_and,
          List.not_mem_nil, or_false, @eq_comm _ k r.key]
      have hrun := @Headed.run_iff r.key [r.key] rs .single
      simp only [run, hstep, Option.bind_some, hmem, hrun]
      simp [hmalloc, hself]

theorem front_insertion_crashes :
    ¬ Kept [⟨0, 12, true, by decide, by decide⟩, ⟨0, 2, true, by decide, by decide⟩] := by
  rintro ⟨list, h, -⟩
  simp [run, getDescForInt, insertVectorDesc, Request.key, Before] at h

end EspIdf.VectorList
