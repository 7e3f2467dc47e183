import Mathlib

/-! The sort of Python's lists with a comparison that can raise an exception.  The run at the front
of the list is found by comparing neighbours, a descending one is turned round, and the other
elements are inserted by binary search.  Lists of 64 elements and more, which Python sorts in
several runs that it merges, are sorted to the same list here, with other comparisons unless they
are one run. -/

namespace EspIdf.ListSort

section Loops

variable {α ε : Type} (lt : α → α → Except ε Bool)

def ascRun (last : α) : List α → Except ε (List α × List α)
  | [] => return ([], [])
  | a :: as => do
    if ← lt a last then return ([], a :: as)
    let (run, rest) ← ascRun a as
    return (a :: run, rest)

def descRun (last : α) : List α → Except ε (List α × List α)
  | [] => return ([], [])
  | a :: as => do
    if ← lt a last then
      let (run, rest) ← descRun a as
      return (a :: run, rest)
    return ([], a :: as)

def countRun : List α → Except ε (List α × List α)
  | a :: b :: as => do
    if ← lt b a then
      let (run, rest) ← descRun lt b as
      return ((a :: b :: run).reverse, rest)
    let (run, rest) ← ascRun lt b as
    return (a :: b :: run, rest)
  | as => return (as, [])

/-- The place of `pivot` between `l` and `r`, with at most `n` more rounds. -/
def search (run : List α) (pivot : α) : Nat → Nat → Nat → Except ε Nat
  | 0, l, _ => return l
  | n + 1, l, r =>
    match run[l + (r - l) / 2]? with
    | some a => do
      if r ≤ l then return l
      if ← lt pivot a then search run pivot n l (l + (r - l) / 2)
      else search run pivot n (l + (r - l) / 2 + 1) r
    | none => return l

def insertPivot (run : List α) (pivot : α) : Except ε (List α) := do
  let l ← search lt run pivot run.length 0 run.length
  return run.take l ++ pivot :: run.drop l

def sort (as : List α) : Except ε (List α) := do
  let (run, rest) ← countRun lt as
  rest.foldlM (insertPivot lt) run

end Loops

theorem bind_eq_ok {ε α β : Type} {x : Except ε α} {f : α → Except ε β} {b : β} :
    (x >>= f) = .ok b ↔ ∃ a, x = .ok a ∧ f a = .ok b := by
  cases x with
  | error e => simp [bind, Except.bind]
  | ok a => simp [bind, Except.bind]

section Sorts

variable {α ε κ : Type} [LinearOrder κ] {lt : α → α → Except ε Bool} {key : α → κ}
  {a last pivot : α} {as run rest : List α} {n l r m : Nat}

variable (hlt : ∀ a b c, lt a b = .ok c → (c = true ↔ key a < key b))
include hlt

theorem ascRun_spec (h : ascRun lt last as = .ok (run, rest)) :
    run ++ rest = as ∧ (last :: run).IsChain (key · ≤ key ·) := by
  induction as generalizing last run rest with
  | nil =>
    cases h
    exact ⟨rfl, .singleton _⟩
  | cons a as ih =>
    obtain ⟨c, hc, h⟩ := bind_eq_ok.1 h
    have hkey := hlt _ _ _ hc
    cases c with
    | true =>
      cases h
      exact ⟨rfl, .singleton _⟩
    | false =>
      obtain ⟨⟨run', rest'⟩, hrun, h⟩ := bind_eq_ok.1 h
      cases h
      obtain ⟨rfl, hchain⟩ := ih hrun
      exact ⟨rfl, .cons_cons (not_lt.1 (by simpa using hkey)) hchain⟩

theorem descRun_spec (h : descRun lt last as = .ok (run, rest)) :
    run ++ rest = as ∧ (last :: run).IsChain (fun a b => key b ≤ key a) := by
  induction as generalizing last run rest with
  | nil =>
    cases h
    exact ⟨rfl, .singleton _⟩
  | cons a as ih =>
    obtain ⟨c, hc, h⟩ := bind_eq_ok.1 h
    have hkey := hlt _ _ _ hc
    cases c with
    | false =>
      cases h
      exact ⟨rfl, .singleton _⟩
    | true =>
      obtain ⟨⟨run', rest'⟩, hrun, h⟩ := bind_eq_ok.1 h
      cases h
      obtain ⟨rfl, hchain⟩ := ih hrun
      exact ⟨rfl, .cons_cons (hkey.1 rfl).le hchain⟩

theorem countRun_spec (h : countRun lt as = .ok (run, rest)) :
    (run ++ rest).Perm as ∧ run.Pairwise (key · ≤ key ·) := by
  match as, h with
  | [], h =>
    cases h
    exact ⟨.refl _, .nil⟩
  | [a], h =>
    cases h
    exact ⟨.refl _, List.pairwise_singleton _ _⟩
  | a :: b :: as, h =>
    obtain ⟨c, hc, h⟩ := bind_eq_ok.1 h
    have hkey := hlt _ _ _ hc
    cases c with
    | true =>
      obtain ⟨⟨run', rest'⟩, hrun, h⟩ := bind_eq_ok.1 h
      cases h
      obtain ⟨rfl, hchain⟩ := descRun_spec hlt hrun
      have hall : (a :: b :: run').IsChain fun x y => key y ≤ key x :=
        .cons_cons (hkey.1 rfl).le hchain
      have : IsTrans α fun x y => key y ≤ key x := ⟨fun _ _ _ h h' => h'.trans h⟩
      exact ⟨(List.reverse_perm _).append_right _, List.pairwise_reverse.2 hall.pairwise⟩
    | false =>
      obtain ⟨⟨run', rest'⟩, hrun, h⟩ := bind_eq_ok.1 h
      cases h
      obtain ⟨rfl, hchain⟩ := ascRun_spec hlt hrun
      have hall : (a :: b :: run').IsChain (key · ≤ key ·) :=
        .cons_cons (not_lt.1 (by simpa using hkey)) hchain
      have : IsTrans α (key · ≤ key ·) := ⟨fun _ _ _ h h' => h.trans h'⟩
      exact ⟨.refl _, hall.pairwise⟩

/-- What is before `l` is not above `pivot`, and what is from `r` on is not below it. -/
theorem search_spec (hrun : run.Pairwise (key · ≤ key ·)) (hn : r - l ≤ n) (hlr : l ≤ r)
    (hr : r ≤ run.length)
    (hbefore : ∀ i a, run[i]? = some a → i < l → key a ≤ key pivot)
    (hbehind : ∀ i a, run[i]? = some a → r ≤ i → key pivot ≤ key a)
    (h : search lt run pivot n l r = .ok m) :
    (∀ i a, run[i]? = some a → i < m → key a ≤ key pivot) ∧
      ∀ i a, run[i]? = some a → m ≤ i → key pivot ≤ key a := by
  induction n generalizing l r with
  | zero =>
    cases h
    exact ⟨hbefore, fun i a ha hi => hbehind i a ha (by omega)⟩
  | succ n ih =>
    have hmono : ∀ (i j : Nat) a b, run[i]? = some a → run[j]? = some b → i ≤ j →
        key a ≤ key b := by
      intro i j a b ha hb hij
      rcases Nat.lt_or_eq_of_le hij with hlt' | rfl
      · obtain ⟨hi, rfl⟩ := List.getElem?_eq_some_iff.1 ha
        obtain ⟨hj, rfl⟩ := List.getElem?_eq_some_iff.1 hb
        exact List.pairwise_iff_getElem.1 hrun i j hi hj hlt'
      · rw [ha] at hb
        cases hb
        exact le_rfl
    unfold search at h
    cases ha : run[l + (r - l) / 2]? with
    | none =>
      have : run.length ≤ l + (r - l) / 2 := List.getElem?_eq_none_iff.1 ha
      rw [ha] at h
      cases h
      exact ⟨hbefore, fun i a ha hi => hbehind i a ha (by omega)⟩
    | some a =>
      rw [ha] at h
      dsimp only at h
      split_ifs at h with hend
      · cases h
        exact ⟨hbefore, fun i a ha hi => hbehind i a ha (by omega)⟩
      · obtain ⟨c, hc, h⟩ := bind_eq_ok.1 h
        have hkey := hlt _ _ _ hc
        cases c with
        | true =>
          refine ih (by omega) (by omega) (by omega) hbefore (fun i b hb hi => ?_) h
          exact (hkey.1 rfl).le.trans (hmono _ _ _ _ ha hb hi)
        | false =>
          have hle : key a ≤ key pivot := not_lt.1 (by simpa using hkey)
          refine ih (by omega) (by omega) hr (fun i b hb hi => ?_) hbehind h
          exact (hmono _ _ _ _ hb ha (by omega)).trans hle

theorem insertPivot_spec (hrun : run.Pairwise (key · ≤ key ·))
    (h : insertPivot lt run pivot = .ok as) :
    as.Perm (pivot :: run) ∧ as.Pairwise (key · ≤ key ·) := by
  obtain ⟨m, hm, h⟩ := bind_eq_ok.1 h
  cases h
  obtain ⟨hbefore, hbehind⟩ := search_spec hlt hrun (by omega) (by omega) (Nat.le_refl _) (by simp)
    (fun i a ha hi => by simp [List.getElem?_eq_none hi] at ha) hm
  constructor
  · have hperm : (run.take m ++ pivot :: run.drop m).Perm (pivot :: (run.take m ++ run.drop m)) :=
      List.perm_middle
    rwa [List.take_append_drop] at hperm
  · have hpair := hrun
    rw [← List.take_append_drop m run, List.pairwise_append] at hpair
    have htake : ∀ a ∈ run.take m, key a ≤ key pivot := by
      intro a ha
      obtain ⟨i, hi, rfl⟩ := List.mem_take_iff_getElem.1 ha
      exact hbefore i _ (List.getElem?_eq_getElem (by omega)) (by omega)
    have hdrop : ∀ a ∈ run.drop m, key pivot ≤ key a := by
      intro a ha
      obtain ⟨i, hi, rfl⟩ := List.mem_drop_iff_getElem.1 ha
      exact hbehind (m + i) _ (List.getElem?_eq_getElem (by omega)) (by omega)
    refine List.pairwise_append.2 ⟨hpair.1, List.pairwise_cons.2 ⟨hdrop, hpair.2.1⟩, ?_⟩
    intro a ha b hb
    rcases List.mem_cons.1 hb with rfl | hb
    · exact htake a ha
    · exact hpair.2.2 a ha b hb

theorem sort_spec (h : sort lt as = .ok run) : run.Perm as ∧ run.Pairwise (key · ≤ key ·) := by
  have hfold : ∀ (rest run : List α), run.Pairwise (key · ≤ key ·) → ∀ out,
      rest.foldlM (insertPivot lt) run = .ok out →
      out.Perm (run ++ rest) ∧ out.Pairwise (key · ≤ key ·) := by
    intro rest
    induction rest with
    | nil =>
      intro run hrun out h
      cases h
      exact ⟨by simp, hrun⟩
    | cons pivot rest ih =>
      intro run hrun out h
      obtain ⟨run', hrun', h⟩ := bind_eq_ok.1 h
      obtain ⟨hperm, hpair⟩ := insertPivot_spec hlt hrun hrun'
      obtain ⟨hperm', hpair'⟩ := ih run' hpair out h
      refine ⟨hperm'.trans ?_, hpair'⟩
      exact (hperm.append_right rest).trans List.perm_middle.symm
  obtain ⟨⟨first, rest⟩, hcount, h⟩ := bind_eq_ok.1 h
  obtain ⟨hperm, hpair⟩ := countRun_spec hlt hcount
  obtain ⟨hperm', hpair'⟩ := hfold rest first hpair run h
  exact ⟨hperm'.trans hperm, hpair'⟩

end Sorts

/-! ### Lists that are one run -/

section Run

variable {α ε : Type} {lt : α → α → Except ε Bool}

theorem sort_run {as : List α} (h : as.IsChain fun a b => lt b a = .ok false) :
    sort lt as = .ok as := by
  have hasc : ∀ (as : List α) (last : α), (last :: as).IsChain (fun a b => lt b a = .ok false) →
      ascRun lt last as = .ok (as, []) := by
    intro as
    induction as with
    | nil => exact fun _ _ => rfl
    | cons a as ih =>
      intro last h
      obtain ⟨hlt, hrest⟩ := List.isChain_cons_cons.1 h
      rw [ascRun, hlt]
      simp only [bind, Except.bind, ih a hrest]
      rfl
  match as, h with
  | [], _ => rfl
  | [a], _ => rfl
  | a :: b :: as, h =>
    obtain ⟨hlt, hrest⟩ := List.isChain_cons_cons.1 h
    rw [sort, countRun, hlt]
    simp only [bind, Except.bind, hasc as b hrest]
    rfl

theorem sort_raises {as : List α} {e : ε}
    (hor : as.IsChain fun a b => lt b a = .ok false ∨ lt b a = .error e)
    (h : ¬ as.IsChain fun a b => lt b a = .ok false) : sort lt as = .error e := by
  have hasc : ∀ (as : List α) (last : α),
      (last :: as).IsChain (fun a b => lt b a = .ok false ∨ lt b a = .error e) →
      ¬ (last :: as).IsChain (fun a b => lt b a = .ok false) → ascRun lt last as = .error e := by
    intro as
    induction as with
    | nil => exact fun last _ h => absurd (.singleton _) h
    | cons a as ih =>
      intro last hor h
      obtain ⟨hfirst, hrest⟩ := List.isChain_cons_cons.1 hor
      rw [List.isChain_cons_cons] at h
      rcases hfirst with hlt | hlt
      · rw [ascRun, hlt]
        simp only [bind, Except.bind, ih a hrest fun hc => h ⟨hlt, hc⟩]
        rfl
      · rw [ascRun, hlt]
        rfl
  match as, hor, h with
  | [], _, h => exact absurd .nil h
  | [a], _, h => exact absurd (.singleton _) h
  | a :: b :: as, hor, h =>
    obtain ⟨hfirst, hrest⟩ := List.isChain_cons_cons.1 hor
    rw [List.isChain_cons_cons] at h
    rcases hfirst with hlt | hlt
    · rw [sort, countRun, hlt]
      simp only [bind, Except.bind, hasc as b hrest fun hc => h ⟨hlt, hc⟩]
      rfl
    · rw [sort, countRun, hlt]
      rfl

end Run

end EspIdf.ListSort
