import Mathlib.Data.List.Basic

/-! Runs of a machine whose events can be refused: what holds along every run, and the exact
condition on the single events under which a property holds in every state of a run. -/

namespace EspIdf.Runs

variable {σ ε : Type*} {step : σ → ε → Option σ} {C : σ → ε → Prop} {P I : σ → Prop}

/-- The state after the events, if each of them can happen when it is its turn. -/
def run (step : σ → ε → Option σ) : σ → List ε → Option σ
  | s, [] => some s
  | s, e :: es => (step s e).bind fun s' => run step s' es

/-- Each event of the run that happens meets `C` in the state in which it happens. -/
def Along (step : σ → ε → Option σ) (C : σ → ε → Prop) : σ → List ε → Prop
  | _, [] => True
  | s, e :: es => ∀ s', step s e = some s' → C s e ∧ Along step C s' es

/-- `P` holds in every state of the run. -/
def Always (step : σ → ε → Option σ) (P : σ → Prop) : σ → List ε → Prop
  | s, [] => P s
  | s, e :: es => P s ∧ ∀ s', step s e = some s' → Always step P s' es

@[simp]
theorem run_nil (s : σ) : run step s [] = some s := rfl

theorem run_cons : run step s (e :: es) = some t ↔ ∃ s', step s e = some s' ∧ run step s' es =
    some t := by
  simp [run, Option.bind_eq_some_iff]

theorem run_append :
    run step s (es ++ fs) = some t ↔ ∃ s', run step s es = some s' ∧ run step s' fs = some t := by
  induction es generalizing s with
  | nil => simp
  | cons e es ih =>
    rw [List.cons_append, run_cons]
    constructor
    · rintro ⟨u, hu, ht⟩
      obtain ⟨v, hv, ht⟩ := ih.1 ht
      exact ⟨v, run_cons.2 ⟨u, hu, hv⟩, ht⟩
    · rintro ⟨v, hv, ht⟩
      obtain ⟨u, hu, hv⟩ := run_cons.1 hv
      exact ⟨u, hu, ih.2 ⟨v, hv, ht⟩⟩

theorem along_of_forall (h : ∀ e ∈ es, D e) : Along step (fun _ => D) s es := by
  induction es generalizing s with
  | nil => trivial
  | cons e es ih =>
    exact fun s' _ => ⟨h e List.mem_cons_self, ih fun e' he' => h e' (List.mem_cons_of_mem _ he')⟩

theorem along_forall {ι : Sort*} {D : ι → σ → ε → Prop} {s : σ} {es : List ε} :
    Along step (fun s e => ∀ i, D i s e) s es ↔ ∀ i, Along step (D i) s es := by
  induction es generalizing s with
  | nil => simp [Along]
  | cons e es ih =>
    constructor
    · exact fun h i s' hs' => ⟨(h s' hs').1 i, ih.1 (h s' hs').2 i⟩
    · exact fun h s' hs' => ⟨fun i => (h i s' hs').1, ih.2 fun i => (h i s' hs').2⟩

theorem along_congr (hkeep : ∀ s e s', I s → step s e = some s' → I s')
    (hiff : ∀ s e, I s → (C s e ↔ D s e)) (hs : I s) (es : List ε) :
    Along step C s es ↔ Along step D s es := by
  induction es generalizing s with
  | nil => exact Iff.rfl
  | cons e es ih =>
    constructor
    · exact fun h s' hs' => ⟨(hiff s e hs).1 (h s' hs').1,
        (ih (hkeep s e s' hs hs')).1 (h s' hs').2⟩
    · exact fun h s' hs' => ⟨(hiff s e hs).2 (h s' hs').1,
        (ih (hkeep s e s' hs hs')).2 (h s' hs').2⟩

theorem Always.start (h : Always step P s es) : P s := by
  cases es with
  | nil => exact h
  | cons e es => exact h.1

section

variable (hkeep : ∀ s e s', I s → C s e → step s e = some s' → I s')
include hkeep

theorem always_of_step (hs : I s)
    (hes : Along step C s es) : Always step I s es := by
  induction es generalizing s with
  | nil => exact hs
  | cons e es ih =>
    refine ⟨hs, fun s' hs' => ?_⟩
    obtain ⟨hC, hes⟩ := hes s' hs'
    exact ih (hkeep s e s' hs hC hs') hes

theorem along_of_step
    (hD : ∀ s e s', I s → C s e → step s e = some s' → D s e) (hs : I s) (hes : Along step C s es) :
    Along step D s es := by
  induction es generalizing s with
  | nil => trivial
  | cons e es ih =>
    intro s' hs'
    obtain ⟨hC, hes⟩ := hes s' hs'
    exact ⟨hD s e s' hs hC hs', ih (hkeep s e s' hs hC hs') hes⟩

end

theorem Always.imp (hPQ : ∀ s, P s → Q s) (h : Always step P s es) : Always step Q s es := by
  induction es generalizing s with
  | nil => exact hPQ s h
  | cons e es ih => exact ⟨hPQ s h.1, fun s' hs' => ih (h.2 s' hs')⟩

theorem always_iff_along (hP : ∀ s, I s → P s)
    (hkeep : ∀ s e s', I s → C s e → step s e = some s' → I s')
    (hbreak : ∀ s e s', I s → ¬ C s e → step s e = some s' → ¬ P s') (hs : I s) (es : List ε) :
    Always step P s es ↔ Along step C s es := by
  constructor
  · intro h
    induction es generalizing s with
    | nil => trivial
    | cons e es ih =>
      intro s' hs'
      have hC : C s e := by
        by_contra hC
        exact hbreak s e s' hs hC hs' (h.2 s' hs').start
      exact ⟨hC, ih (hkeep s e s' hs hC hs') (h.2 s' hs')⟩
  · intro h
    exact (always_of_step hkeep hs h).imp hP

theorem Always.final (h : Always step P s es) (ht : run step s es = some t) : P t := by
  induction es generalizing s with
  | nil =>
    obtain rfl : s = t := Option.some.inj ht
    exact h
  | cons e es ih =>
    obtain ⟨s', hs', ht⟩ := run_cons.1 ht
    exact ih (h.2 s' hs') ht

theorem along_cons_some (h : step s e = some s') : Along step C s (e :: es) ↔ C s e ∧
    Along step C s' es := by
  simp [Along, h]

/-- A condition that can be evaluated on single events can be evaluated along a run. -/
instance Along.decide [∀ s e, Decidable (C s e)] :
    (s : σ) → (es : List ε) → Decidable (Along step C s es)
  | _, [] => isTrue trivial
  | s, e :: es =>
    match h : step s e with
    | none => isTrue fun _ hs' => by simp [h] at hs'
    | some s' =>
      have := Along.decide s' es
      decidable_of_iff _ (along_cons_some h).symm

/-! ### Steps that end -/

inductive Ends {σ : Type*} (step : σ → Option σ) (final : σ → Prop) : σ → Prop
  | final {s : σ} (h : final s) : Ends step final s
  | step {s s' : σ} (h : step s = some s') (hs : Ends step final s') : Ends step final s

namespace Ends

variable {step : σ → Option σ} {final : σ → Prop} {s s' : σ}

theorem step_iff (hnot : ¬final s) (h : step s = some s') :
    Ends step final s ↔ Ends step final s' := by
  constructor
  · intro hends
    cases hends with
    | final hfinal => exact absurd hfinal hnot
    | step heq hs =>
      rw [h] at heq
      cases heq
      exact hs
  · exact .step h

theorem not_of_none (hnot : ¬final s) (h : step s = none) : ¬Ends step final s := by
  intro hends
  cases hends with
  | final hfinal => exact hnot hfinal
  | step heq _ =>
    rw [h] at heq
    cases heq

theorem not_of_inv (hnot : ∀ s, I s → ¬final s) (hkeep : ∀ s s', I s → step s = some s' → I s')
    (hs : I s) : ¬Ends step final s := by
  intro hends
  induction hends with
  | final hfinal => exact hnot _ hs hfinal
  | step heq _ ih => exact ih (hkeep _ _ hs heq)

end Ends

end EspIdf.Runs
