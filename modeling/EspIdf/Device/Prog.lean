import Mathlib.Logic.Basic

/-! Programs that talk to a device: finite trees of device calls, whose leaves are results or failed
assertions.  `Sat` is the rule set for them when power can be lost between any two calls: `C` holds
at every such point, and `Q` of the result. -/

namespace EspIdf.Device

/-- A program that makes calls `op`, each answered by a value of type `Ret op`.  `halt` is a failed
assertion: the program stops there. -/
inductive Prog (Op : Type) (Ret : Op → Type) (α : Type) where
  | ret (a : α)
  | halt
  | call (op : Op) (k : Ret op → Prog Op Ret α)

namespace Prog

variable {Op : Type} {Ret : Op → Type} {α β γ : Type}

/-- Run `p`, then `f` on its result. -/
def bind : Prog Op Ret α → (α → Prog Op Ret β) → Prog Op Ret β
  | ret a, f => f a
  | halt, _ => halt
  | call op k, f => call op fun r => (k r).bind f

instance : Monad (Prog Op Ret) where
  pure := ret
  bind := bind

def op (o : Op) : Prog Op Ret (Ret o) := call o ret

def assert (b : Bool) : Prog Op Ret Unit := if b then ret () else halt

@[simp] theorem pure_eq (a : α) : (pure a : Prog Op Ret α) = ret a := rfl

@[simp] theorem bind_eq (p : Prog Op Ret α) (f : α → Prog Op Ret β) : p >>= f = p.bind f := rfl

@[simp] theorem ret_bind (a : α) (f : α → Prog Op Ret β) : (ret a).bind f = f a := rfl

@[simp] theorem halt_bind (f : α → Prog Op Ret β) : (halt : Prog Op Ret α).bind f = halt := rfl

@[simp] theorem call_bind (o : Op) (k : Ret o → Prog Op Ret α) (f : α → Prog Op Ret β) :
    (call o k).bind f = call o fun r => (k r).bind f := rfl

@[simp] theorem op_bind (o : Op) (f : Ret o → Prog Op Ret β) : (op o).bind f = call o f := rfl

@[simp] theorem bind_assoc (p : Prog Op Ret α) (f : α → Prog Op Ret β) (g : β → Prog Op Ret γ) :
    (p.bind f).bind g = p.bind fun a => (f a).bind g := by
  induction p with
  | ret a => rfl
  | halt => rfl
  | call o k ih => simp only [call_bind, ih]

theorem bind_ret (p : Prog Op Ret α) : p.bind ret = p := by
  induction p with
  | ret a => rfl
  | halt => rfl
  | call o k ih => simp only [call_bind, ih]

theorem ite_bind (c : Prop) [Decidable c] (p q : Prog Op Ret α) (f : α → Prog Op Ret β) :
    (if c then p else q).bind f = if c then p.bind f else q.bind f := by
  split <;> rfl

@[simp] theorem assert_true : (assert true : Prog Op Ret Unit) = ret () := rfl

@[simp] theorem assert_false : (assert false : Prog Op Ret Unit) = halt := rfl

/-! ### Calls, whatever the answers -/

def Within (P : Op → Prop) (Q : α → Prop) : Prog Op Ret α → Prop
  | ret a => Q a
  | halt => True
  | call o k => P o ∧ ∀ r, Within P Q (k r)

/-- With some answers, the program makes a call that satisfies `P`. -/
def Makes (P : Op → Prop) : Prog Op Ret α → Prop
  | ret _ => False
  | halt => False
  | call o k => P o ∨ ∃ r, Makes P (k r)

/-- With some answers, the program returns `a`. -/
def Returns (a : α) : Prog Op Ret α → Prop
  | ret b => b = a
  | halt => False
  | call _ k => ∃ r, Returns a (k r)

theorem Within.bind (h : Within P Q p) (hf : ∀ a, Q a → Within P R (f a)) :
    Within P R (p.bind f) := by
  induction p with
  | ret a => exact hf a h
  | halt => trivial
  | call o k ih => exact ⟨h.1, fun r => ih r (h.2 r)⟩

theorem Within.op_bind {P : Op → Prop} {Q : β → Prop} {o : Op} {f : Ret o → Prog Op Ret β}
    (ho : P o)
    (hf : ∀ r, Within P Q (f r)) : Within P Q ((op o).bind f) := ⟨ho, hf⟩

theorem Within.imp (h : Within P Q p) (hP : ∀ o, P o → P' o) : Within P' Q p := by
  induction p with
  | ret a => exact h
  | halt => trivial
  | call o k ih => exact ⟨hP o h.1, fun r => ih r (h.2 r)⟩

theorem Within.answer (h : Within P Q ((op o).bind f)) (r : Ret o) : Within P Q (f r) := h.2 r

theorem Within.bind_congr (h : Within P Q p) (hfg : ∀ a, Q a → f a = g a) :
    p.bind f = p.bind g := by
  induction p with
  | ret a => exact hfg a h
  | halt => rfl
  | call o k ih =>
    simp only [call_bind]
    exact congrArg _ (funext fun r => ih r (h.2 r))

theorem within_trivial (p : Prog Op Ret α) : Within (fun _ => True) (fun _ => True) p := by
  induction p with
  | ret a => trivial
  | halt => trivial
  | call o k ih => exact ⟨trivial, ih⟩

theorem Makes.op (ho : P o) : Makes P ((op o).bind f) := .inl ho

theorem Makes.after (r : Ret o) (hf : Makes P (f r)) : Makes P ((Prog.op o).bind f) := .inr ⟨r, hf⟩

theorem Makes.bind (h : Makes P p) (f : α → Prog Op Ret β) : Makes P (p.bind f) := by
  induction p with
  | ret a => exact h.elim
  | halt => exact h.elim
  | call o k ih => exact h.imp_right fun ⟨r, hr⟩ => ⟨r, ih r hr⟩

theorem Returns.after (r : Ret o) (hf : Returns b (f r)) : Returns b ((Prog.op o).bind f) := ⟨r, hf⟩

theorem Returns.bind (h : Returns a p) (hf : Returns b (f a)) : Returns b (p.bind f) := by
  induction p with
  | ret c => exact h.symm ▸ hf
  | halt => exact h.elim
  | call o k ih =>
    obtain ⟨r, hr⟩ := h
    exact ⟨r, ih r hr⟩

theorem Within.of_bind (h : Within P R (p.bind f)) : Within P (fun _ => True) p := by
  induction p with
  | ret a => trivial
  | halt => trivial
  | call o k ih => exact ⟨h.1, fun r => ih r (h.2 r)⟩

theorem Within.of_returns (h : Within P Q (p.bind f)) (ha : Returns a p) : Within P Q (f a) := by
  induction p with
  | ret b => exact ha ▸ h
  | halt => exact ha.elim
  | call o k ih =>
    obtain ⟨r, hr⟩ := ha
    exact ih r (h.2 r) hr

theorem Returns.makes (h : Returns a p) (hf : Makes P (f a)) : Makes P (p.bind f) := by
  induction p with
  | ret b => exact h.symm ▸ hf
  | halt => exact h.elim
  | call o k ih =>
    obtain ⟨r, hr⟩ := h
    exact .inr ⟨r, ih r hr⟩

/-! ### Devices that answer in several ways -/

section Relation

variable {Mem : Type} (R : (o : Op) → Mem → Ret o → Mem → Prop)

/-- `R o m r m'`: in `m` the call `o` can be answered by `r` and leave `m'`.  The program can return
`a` and leave `m'`. -/
inductive Ends : Prog Op Ret α → Mem → α → Mem → Prop
  | ret {a : α} {m : Mem} : Ends (ret a) m a m
  | call {o : Op} {k : Ret o → Prog Op Ret α} {m m' m'' : Mem} {r : Ret o} {a : α} :
      R o m r m' → Ends (k r) m' a m'' → Ends (call o k) m a m''

def Post (Q : α → Mem → Prop) : Prog Op Ret α → Mem → Prop
  | ret a, m => Q a m
  | halt, _ => True
  | call o k, m => ∀ r m', R o m r m' → Post Q (k r) m'

def Safe : Prog Op Ret α → Mem → Prop
  | ret _, _ => True
  | halt, _ => False
  | call o k, m => ∀ r m', R o m r m' → Safe (k r) m'

variable {R} {Q Q' : α → Mem → Prop} {S : β → Mem → Prop} {p : Prog Op Ret α} {m m' : Mem}

theorem Post.ends (h : Post R Q p m) (he : Ends R p m a m') : Q a m' := by
  induction he with
  | ret => exact h
  | call hr _ ih => exact ih (h _ _ hr)

theorem Post.mono (h : Post R Q p m) (hQ : ∀ a m, Q a m → Q' a m) : Post R Q' p m := by
  induction p generalizing m with
  | ret a => exact hQ _ _ h
  | halt => trivial
  | call o k ih => exact fun r m' hr => ih r (h r m' hr)

theorem Post.bind (h : Post R Q p m) (hf : ∀ a m', Q a m' → Post R S (f a) m') :
    Post R S (p.bind f) m := by
  induction p generalizing m with
  | ret a => exact hf _ _ h
  | halt => trivial
  | call o k ih => exact fun r m' hr => ih r (h r m' hr)

theorem Post.op_bind (hf : ∀ r m', R o m r m' → Post R S (f r) m') : Post R S ((op o).bind f) m :=
  hf

theorem safe_op_bind_iff : Safe R ((op o).bind f) m ↔ ∀ r m', R o m r m' → Safe R (f r) m' :=
  Iff.rfl

theorem ends_op_bind_iff : Ends R ((op o).bind f) m b m' ↔ ∃ r m₁, R o m r m₁ ∧
    Ends R (f r) m₁ b m' := by
  constructor
  · intro h
    cases h with
    | call hr h => exact ⟨_, _, hr, h⟩
  · rintro ⟨r, m₁, hr, h⟩
    exact .call hr h

theorem ends_op_iff : Ends R (op o) m b m' ↔ R o m b m' := by
  constructor
  · intro h
    cases h with
    | call hr h =>
      cases h
      exact hr
  · exact fun h => .call h .ret

theorem ends_ret_iff : Ends R (ret a) m b m' ↔ b = a ∧ m' = m := by
  constructor
  · intro h
    cases h
    exact ⟨rfl, rfl⟩
  · rintro ⟨rfl, rfl⟩
    exact .ret

theorem Post.ret_snd {γ : Type} {Q : β → Mem → Prop} {c : γ} {b : β} (h : Q b m) :
    Post R (fun r m => Q r.2 m) (ret (c, b) : Prog Op Ret (γ × β)) m := h

theorem Within.post {P : Op → Prop} {I : Mem → Prop} {Q : α → Prop} (h : Within P Q p) (hm : I m)
    (hstep : ∀ o m r m', P o → I m → R o m r m' → I m') : Post R (fun a m => Q a ∧ I m) p m := by
  induction p generalizing m with
  | ret a => exact ⟨h, hm⟩
  | halt => trivial
  | call o k ih => exact fun r m' hr => ih r (h.2 r) (hstep o m r m' h.1 hm hr)

end Relation

section Exec

variable {Mem : Type} (exec : (o : Op) → Mem → Ret o × Mem)

/-- The result of a program and the memory it leaves, or `none` for a failed assertion. -/
def run : Prog Op Ret α → Mem → Option (α × Mem)
  | ret a, m => some (a, m)
  | halt, _ => none
  | call o k, m => run (k (exec o m).1) (exec o m).2

/-- The memory after power is lost when `n` calls have been made (or at the end of the program, if
it makes fewer). -/
def cut : Nat → Prog Op Ret α → Mem → Mem
  | n + 1, call o k, m => cut n (k (exec o m).1) (exec o m).2
  | _, _, m => m

@[simp] theorem run_ret (a : α) (m : Mem) : run exec (ret a : Prog Op Ret α) m = some (a, m) := rfl

@[simp] theorem run_halt (m : Mem) : run exec (halt : Prog Op Ret α) m = none := rfl

@[simp] theorem run_call (o : Op) (k : Ret o → Prog Op Ret α) (m : Mem) :
    run exec (call o k) m = run exec (k (exec o m).1) (exec o m).2 := rfl

theorem run_bind (p : Prog Op Ret α) (f : α → Prog Op Ret β) (m : Mem) :
    run exec (p.bind f) m = (run exec p m).bind fun r => run exec (f r.1) r.2 := by
  induction p generalizing m with
  | ret a => rfl
  | halt => rfl
  | call o k ih => exact ih _ _

theorem run_bind_of (h : run exec p m = some (a, m')) : run exec (p.bind f) m =
    run exec (f a) m' := by
  rw [run_bind, h]
  rfl

theorem run_bind_iff : run exec (p.bind f) m = some r ↔
      ∃ a m', run exec p m = some (a, m') ∧ run exec (f a) m' = some r := by
  rw [run_bind, Option.bind_eq_some_iff]
  constructor
  · rintro ⟨⟨a, m'⟩, hp, hf⟩
    exact ⟨a, m', hp, hf⟩
  · rintro ⟨a, m', hp, hf⟩
    exact ⟨(a, m'), hp, hf⟩

theorem Ends.of_run (hexec : ∀ o m, R o m (exec o m).1 (exec o m).2)
    (h : run exec p m = some (a, m')) :
    Ends R p m a m' := by
  induction p generalizing m with
  | ret b =>
    cases h
    exact .ret
  | halt => cases h
  | call o k ih => exact .call (hexec o m) (ih _ h)

theorem Within.run (h : Within P Q p) (hr : run exec p m = some (a, m')) : Q a := by
  induction p generalizing m with
  | ret b =>
    cases hr
    exact h
  | halt => cases hr
  | call o k ih => exact ih _ (h.2 _) hr

@[simp] theorem cut_zero (p : Prog Op Ret α) (m : Mem) : cut exec 0 p m = m := by
  cases p <;> rfl

@[simp] theorem cut_ret (n : Nat) (a : α) (m : Mem) : cut exec n (ret a : Prog Op Ret α) m = m := by
  cases n <;> rfl

@[simp] theorem cut_halt (n : Nat) (m : Mem) : cut exec n (halt : Prog Op Ret α) m = m := by
  cases n <;> rfl

@[simp] theorem cut_call_succ (n : Nat) (o : Op) (k : Ret o → Prog Op Ret α) (m : Mem) :
    cut exec (n + 1) (call o k) m = cut exec n (k (exec o m).1) (exec o m).2 := rfl

/-- From `m`, the program keeps `C` at every point where power can be lost, and a result satisfies
`Q`.  A failed assertion is allowed only if `H` holds. -/
def Sat (H : Prop) (C : Mem → Prop) (Q : α → Mem → Prop) : Prog Op Ret α → Mem → Prop
  | ret a, m => C m ∧ Q a m
  | halt, m => C m ∧ H
  | call o k, m => C m ∧ Sat H C Q (k (exec o m).1) (exec o m).2

namespace Sat

variable {exec} {H : Prop} {C C' : Mem → Prop} {Q Q' : α → Mem → Prop} {R : β → Mem → Prop}
  {p : Prog Op Ret α} {m m' : Mem}

theorem here (h : Sat exec H C Q p m) : C m := by
  cases p <;> exact h.1

theorem cut (h : Sat exec H C Q p m) (n : Nat) : C (Prog.cut exec n p m) := by
  induction n generalizing p m with
  | zero => exact h.here
  | succ n ih =>
    cases p with
    | ret a => exact h.1
    | halt => exact h.1
    | call o k => exact ih h.2

theorem run (h : Sat exec H C Q p m) (hr : Prog.run exec p m = some (a, m')) : C m' ∧ Q a m' := by
  induction p generalizing m with
  | ret b =>
    cases hr
    exact h
  | halt => cases hr
  | call o k ih => exact ih _ h.2 hr

theorem run_total (h : Sat exec False C Q p m) :
    ∃ a m', Prog.run exec p m = some (a, m') ∧ C m' ∧ Q a m' := by
  induction p generalizing m with
  | ret a => exact ⟨a, m, rfl, h.1, h.2⟩
  | halt => exact h.2.elim
  | call o k ih => exact ih _ h.2

theorem imp (h : Sat exec H C Q p m) (hH : H → H') (hC : ∀ m, C m → C' m)
    (hQ : ∀ a m, C m → Q a m → Q' a m) : Sat exec H' C' Q' p m := by
  induction p generalizing m with
  | ret a => exact ⟨hC _ h.1, hQ _ _ h.1 h.2⟩
  | halt => exact ⟨hC _ h.1, hH h.2⟩
  | call o k ih => exact ⟨hC _ h.1, ih _ h.2⟩

theorem mono (h : Sat exec H C Q p m) (hQ : ∀ a m, C m → Q a m → Q' a m) :
    Sat exec H C Q' p m := h.imp id (fun _ => id) hQ

theorem bind (h : Sat exec H C (fun a m => Sat exec H C R (f a) m) p m) :
    Sat exec H C R (p.bind f) m := by
  induction p generalizing m with
  | ret a => exact h.2
  | halt => exact h
  | call o k ih => exact ⟨h.1, ih _ h.2⟩

end Sat

end Exec

end Prog

end EspIdf.Device
