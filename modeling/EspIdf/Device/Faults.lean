import EspIdf.Device.Prog

/-! Devices whose calls can fail, without effect on the memory; which calls can is a parameter.  A
program that returns at the first failed call leaves what a power loss there would leave, so what
`Sat` says of the points between calls carries over to failures. -/

namespace EspIdf.Device.Prog

variable {Op : Type} {Ret : Op → Type} {α β : Type} {Mem : Type}

/-- A device that answers as `exec` does, or fails a call that satisfies `T`: its answer satisfies
`Fails`, and the memory stays. -/
def faulty (exec : (o : Op) → Mem → Ret o × Mem) (Fails : (o : Op) → Ret o → Prop) (T : Op → Prop)
    (o : Op) (m : Mem) (r : Ret o) (m' : Mem) : Prop :=
  r = (exec o m).1 ∧ m' = (exec o m).2 ∨ T o ∧ Fails o r ∧ m' = m

/-- Whenever a call fails, the program returns at once, with a result that satisfies `E`. -/
def FailsFast (Fails : (o : Op) → Ret o → Prop) (E : α → Prop) : Prog Op Ret α → Prop
  | ret _ => True
  | halt => True
  | call o k => ∀ r, FailsFast Fails E (k r) ∧ (Fails o r → ∃ a, k r = ret a ∧ E a)

variable {exec : (o : Op) → Mem → Ret o × Mem} {Fails : (o : Op) → Ret o → Prop} {T : Op → Prop}
  {H : Prop} {C : Mem → Prop} {Q : α → Mem → Prop} {E : α → Prop} {p : Prog Op Ret α} {m m' : Mem}

theorem post_faulty_bind : Post (faulty exec Fails T) S ((op o).bind k) m ↔
      Post (faulty exec Fails T) S (k (exec o m).1) (exec o m).2 ∧
        (T o → ∀ r, Fails o r → Post (faulty exec Fails T) S (k r) m) := by
  constructor
  · exact fun h => ⟨h _ _ (.inl ⟨rfl, rfl⟩), fun ht r hr => h r m (.inr ⟨ht, hr, rfl⟩)⟩
  · rintro ⟨hok, hfail⟩ r m' (⟨rfl, rfl⟩ | ⟨ht, hr, rfl⟩)
    · exact hok
    · exact hfail ht r hr

theorem Sat.post_of_within (h : Sat exec H C Q p m)
    (hw : Within (fun o => T o → ∀ r, ¬Fails o r) (fun _ => True) p) :
    Post (faulty exec Fails T) Q p m := by
  induction p generalizing m with
  | ret a => exact h.2
  | halt => trivial
  | call o k ih =>
    rintro r m' (⟨rfl, rfl⟩ | ⟨ht, hr, rfl⟩)
    · exact ih _ h.2 (hw.2 _)
    · exact (hw.1 ht r hr).elim

theorem Sat.post_of_failsFast (h : Sat exec H C Q p m) (hf : FailsFast Fails E p) :
    Post (faulty exec Fails T) (fun a m' => Q a m' ∨ E a ∧ C m') p m := by
  induction p generalizing m with
  | ret a => exact .inl h.2
  | halt => trivial
  | call o k ih =>
    rintro r m' (⟨rfl, rfl⟩ | ⟨-, hr, rfl⟩)
    · exact ih _ h.2 (hf _).1
    · obtain ⟨a, ha, he⟩ := (hf r).2 hr
      rw [ha]
      exact .inr ⟨he, h.1⟩

end EspIdf.Device.Prog
