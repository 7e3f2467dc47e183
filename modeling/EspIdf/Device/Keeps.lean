import EspIdf.Device.WordFlash

/-! Programs every call of which is allowed where it is made.  A failed assertion ends the program,
and with it its calls. -/

namespace EspIdf.Device

namespace Prog

variable {Op : Type} {Ret : Op → Type} {α β : Type} {Mem : Type}

/-- Run from `m`, the program makes only calls that `L` allows, and if it returns, the result
satisfies `Q`. -/
def Keeps (exec : (o : Op) → Mem → Ret o × Mem) (L : Op → Mem → Prop) (Q : α → Mem → Prop) :
    Prog Op Ret α → Mem → Prop
  | ret a, m => Q a m
  | halt, _ => True
  | call o k, m => L o m ∧ Keeps exec L Q (k (exec o m).1) (exec o m).2

variable {exec : (o : Op) → Mem → Ret o × Mem} {L : Op → Mem → Prop} {Q Q' : α → Mem → Prop}
  {S : β → Mem → Prop} {p : Prog Op Ret α} {m m' : Mem}

theorem Keeps.mono (h : Keeps exec L Q p m) (hQ : ∀ a m, Q a m → Q' a m) : Keeps exec L Q' p m := by
  induction p generalizing m with
  | ret a => exact hQ _ _ h
  | halt => trivial
  | call o k ih => exact ⟨h.1, ih _ h.2⟩

theorem Keeps.bind (h : Keeps exec L Q p m) (hf : ∀ a m', Q a m' → Keeps exec L S (f a) m') :
    Keeps exec L S (p.bind f) m := by
  induction p generalizing m with
  | ret a => exact hf _ _ h
  | halt => trivial
  | call o k ih => exact ⟨h.1, ih _ h.2⟩

theorem Keeps.run (h : Keeps exec L Q p m) (hr : run exec p m = some (a, m')) : Q a m' := by
  induction p generalizing m with
  | ret b =>
    cases hr
    exact h
  | halt => cases hr
  | call o k ih => exact ih _ h.2 hr

theorem Keeps.assert (h : b = true → Keeps exec L S (f ()) m) :
    Keeps exec L S ((Prog.assert b).bind f) m := by
  cases b with
  | true => exact h rfl
  | false => trivial

instance decidableKeeps [∀ o m, Decidable (L o m)] [∀ a m, Decidable (Q a m)] :
    (p : Prog Op Ret α) → (m : Mem) → Decidable (Keeps exec L Q p m)
  | ret a, m => inferInstanceAs (Decidable (Q a m))
  | halt, _ => isTrue trivial
  | call o k, m =>
    have := decidableKeeps (k (exec o m).1) (exec o m).2
    inferInstanceAs (Decidable (L o m ∧ Keeps exec L Q (k (exec o m).1) (exec o m).2))

end Prog

def WordOp.Allowed : WordOp → Bytes → Prop
  | .program addr word, m => m.clears addr word = true
  | _, _ => True

instance : ∀ (o : WordOp) (m : Bytes), Decidable (o.Allowed m)
  | .program addr word, m => inferInstanceAs (Decidable (m.clears addr word = true))
  | .read _ _, _ => isTrue trivial
  | .erase _, _ => isTrue trivial

abbrev Legal {α : Type} (Q : α → Bytes → Prop) : WordProg α → Bytes → Prop :=
  Prog.Keeps wordFlash WordOp.Allowed Q

namespace Legal

theorem readBytes (h : Legal S (f (m.read a n)) m) : Legal S ((readBytes a n).bind f) m :=
  ⟨trivial, h⟩

theorem eraseSector (h : Legal S (f ()) (m.erase (sec * sectorSize) sectorSize)) :
    Legal S ((eraseSector sec).bind f) m := ⟨trivial, h⟩

theorem programWords (hlen : bs.length % 4 = 0) (hclears : m.clears a bs = true)
    (h : Legal S (f true) (m.store a bs)) :
    Legal S ((programWords a bs).bind f) m := by
  obtain ⟨n, hn⟩ : ∃ n, bs.length = 4 * n := ⟨bs.length / 4, by omega⟩
  induction n generalizing a bs m with
  | zero =>
    obtain rfl : bs = [] := List.eq_nil_of_length_eq_zero hn
    rw [Bytes.store_nil] at h
    exact h
  | succ n ih =>
    obtain ⟨b0, b1, b2, b3, bs, rfl⟩ : ∃ b0 b1 b2 b3 cs, bs = b0 :: b1 :: b2 :: b3 :: cs := by
      rcases bs with _ | ⟨b0, _ | ⟨b1, _ | ⟨b2, _ | ⟨b3, bs⟩⟩⟩⟩
      · simp at hn
      · simp at hn; omega
      · simp at hn; omega
      · simp at hn; omega
      · exact ⟨b0, b1, b2, b3, bs, rfl⟩
    simp only [List.length_cons] at hlen hn
    have hsplit : b0 :: b1 :: b2 :: b3 :: bs = [b0, b1, b2, b3] ++ bs := rfl
    rw [hsplit, Bytes.store_append] at h
    rw [hsplit, Bytes.clears_append, Bool.and_eq_true] at hclears
    refine ⟨hclears.1, ?_⟩
    simp only [wordFlash, hclears.1, if_true]
    refine ih (by omega) ?_ h (by omega)
    rw [Bytes.clears_store_out (.inr (by simp))]
    exact hclears.2

end Legal

end EspIdf.Device
