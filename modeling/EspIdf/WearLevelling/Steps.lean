import EspIdf.WearLevelling.State

/-! What the building blocks of `WL_Flash` do to the flash, at every point where power can be lost
and at their end. -/

namespace EspIdf.WearLevelling

open EspIdf.Device

section Driver

variable {s : Nat} {H : Prop} {C : Bytes → Prop} {α : Type} {Q : α → Bytes → Prop} {m : Bytes}

theorem sat_write : Prog.Sat (flash s) H C Q ((Drv.write a bs).bind k) m ↔
      C m ∧ Prog.Sat (flash s) H C Q (k .ok) (m.program a bs) := Iff.rfl

theorem sat_read : Prog.Sat (flash s) H C Q ((Drv.read a n).bind k) m ↔
      C m ∧ Prog.Sat (flash s) H C Q (k (.ok, m.read a n)) m := Iff.rfl

theorem sat_eraseSector : Prog.Sat (flash s) H C Q ((Drv.eraseSector sector).bind k) m ↔
      C m ∧ Prog.Sat (flash s) H C Q (k .ok) (m.erase (sector * s) s) := Iff.rfl

theorem sat_eraseSectors (hC : ∀ j ≤ count, C (m.erase (sector * s) (j * s)))
    (hk : Prog.Sat (flash s) H C Q (k .ok) (m.erase (sector * s) (count * s))) :
    Prog.Sat (flash s) H C Q ((Drv.eraseSectors sector count).bind k) m := by
  induction count generalizing m sector with
  | zero =>
    rw [Nat.zero_mul, Bytes.erase_zero] at hk
    exact hk
  | succ count ih =>
    have hstep : ∀ j, (m.erase (sector * s) s).erase ((sector + 1) * s) (j * s) =
        m.erase (sector * s) ((j + 1) * s) := by
      intro j
      rw [Nat.succ_mul, Bytes.erase_erase, Nat.succ_mul, Nat.add_comm]
    have hzero := hC 0 (Nat.zero_le _)
    rw [Nat.zero_mul, Bytes.erase_zero] at hzero
    refine ⟨hzero, ih ?_ ?_⟩
    · intro j hj
      show C ((m.erase (sector * s) s).erase ((sector + 1) * s) (j * s))
      rw [hstep]
      exact hC (j + 1) (by omega)
    · show Prog.Sat (flash s) H C Q (k .ok)
        ((m.erase (sector * s) s).erase ((sector + 1) * s) (count * s))
      rw [hstep]
      exact hk

theorem sat_eraseRange (hs : 0 < s) {start size : Nat} (hstart : s ∣ start) (hsize : s ∣ size)
    (hC : ∀ j, j * s ≤ size → C (m.erase start (j * s)))
    (hk : Prog.Sat (flash s) H C Q (k .ok) (m.erase start size)) :
    Prog.Sat (flash s) H C Q ((Drv.eraseRange s start size).bind k) m := by
  obtain ⟨q, rfl⟩ := hsize
  have hcount : (s * q + s - 1) / s = q := by
    rw [Nat.add_sub_assoc hs, Nat.mul_add_div hs, Nat.div_eq_of_lt (by omega), Nat.add_zero]
  have hsector : start / s * s = start := Nat.div_mul_cancel hstart
  unfold Drv.eraseRange
  rw [hcount]
  apply sat_eraseSectors
  · intro j hj
    rw [hsector]
    exact hC j (by rw [Nat.mul_comm s]; exact Nat.mul_le_mul_right s hj)
  · rw [hsector, Nat.mul_comm q]
    exact hk

end Driver

/-- A state area that was erased and got its header; no mark is set. -/
def newArea (c : WlConfig) (m : Bytes) (dst turn : Nat) : Bytes :=
  (m.erase dst c.stateLen).program dst (c.header turn).bytes

section NewArea

variable {c : WlConfig} {m : Bytes} {dst turn x : Nat}

theorem newArea_out (hc : c.Valid) (h : x < dst ∨ dst + c.stateLen ≤ x) : newArea c m dst turn x =
    m x := by
  have hlen := hc.marks_le
  rw [newArea, Bytes.program_out (by rw [WlState.length_bytes]; omega), Bytes.erase_out h]

theorem newArea_marks (h1 : dst + sizeofState ≤ x) (h2 : x < dst + c.stateLen) :
    newArea c m dst turn x = 0xff := by
  rw [newArea, Bytes.program_out (by rw [WlState.length_bytes]; omega),
    Bytes.erase_in (by omega) h2]

theorem newArea_header (hc : c.Valid) (m : Bytes) (dst turn : Nat) :
    HeaderAt c (newArea c m dst turn) dst turn := by
  have hlen := hc.marks_le
  exact HeaderAt.program fun x h1 h2 => Bytes.erase_in h1 (by omega)

theorem newArea_unmarked (hc : c.Valid) (m : Bytes) (dst turn : Nat) (hi : i ≤ c.pages) :
    ¬Marked c (newArea c m dst turn) dst i := by
  have hlt := hc.mark_lt hi
  have hle := hc.marks_le
  exact not_not_intro (newArea_marks (by omega) (by omega))

theorem newArea_sameData (hc : c.Valid) (m : Bytes) (turn : Nat) (hdst : c.state1 ≤ dst) :
    SameData c m (newArea c m dst turn) := fun x hx => newArea_out hc (.inl (by omega))

end NewArea

section Blocks

variable {c : WlConfig} {state : WlState} {b : Bool} {d : Nat} {u : UInt8} {H : Prop}
  {C : Bytes → Prop} {α : Type}
  {Q : α → Bytes → Prop} {m : Bytes} {src dst turn : Nat}

theorem sat_copyPage (m₀ : Bytes) (total : Nat) (htotal : (i + n) * c.tempBuffSize = total)
    (hdisj : src + total ≤ d ∨ d + total ≤ src) (hout : ∀ x, x < d ∨ d + total ≤ x → m x = m₀ x)
    (hdone : ∀ o < i * c.tempBuffSize, m (d + o) = m₀ (src + o))
    (hrest : ∀ o, i * c.tempBuffSize ≤ o → o < total → m (d + o) = 0xff)
    (hC : ∀ m', (∀ x, x < d ∨ d + total ≤ x → m' x = m₀ x) → C m')
    (hk : ∀ m', (∀ x, x < d ∨ d + total ≤ x → m' x = m₀ x) →
    (∀ o < total, m' (d + o) = m₀ (src + o)) → Prog.Sat (flash c.sectorSize) H C Q (k .ok) m') :
    Prog.Sat (flash c.sectorSize) H C Q ((WlFlash.copyPage (c.object state b d u) src i n).bind k)
      m := by
  induction n generalizing m i with
  | zero =>
    exact hk m hout (htotal ▸ hdone)
  | succ n ih =>
    have hbound : i * c.tempBuffSize + c.tempBuffSize ≤ total := by
      rw [← htotal, ← Nat.succ_mul]
      exact Nat.mul_le_mul_right _ (by omega)
    have hout' : ∀ x, x < d ∨ d + total ≤ x →
        m.program (d + i * c.tempBuffSize)
          (m.read (src + i * c.tempBuffSize) c.tempBuffSize) x = m₀ x := by
      intro x hx
      rw [Bytes.program_out (by rw [Bytes.length_read]; omega), hout x hx]
    refine ⟨hC _ hout, hC _ hout, ih (i := i + 1) ?_ hout' ?_ ?_⟩
    · rw [← htotal, Nat.add_right_comm, Nat.add_assoc]
    · intro o ho
      rw [Nat.succ_mul] at ho
      show m.program (d + i * c.tempBuffSize) (m.read (src + i * c.tempBuffSize) c.tempBuffSize)
        (d + o) = _
      by_cases hlt : o < i * c.tempBuffSize
      · rw [Bytes.program_out (.inl (by omega)), hdone o hlt]
      · rw [Bytes.program_erased (by omega) (hrest o (by omega) (by omega)),
          Bytes.getD_read (by omega), hout _ (by omega)]
        congr 1
        omega
    · intro o h1 h2
      rw [Nat.succ_mul] at h1
      show m.program (d + i * c.tempBuffSize) (m.read (src + i * c.tempBuffSize) c.tempBuffSize)
        (d + o) = _
      rw [Bytes.program_out (.inr (by rw [Bytes.length_read]; omega))]
      exact hrest o (by omega) h2

theorem sat_copyMarks (m₀ : Bytes) (htotal : i + n = total)
    (hdisj : src + sizeofState + total ≤ dst + sizeofState ∨ dst + sizeofState + total ≤
    src + sizeofState)
    (hout : ∀ x, x < dst + sizeofState ∨ dst + sizeofState + total ≤ x → m x = m₀ x)
    (hdone : ∀ o < i, m (dst + sizeofState + o) = m₀ (src + sizeofState + o))
    (hrest : ∀ o, i ≤ o → o < total → m (dst + sizeofState + o) = 0xff)
    (hC : ∀ m', (∀ x, x < dst + sizeofState ∨ dst + sizeofState + total ≤ x → m' x = m₀ x) → C m')
    (hk : ∀ m', (∀ x, x < dst + sizeofState ∨ dst + sizeofState + total ≤ x → m' x = m₀ x) →
    (∀ o < total, m' (dst + sizeofState + o) = m₀ (src + sizeofState + o)) →
    Prog.Sat (flash s) H C Q (k .ok) m') :
    Prog.Sat (flash s) H C Q ((WlFlash.copyMarks src dst i n).bind k) m := by
  induction n generalizing m i with
  | zero =>
    exact hk m hout (htotal ▸ hdone)
  | succ n ih =>
    have hbyte : (m.read (src + sizeofState + i) 1).getD 0 0 = m₀ (src + sizeofState + i) := by
      rw [Bytes.getD_read (by decide), Nat.add_zero, hout _ (by omega)]
    simp only [WlFlash.copyMarks, Prog.bind_eq, Prog.bind_assoc, Prog.ite_bind, sat_read, hbyte,
      ne_eq, not_true_eq_false, if_false]
    refine ⟨hC _ hout, ?_⟩
    by_cases hff : m₀ (src + sizeofState + i) = 0xff
    · simp only [hff, not_true_eq_false, if_false]
      refine ih (i := i + 1) (by omega) hout ?_ fun o h1 h2 => hrest o (by omega) h2
      intro o ho
      by_cases hlt : o < i
      · exact hdone o hlt
      · obtain rfl : o = i := by omega
        rw [hrest o (Nat.le_refl _) (by omega), hff]
    · simp only [hff, not_false_eq_true, if_true, sat_write, not_true_eq_false, if_false]
      refine ⟨hC _ hout, ?_⟩
      refine ih (i := i + 1) (by omega) ?_ ?_ ?_
      · intro x hx
        rw [Bytes.program_out (by rw [List.length_singleton]; omega), hout x hx]
      · intro o ho
        by_cases hlt : o < i
        · rw [Bytes.program_out (.inl (by omega)), hdone o hlt]
        · obtain rfl : o = i := by omega
          rw [Bytes.program_erased (Nat.le_refl _) (hrest o (Nat.le_refl _) (by omega)),
            Nat.sub_self, List.getD_cons_zero]
      · intro o h1 h2
        rw [Bytes.program_out (.inr (by rw [List.length_singleton]; omega))]
        exact hrest o (by omega) h2

theorem sat_recoverLoop (hC : C m) (hk : Prog.Sat (flash s) H C Q (k (.ok, scanFrom c m i n)) m) :
    Prog.Sat (flash s) H C Q
      ((WlFlash.recoverLoop (c.object state b d u) i (n + 1) position).bind k) m := by
  induction n generalizing i with
  | zero =>
    simp only [WlFlash.recoverLoop, Prog.bind_eq, Prog.bind_assoc, Prog.ite_bind, sat_read, ne_eq,
      not_true_eq_false, ite_self]
    exact ⟨hC, hk⟩
  | succ n ih =>
    rw [WlFlash.recoverLoop]
    simp only [Prog.bind_eq, Prog.bind_assoc, Prog.ite_bind, sat_read, ne_eq, not_true_eq_false,
      if_false]
    refine ⟨hC, ?_⟩
    rw [Bytes.getD_read (by decide), Nat.add_zero]
    unfold scanFrom at hk
    by_cases hset : Marked c m c.state1 i
    · rw [if_pos hset] at hk
      rw [if_neg hset]
      exact ih hk
    · rw [if_neg hset] at hk
      rw [if_pos (by exact not_not.mp hset)]
      exact hk

theorem sat_recoverPos (hmax : state.maxPos = c.pages + 1) (hC : C m)
    (hk : Prog.Sat (flash s) H C Q (k (.ok, c.object { state with pos := scan c m } b d u)) m) :
    Prog.Sat (flash s) H C Q ((WlFlash.recoverPos (c.object state b d u)).bind k) m := by
  have hscan : scanFrom c m 0 c.pages ≠ state.maxPos := by
    have := scan_le (c := c) (m := m)
    unfold scan at this
    omega
  have hloop : WlFlash.recoverLoop (c.object state b d u) 0 (c.object state b d u).state.maxPos 0 =
      WlFlash.recoverLoop (c.object state b d u) 0 (c.pages + 1) 0 := by rw [← hmax]
  simp only [WlFlash.recoverPos, Prog.bind_eq, Prog.bind_assoc, Prog.ite_bind, hloop]
  apply sat_recoverLoop hC
  simp only [ne_eq, not_true_eq_false, if_false, hscan, Prog.pure_eq, Prog.ret_bind]
  exact hk

theorem sat_rebuild (hc : c.Valid) (hdst : c.sectorSize ∣ dst)
    (hdisj : src + c.stateLen ≤ dst ∨ dst + c.stateLen ≤ src)
    (hC : ∀ j, j * c.sectorSize ≤ c.stateLen → C (m.erase dst (j * c.sectorSize)))
    (hC' : ∀ m', (∀ x, x < dst ∨ dst + c.stateLen ≤ x → m' x = m x) → HeaderAt c m' dst turn → C m')
    (hk : ∀ m', (∀ x, x < dst ∨ dst + c.stateLen ≤ x → m' x = m x) → HeaderAt c m' dst turn →
    (∀ i ≤ c.pages, Marked c m' dst i ↔ Marked c m src i) →
    Prog.Sat (flash c.sectorSize) H C Q (k .ok) m') :
    Prog.Sat (flash c.sectorSize) H C Q
      ((WlFlash.rebuild (c.object state b d u) src dst (c.header turn)).bind k) m := by
  have hmarks := hc.marks_le
  have hbound := hc.cfg_lt
  have hcount : u32 (c.fullMemSize / c.sectorSize * c.wrSize) =
      c.fullMemSize / c.sectorSize * c.wrSize := by
    apply u32_eq
    unfold WlConfig.cfgStart at hbound
    omega
  -- between the header and the end of the marks, the area differs from the new one in marks only
  have hinside : ∀ m', (∀ x, x < dst + sizeofState ∨
      dst + sizeofState + c.fullMemSize / c.sectorSize * c.wrSize ≤ x →
        m' x = newArea c m dst turn x) →
      (∀ x, x < dst ∨ dst + c.stateLen ≤ x → m' x = m x) ∧ HeaderAt c m' dst turn := by
    intro m' h
    constructor
    · intro x hx
      rw [h x (by omega), newArea_out hc hx]
    · exact (newArea_header hc m dst turn).congr fun x _ h2 => h x (.inl h2)
  simp only [WlFlash.rebuild, Prog.bind_eq, Prog.bind_assoc, Prog.ite_bind, hcount]
  apply sat_eraseRange hc.sectorPos hdst (WlConfig.stateLen_dvd c) hC
  obtain ⟨q, hq⟩ := WlConfig.stateLen_dvd c
  have hend := hC q (by rw [hq, Nat.mul_comm])
  rw [Nat.mul_comm, ← hq] at hend
  refine ⟨hend, ?_⟩
  apply sat_copyMarks (newArea c m dst turn) (Nat.zero_add _) (by omega)
  · exact fun x _ => rfl
  · exact fun o ho => (Nat.not_lt_zero _ ho).elim
  · exact fun o _ ho => newArea_marks (by omega) (by omega)
  · exact fun m' h => hC' m' (hinside m' h).1 (hinside m' h).2
  · intro m' h hcopied
    refine hk m' (hinside m' h).1 (hinside m' h).2 fun i hi => ?_
    have hlt := hc.mark_lt hi
    rw [Marked, Marked, hcopied _ hlt, newArea_out hc (by omega)]

end Blocks

end EspIdf.WearLevelling
