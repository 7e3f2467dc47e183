import EspIdf.WearLevelling.Recovery

/-! `WL_Flash::updateWL`: one move of the dummy block, what it leaves when power is lost on the way,
and that it changes no virtual page. -/

namespace EspIdf.WearLevelling

open EspIdf.Device

variable {c : WlConfig} {w : WlFlash} {m m' : Bytes} {turn pos count crc d : Nat} {u : UInt8}

/-- The data area is the same outside the dummy page, which is at `pos`. -/
def OffDummy (c : WlConfig) (pos : Nat) (m m' : Bytes) : Prop :=
  ∀ x < c.state1, (x < c.startAddr + pos * c.pageSize ∨
    c.startAddr + pos * c.pageSize + c.pageSize ≤ x) → m' x = m x

/-- The dummy page has what the page behind it had. -/
def Filled (c : WlConfig) (pos : Nat) (m m' : Bytes) : Prop :=
  ∀ o < c.pageSize, m' (c.startAddr + pos * c.pageSize + o) =
    m (c.startAddr + nextSlot c.pages pos * c.pageSize + o)

inductive MoveStage (c : WlConfig) (m : Bytes) (turn pos : Nat) (m' : Bytes) : Prop where
  | copying (hstate : ∀ x, c.state1 ≤ x → m' x = m x)
  | marked (hfilled : Filled c pos m m') (h1 : HeaderAt c m' c.state1 turn)
      (h2 : HeaderAt c m' c.state2 turn)
      (hmarks : ∀ i ≤ c.pages, Marked c m' c.state1 i ↔ Marked c m c.state1 i ∨ i = pos)
  | erased (hfilled : Filled c pos m m') (hlast : pos = c.pages) (h1 : Broken c m' c.state1)
      (h2 : HeaderAt c m' c.state2 turn)
  | rewritten (hfilled : Filled c pos m m') (hlast : pos = c.pages)
      (h1 : HeaderAt c m' c.state1 (advance c.pages turn pos).1)
      (hblank : ¬Marked c m' c.state1 0)
      (h2 : HeaderAt c m' c.state2 turn ∨ Broken c m' c.state2 ∨
        HeaderAt c m' c.state2 (advance c.pages turn pos).1)

/-- What a move leaves when power is lost at any call of it. -/
structure MoveCut (c : WlConfig) (m : Bytes) (turn pos : Nat) (m' : Bytes) : Prop where
  data : OffDummy c pos m m'
  stage : c.TornInvalid → MoveStage c m turn pos m'

structure MoveDone (c : WlConfig) (m : Bytes) (turn pos : Nat) (r : EspErr × WlFlash)
    (m' : Bytes) : Prop where
  ok : r.1 = .ok
  online : Online c r.2 m' (advance c.pages turn pos).1 (advance c.pages turn pos).2
  data : OffDummy c pos m m'
  filled : Filled c pos m m'
  recorded : Recorded c m pos → Recorded c m' (advance c.pages turn pos).2

section Frame

theorem OffDummy.above (h : OffDummy c pos m m') (h' : ∀ x < c.state1, m'' x = m' x) :
    OffDummy c pos m m'' :=
  fun x hx hout => (h' x hx).trans (h x hx hout)

theorem Filled.above (hc : c.Valid) (hpos : pos ≤ c.pages) (h : Filled c pos m m')
    (h' : ∀ x < c.state1, m'' x = m' x) : Filled c pos m m'' := by
  intro o ho
  have hend := hc.data_end
  have hpage := WlConfig.Valid.page_le hpos
  rw [h' _ (by omega)]
  exact h o ho

end Frame

theorem writeMainState_sat (hc : c.Valid) (hturn : turn < c.pages) (hdata : OffDummy c c.pages m m₁)
    (hfilled : Filled c c.pages m m₁) (hbefore : MoveCut c m turn c.pages m₁)
    (h1 : HeaderAt c m₁ c.state1 turn) (h2 : HeaderAt c m₁ c.state2 turn) :
    Prog.Sat (flash c.sectorSize) False (MoveCut c m turn c.pages) (MoveDone c m turn c.pages)
      (WlFlash.writeMainState (c.object (c.ramState turn (c.pages + 1) 0 crc) true d u)) m₁ := by
  have hstate2 := c.state2_eq
  have hpages := hc.pages_lt
  have hmarks := hc.marks_le
  have hmark0 := hc.mark_lt (Nat.zero_le _)
  obtain ⟨q, hq⟩ := WlConfig.stateLen_dvd c
  set next := (advance c.pages turn c.pages).1 with hnext
  have hnextLt : next < c.pages := advance_turn (WlConfig.pages_pos hc) hturn _
  have hnextEq : (if sub32 (c.pages + 1) 1 ≤ u32 (turn + 1) then 0 else u32 (turn + 1)) = next := by
    rw [sub32_eq (by omega) (by omega), u32_eq (by omega), hnext, advance, if_pos (Nat.le_refl _)]
    rfl
  -- both copies are written to memory above the data area
  have hframe : ∀ m', (∀ x < c.state1, m' x = m₁ x) →
      OffDummy c c.pages m m' ∧ Filled c c.pages m m' :=
    fun m' h => ⟨hdata.above h, hfilled.above hc (Nat.le_refl _) h⟩
  have hcut1 : ∀ j, j * c.sectorSize ≤ c.stateLen →
      MoveCut c m turn c.pages (m₁.erase c.state1 (j * c.sectorSize)) := by
    intro j hj
    rcases Nat.eq_zero_or_pos j with rfl | hpos
    · rw [Nat.zero_mul, Bytes.erase_zero]
      exact hbefore
    · have hf := hframe _ (SameData.erase (m := m₁) (n := j * c.sectorSize) (Nat.le_refl _))
      refine ⟨hf.1, fun htorn => .erased hf.2 rfl (h1.erase_broken hturn htorn hpos) ?_⟩
      exact h2.congr fun x hx _ => Bytes.erase_out (.inr (by omega))
  set m₂ := newArea c m₁ c.state1 next with hm₂
  have hdata2 : SameData c m₁ m₂ := newArea_sameData hc _ _ (Nat.le_refl _)
  have hh1 : HeaderAt c m₂ c.state1 next := newArea_header hc _ _ _
  have hblank : ¬Marked c m₂ c.state1 0 := newArea_unmarked hc _ _ _ (Nat.zero_le _)
  have hh2 : HeaderAt c m₂ c.state2 turn :=
    h2.congr fun x hx _ => newArea_out hc (.inr (by omega))
  have hrewritten : ∀ m', (∀ x < c.state2, m' x = m₂ x) →
      (HeaderAt c m' c.state2 turn ∨ Broken c m' c.state2 ∨ HeaderAt c m' c.state2 next) →
      MoveStage c m turn c.pages m' ∧ HeaderAt c m' c.state1 next := by
    intro m' h h2'
    have hf := hframe m' (hdata2.trans fun x hx => h x (by omega))
    have h1' : HeaderAt c m' c.state1 next := hh1.congr fun x _ hx => h x (by omega)
    refine ⟨.rewritten hf.2 rfl h1' ?_ h2', h1'⟩
    rw [Marked, h _ (by omega)]
    exact hblank
  have hcut2 : ∀ j, j * c.sectorSize ≤ c.stateLen →
      MoveCut c m turn c.pages (m₂.erase c.state2 (j * c.sectorSize)) := by
    intro j hj
    have hout : ∀ x < c.state2, m₂.erase c.state2 (j * c.sectorSize) x = m₂ x :=
      fun x hx => Bytes.erase_out (.inl hx)
    refine ⟨(hframe _ (hdata2.trans fun x hx => hout x (by omega))).1,
      fun htorn => (hrewritten _ hout ?_).1⟩
    rcases Nat.eq_zero_or_pos j with rfl | hpos
    · rw [Nat.zero_mul, Bytes.erase_zero]
      exact .inl hh2
    · exact .inr (.inl (hh2.erase_broken hturn htorn hpos))
  have hlast : ∀ x < c.state2, newArea c m₂ c.state2 next x = m₂ x :=
    fun x hx => newArea_out hc (.inl hx)
  have hdone := hframe _ (hdata2.trans fun x hx => hlast x (by omega))
  have hstage := hrewritten _ hlast (.inr (.inr (newArea_header hc _ _ _)))
  have hmax : ∀ count crc : Nat, (c.ramState turn (c.pages + 1) count crc).maxPos = c.pages + 1 :=
    fun _ _ => rfl
  have hmove : ∀ count crc : Nat, (c.ramState turn (c.pages + 1) count crc).moveCount = turn :=
    fun _ _ => rfl
  simp only [WlFlash.writeMainState, Prog.bind_eq, hmax, hmove, hnextEq]
  apply sat_eraseRange hc.sectorPos hc.dvd_state1 (WlConfig.stateLen_dvd c) hcut1
  have hend1 := hcut1 q (by rw [hq, Nat.mul_comm])
  rw [Nat.mul_comm, ← hq] at hend1
  simp only [ne_eq, not_true_eq_false, if_false, sat_write]
  refine ⟨hend1, ?_⟩
  apply sat_eraseRange hc.sectorPos hc.dvd_state2 (WlConfig.stateLen_dvd c) hcut2
  have hend2 := hcut2 q (by rw [hq, Nat.mul_comm])
  rw [Nat.mul_comm, ← hq] at hend2
  simp only [not_true_eq_false, if_false, sat_write]
  have hzero : (advance c.pages turn c.pages).2 = 0 := by
    rw [advance, if_pos (Nat.le_refl _)]
  have hrec : Recorded c (newArea c m₂ c.state2 next) 0 := by
    refine Recorded.of_blank fun i hi => ?_
    have := hc.mark_lt hi
    rw [Marked, hlast _ (by omega)]
    exact newArea_unmarked hc _ _ _ hi
  refine ⟨hend2, ⟨hdone.1, fun _ => hstage.1⟩, rfl, ?_, hdone.1, hdone.2, fun _ => ?_⟩
  · rw [hzero]
    exact ⟨⟨_, _, _, _, rfl⟩, hnextLt, Nat.zero_le _, hstage.2, newArea_header hc _ _ _⟩
  · rw [hzero]
    exact hrec

theorem marked_program (hc : c.Valid) :
    Marked c (m.program (c.state1 + sizeofState + pos * c.wrSize) [0]) c.state1 i ↔
      Marked c m c.state1 i ∨ i = pos := by
  have hwr := hc.wrPos
  by_cases hi : i = pos
  · subst hi
    have hzero : m.program (c.state1 + sizeofState + i * c.wrSize) [0]
        (c.state1 + sizeofState + i * c.wrSize) = 0 := by
      rw [Bytes.program_in (Nat.le_refl _), Nat.sub_self]
      exact UInt8.and_zero
    simp only [Marked, hzero, or_true, iff_true]
    decide
  · have hne : i * c.wrSize < pos * c.wrSize ∨ pos * c.wrSize < i * c.wrSize :=
      Nat.lt_or_gt_of_ne fun h => hi (Nat.eq_of_mul_eq_mul_right hwr h)
    simp only [Marked, hi, or_false]
    rw [Bytes.program_out (by rw [List.length_singleton]; omega)]

theorem Recorded.succ (h : Recorded c m pos) (hpos : pos < c.pages)
    (hmarks : ∀ i ≤ c.pages, Marked c m' c.state1 i ↔ Marked c m c.state1 i ∨ i = pos) :
    Recorded c m' (pos + 1) := by
  constructor
  · intro i hi
    rw [hmarks i (by omega)]
    rcases Nat.lt_or_eq_of_le (Nat.le_of_lt_succ hi) with hlt | rfl
    · exact .inl (h.set i hlt)
    · exact .inr rfl
  · intro _ i h1 h2
    rw [hmarks i h2]
    rintro (hset | rfl)
    · exact h.unset hpos i (by omega) h2 hset
    · omega

theorem nextSlot_disjoint (hc : c.Valid) (pos : Nat) :
    nextSlot c.pages pos * c.pageSize + c.pageSize ≤ pos * c.pageSize ∨
      pos * c.pageSize + c.pageSize ≤ nextSlot c.pages pos * c.pageSize := by
  have hne : nextSlot c.pages pos ≠ pos := nextSlot_ne (WlConfig.pages_pos hc)
  rw [← Nat.succ_mul, ← Nat.succ_mul]
  rcases Nat.lt_or_gt_of_ne hne with h | h
  · exact .inl (Nat.mul_le_mul_right _ h)
  · exact .inr (Nat.mul_le_mul_right _ h)

def OnlyDummy (c : WlConfig) (pos : Nat) (m m' : Bytes) : Prop :=
  ∀ x, x < c.startAddr + pos * c.pageSize ∨ c.startAddr + pos * c.pageSize + c.pageSize ≤ x →
    m' x = m x

theorem OnlyDummy.moveCut (hc : c.Valid) (hpos : pos ≤ c.pages) (h : OnlyDummy c pos m m') :
    MoveCut c m turn pos m' := by
  have hend := hc.data_end
  have hpage := WlConfig.Valid.page_le hpos
  exact ⟨fun x _ hx => h x hx, fun _ => .copying fun x hx => h x (.inr (by omega))⟩

structure MoveMarked (c : WlConfig) (m : Bytes) (turn pos : Nat) (m' : Bytes) : Prop where
  cut : MoveCut c m turn pos m'
  header1 : HeaderAt c m' c.state1 turn
  header2 : HeaderAt c m' c.state2 turn
  filled : Filled c pos m m'
  marks : ∀ i ≤ c.pages, Marked c m' c.state1 i ↔ Marked c m c.state1 i ∨ i = pos

theorem moveMarked (hc : c.Valid) (hpos : pos ≤ c.pages) (h1 : HeaderAt c m c.state1 turn)
    (h2 : HeaderAt c m c.state2 turn) (honly : OnlyDummy c pos m m₁) (hfilled : Filled c pos m m₁)
    (h : ∀ x < c.state2 + sizeofState, m' x =
    m₁.program (c.state1 + sizeofState + pos * c.wrSize) [0] x) :
    MoveMarked c m turn pos m' := by
  have hstate2 := c.state2_eq
  have hmarks := hc.marks_le
  have hmark := hc.mark_lt hpos
  have hend := hc.data_end
  have hpage := WlConfig.Valid.page_le hpos
  have habove : ∀ x, c.state1 ≤ x → m₁ x = m x := fun x hx => honly x (.inr (by omega))
  have hsame : ∀ x < c.state2 + sizeofState, x < c.state1 + sizeofState + pos * c.wrSize ∨
      c.state1 + sizeofState + pos * c.wrSize < x → m' x = m₁ x := by
    intro x hx hout
    rw [h x hx, Bytes.program_out (by rw [List.length_singleton]; omega)]
  have hf : Filled c pos m m' := hfilled.above hc hpos fun x hx => hsame x (by omega) (by omega)
  have hh1 : HeaderAt c m' c.state1 turn := h1.congr fun x hx hlt => by
    rw [hsame x (by omega) (by omega), habove x hx]
  have hh2 : HeaderAt c m' c.state2 turn := h2.congr fun x hx hlt => by
    rw [hsame x (by omega) (by omega), habove x (by omega)]
  have hset : ∀ i ≤ c.pages, Marked c m' c.state1 i ↔ Marked c m c.state1 i ∨ i = pos := by
    intro i hi
    have := hc.mark_lt hi
    have hfirst : Marked c (m₁.program (c.state1 + sizeofState + pos * c.wrSize) [0]) c.state1 i ↔
        Marked c m₁ c.state1 i ∨ i = pos := marked_program hc
    simp only [Marked, habove _ (show c.state1 ≤ c.state1 + sizeofState + i * c.wrSize by omega)]
      at hfirst
    rw [Marked, h _ (by omega)]
    exact hfirst
  have hcut : MoveCut c m turn pos m₁ := honly.moveCut hc hpos
  refine ⟨⟨hcut.data.above fun x hx => hsame x (by omega) (by omega), fun _ => ?_⟩, hh1, hh2,
    hf, hset⟩
  exact .marked hf hh1 hh2 hset

theorem MoveMarked.moveDone (h : MoveMarked c m turn pos m') (hturn : turn < c.pages)
    (hlt : pos < c.pages) :
    MoveDone c m turn pos (.ok, c.object (c.ramState turn (pos + 1) count crc) true d u) m' := by
  have hadv : advance c.pages turn pos = (turn, pos + 1) := by rw [advance, if_neg (by omega)]
  refine ⟨rfl, ?_, h.cut.data, h.filled, fun hrec => ?_⟩
  · rw [hadv]
    exact ⟨⟨_, _, _, _, rfl⟩, hturn, hlt, h.header1, h.header2⟩
  · rw [hadv]
    exact hrec.succ hlt h.marks

section

variable (hc : c.Valid)
include hc

theorem moveBlock_eq (hpos : pos ≤ c.pages) :
    WlFlash.moveBlock (c.object (c.ramState turn pos count crc) true d u) =
      let dst := c.startAddr + pos * c.pageSize
      let filling := c.object (c.ramState turn pos 0 crc) true dst u
      let marking := c.object (c.ramState turn pos 0 crc) true dst 0
      let moved := c.object (c.ramState turn (pos + 1) 0 crc) true dst 0
      (Drv.eraseRange c.sectorSize dst c.pageSize).bind fun result =>
        if result ≠ .ok then .ret (result, filling.retryNext) else
      (WlFlash.copyPage filling (c.startAddr + nextSlot c.pages pos * c.pageSize) 0
          (c.pageSize / c.tempBuffSize)).bind fun result =>
        if result ≠ .ok then .ret (result, filling.retryNext) else
      (Drv.write (c.state1 + sizeofState + pos * c.wrSize) [0]).bind fun result =>
        if result ≠ .ok then .ret (result, marking.retryNext) else
      (Drv.write (c.state2 + sizeofState + pos * c.wrSize) [0]).bind fun result =>
        if result ≠ .ok then .ret (result, marking.retryNext) else
      if c.pages + 1 ≤ pos + 1 then moved.writeMainState else .ret (.ok, moved) := by
  have hpages := hc.pages_lt
  have hmarks := hc.marks_le
  have hmark := hc.mark_lt hpos
  have hend := hc.data_end
  have hcfgEnd := hc.cfg_lt
  have hcfg : c.cfgStart = c.state2 + c.stateLen := rfl
  have hstate2 := c.state2_eq
  have hpage := WlConfig.Valid.page_le hpos
  have hnextPage := WlConfig.Valid.page_le (nextSlot_le hpos)
  have hposEq : u32 (pos + 1) = pos + 1 := u32_eq (by omega)
  have hnextEq : (if c.pages + 1 ≤ pos + 1 then 0 else pos + 1) = nextSlot c.pages pos := rfl
  have hsrc : u32 (c.startAddr + u32 (nextSlot c.pages pos * c.pageSize)) =
      c.startAddr + nextSlot c.pages pos * c.pageSize := by
    rw [u32_eq (n := nextSlot c.pages pos * c.pageSize) (by omega), u32_eq (by omega)]
  have hdst : u32 (c.startAddr + u32 (pos * c.pageSize)) = c.startAddr + pos * c.pageSize := by
    rw [u32_eq (n := pos * c.pageSize) (by omega), u32_eq (by omega)]
  have hbyte : u32 (pos * c.wrSize) = pos * c.wrSize := u32_eq (by omega)
  have hmax : ∀ count crc : Nat, (c.ramState turn pos count crc).maxPos = c.pages + 1 :=
    fun _ _ => rfl
  have hram : ∀ count crc : Nat, (c.ramState turn pos count crc).pos = pos := fun _ _ => rfl
  simp only [WlFlash.moveBlock, Prog.bind_eq, hmax, hram, hposEq, hnextEq, hsrc, hdst, hbyte]
  rfl

theorem sat_copyErased {state : WlState} (hC : ∀ m', OnlyDummy c pos m m' → C m')
    (hk : ∀ m', OnlyDummy c pos m m' → Filled c pos m m' →
    Prog.Sat (flash c.sectorSize) H C Q (k .ok) m') :
    Prog.Sat (flash c.sectorSize) H C Q
      ((WlFlash.copyPage (c.object state b (c.startAddr + pos * c.pageSize) u)
        (c.startAddr + nextSlot c.pages pos * c.pageSize) 0 (c.pageSize / c.tempBuffSize)).bind k)
      (m.erase (c.startAddr + pos * c.pageSize) c.pageSize) := by
  have hdisj := nextSlot_disjoint hc pos
  have hcount : c.pageSize / c.tempBuffSize * c.tempBuffSize = c.pageSize :=
    Nat.div_mul_cancel (Nat.dvd_trans hc.buffSector hc.pageSectors)
  apply sat_copyPage m c.pageSize
  · rw [Nat.zero_add]
    exact hcount
  · omega
  · exact fun x hx => Bytes.erase_out hx
  · intro o ho
    rw [Nat.zero_mul] at ho
    exact (Nat.not_lt_zero _ ho).elim
  · exact fun o _ ho => Bytes.erase_in (Nat.le_add_right _ _) (Nat.add_lt_add_left ho _)
  · exact hC
  · exact hk

theorem moveBlock_sat (hturn : turn < c.pages) (hpos : pos ≤ c.pages)
    (h1 : HeaderAt c m c.state1 turn) (h2 : HeaderAt c m c.state2 turn) :
    Prog.Sat (flash c.sectorSize) False (MoveCut c m turn pos) (MoveDone c m turn pos)
      (WlFlash.moveBlock (c.object (c.ramState turn pos count crc) true d u)) m := by
  rw [moveBlock_eq hc hpos]
  apply sat_eraseRange hc.sectorPos (hc.dvd_page pos) hc.pageSectors
  · exact fun j hj => OnlyDummy.moveCut hc hpos fun x hx => Bytes.erase_out (by omega)
  simp only [ne_eq, not_true_eq_false, if_false]
  apply sat_copyErased hc
  · exact fun _ honly => OnlyDummy.moveCut hc hpos honly
  intro m₁ honly hfilled
  have hfirst := moveMarked hc hpos h1 h2 honly hfilled fun _ _ => rfl
  have hboth : MoveMarked c m turn pos
      ((m₁.program (c.state1 + sizeofState + pos * c.wrSize) [0]).program
        (c.state2 + sizeofState + pos * c.wrSize) [0]) :=
    moveMarked hc hpos h1 h2 honly hfilled fun x hx => Bytes.program_out (.inl (by omega))
  simp only [not_true_eq_false, if_false, sat_write]
  refine ⟨OnlyDummy.moveCut hc hpos honly, hfirst.cut, ?_⟩
  rcases Nat.lt_or_eq_of_le hpos with hlt | rfl
  · rw [if_neg (by omega)]
    exact ⟨hboth.cut, hboth.moveDone hturn hlt⟩
  · rw [if_pos (Nat.le_refl _)]
    exact writeMainState_sat hc hturn hboth.cut.data hboth.filled hboth.cut hboth.header1
      hboth.header2

theorem updateWL_sat (h : Online c w m turn pos) :
    Prog.Sat (flash c.sectorSize) False (MoveCut c m turn pos)
      (fun r m' => MoveDone c m turn pos r m' ∨ r.1 = .ok ∧ Online c r.2 m' turn pos ∧ m' = m)
      w.updateWL m := by
  obtain ⟨⟨count, crc, d, u, rfl⟩, hturn, hpos, h1, h2⟩ := h
  have hram : (c.ramState turn pos count crc).accessCount = count := rfl
  have hmax : (c.ramState turn pos count crc).maxCount = c.updaterate := rfl
  simp only [WlFlash.updateWL, hram, hmax]
  split
  · exact ⟨⟨fun _ _ _ => rfl, fun _ => .copying fun _ _ => rfl⟩,
      .inr ⟨rfl, ⟨⟨_, _, _, _, rfl⟩, hturn, hpos, h1, h2⟩, rfl⟩⟩
  · exact (moveBlock_sat hc hturn hpos h1 h2).mono fun r m' _ hdone => .inl hdone

theorem MoveCut.recovers (htorn : c.TornInvalid) (h : Online c w m turn pos)
    (hcut : MoveCut c m turn pos m') : Robust c m' ∧ ∃ t p, Recovers c m' t p := by
  have hstate2 := c.state2_eq
  have hadv := advance_turn (WlConfig.pages_pos hc) h.turnLt pos
  cases hcut.stage htorn with
  | copying hstate =>
    have h1 : HeaderAt c m' c.state1 turn := h.header1.congr fun x hx _ => hstate x hx
    have h2 : HeaderAt c m' c.state2 turn := h.header2.congr fun x hx _ => hstate x (by omega)
    exact ⟨.of_headers hc h.turnLt h.turnLt h1 h2, _, _, .both h.turnLt h1 h2⟩
  | marked hfilled h1 h2 hmarks =>
    exact ⟨.of_headers hc h.turnLt h.turnLt h1 h2, _, _, .both h.turnLt h1 h2⟩
  | erased hfilled hlast h1 h2 =>
    exact ⟨.of_second hc h.turnLt h1 h2, _, _, .second h.turnLt h1.not_intact h2⟩
  | rewritten hfilled hlast h1 hblank h2 =>
    rcases h2 with h2 | h2 | h2
    · refine ⟨.of_headers hc hadv h.turnLt h1 h2, ?_⟩
      by_cases hne : (advance c.pages turn pos).1 = turn
      · rw [hne] at h1
        exact ⟨_, _, .both h.turnLt h1 h2⟩
      · exact ⟨_, _, .ahead hadv h.turnLt hne h1 h2 hblank⟩
    · exact ⟨.of_first hc hadv h1 h2, _, _, .first hadv h1 h2.not_intact hblank⟩
    · exact ⟨.of_headers hc hadv hadv h1 h2, _, _, .both hadv h1 h2⟩

theorem MoveCut.recovers_view (htorn : c.TornInvalid) (h : Online c w m turn pos)
    (hrec : Recorded c m pos) (hcut : MoveCut c m turn pos m') :
    ∃ t p, Recovers c m' t p ∧ ∀ a, view c t p m' a = view c turn pos m a := by
  have hstate2 := c.state2_eq
  have hadv := advance_turn (WlConfig.pages_pos hc) h.turnLt pos
  have hold := view_dummy hc turn hcut.data
  have hnew : Filled c pos m m' → ∀ a, view c (advance c.pages turn pos).1
      (advance c.pages turn pos).2 m' a = view c turn pos m a :=
    fun hfilled => view_advance hc h.turnLt h.posLe hcut.data hfilled
  cases hcut.stage htorn with
  | copying hstate =>
    have hrec' : Recorded c m' pos := hrec.congr h.posLe fun i _ => by
      rw [Marked, Marked, hstate _ (by omega)]
    have hboth := Recovers.both h.turnLt (h.header1.congr fun x hx _ => hstate x hx)
      (h.header2.congr fun x hx _ => hstate x (by omega))
    rw [hrec'.scan_eq h.posLe] at hboth
    exact ⟨_, _, hboth, hold⟩
  | marked hfilled h1 h2 hmarks =>
    have hboth := Recovers.both h.turnLt h1 h2
    rcases Nat.lt_or_eq_of_le h.posLe with hlt | rfl
    · have hnew := hnew hfilled
      rw [advance, if_neg (by omega)] at hnew
      rw [(hrec.succ hlt hmarks).scan_eq hlt] at hboth
      exact ⟨_, _, hboth, hnew⟩
    · -- the mark of the last position does not count
      have hscan : scan c m' = c.pages := scan_eq (Nat.le_refl _)
        (fun i hi => (hmarks i (by omega)).mpr (.inl (hrec.set i hi)))
        fun hlt => (Nat.lt_irrefl _ hlt).elim
      rw [hscan] at hboth
      exact ⟨_, _, hboth, hold⟩
  | erased hfilled hlast h1 h2 =>
    subst hlast
    exact ⟨_, _, .second h.turnLt h1.not_intact h2, hold⟩
  | rewritten hfilled hlast h1 hblank h2 =>
    subst hlast
    have hnew := hnew hfilled
    have hzero : (advance c.pages turn c.pages).2 = 0 := by
      rw [advance, if_pos (Nat.le_refl _)]
    rw [hzero] at hnew
    have hboth : HeaderAt c m' c.state2 (advance c.pages turn c.pages).1 →
        Recovers c m' (advance c.pages turn c.pages).1 0 := by
      intro h2
      have := Recovers.both hadv h1 h2
      rwa [scan_zero hblank] at this
    rcases h2 with h2 | h2 | h2
    · by_cases hne : (advance c.pages turn c.pages).1 = turn
      · exact ⟨_, _, hboth (by rw [hne]; exact h2), hnew⟩
      · exact ⟨_, _, .ahead hadv h.turnLt hne h1 h2 hblank, hnew⟩
    · exact ⟨_, _, .first hadv h1 h2.not_intact hblank, hnew⟩
    · exact ⟨_, _, hboth h2, hnew⟩

theorem MoveDone.view (h : Online c w m turn pos) (hdone : MoveDone c m turn pos r m')
    (a : Nat) :
    view c (advance c.pages turn pos).1 (advance c.pages turn pos).2 m' a = view c turn pos m a :=
  view_advance hc h.turnLt h.posLe hdone.data hdone.filled a

end

end EspIdf.WearLevelling
