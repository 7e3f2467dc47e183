import EspIdf.Device.Faults
import EspIdf.WearLevelling.PowerLoss

/-! Driver calls that fail without effect, on a device that stays up: after which failures the map
in memory and the state copies in flash still agree. -/

namespace EspIdf.WearLevelling

open EspIdf.Device

def FlashOp.Fails : (o : FlashOp) → o.Ret → Prop
  | eraseSector _, (r : EspErr) => r ≠ .ok
  | write _ _, (r : EspErr) => r ≠ .ok
  | read _ _, _ => False

/-- The driver on NOR flash, where the calls that satisfy `T` can fail. -/
abbrev failing (sectorSize : Nat) (T : FlashOp → Prop) :
    (o : FlashOp) → Bytes → o.Ret → Bytes → Prop :=
  Prog.faulty (flash sectorSize) FlashOp.Fails T

/-- The calls whose failure is harmless: the erasure and the writes of the data area, the marks of
the first state copy, and the last mark of the second. -/
def Tolerated (c : WlConfig) : FlashOp → Prop
  | .eraseSector sector => sector * c.sectorSize < c.state1
  | .write destAddr _ => destAddr < c.state1 ∨
      c.state1 + sizeofState ≤ destAddr ∧ destAddr < c.state2 ∨
      destAddr = c.state2 + sizeofState + c.pages * c.wrSize
  | .read _ _ => True

section Driver

variable {s : Nat} {T : FlashOp → Prop} {α : Type} {Q : α → Bytes → Prop} {m : Bytes}

theorem post_write : Prog.Post (failing s T) Q ((Drv.write a bs).bind k) m ↔
      Prog.Post (failing s T) Q (k .ok) (m.program a bs) ∧
        (T (.write a bs) → ∀ e, e ≠ .ok → Prog.Post (failing s T) Q (k e) m) :=
  Prog.post_faulty_bind

theorem post_eraseSector : Prog.Post (failing s T) Q ((Drv.eraseSector sector).bind k) m ↔
      Prog.Post (failing s T) Q (k .ok) (m.erase (sector * s) s) ∧
        (T (.eraseSector sector) → ∀ e, e ≠ .ok → Prog.Post (failing s T) Q (k e) m) :=
  Prog.post_faulty_bind

theorem post_read : Prog.Post (failing s T) Q ((Drv.read a n).bind k) m ↔
      Prog.Post (failing s T) Q (k (.ok, m.read a n)) m :=
  Prog.post_faulty_bind.trans (and_iff_left fun _ _ h => h.elim)

end Driver

/-! ### Loops of driver calls -/

theorem failsFast_check {o : FlashOp} {f : o.Ret → EspErr} {p : Drv EspErr}
    (hf : ∀ r, o.Fails r → f r ≠ .ok) (hp : Prog.FailsFast FlashOp.Fails (· ≠ .ok) p) :
    Prog.FailsFast FlashOp.Fails (· ≠ .ok)
      (.call o fun r => if f r ≠ .ok then .ret (f r) else p : Drv EspErr) := by
  intro r
  by_cases hr : f r = .ok
  · simp only [hr, ne_eq, not_true_eq_false, if_false]
    exact ⟨hp, fun h => (hf r h hr).elim⟩
  · simp only [hr, ne_eq, not_false_eq_true, if_true]
    exact ⟨trivial, fun _ => ⟨_, rfl, hr⟩⟩

theorem eraseSectors_failsFast (sector count : Nat) :
    Prog.FailsFast FlashOp.Fails (· ≠ .ok) (Drv.eraseSectors sector count) := by
  induction count generalizing sector with
  | zero => trivial
  | succ count ih =>
    exact failsFast_check (o := .eraseSector sector) (f := id) (fun _ h => h) (ih (sector + 1))

theorem copyPage_failsFast (w : WlFlash) (dataAddr i n : Nat) :
    Prog.FailsFast FlashOp.Fails (· ≠ .ok) (w.copyPage dataAddr i n) := by
  induction n generalizing i with
  | zero => trivial
  | succ n ih =>
    refine fun r => ⟨?_, fun h => h.elim⟩
    have hwrite := failsFast_check (f := id)
      (o := .write (w.dummyAddr + i * w.cfg.tempBuffSize) r.2) (fun _ h => h) (ih (i + 1))
    show Prog.FailsFast FlashOp.Fails (· ≠ .ok) (if r.1 ≠ .ok then .ret r.1 else _)
    by_cases hread : r.1 = .ok
    · rw [if_neg (not_not_intro hread)]
      exact hwrite
    · rw [if_pos hread]
      trivial

theorem eraseSectors_within (h : ∀ j < count, P (.eraseSector (sector + j))) :
    Prog.Within P (fun _ => True) (Drv.eraseSectors sector count) := by
  induction count generalizing sector with
  | zero => trivial
  | succ count ih =>
    refine ⟨h 0 (Nat.succ_pos _), fun (r : EspErr) => ?_⟩
    show Prog.Within P _ (if r ≠ .ok then .ret r else Drv.eraseSectors (sector + 1) count)
    split
    · trivial
    · refine ih fun j hj => ?_
      rw [Nat.add_right_comm]
      exact h (j + 1) (by omega)

theorem recoverLoop_within (hP : ∀ a n, P (.read a n)) (w : WlFlash) (i n position : Nat) :
    Prog.Within P (fun _ => True) (w.recoverLoop i n position) := by
  induction n generalizing i position with
  | zero => trivial
  | succ n ih =>
    refine ⟨hP _ _, fun r => ?_⟩
    show Prog.Within P _ (if r.1 ≠ .ok then .ret (r.1, i)
      else if r.2.getD 0 0 = 0xff then .ret (.ok, i) else w.recoverLoop (i + 1) n i)
    split
    · trivial
    · split
      · trivial
      · exact ih _ _

variable {c : WlConfig} {w w' : WlFlash} {m m' v : Bytes} {turn pos count crc d : Nat} {u : UInt8}

/-! ### A move with failures -/

/-- A move that failed: the dummy block is where it was, and nothing else has changed. -/
structure MoveFailed (c : WlConfig) (m : Bytes) (turn pos : Nat) (r : EspErr × WlFlash)
    (m' : Bytes) : Prop where
  err : r.1 ≠ .ok
  online : Online c r.2 m' turn pos
  data : OffDummy c pos m m'
  recorded : Recorded c m pos → Recorded c m' pos

theorem OnlyDummy.moveFailed (hc : c.Valid) (hturn : turn < c.pages) (hpos : pos ≤ c.pages)
    (h1 : HeaderAt c m c.state1 turn) (h2 : HeaderAt c m c.state2 turn) (h : OnlyDummy c pos m m')
    (he : e ≠ .ok) :
    MoveFailed c m turn pos (e, (c.object (c.ramState turn pos count crc) true d u).retryNext)
      m' := by
  have hend := hc.data_end
  have hpage := WlConfig.Valid.page_le hpos
  have hstate : ∀ x, c.state1 ≤ x → m' x = m x := fun x hx => h x (.inr (by omega))
  have honline : Online c (c.object (c.ramState turn pos count crc) true d u).retryNext m
      turn pos :=
    ⟨⟨_, _, _, _, rfl⟩, hturn, hpos, h1, h2⟩
  exact ⟨he, honline.frame hstate, fun x _ hx => h x hx, fun hrec => hrec.frame hpos hstate⟩

def Strict (c : WlConfig) (o : FlashOp) : Prop := Tolerated c o → ∀ r, ¬o.Fails r

theorem eraseRange_strict {start : Nat} (hstart : c.state1 ≤ start)
    (hdvd : c.sectorSize ∣ start) (size : Nat) :
    Prog.Within (Strict c) (fun _ => True) (Drv.eraseRange c.sectorSize start size) := by
  refine eraseSectors_within fun j _ htol => ?_
  have hsector : start / c.sectorSize * c.sectorSize = start := Nat.div_mul_cancel hdvd
  have hle := Nat.mul_le_mul_right c.sectorSize (Nat.le_add_right (start / c.sectorSize) j)
  have htol : (start / c.sectorSize + j) * c.sectorSize < c.state1 := htol
  omega

theorem strict_header1 (c : WlConfig) (bs : List UInt8) : Strict c (.write c.state1 bs) := by
  have hstate2 := c.state2_eq
  rintro (h | ⟨h, -⟩ | h)
  · omega
  · simp only [sizeofState] at h
    omega
  · simp only [sizeofState] at h
    omega

theorem strict_header2 (c : WlConfig) (bs : List UInt8) : Strict c (.write c.state2 bs) := by
  have hstate2 := c.state2_eq
  rintro (h | ⟨-, h⟩ | h)
  · omega
  · omega
  · simp only [sizeofState] at h
    omega

theorem writeMainState_strict (hc : c.Valid) (state : WlState) :
    Prog.Within (Strict c) (fun _ => True) (WlFlash.writeMainState (c.object state true d u)) := by
  have hstate2 := c.state2_eq
  refine (eraseRange_strict (Nat.le_refl _) hc.dvd_state1 _).bind fun result _ => ?_
  split
  · trivial
  refine Prog.Within.op_bind (strict_header1 c _) fun (result : EspErr) => ?_
  split
  · trivial
  refine (eraseRange_strict (by omega) hc.dvd_state2 _).bind fun result _ => ?_
  split
  · trivial
  exact Prog.Within.op_bind (strict_header2 c _) fun _ => trivial

theorem tolerated_mark2 (hc : c.Valid)
    (h : Tolerated c (.write (c.state2 + sizeofState + pos * c.wrSize) bs)) : pos = c.pages := by
  have hstate2 := c.state2_eq
  rcases h with h | ⟨-, h⟩ | h
  · omega
  · omega
  · exact Nat.eq_of_mul_eq_mul_right hc.wrPos (Nat.add_left_cancel h)

theorem MoveMarked.moveFailed (h : MoveMarked c m turn c.pages m') (hturn : turn < c.pages)
    (he : e ≠ .ok) : MoveFailed c m turn c.pages
      (e, (c.object (c.ramState turn c.pages count crc) true d u).retryNext) m' :=
  ⟨he, ⟨⟨_, _, _, _, rfl⟩, hturn, Nat.le_refl _, h.header1, h.header2⟩, h.cut.data, fun hrec =>
    ⟨fun i hi => (h.marks i (Nat.le_of_lt hi)).2 (.inl (hrec.set i hi)),
      fun hlt => (Nat.lt_irrefl _ hlt).elim⟩⟩

theorem moveBlock_post (hc : c.Valid) (hturn : turn < c.pages) (hpos : pos ≤ c.pages)
    (h1 : HeaderAt c m c.state1 turn) (h2 : HeaderAt c m c.state2 turn) :
    Prog.Post (failing c.sectorSize (Tolerated c))
      (fun r m' => MoveDone c m turn pos r m' ∨ MoveFailed c m turn pos r m')
      (WlFlash.moveBlock (c.object (c.ramState turn pos count crc) true d u)) m := by
  have hfailed : ∀ {m₁ : Bytes} {e : EspErr} {d : Nat} {u : UInt8}, OnlyDummy c pos m m₁ → e ≠ .ok →
      MoveFailed c m turn pos (e, (c.object (c.ramState turn pos 0 crc) true d u).retryNext) m₁ :=
    fun honly he => honly.moveFailed hc hturn hpos h1 h2 he
  rw [moveBlock_eq hc hpos]
  have herase : Prog.Sat (flash c.sectorSize) False (OnlyDummy c pos m)
      (fun r m' => r = .ok ∧ m' = m.erase (c.startAddr + pos * c.pageSize) c.pageSize)
      (Drv.eraseRange c.sectorSize (c.startAddr + pos * c.pageSize) c.pageSize) m := by
    rw [← Prog.bind_ret (Drv.eraseRange _ _ _)]
    apply sat_eraseRange hc.sectorPos (hc.dvd_page pos) hc.pageSectors
    · exact fun j hj x hx => Bytes.erase_out (by omega)
    · exact ⟨fun x hx => Bytes.erase_out hx, rfl, rfl⟩
  refine (herase.post_of_failsFast (eraseSectors_failsFast _ _)).bind ?_
  rintro result m₁ (⟨rfl, rfl⟩ | ⟨he, honly⟩)
  case inr =>
    rw [if_pos he]
    exact .inr (hfailed honly he)
  have hcopy : Prog.Sat (flash c.sectorSize) False (OnlyDummy c pos m)
      (fun r m' => r = .ok ∧ OnlyDummy c pos m m' ∧ Filled c pos m m')
      (WlFlash.copyPage (c.object (c.ramState turn pos 0 crc) true
        (c.startAddr + pos * c.pageSize) u)
        (c.startAddr + nextSlot c.pages pos * c.pageSize) 0 (c.pageSize / c.tempBuffSize))
      (m.erase (c.startAddr + pos * c.pageSize) c.pageSize) := by
    rw [← Prog.bind_ret (WlFlash.copyPage _ _ _ _)]
    exact sat_copyErased hc (fun _ honly => honly) fun m₁ honly hfilled =>
      ⟨honly, rfl, honly, hfilled⟩
  refine (hcopy.post_of_failsFast (copyPage_failsFast _ _ _ _)).bind ?_
  rintro result m₁ (⟨rfl, honly, hfilled⟩ | ⟨he, honly⟩)
  case inr =>
    rw [if_pos he]
    exact .inr (hfailed honly he)
  have hfirst := moveMarked hc hpos h1 h2 honly hfilled fun _ _ => rfl
  have hboth : MoveMarked c m turn pos ((m₁.program
    (c.state1 + sizeofState + pos * c.wrSize) [0]).program
        (c.state2 + sizeofState + pos * c.wrSize) [0]) :=
    moveMarked hc hpos h1 h2 honly hfilled fun x hx => Bytes.program_out (.inl (by omega))
  refine post_write.2 ⟨?_, fun _ e he => ?_⟩
  case refine_2 =>
    rw [if_pos he]
    exact .inr (hfailed honly he)
  refine post_write.2 ⟨?_, fun htol e he => ?_⟩
  case refine_2 =>
    -- the second mark can fail only at the last position, which the marks do not record
    rw [if_pos he]
    obtain rfl : pos = c.pages := tolerated_mark2 hc htol
    exact .inr (hfirst.moveFailed hturn he)
  rw [if_neg (not_not_intro rfl)]
  rcases Nat.lt_or_eq_of_le hpos with hlt | rfl
  · rw [if_neg (by omega)]
    exact .inl (hboth.moveDone hturn hlt)
  · rw [if_pos (Nat.le_refl _)]
    refine (Prog.Sat.post_of_within (writeMainState_sat hc hturn hboth.cut.data hboth.filled
      hboth.cut
      hboth.header1 hboth.header2) (writeMainState_strict hc _)).mono fun _ _ => .inl

/-! ### Calls with failures -/

structure Holds (c : WlConfig) (w : WlFlash) (m : Bytes) (v : Bytes) (turn pos : Nat) : Prop where
  online : Online c w m turn pos
  recorded : Recorded c m pos
  view : ∀ a < c.pages * c.pageSize, view c turn pos m a = v a

def effect (sectorSize : Nat) (op : Op) (result : EspErr) (v : Bytes) : Bytes :=
  if result = .ok then (op.plain sectorSize v).2 else v

theorem updateWL_post (hc : c.Valid) (h : Holds c w m v turn pos) :
    Prog.Post (failing c.sectorSize (Tolerated c)) (fun r m' => ∃ t p, Holds c r.2 m' v t p)
      w.updateWL m := by
  obtain ⟨⟨⟨count, crc, d, u, rfl⟩, hturn, hpos, h1, h2⟩, hrec, hview⟩ := h
  have honline : ∀ {count : Nat}, Online c (c.object (c.ramState turn pos count crc) true d u) m
      turn pos :=
    ⟨⟨_, _, _, _, rfl⟩, hturn, hpos, h1, h2⟩
  have hram : (c.ramState turn pos count crc).accessCount = count := rfl
  have hmax : (c.ramState turn pos count crc).maxCount = c.updaterate := rfl
  simp only [WlFlash.updateWL, hram, hmax]
  split
  · exact ⟨turn, pos, honline, hrec, hview⟩
  · refine (moveBlock_post hc hturn hpos h1 h2).mono fun r m' hend => ?_
    rcases hend with hdone | hfailed
    · exact ⟨_, _, hdone.online, hdone.recorded hrec, fun a ha =>
        (hdone.view hc (w := c.object (c.ramState turn pos count crc) true d u) honline a).trans
          (hview a ha)⟩
    · exact ⟨_, _, hfailed.online, hfailed.recorded hrec, fun a ha =>
        (view_dummy hc turn hfailed.data a).trans (hview a ha)⟩

theorem call_post (hc : c.Valid) (h : Holds c w m v turn pos) {call : Call} (hfits : call.Fits c) :
    Prog.Post (failing c.sectorSize (Tolerated c))
      (fun r m' => ∃ t p, Holds c r.2.2 m' (effect c.sectorSize (.call call) r.1 v) t p)
      (call.prog w) m := by
  obtain ⟨honline, hrec, hview⟩ := h
  have hsame : ∀ (op : Op) {t p : Nat} {m : Bytes}, op.Fits c →
      (∀ a < c.pages * c.pageSize, view c t p m a = v a) → ∀ a < c.pages * c.pageSize,
      (op.plain c.sectorSize (view c t p m)).2 a = (op.plain c.sectorSize v).2 a :=
    fun op _ _ _ hfits hview => (plain_congr hfits hview).2
  cases call with
  | read addr dest =>
    have hpage := WlConfig.InPage.offset hc.pagePos hfits
    simp only [Call.prog, Prog.bind_eq, read_run hc honline hfits.pos hfits.bound (by omega),
      Prog.bind_assoc]
    refine post_read.2 ?_
    simp only [ne_eq, not_true_eq_false, if_false, WlFlash.store, Nat.zero_add, Bytes.length_read,
      Nat.le_refl, decide_true, Prog.assert_true, Prog.bind_eq, Prog.pure_eq, Prog.ret_bind]
    exact ⟨turn, pos, honline, hrec, hview⟩
  | write addr src =>
    have habove := place_above hc turn pos hfits
    have hpage := WlConfig.InPage.offset hc.pagePos hfits
    have hframe : ∀ x, c.state1 ≤ x → m.program (c.startAddr + c.place turn pos addr) src x = m x :=
      fun x hx => Bytes.program_out (.inr (by omega))
    simp only [Call.prog, Prog.bind_eq, Prog.pure_eq,
      write_run hc honline hfits.pos hfits.bound (by omega)]
    refine post_write.2 ⟨⟨turn, pos, honline.frame hframe, hrec.frame honline.posLe hframe, ?_⟩,
      fun _ e he => ?_⟩
    · intro a ha
      rw [view_program hc hfits ha]
      exact hsame (.call (.write addr src)) hfits hview a ha
    · refine ⟨turn, pos, honline, hrec, ?_⟩
      rw [effect, if_neg he]
      exact hview
  | eraseSector sector =>
    have hwin := sector_inPage hc hfits
    simp only [Call.prog, WlFlash.eraseSector, honline.initialized, Bool.true_eq_false, if_false,
      Prog.bind_eq, Prog.bind_assoc]
    refine (updateWL_post hc ⟨honline, hrec, hview⟩).bind ?_
    rintro ⟨result, w₁⟩ m₁ ⟨t, p, honline₁, hrec₁, hview₁⟩
    by_cases hok : result = .ok
    case neg =>
      simp only [hok, ne_eq, not_false_eq_true, if_true, Prog.pure_eq, Prog.ret_bind]
      refine ⟨t, p, honline₁, hrec₁, ?_⟩
      rw [effect, if_neg hok]
      exact hview₁
    have habove := place_above hc t p hwin
    have hframe : ∀ x, c.state1 ≤ x →
        m₁.erase (c.startAddr + c.place t p (sector * c.sectorSize)) c.sectorSize x = m₁ x :=
      fun x hx => Bytes.erase_out (.inr (by omega))
    have hcfg : w₁.cfg = c := honline₁.cfg
    simp only [hok, ne_eq, not_true_eq_false, if_false, hcfg, honline₁.physAddr hc hfits,
      Prog.bind_assoc, Prog.pure_eq, Prog.ret_bind]
    refine post_eraseSector.2 ⟨?_, fun _ e he => ?_⟩
    · rw [place_sector hc]
      refine ⟨t, p, honline₁.frame hframe, hrec₁.frame honline₁.posLe hframe, fun a ha => ?_⟩
      rw [view_erase hc hwin ha]
      exact hsame (.call (.eraseSector sector)) hfits hview₁ a ha
    · refine ⟨t, p, honline₁, hrec₁, ?_⟩
      rw [effect, if_neg he]
      exact hview₁
  | flush =>
    obtain ⟨count, crc, d, u, rfl⟩ := honline.object
    have hretry : Online c (c.object (c.ramState turn pos count crc) true d u).retryNext m
        turn pos :=
      ⟨⟨_, _, _, _, rfl⟩, honline.turnLt, honline.posLe, honline.header1, honline.header2⟩
    refine (updateWL_post hc ⟨hretry, hrec, hview⟩).bind ?_
    rintro ⟨result, w₁⟩ m₁ ⟨t, p, hholds⟩
    refine ⟨t, p, ?_⟩
    have heffect : effect c.sectorSize (.call .flush) result v = v := by
      unfold effect
      split <;> rfl
    rw [heffect]
    exact hholds

theorem recoverPos_post {state : WlState} (hmax : state.maxPos = c.pages + 1) :
    Prog.Post (failing c.sectorSize (Tolerated c))
      (fun r m' => r = (.ok, c.object { state with pos := scan c m } b d u) ∧ m' = m)
      (c.object state b d u).recoverPos m := by
  have hreads : Prog.Within (Strict c) (fun _ => True) (c.object state b d u).recoverPos := by
    refine (recoverLoop_within (fun _ _ _ _ h => h) _ _ _ _).bind ?_
    rintro ⟨result, position⟩ -
    dsimp only
    split <;> trivial
  refine Prog.Sat.post_of_within (C := (· = m)) (H := False) ?_ hreads
  rw [← Prog.bind_ret (WlFlash.recoverPos _)]
  exact sat_recoverPos hmax rfl ⟨rfl, rfl, rfl⟩

theorem init_post (hc : c.Valid) (h : Holds c w m v turn pos) :
    Prog.Post (failing c.sectorSize (Tolerated c)) (fun r m' => ∃ t p, Holds c r.2 m' v t p)
      w.init m := by
  obtain ⟨⟨⟨count, crc, d, u, rfl⟩, hturn, hpos, h1, h2⟩, hrec, hview⟩ := h
  have hs1 := h1.state hc hturn
  have hs2 := h2.state hc hturn
  unfold stateAt at hs1 hs2
  simp only [WlFlash.init, WlConfig.object, Prog.bind_eq, Bool.true_eq_false, if_false, post_read,
    if_true, hs1, hs2, ne_eq, not_true_eq_false, header_crc, header_version, and_self]
  refine (recoverPos_post rfl).bind ?_
  rintro r m' ⟨rfl, rfl⟩
  rw [hrec.scan_eq hpos]
  exact ⟨turn, pos, ⟨⟨_, _, _, _, rfl⟩, hturn, hpos, h1, h2⟩, hrec, hview⟩

theorem op_post (hc : c.Valid) (h : Holds c w m v turn pos) {op : Op} (hfits : op.Fits c) :
    Prog.Post (failing c.sectorSize (Tolerated c))
      (fun r m' => ∃ t p, Holds c r.2.2 m' (effect c.sectorSize op r.1 v) t p) (op.prog w) m := by
  cases op with
  | call call => exact call_post hc h hfits
  | init =>
    refine (init_post hc h).bind ?_
    rintro ⟨result, w₁⟩ m₁ ⟨t, p, hholds⟩
    have heffect : effect c.sectorSize .init result v = v := by
      unfold effect
      split <;> rfl
    refine ⟨t, p, ?_⟩
    rw [heffect]
    exact hholds

/-! ### Runs -/

def Initialised (c : WlConfig) (w : WlFlash) (m : Bytes) : Prop :=
  ∃ turn pos, Online c w m turn pos ∧ Recorded c m pos

theorem initialised_of_init {cfg : WlConfig} {w₀ wc : WlFlash} {result : EspErr} (hc : cfg.Valid)
    (hconfig : w₀.config cfg = some (.ok, wc)) (hrec : Recovers cfg.sealed m turn pos)
    (hole : NoHole cfg.sealed m)
    (hrun : Prog.run (flash cfg.sectorSize) wc.init m = some ((result, w), m')) :
    Initialised cfg.sealed w m' := by
  obtain ⟨-, hdone⟩ := (init_config hc hconfig hrec).run hrun
  exact ⟨turn, pos, hdone.online, hdone.recorded hole⟩

/-- The runs from an initialised device in which the driver calls that satisfy `T` can fail, with
what the calls that succeeded have left in the virtual range. -/
inductive FailingRun (c : WlConfig) (T : FlashOp → Prop) : WlFlash → Bytes → Bytes → Prop where
  | start {w : WlFlash} {m : Bytes} (h : Initialised c w m) : FailingRun c T w m (w.contents m)
  | op {w w' : WlFlash} {m m' v : Bytes} {result : EspErr} {out : List UInt8} (op : Op)
      (h : FailingRun c T w m v) (hfits : op.Fits c)
      (hrun : Prog.Ends (failing c.sectorSize T) (op.prog w) m (result, out, w') m') :
      FailingRun c T w' m' (effect c.sectorSize op result v)

/-- The map in memory describes where the data is, and so does the map that `init` makes of the
flash: after it every page reads back. -/
structure Consistent (c : WlConfig) (w : WlFlash) (m v : Bytes) : Prop where
  map : ∀ a < c.pages * c.pageSize, w.contents m a = v a
  reinit : ∃ w' m', Prog.run (flash c.sectorSize) w.init m = some ((.ok, w'), m') ∧
    ∀ a (dest : List UInt8), c.InPage a dest.length →
      Prog.run (flash c.sectorSize) (w'.read a dest dest.length) m' =
        some ((.ok, v.read a dest.length), m')

theorem Holds.consistent (hc : c.Valid) (h : Holds c w m v turn pos) : Consistent c w m v := by
  refine ⟨fun a ha => (h.online.contents hc ha).trans (h.view a ha), ?_⟩
  have hfits : Op.init.Fits c := trivial
  obtain ⟨w', m', t, p, hrun, honline, -, hview⟩ := op_run hc h.online h.recorded hfits
  obtain ⟨⟨r, w₁⟩, m₁, hinit, hret⟩ := (Prog.run_bind_iff _).1 hrun
  cases hret
  refine ⟨w', m', hinit, fun a dest hin => ?_⟩
  obtain ⟨r, m₂, hread, -, rfl, rfl⟩ := (read_sat hc honline hin
    (C := fun _ => True) trivial).run_total
  rw [hread]
  congr 3
  refine Bytes.read_congr fun x _ hx => ?_
  have hbound := hin.bound
  rw [hview x (by omega)]
  exact h.view x (by omega)

theorem FailingRun.holds (hc : c.Valid) (h : FailingRun c (Tolerated c) w m v) :
    ∃ turn pos, Holds c w m v turn pos := by
  induction h with
  | start h =>
    obtain ⟨turn, pos, honline, hrec⟩ := h
    exact ⟨turn, pos, honline, hrec, fun a ha => (honline.contents hc ha).symm⟩
  | op op _ hfits hrun ih =>
    obtain ⟨turn, pos, hholds⟩ := ih
    exact (op_post hc hholds hfits).ends hrun

/-- In every run all of whose failed driver calls are tolerated ones, the map in memory and the map
in flash stay right in every state. -/
theorem consistent_of_tolerated (hc : c.Valid) (h : FailingRun c (Tolerated c) w m v) :
    Consistent c w m v := by
  obtain ⟨turn, pos, hholds⟩ := h.holds hc
  exact hholds.consistent hc

/-! ### Runs in which given calls fail -/

/-- The driver on NOR flash where every erase and write that satisfies `P` fails. -/
def failOn (sectorSize : Nat) (P : FlashOp → Bool) : (o : FlashOp) → Bytes → o.Ret × Bytes
  | .eraseSector sector, m =>
    if P (.eraseSector sector) then (EspErr.fail, m) else flash sectorSize (.eraseSector sector) m
  | .write destAddr src, m =>
    if P (.write destAddr src) then (EspErr.fail, m) else flash sectorSize (.write destAddr src) m
  | .read srcAddr size, m => flash sectorSize (.read srcAddr size) m

theorem failOn_failing (hP : ∀ o, P o = true → T o) (s : Nat) (o : FlashOp) (m : Bytes) :
    failing s T o m (failOn s P o m).1 (failOn s P o m).2 := by
  cases o with
  | eraseSector sector =>
    by_cases h : P (.eraseSector sector) = true
    · simp only [failOn, h, if_true]
      exact .inr ⟨hP _ h, nofun, rfl⟩
    · simp only [failOn, h]
      exact .inl ⟨rfl, rfl⟩
  | write destAddr src =>
    by_cases h : P (.write destAddr src) = true
    · simp only [failOn, h, if_true]
      exact .inr ⟨hP _ h, nofun, rfl⟩
    · simp only [failOn, h]
      exact .inl ⟨rfl, rfl⟩
  | read srcAddr size => exact .inl ⟨rfl, rfl⟩

/-- The results of a run in which every call that satisfies `P` fails, and what it leaves. -/
def runFailing (s : Nat) (P : FlashOp → Bool) : List Op → WlFlash → Bytes → Bytes →
    Option (List EspErr × WlFlash × Bytes × Bytes)
  | [], w, m, v => some ([], w, m, v)
  | op :: ops, w, m, v =>
    (Prog.run (failOn s P) (op.prog w) m).bind fun r =>
      (runFailing s P ops r.1.2.2 r.2 (effect s op r.1.1 v)).map fun e => (r.1.1 :: e.1, e.2)

theorem FailingRun.runFailing (hP : ∀ o, P o = true → T o) (h : FailingRun c T w m v)
    (hfits : ∀ op ∈ ops, op.Fits c)
    (hrun : runFailing c.sectorSize P ops w m v = some (results, w', m', v')) :
    FailingRun c T w' m' v' := by
  induction ops generalizing w m v results with
  | nil =>
    cases hrun
    exact h
  | cons op ops ih =>
    simp only [WearLevelling.runFailing, Option.bind_eq_some_iff, Option.map_eq_some_iff] at hrun
    obtain ⟨⟨⟨result, out, w₁⟩, m₁⟩, hop, ⟨rest, last⟩, hrest, heq⟩ := hrun
    cases heq
    have hstep := FailingRun.op op h (hfits op (List.mem_cons_self ..))
      (.of_run _ (failOn_failing hP c.sectorSize) hop)
    exact ih hstep (fun op hmem => hfits op (List.mem_cons_of_mem _ hmem)) hrest

def smallBoot : Option (WlFlash × Bytes) :=
  (Prog.run (flash small.sectorSize) smallObject.init blank).map fun r => (r.1.2, r.2)

def writesTo (addr : Nat) : FlashOp → Bool
  | .write destAddr _ => destAddr = addr
  | _ => false

/-- A run on `small` in which the writes to `addr` fail: its results, the byte that is read at `a`
after a re-initialisation, and the byte that the writes that succeeded have left there. -/
def afterFailures (addr : Nat) (ops : List Op) (a : Nat) :
    Option (List EspErr × List UInt8 × List UInt8) :=
  smallBoot.bind fun b =>
    (runFailing small.sectorSize (writesTo addr) ops b.1 b.2 (b.1.contents b.2)).bind fun e =>
      (Prog.run (flash small.sectorSize) e.2.1.init e.2.2.1).bind fun r =>
        (Prog.run (flash small.sectorSize) (r.1.2.read a [0] 1) r.2).map fun o =>
          (e.1, o.1.2, e.2.2.2.read a 1)

theorem smallBoot_initialised (h : smallBoot = some (w, m)) : Initialised small.sealed w m := by
  simp only [smallBoot, Option.map_eq_some_iff] at h
  obtain ⟨⟨⟨result, w₁⟩, m₁⟩, hinit, heq⟩ := h
  cases heq
  exact initialised_of_init small_valid smallObject_config
    (.fresh (blank_not_intact _) (blank_not_intact _)) blank_noHole hinit

theorem afterFailures_run {addr : Nat} (hT : ∀ o, writesTo addr o = true → T o)
    (hfits : ∀ op ∈ ops, op.Fits small.sealed) (ha : small.sealed.InPage a 1)
    (h : afterFailures addr ops a = some (results, bs, bs')) :
    ∃ w m v, FailingRun small.sealed T w m v ∧ (Consistent small.sealed w m v → bs = bs') := by
  simp only [afterFailures, Option.bind_eq_some_iff, Option.map_eq_some_iff] at h
  obtain ⟨⟨w₀, m₀⟩, hboot, ⟨_, w, m, v⟩, hrun, ⟨⟨_, w₁⟩, m₁⟩, hinit, ⟨⟨_, out⟩, _⟩, hread, heq⟩ := h
  cases heq
  refine ⟨w, m, v, .runFailing hT (.start (smallBoot_initialised hboot)) hfits hrun,
    fun hcons => ?_⟩
  obtain ⟨w₂, m₂, hinit₂, hread₂⟩ := hcons.reinit
  cases hinit.symm.trans hinit₂
  cases hread.symm.trans (hread₂ a [0] ha)
  rfl

theorem consistent_small_first_mark :
    afterFailures (small.sealed.state1 + sizeofState) [.call .flush, .call (.write 0 [1])] 0 =
      some ([.fail, .ok], [1], [1]) ∧
    ∃ w m v, FailingRun small.sealed (Tolerated small.sealed) w m v ∧
      Consistent small.sealed w m v := by
  have heval : afterFailures (small.sealed.state1 + sizeofState)
      [.call .flush, .call (.write 0 [1])] 0 = some ([.fail, .ok], [1], [1]) := by decide +kernel
  refine ⟨heval, ?_⟩
  have htol : ∀ o, writesTo (small.sealed.state1 + sizeofState) o = true →
      Tolerated small.sealed o := by
    intro o ho
    cases o with
    | write destAddr src =>
      obtain rfl : destAddr = small.sealed.state1 + sizeofState := of_decide_eq_true ho
      exact .inr (.inl (by decide))
    | eraseSector sector => cases ho
    | read srcAddr size => trivial
  have hfits : ∀ op ∈ [Op.call .flush, .call (.write 0 [1])], op.Fits small.sealed := by
    simp only [List.mem_cons, List.not_mem_nil, or_false, forall_eq_or_imp, forall_eq]
    exact ⟨trivial, by decide, by decide, by decide⟩
  obtain ⟨w, m, v, hrun, -⟩ := afterFailures_run htol hfits ⟨by decide, by decide, by decide⟩ heval
  exact ⟨w, m, v, hrun, consistent_of_tolerated small_valid.sealed hrun⟩

/-- The device loses a write that succeeded in a run in which only writes to `addr` fail. -/
def LosesWrite (addr : Nat) : Prop := ∃ w m v,
  FailingRun small.sealed (fun o => writesTo addr o = true) w m v ∧ ¬Consistent small.sealed w m v

theorem failures_lose_writes : LosesWrite (small.sealed.state2 + sizeofState) ∧
    LosesWrite small.sealed.state1 ∧ LosesWrite small.sealed.state2 := by
  have hlost : ∀ {addr a : Nat} {ops : List Op} {results : List EspErr},
      (∀ op ∈ ops, op.Fits small.sealed) → small.sealed.InPage a 1 →
      afterFailures addr ops a = some (results, [0xff], [1]) →
      LosesWrite addr := by
    intro addr a ops results hfits ha heval
    obtain ⟨w, m, v, hrun, hcons⟩ := afterFailures_run (fun _ h => h) hfits ha heval
    exact ⟨w, m, v, hrun, fun h => absurd (hcons h) (by decide)⟩
  have hflush : Op.Fits small.sealed (.call .flush) := trivial
  have hwrite : Op.Fits small.sealed (.call (.write 0 [1])) := ⟨by decide, by decide, by decide⟩
  have hwrite' : Op.Fits small.sealed (.call (.write 64 [1])) := ⟨by decide, by decide, by decide⟩
  have hmark2 : afterFailures (small.sealed.state2 + sizeofState)
      [.call .flush, .call (.write 0 [1])] 0 = some ([.fail, .ok], [0xff], [1]) := by decide +kernel
  have hheader1 : afterFailures small.sealed.state1
      [.call .flush, .call .flush, .call .flush, .call (.write 0 [1])] 0 =
        some ([.ok, .ok, .fail, .ok], [0xff], [1]) := by decide +kernel
  have hheader2 : afterFailures small.sealed.state2
      [.call .flush, .call .flush, .call .flush, .call .flush, .call (.write 64 [1])] 64 =
        some ([.ok, .ok, .fail, .ok, .ok], [0xff], [1]) := by decide +kernel
  refine ⟨hlost ?_ ⟨by decide, by decide, by decide⟩ hmark2,
    hlost ?_ ⟨by decide, by decide, by decide⟩ hheader1,
    hlost ?_ ⟨by decide, by decide, by decide⟩ hheader2⟩
  · simp [hflush, hwrite]
  · simp [hflush, hwrite]
  · simp [hflush, hwrite']

end EspIdf.WearLevelling
