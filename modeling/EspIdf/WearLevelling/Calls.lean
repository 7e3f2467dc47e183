import EspIdf.WearLevelling.Move

/-! The calls of the wear levelling layer that lie within one page, against a plain flash of
`chip_size` bytes. -/

namespace EspIdf.WearLevelling

open EspIdf.Device

inductive Call where
  | read (addr : Nat) (dest : List UInt8)
  | write (addr : Nat) (src : List UInt8)
  | eraseSector (sector : Nat)
  | flush

/-- The call as a program: its result, the bytes it reads and the object after it. -/
def Call.prog (w : WlFlash) : Call → Drv (EspErr × List UInt8 × WlFlash)
  | read addr dest => do
    let (result, bs) ← w.read addr dest dest.length
    return (result, bs, w)
  | write addr src => do
    let result ← w.write addr src src.length
    return (result, [], w)
  | eraseSector sector => do
    let (result, w) ← w.eraseSector sector
    return (result, [], w)
  | flush => do
    let (result, w) ← w.flush
    return (result, [], w)

/-- The bytes from `a` are not empty, end within the virtual range and lie in one page. -/
structure WlConfig.InPage (c : WlConfig) (a n : Nat) : Prop where
  pos : 0 < n
  bound : a + n ≤ c.pages * c.pageSize
  page : a / c.pageSize = (a + n - 1) / c.pageSize

def Call.Fits (c : WlConfig) : Call → Prop
  | read addr dest => c.InPage addr dest.length
  | write addr src => c.InPage addr src.length
  | eraseSector sector => sector * c.sectorSize < c.pages * c.pageSize
  | flush => True

theorem Call.Fits.sealed {call : Call} (h : call.Fits c) : call.Fits c.sealed := by
  cases call with
  | read addr dest => exact ⟨h.pos, h.bound, h.page⟩
  | write addr src => exact ⟨h.pos, h.bound, h.page⟩
  | eraseSector sector => exact h
  | flush => trivial

/-- The call on a plain flash with sectors of `sectorSize` bytes. -/
def Call.plain (sectorSize : Nat) : Call → Bytes → List UInt8 × Bytes
  | read addr dest, v => (v.read addr dest.length, v)
  | write addr src, v => ([], v.program addr src)
  | eraseSector sector, v => ([], v.erase (sector * sectorSize) sectorSize)
  | flush, v => ([], v)

def Call.page? (c : WlConfig) : Call → Option Nat
  | read _ _ => none
  | write addr _ => some (addr / c.pageSize)
  | eraseSector sector => some (sector * c.sectorSize / c.pageSize)
  | flush => none

variable {c : WlConfig} {w : WlFlash} {m m' : Bytes} {turn pos a n x : Nat}

/-! ### One page of the map -/

theorem WlConfig.InPage.offset (hpage : 0 < c.pageSize) (h : c.InPage a n) :
    a % c.pageSize + n ≤ c.pageSize := by
  have h1 := Nat.div_add_mod' a c.pageSize
  have h2 := Nat.div_add_mod' (a + n - 1) c.pageSize
  have h3 := Nat.mod_lt (a + n - 1) hpage
  rw [← h.page] at h2
  omega

theorem place_window (hc : c.Valid) (turn pos : Nat) (h : c.InPage a n)
    (hx : x < c.pages * c.pageSize) :
    (a ≤ x ∧ x < a + n ∧ c.place turn pos x = c.place turn pos a + (x - a)) ∨
    ((x < a ∨ a + n ≤ x) ∧ (c.place turn pos x < c.place turn pos a ∨
      c.place turn pos a + n ≤ c.place turn pos x)) := by
  have hpage := hc.pagePos
  have hoff := h.offset hpage
  have hda := Nat.div_add_mod' a c.pageSize
  have hdx := Nat.div_add_mod' x c.pageSize
  have hmx := Nat.mod_lt x hpage
  unfold WlConfig.place
  by_cases hsame : x / c.pageSize = a / c.pageSize
  · rw [hsame] at hdx ⊢
    omega
  · have ha : a < c.pages * c.pageSize := by
      have := h.pos
      have := h.bound
      omega
    have hne : slot c.pages turn pos (x / c.pageSize) ≠ slot c.pages turn pos (a / c.pageSize) :=
      fun heq => hsame (slot_inj (page_lt_pages hx) (page_lt_pages ha) heq)
    right
    constructor
    · have hapart := blocks_apart c.pageSize hsame
      omega
    · have hapart := blocks_apart c.pageSize hne
      omega

theorem view_read (hc : c.Valid) (h : c.InPage a n) :
    m.read (c.startAddr + c.place turn pos a) n = (view c turn pos m).read a n := by
  rw [Bytes.read_eq_iff]
  refine ⟨Bytes.length_read, fun k hk => ?_⟩
  rw [Bytes.getD_read hk, view]
  have hbound := h.bound
  rcases place_window (x := a + k) hc turn pos h (by omega) with hin | hout
  · rw [hin.2.2, Nat.add_sub_cancel_left, Nat.add_assoc]
  · omega

theorem view_program (hc : c.Valid) (h : c.InPage a bs.length) (hx : x < c.pages * c.pageSize) :
    view c turn pos (m.program (c.startAddr + c.place turn pos a) bs) x =
      (view c turn pos m).program a bs x := by
  rcases place_window hc turn pos h hx with hin | hout
  · rw [view, Bytes.program_in (by omega), Bytes.program_in hin.1, view, hin.2.2]
    congr 2
    omega
  · rw [view, Bytes.program_out (by omega), Bytes.program_out (by omega)]
    rfl

theorem view_erase (hc : c.Valid) (h : c.InPage a n) (hx : x < c.pages * c.pageSize) :
    view c turn pos (m.erase (c.startAddr + c.place turn pos a) n) x =
      (view c turn pos m).erase a n x := by
  rcases place_window hc turn pos h hx with hin | hout
  · rw [view, Bytes.erase_in (by omega) (by omega), Bytes.erase_in hin.1 hin.2.1]
  · rw [view, Bytes.erase_out (by omega), Bytes.erase_out (by omega)]
    rfl

/-! ### Calls -/

/-- Where power is lost in a call, the state copies hold a round and a position, and if the marks
recorded the moves before it, every page but the one that the call changes reads as before. -/
structure CallCut (c : WlConfig) (m : Bytes) (turn pos : Nat) (call : Call) (m' : Bytes) :
    Prop where
  recovers : c.TornInvalid → Robust c m' ∧ ∃ t p, Recovers c m' t p
  view : c.TornInvalid → Recorded c m pos → ∃ t p, Recovers c m' t p ∧
    ∀ a < c.pages * c.pageSize, call.page? c ≠ some (a / c.pageSize) →
      view c t p m' a = view c turn pos m a

structure CallDone (c : WlConfig) (m : Bytes) (turn pos : Nat) (call : Call)
    (r : EspErr × List UInt8 × WlFlash) (m' : Bytes) : Prop where
  ok : r.1 = .ok
  out : r.2.1 = (call.plain c.sectorSize (view c turn pos m)).1
  online : ∃ t p, Online c r.2.2 m' t p ∧ (Recorded c m pos → Recorded c m' p) ∧
    ∀ a < c.pages * c.pageSize,
      view c t p m' a = (call.plain c.sectorSize (view c turn pos m)).2 a

theorem Online.frame (h : Online c w m turn pos) (heq : ∀ x, c.state1 ≤ x → m' x = m x) :
    Online c w m' turn pos := by
  have hstate2 := c.state2_eq
  exact ⟨h.object, h.turnLt, h.posLe, h.header1.congr fun x hx _ => heq x hx,
    h.header2.congr fun x hx _ => heq x (by omega)⟩

theorem Recorded.frame (h : Recorded c m pos) (hpos : pos ≤ c.pages)
    (heq : ∀ x, c.state1 ≤ x → m' x = m x) : Recorded c m' pos :=
  h.congr hpos fun i _ => by rw [Marked, Marked, heq _ (by omega)]

theorem Online.recovers (hc : c.Valid) (h : Online c w m turn pos) : Robust c m ∧ ∃ t p,
    Recovers c m t p :=
  ⟨.of_headers hc h.turnLt h.turnLt h.header1 h.header2, _, _, .both h.turnLt h.header1 h.header2⟩

theorem Online.recovers_same (h : Online c w m turn pos) (hrec : Recorded c m pos) :
    Recovers c m turn pos := by
  have := Recovers.both h.turnLt h.header1 h.header2
  rwa [hrec.scan_eq h.posLe] at this

section

variable (hc : c.Valid)
include hc

theorem CallCut.of_online {call : Call} (h : Online c w m' t p)
    (hrec : Recorded c m pos → Recorded c m' p)
    (hview : ∀ a < c.pages * c.pageSize, call.page? c ≠ some (a / c.pageSize) →
    EspIdf.WearLevelling.view c t p m' a = EspIdf.WearLevelling.view c turn pos m a) :
    CallCut c m turn pos call m' :=
  ⟨fun _ => h.recovers hc, fun _ hr => ⟨t, p, h.recovers_same (hrec hr), hview⟩⟩

section

variable (h : Online c w m turn pos)
include h

theorem CallCut.here (call : Call) : CallCut c m turn pos call m :=
  .of_online hc h id fun _ _ _ => rfl

theorem MoveCut.callCut (call : Call)
    (hcut : MoveCut c m turn pos m') : CallCut c m turn pos call m' := by
  refine ⟨fun htorn => hcut.recovers hc htorn h, fun htorn hrec => ?_⟩
  obtain ⟨t, p, hr, hv⟩ := hcut.recovers_view hc htorn h hrec
  exact ⟨t, p, hr, fun a _ _ => hv a⟩

theorem updateWL_done
    (hdone : MoveDone c m turn pos r m' ∨ r.1 = .ok ∧ Online c r.2 m' turn pos ∧ m' = m) :
    r.1 = .ok ∧ ∃ t p, Online c r.2 m' t p ∧ (Recorded c m pos → Recorded c m' p) ∧
      ∀ a, view c t p m' a = view c turn pos m a := by
  rcases hdone with hdone | ⟨hok, honline, rfl⟩
  · exact ⟨hdone.ok, _, _, hdone.online, hdone.recorded, hdone.view hc h⟩
  · exact ⟨hok, turn, pos, honline, id, fun _ => rfl⟩

theorem Online.calcAddr (ha : a < c.pages * c.pageSize) :
    w.calcAddr a = c.place turn pos a := by
  obtain ⟨count, crc, d, u, rfl⟩ := h.object
  exact calcAddr_eq hc (c.ramState turn pos count crc) h.turnLt h.posLe ha

end

end

theorem Online.cfg (h : Online c w m turn pos) : w.cfg = c := by
  obtain ⟨count, crc, d, u, rfl⟩ := h.object
  rfl

theorem Online.initialized (h : Online c w m turn pos) : w.initialized = true := by
  obtain ⟨count, crc, d, u, rfl⟩ := h.object
  rfl

section

variable (hc : c.Valid)
include hc

theorem Online.physAddr (h : Online c w m turn pos) (ha : a < c.pages * c.pageSize) :
    u32 (c.startAddr + w.calcAddr (u32 a)) = c.startAddr + c.place turn pos a := by
  have hplace := place_lt_state1 hc turn pos a
  have hstate := hc.cfg_lt
  have hfit := WlConfig.pages_fit hc
  have hbound := hc.bound
  rw [Nat.succ_mul] at hfit
  unfold WlConfig.cfgStart WlConfig.state2 at hstate
  rw [u32_eq (by omega : a < 2 ^ 32), h.calcAddr hc ha, u32_eq (by omega)]

theorem WlConfig.Valid.onePage (hpos : 0 < n) (hbound : a + n ≤ c.pages * c.pageSize)
    (hpage : n ≤ c.pageSize) : sub32 n 1 / c.pageSize = 0 ∧ sub32 n 0 = n := by
  have hfit := WlConfig.pages_fit hc
  have hmem := hc.bound
  rw [Nat.succ_mul] at hfit
  rw [sub32_eq (by omega) (by omega), sub32_eq (by omega) (by omega)]
  exact ⟨Nat.div_eq_of_lt (by omega), rfl⟩

theorem read_run (h : Online c w m turn pos) (hpos : 0 < dest.length)
    (hbound : a + dest.length ≤ c.pages * c.pageSize) (hpage : dest.length ≤ c.pageSize) :
    w.read a dest dest.length =
      (Drv.read (c.startAddr + c.place turn pos a) dest.length).bind fun r =>
        if r.1 ≠ .ok then .ret (r.1, dest)
        else (WlFlash.store dest 0 r.2).bind fun dest => .ret (.ok, dest) := by
  obtain ⟨hcount, hlen⟩ := hc.onePage hpos hbound hpage
  have hzero : u32 0 = 0 := rfl
  have hphys := h.physAddr hc (a := a) (by omega)
  simp only [WlFlash.read, h.initialized, h.cfg, Bool.true_eq_false, if_false, hcount,
    WlFlash.readLoop, Nat.zero_mul, hzero, Nat.add_zero, hphys, hlen, Prog.bind_eq, Prog.pure_eq,
    Prog.ret_bind, ne_eq, not_true_eq_false]

theorem read_sat (h : Online c w m turn pos) (hfits : c.InPage a dest.length) (hC : C m) :
    Prog.Sat (flash c.sectorSize) False C
      (fun r m' => r = (.ok, (view c turn pos m).read a dest.length) ∧ m' = m)
      (w.read a dest dest.length) m := by
  have hpage := hfits.offset hc.pagePos
  rw [read_run hc h hfits.pos hfits.bound (by omega), sat_read]
  refine ⟨hC, ?_⟩
  simp only [ne_eq, not_true_eq_false, if_false, WlFlash.store, Nat.zero_add, Bytes.length_read,
    Nat.le_refl, decide_true, Prog.assert_true, Prog.bind_eq, Prog.pure_eq, Prog.ret_bind,
    List.take_zero, List.nil_append, List.drop_length, List.append_nil, view_read hc hfits]
  exact ⟨hC, rfl, rfl⟩

theorem write_run (h : Online c w m turn pos) (hpos : 0 < src.length)
    (hbound : a + src.length ≤ c.pages * c.pageSize) (hpage : src.length ≤ c.pageSize) :
    w.write a src src.length = Drv.write (c.startAddr + c.place turn pos a) src := by
  obtain ⟨hcount, hlen⟩ := hc.onePage hpos hbound hpage
  have hzero : u32 0 = 0 := rfl
  have hphys := h.physAddr hc (a := a) (by omega)
  simp only [WlFlash.write, h.initialized, h.cfg, Bool.true_eq_false, if_false, hcount,
    WlFlash.writeLoop, Nat.zero_mul, hzero, Nat.add_zero, hphys, hlen, Prog.bind_eq, Prog.pure_eq,
    Prog.ret_bind, ne_eq, not_true_eq_false, WlFlash.slice, Nat.zero_add, Nat.le_refl, decide_true,
    Prog.assert_true, List.drop_zero, List.take_length]

theorem place_above (turn pos : Nat) (hfits : c.InPage a n) :
    c.startAddr + c.place turn pos a + n ≤ c.state1 := by
  have hoff := hfits.offset hc.pagePos
  have hslot := slot_le (WlConfig.pages_pos hc) turn pos (a / c.pageSize)
  have hend := hc.data_end
  have := WlConfig.Valid.page_le (c := c) hslot
  unfold WlConfig.place
  omega

theorem sector_inPage (h : sector * c.sectorSize < c.pages * c.pageSize) :
    c.InPage (sector * c.sectorSize) c.sectorSize := by
  obtain ⟨q, hq⟩ := hc.pageSectors
  have hpos := hc.sectorPos
  have hlt : sector < c.pages * q := by
    rw [hq, Nat.mul_comm c.sectorSize, ← Nat.mul_assoc] at h
    exact Nat.lt_of_mul_lt_mul_right h
  refine ⟨hpos, ?_, ?_⟩
  · rw [hq, Nat.mul_comm c.sectorSize q, ← Nat.mul_assoc, ← Nat.succ_mul]
    exact Nat.mul_le_mul_right _ hlt
  · have hdiv : ∀ o < c.sectorSize, (sector * c.sectorSize + o) / c.pageSize = sector / q := by
      intro o ho
      rw [hq, ← Nat.div_div_eq_div_mul, Nat.mul_comm sector, Nat.mul_add_div hpos,
        Nat.div_eq_of_lt ho, Nat.add_zero]
    have h0 := hdiv 0 hpos
    rw [Nat.add_zero] at h0
    rw [h0, Nat.add_sub_assoc hpos, hdiv _ (by omega)]

theorem place_sector (sector : Nat) :
    (c.startAddr + c.place turn pos (sector * c.sectorSize)) / c.sectorSize * c.sectorSize =
      c.startAddr + c.place turn pos (sector * c.sectorSize) := by
  apply Nat.div_mul_cancel
  refine Nat.dvd_add hc.startSectors (Nat.dvd_add (Dvd.dvd.mul_left hc.pageSectors _) ?_)
  exact (Nat.dvd_mod_iff hc.pageSectors).mpr (Nat.dvd_mul_left _ _)

section

variable (h : Online c w m turn pos)
include h

theorem write_sat (hfits : c.InPage a src.length) :
    Prog.Sat (flash c.sectorSize) False (CallCut c m turn pos (.write a src))
      (CallDone c m turn pos (.write a src)) ((Call.write a src).prog w) m := by
  have habove := place_above hc turn pos hfits
  have hpage := hfits.offset hc.pagePos
  have hwrite := write_run hc h hfits.pos hfits.bound (by omega)
  have hframe : ∀ x, c.state1 ≤ x → m.program (c.startAddr + c.place turn pos a) src x = m x :=
    fun x hx => Bytes.program_out (.inr (by omega))
  have hrec : Recorded c m pos → Recorded c
      (m.program (c.startAddr + c.place turn pos a) src) pos :=
    fun hr => hr.frame h.posLe hframe
  simp only [Call.prog, Prog.bind_eq, Prog.pure_eq, hwrite, sat_write]
  refine ⟨CallCut.here hc h _, ?_, rfl, rfl, turn, pos, h.frame hframe, hrec, ?_⟩
  · refine .of_online hc (h.frame hframe) hrec fun x hx hne => ?_
    rw [view_program hc hfits hx]
    apply Bytes.program_out
    have hda := Nat.div_add_mod' a c.pageSize
    have hdiff : a / c.pageSize ≠ x / c.pageSize := fun heq => hne (congrArg some heq)
    by_contra hin
    apply hdiff
    symm
    rw [Nat.div_eq_iff hc.pagePos]
    omega
  · exact fun x hx => view_program hc hfits hx

theorem flush_sat :
    Prog.Sat (flash c.sectorSize) False (CallCut c m turn pos .flush)
      (CallDone c m turn pos .flush) (Call.flush.prog w) m := by
  obtain ⟨count, crc, d, u, rfl⟩ := h.object
  have hretry : Online c (c.object (c.ramState turn pos count crc) true d u).retryNext m turn pos :=
    ⟨⟨_, _, _, _, rfl⟩, h.turnLt, h.posLe, h.header1, h.header2⟩
  refine Prog.Sat.bind ((updateWL_sat hc hretry).imp id (fun m' => MoveCut.callCut hc h .flush) ?_)
  intro r m' hcut hdone
  obtain ⟨hok, t, p, honline, hrec, hview⟩ := updateWL_done hc hretry hdone
  exact ⟨hcut.callCut hc h .flush, hok, rfl, t, p, honline, hrec, fun a _ => hview a⟩

theorem eraseSector_sat (hfits : sector * c.sectorSize < c.pages * c.pageSize) :
    Prog.Sat (flash c.sectorSize) False (CallCut c m turn pos (.eraseSector sector))
      (CallDone c m turn pos (.eraseSector sector)) ((Call.eraseSector sector).prog w) m := by
  have hwin := sector_inPage hc hfits
  simp only [Call.prog, WlFlash.eraseSector, h.initialized, Bool.true_eq_false, if_false,
    Prog.bind_eq, Prog.bind_assoc]
  refine Prog.Sat.bind ((updateWL_sat hc h).imp id
    (fun m' => MoveCut.callCut hc h (.eraseSector sector)) ?_)
  intro r m₁ hcut hdone
  obtain ⟨hok, t, p, honline, hrec, hview⟩ := updateWL_done hc h hdone
  obtain ⟨result, w₁⟩ := r
  obtain rfl : result = .ok := hok
  have habove := place_above hc t p hwin
  have hframe : ∀ x, c.state1 ≤ x →
      m₁.erase (c.startAddr + c.place t p (sector * c.sectorSize)) c.sectorSize x = m₁ x :=
    fun x hx => Bytes.erase_out (.inr (by omega))
  have hrec' := fun hr => (hrec hr).frame honline.posLe hframe
  have herased : ∀ x < c.pages * c.pageSize,
      view c t p (m₁.erase (c.startAddr + c.place t p (sector * c.sectorSize)) c.sectorSize) x =
        (view c turn pos m).erase (sector * c.sectorSize) c.sectorSize x := by
    intro x hx
    rw [view_erase hc hwin hx, Bytes.erase, Bytes.erase, hview x]
  have hcfg : w₁.cfg = c := honline.cfg
  simp only [ne_eq, not_true_eq_false, if_false, hcfg, honline.physAddr hc hfits, Prog.bind_assoc,
    sat_eraseSector, place_sector hc, Prog.pure_eq, Prog.ret_bind]
  refine ⟨hcut.callCut hc h _, ?_, rfl, rfl, t, p, honline.frame hframe, hrec', herased⟩
  refine .of_online hc (honline.frame hframe) hrec' fun x hx hne => ?_
  rw [herased x hx]
  apply Bytes.erase_out
  have hda := Nat.div_add_mod' (sector * c.sectorSize) c.pageSize
  have hoff := hwin.offset hc.pagePos
  by_contra hin
  apply hne
  show some _ = some _
  congr 1
  symm
  rw [Nat.div_eq_iff hc.pagePos]
  omega

theorem call_sat {call : Call} (hfits : call.Fits c) :
    Prog.Sat (flash c.sectorSize) False (CallCut c m turn pos call) (CallDone c m turn pos call)
      (call.prog w) m := by
  cases call with
  | read addr dest =>
    refine Prog.Sat.bind ((read_sat hc h hfits (CallCut.here hc h (.read addr dest))).mono ?_)
    rintro r m' hcut ⟨rfl, rfl⟩
    exact ⟨hcut, rfl, rfl, turn, pos, h, id, fun _ _ => rfl⟩
  | write addr src => exact write_sat hc h hfits
  | eraseSector sector => exact eraseSector_sat hc h hfits
  | flush => exact flush_sat hc h

end

end

end EspIdf.WearLevelling
