import EspIdf.WearLevelling.Calls

/-! Without power loss, the wear levelling layer is a plain flash: every run of calls within one
page, with re-initialisations anywhere, answers as a flash of `chip_size` bytes. -/

namespace EspIdf.WearLevelling

open EspIdf.Device

inductive Op where
  | call (call : Call)
  | init

def Op.prog (w : WlFlash) : Op → Drv (EspErr × List UInt8 × WlFlash)
  | call access => access.prog w
  | init => do
    let (result, w) ← w.init
    return (result, [], w)

def Op.Fits (c : WlConfig) : Op → Prop
  | call access => access.Fits c
  | init => True

def Op.plain (sectorSize : Nat) : Op → Bytes → List UInt8 × Bytes
  | call access, v => access.plain sectorSize v
  | init, v => ([], v)

def runOps (sectorSize : Nat) : List Op → WlFlash → Bytes →
    Option (List (EspErr × List UInt8) × WlFlash × Bytes)
  | [], w, m => some ([], w, m)
  | op :: ops, w, m =>
    (Prog.run (flash sectorSize) (op.prog w) m).bind fun ((result, out, w), m) =>
      (runOps sectorSize ops w m).map fun (outs, w, m) => ((result, out) :: outs, w, m)

def plainOps (sectorSize : Nat) : List Op → Bytes → List (List UInt8) × Bytes
  | [], v => ([], v)
  | op :: ops, v =>
    let (out, v) := op.plain sectorSize v
    let (outs, v) := plainOps sectorSize ops v
    (out :: outs, v)

def WlFlash.contents (w : WlFlash) (m : Bytes) : Bytes :=
  fun a => m (w.cfg.startAddr + w.calcAddr a)

variable {c : WlConfig} {w : WlFlash} {m m' v v' : Bytes} {turn pos : Nat}

theorem Online.contents (hc : c.Valid) (h : Online c w m turn pos) {a : Nat}
    (ha : a < c.pages * c.pageSize) : w.contents m a = view c turn pos m a := by
  rw [WlFlash.contents, h.calcAddr hc ha, h.cfg]
  rfl

theorem Online.chipSize (h : Online c w m turn pos) : w.chipSize = c.pages * c.pageSize := by
  obtain ⟨count, crc, d, u, rfl⟩ := h.object
  rfl

theorem plain_congr {op : Op} (hfits : op.Fits c) (heq : ∀ a < c.pages * c.pageSize, v a = v' a) :
    (op.plain c.sectorSize v).1 = (op.plain c.sectorSize v').1 ∧
      ∀ a < c.pages * c.pageSize, (op.plain c.sectorSize v).2 a =
        (op.plain c.sectorSize v').2 a := by
  cases op with
  | init => exact ⟨rfl, heq⟩
  | call call =>
    cases call with
    | read addr dest =>
      have hbound := WlConfig.InPage.bound hfits
      exact ⟨Bytes.read_congr fun x _ hx => heq x (by omega), heq⟩
    | write addr src =>
      refine ⟨rfl, fun a ha => ?_⟩
      simp only [Op.plain, Call.plain, Bytes.program, heq a ha]
    | eraseSector sector =>
      refine ⟨rfl, fun a ha => ?_⟩
      simp only [Op.plain, Call.plain, Bytes.erase, heq a ha]
    | flush => exact ⟨rfl, heq⟩

theorem op_run (hc : c.Valid) (h : Online c w m turn pos) (hrec : Recorded c m pos) {op : Op}
    (hfits : op.Fits c) : ∃ w' m' t p, Prog.run (flash c.sectorSize) (op.prog w) m =
        some ((.ok, (op.plain c.sectorSize (view c turn pos m)).1, w'), m') ∧
      Online c w' m' t p ∧ Recorded c m' p ∧
      ∀ a < c.pages * c.pageSize, view c t p m' a =
        (op.plain c.sectorSize (view c turn pos m)).2 a := by
  cases op with
  | call call =>
    obtain ⟨⟨result, out, w'⟩, m', hrun, -, hok, hout, t, p, honline, hrec', hview⟩ :=
      (call_sat hc h hfits).run_total
    obtain rfl : result = .ok := hok
    obtain rfl : out = _ := hout
    exact ⟨w', m', t, p, hrun, honline, hrec' hrec, hview⟩
  | init =>
    have hrecovers := h.recovers_same hrec
    have hole : NoHole c m :=
      ⟨fun _ => by rwa [hrec.scan_eq h.posLe], fun hn => (hn (h.header1.intact hc h.turnLt)).elim⟩
    obtain ⟨count, crc, d, u, rfl⟩ := h.object
    have hinit : Prog.Sat (flash c.sectorSize) False (InitCut c m turn pos) (InitDone c m turn pos)
        (c.object (c.ramState turn pos count crc) true d u).init m := init_sat hc hrecovers
    obtain ⟨⟨result, w'⟩, m', hrun, -, hok, honline, hdata, hrec'⟩ := hinit.run_total
    obtain rfl : result = .ok := hok
    refine ⟨w', m', turn, pos, ?_, honline, hrec' hole, fun a _ => hdata.view hc turn pos a⟩
    simp only [Op.prog, Prog.bind_eq, Prog.run_bind_of _ hrun]
    rfl

theorem runOps_plain (hc : c.Valid) (ops : List Op) (hfits : ∀ op ∈ ops, op.Fits c)
    (h : Online c w m turn pos) (hrec : Recorded c m pos)
    (hv : ∀ a < c.pages * c.pageSize, view c turn pos m a = v a) :
    ∃ w' m' t p, runOps c.sectorSize ops w m =
        some ((plainOps c.sectorSize ops v).1.map fun out => (.ok, out), w', m') ∧
      Online c w' m' t p ∧ Recorded c m' p ∧
      ∀ a < c.pages * c.pageSize, view c t p m' a = (plainOps c.sectorSize ops v).2 a := by
  induction ops generalizing w m turn pos v with
  | nil => exact ⟨w, m, turn, pos, rfl, h, hrec, hv⟩
  | cons op ops ih =>
    obtain ⟨w₁, m₁, t₁, p₁, hrun, honline, hrec₁, hview⟩ :=
      op_run hc h hrec (hfits op (List.mem_cons_self ..))
    obtain ⟨hout, hsame⟩ := plain_congr (hfits op (List.mem_cons_self ..)) hv
    obtain ⟨w', m', t, p, hruns, honline', hrec', hview'⟩ :=
      ih (fun op' hmem => hfits op' (List.mem_cons_of_mem _ hmem)) honline hrec₁
        fun a ha => (hview a ha).trans (hsame a ha)
    refine ⟨w', m', t, p, ?_, honline', hrec', hview'⟩
    rw [hout] at hrun
    simp only [runOps, hrun, Option.bind_some, hruns, Option.map_some, plainOps, List.map_cons]

theorem boot_fresh (w₀ : WlFlash) {cfg : WlConfig} (hc : cfg.Valid)
    (h1 : ¬(stateAt m cfg.state1).Intact) (h2 : ¬(stateAt m cfg.state2).Intact) :
    ∃ wc w m₀, w₀.config cfg = some (.ok, wc) ∧
      Prog.run (flash cfg.sectorSize) wc.init m = some ((.ok, w), m₀) ∧
      Online cfg.sealed w m₀ 0 0 ∧ Recorded cfg.sealed m₀ 0 := by
  have hrecovers : Recovers cfg.sealed m 0 0 := .fresh h1 h2
  have hole : NoHole cfg.sealed m := ⟨fun h => (h1 h).elim, fun _ h => (h2 h).elim⟩
  have hinit : Prog.Sat (flash cfg.sectorSize) False (InitCut cfg.sealed m 0 0)
    (InitDone cfg.sealed m 0 0)
      (cfg.sealed.object w₀.state w₀.initialized w₀.dummyAddr w₀.usedBits).init m :=
    init_sat hc.sealed hrecovers
  obtain ⟨⟨result, w⟩, m₀, hrun, -, hok, honline, -, hrec⟩ := hinit.run_total
  obtain rfl : result = .ok := hok
  exact ⟨_, w, m₀, config_valid w₀ hc, hrun, honline, hrec hole⟩

/-- The wear levelling layer on a new flash, as a plain flash of `chip_size` bytes. -/
theorem transparent (w₀ : WlFlash) {cfg : WlConfig} (hc : cfg.Valid) {m : Bytes}
    (h1 : ¬(stateAt m cfg.state1).Intact) (h2 : ¬(stateAt m cfg.state2).Intact)
    (ops : List Op) (hfits : ∀ op ∈ ops, op.Fits cfg) :
    ∃ wc w m₀ w' m', w₀.config cfg = some (.ok, wc) ∧
      Prog.run (flash cfg.sectorSize) wc.init m = some ((.ok, w), m₀) ∧
      runOps cfg.sectorSize ops w m₀ = some
        ((plainOps cfg.sectorSize ops (w.contents m₀)).1.map fun out => (.ok, out), w', m') ∧
      (∀ a < w.chipSize, w'.contents m' a = (plainOps cfg.sectorSize ops (w.contents m₀)).2 a) ∧
      ∃ w'' m'', Prog.run (flash cfg.sectorSize) w'.updateWL m' = some ((.ok, w''), m'') ∧
        ∀ a < w.chipSize, w''.contents m'' a = w'.contents m' a := by
  obtain ⟨wc, w, m₀, hconfig, hinit, honline, hrec⟩ := boot_fresh w₀ hc h1 h2
  have hops : ∀ op ∈ ops, op.Fits cfg.sealed := by
    intro op hop
    have := hfits op hop
    cases op with
    | call access => exact Call.Fits.sealed this
    | init => trivial
  obtain ⟨w', m', t, p, hruns, honline', -, hview⟩ :=
    runOps_plain hc.sealed ops hops honline hrec fun a ha => (honline.contents hc.sealed ha).symm
  obtain ⟨⟨result, w''⟩, m'', hupdate, -, hdone⟩ := (updateWL_sat hc.sealed honline').run_total
  obtain ⟨hok, t', p', honline'', -, hview'⟩ := updateWL_done hc.sealed honline' hdone
  obtain rfl : result = .ok := hok
  refine ⟨wc, w, m₀, w', m', hconfig, hinit, hruns, ?_, w'', m'', hupdate, ?_⟩
  · intro a ha
    rw [honline.chipSize] at ha
    rw [honline'.contents hc.sealed ha]
    exact hview a ha
  · intro a ha
    rw [honline.chipSize] at ha
    rw [honline''.contents hc.sealed ha, honline'.contents hc.sealed ha]
    exact hview' a

def small : WlConfig :=
  { startAddr := 0, fullMemSize := 384, pageSize := 64, sectorSize := 64, updaterate := 1,
    wrSize := 1, version := 1, tempBuffSize := 64, crc := 0 }

theorem small_valid : small.Valid :=
  ⟨by decide, by decide, by decide, by decide, by decide, by decide, by decide, by decide,
    by decide, by decide, by decide, by decide⟩

def zeroed : WlFlash where
  configured := false
  initialized := false
  state := ⟨0, 0, 0, 0, 0, 0, 0, 0⟩
  cfg := ⟨0, 0, 0, 0, 0, 0, 0, 0, 0⟩
  addrCfg := 0
  addrState1 := 0
  addrState2 := 0
  flashSize := 0
  stateSize := 0
  cfgSize := 0
  dummyAddr := 0
  usedBits := 0

def blank : Bytes := fun _ => 0xff

theorem blank_not_intact (a : Nat) : ¬(stateAt blank a).Intact := by
  exact erased_not_intact

def smallRun : List Op :=
  [.call (.write 70 [1, 2]), .call .flush, .call (.eraseSector 0), .init, .call (.read 70 [0, 0])]

theorem transparent_small : ∃ wc w m₀ w' m', zeroed.config small = some (.ok, wc) ∧
      Prog.run (flash small.sectorSize) wc.init blank = some ((.ok, w), m₀) ∧
      runOps small.sectorSize smallRun w m₀ = some
        ((plainOps small.sectorSize smallRun (w.contents m₀)).1.map fun out => (.ok, out), w', m') ∧
      (∀ a < w.chipSize, w'.contents m' a =
        (plainOps small.sectorSize smallRun (w.contents m₀)).2 a) ∧
      ∃ w'' m'', Prog.run (flash small.sectorSize) w'.updateWL m' = some ((.ok, w''), m'') ∧
        ∀ a < w.chipSize, w''.contents m'' a = w'.contents m' a := by
  refine transparent zeroed small_valid (blank_not_intact _) (blank_not_intact _) smallRun ?_
  intro op hop
  simp only [smallRun, List.mem_cons, List.not_mem_nil, or_false] at hop
  rcases hop with rfl | rfl | rfl | rfl | rfl
  · exact ⟨by decide, by decide, by decide⟩
  · trivial
  · show 0 * small.sectorSize < small.pages * small.pageSize
    decide
  · trivial
  · exact ⟨by decide, by decide, by decide⟩

/-- A read of no bytes: `size - 1` wraps, and the second round of the loop is past the buffer. -/
theorem empty_read_stops : ∃ wc w m₀, zeroed.config small = some (.ok, wc) ∧
    Prog.run (flash small.sectorSize) wc.init blank = some ((.ok, w), m₀) ∧
    runOps small.sectorSize [.call (.read 0 [])] w m₀ = none ∧
    (plainOps small.sectorSize [.call (.read 0 [])] (w.contents m₀)).1 = [[]] := by
  obtain ⟨wc, w, m₀, hconfig, hinit, honline, -⟩ :=
    boot_fresh zeroed small_valid (blank_not_intact _) (blank_not_intact _)
  refine ⟨wc, w, m₀, hconfig, hinit, ?_, rfl⟩
  obtain ⟨count, crc, d, u, rfl⟩ := honline.object
  obtain ⟨k, hcount⟩ : ∃ k, sub32 0 1 / small.sealed.pageSize = k + 2 := ⟨67108861, by decide⟩
  simp only [runOps, Op.prog, Call.prog, WlFlash.read, hcount, List.length_nil, WlFlash.readLoop]
  rfl

end EspIdf.WearLevelling
