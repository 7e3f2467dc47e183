import EspIdf.WearLevelling.Transparent

/-! Power loss at any driver call of any run: what `WL_Flash::init` brings back, and when it does
not. -/

namespace EspIdf.WearLevelling

open EspIdf.Device

/-- The runs of a device with configuration `cfg` on a flash that starts without a valid state copy.
Power can be lost at any driver call; `none` is a device without power, whose object is lost.  Every
start of `init` is from a flash that satisfies `ok`. -/
inductive Reach (cfg : WlConfig) (ok : Bytes → Prop) : Option WlFlash → Bytes → Prop where
  | fresh {m : Bytes} (h1 : ¬(stateAt m cfg.state1).Intact) (h2 : ¬(stateAt m cfg.state2).Intact)
      (hrobust : Robust cfg.sealed m) : Reach cfg ok none m
  | boot {w₀ wc w : WlFlash} {m m' : Bytes} {result : EspErr} (h : Reach cfg ok none m)
      (hok : ok m) (hconfig : w₀.config cfg = some (.ok, wc))
      (hrun : Prog.run (flash cfg.sectorSize) wc.init m = some ((result, w), m')) :
      Reach cfg ok (some w) m'
  | bootCut {w₀ wc : WlFlash} {m : Bytes} (n : Nat) (h : Reach cfg ok none m) (hok : ok m)
      (hconfig : w₀.config cfg = some (.ok, wc)) :
      Reach cfg ok none (Prog.cut (flash cfg.sectorSize) n wc.init m)
  | call {w w' : WlFlash} {m m' : Bytes} {result : EspErr} {out : List UInt8} (call : Call)
      (h : Reach cfg ok (some w) m) (hfits : call.Fits cfg)
      (hrun : Prog.run (flash cfg.sectorSize) (call.prog w) m = some ((result, out, w'), m')) :
      Reach cfg ok (some w') m'
  | callCut {w : WlFlash} {m : Bytes} (call : Call) (n : Nat) (h : Reach cfg ok (some w) m)
      (hfits : call.Fits cfg) :
      Reach cfg ok none (Prog.cut (flash cfg.sectorSize) n (call.prog w) m)

variable {cfg : WlConfig} {w wc w₀ : WlFlash} {m m' : Bytes} {turn pos : Nat}

/-- What every reachable state satisfies: a device that is up knows the round that both copies hold,
and a flash without power holds a round and a position. -/
def ReachInv (c : WlConfig) : Option WlFlash → Bytes → Prop
  | some w, m => ∃ turn pos, Online c w m turn pos
  | none, m => Robust c m ∧ ∃ turn pos, Recovers c m turn pos

theorem config_eq (hc : cfg.Valid) (h : w₀.config cfg = some (.ok, wc)) :
    ∃ state b d u, wc = cfg.sealed.object state b d u := by
  rw [config_valid w₀ hc] at h
  cases h
  exact ⟨_, _, _, _, rfl⟩

theorem init_config (hc : cfg.Valid) (h : w₀.config cfg = some (.ok, wc))
    (hrec : Recovers cfg.sealed m turn pos) :
    Prog.Sat (flash cfg.sectorSize) False (InitCut cfg.sealed m turn pos)
      (InitDone cfg.sealed m turn pos) wc.init m := by
  obtain ⟨state, b, d, u, rfl⟩ := config_eq hc h
  exact init_sat hc.sealed hrec

theorem InitCut.reachInv (htorn : cfg.sealed.TornInvalid) (hrob : Robust cfg.sealed m)
    (h : InitCut cfg.sealed m turn pos m') : ReachInv cfg.sealed none m' := by
  obtain ⟨hrob', hmap | ⟨-, -, hturn, -, h1, h2⟩⟩ := h.map htorn hrob
  · exact ⟨hrob', _, _, hmap⟩
  · exact ⟨hrob', _, _, .both hturn h1 h2⟩

theorem reach_inv (hc : cfg.Valid) (htorn : cfg.sealed.TornInvalid) (h : Reach cfg ok s m) :
    ReachInv cfg.sealed s m := by
  induction h with
  | fresh h1 h2 hrobust => exact ⟨hrobust, 0, 0, .fresh h1 h2⟩
  | boot _ _ hconfig hrun ih =>
    obtain ⟨-, turn, pos, hrec⟩ := ih
    exact ⟨turn, pos, ((init_config hc hconfig hrec).run hrun).2.online⟩
  | bootCut n _ _ hconfig ih =>
    obtain ⟨hrob, turn, pos, hrec⟩ := ih
    exact ((init_config hc hconfig hrec).cut n).reachInv htorn hrob
  | call _ _ hfits hrun ih =>
    obtain ⟨turn, pos, honline⟩ := ih
    obtain ⟨t, p, honline', -⟩ := ((call_sat hc.sealed honline hfits.sealed).run hrun).2.online
    exact ⟨t, p, honline'⟩
  | callCut _ n _ hfits ih =>
    obtain ⟨turn, pos, honline⟩ := ih
    exact ((call_sat hc.sealed honline hfits.sealed).cut n).recovers htorn

theorem reach_recorded (hc : cfg.Valid) (htorn : cfg.sealed.TornInvalid)
    (h : Reach cfg (NoHole cfg.sealed) (some w) m) :
    ∃ turn pos, Online cfg.sealed w m turn pos ∧ Recorded cfg.sealed m pos := by
  generalize hs : some w = s at h
  induction h generalizing w with
  | fresh => cases hs
  | bootCut => cases hs
  | callCut => cases hs
  | boot h hok hconfig hrun ih =>
    cases hs
    obtain ⟨-, turn, pos, hrec⟩ := reach_inv hc htorn h
    have hdone := ((init_config hc hconfig hrec).run hrun).2
    exact ⟨turn, pos, hdone.online, hdone.recorded hok⟩
  | call _ h hfits hrun ih =>
    cases hs
    obtain ⟨turn, pos, honline, hrec⟩ := ih rfl
    obtain ⟨t, p, honline', hrec', -⟩ := ((call_sat hc.sealed honline hfits.sealed).run
      hrun).2.online
    exact ⟨t, p, honline', hrec' hrec⟩

theorem read_view (hc : cfg.Valid) (h : Online cfg.sealed w m turn pos)
    (hfits : cfg.InPage a dest.length) :
    Prog.run (flash cfg.sectorSize) (w.read a dest dest.length) m =
      some ((.ok, (view cfg.sealed turn pos m).read a dest.length), m) := by
  have hfits' : cfg.sealed.InPage a dest.length := ⟨hfits.pos, hfits.bound, hfits.page⟩
  obtain ⟨r, m', hrun, -, rfl, rfl⟩ := (read_sat hc.sealed h hfits'
    (C := fun _ => True) trivial).run_total
  exact hrun

theorem read_page (hc : cfg.Valid) {v v' : Bytes} {a n : Nat} (hfits : cfg.InPage a n)
    (h : ∀ x < cfg.pages * cfg.pageSize, x / cfg.pageSize = a / cfg.pageSize → v' x = v x) :
    v'.read a n = v.read a n := by
  refine Bytes.read_congr fun x h1 h2 => ?_
  have hbound := hfits.bound
  have hoff := hfits.offset hc.pagePos
  have hda := Nat.div_add_mod' a cfg.pageSize
  refine h x (by omega) ?_
  rw [Nat.div_eq_iff hc.pagePos]
  omega

/-- Power loss at any driver call of any call on a device that is up, in runs where no `init` before
it found a hole in the marks: the next `init` returns `ESP_OK`, and every page other than the one
that the interrupted call writes or erases reads as before. -/
theorem power_loss_keeps_pages (hc : cfg.Valid) (htorn : cfg.sealed.TornInvalid)
    (h : Reach cfg (NoHole cfg.sealed) (some w) m) (call : Call) (hfits : call.Fits cfg) (n : Nat)
    (hconfig : w₀.config cfg = some (.ok, wc)) :
    ∃ w' m', Prog.run (flash cfg.sectorSize) wc.init
        (Prog.cut (flash cfg.sectorSize) n (call.prog w) m) = some ((.ok, w'), m') ∧
      ∀ a (dest : List UInt8), cfg.InPage a dest.length → call.page? cfg ≠ some (a / cfg.pageSize) →
        ∃ bs, Prog.run (flash cfg.sectorSize) (w.read a dest dest.length) m = some ((.ok, bs), m) ∧
          Prog.run (flash cfg.sectorSize) (w'.read a dest dest.length) m' =
            some ((.ok, bs), m') := by
  obtain ⟨turn, pos, honline, hrec⟩ := reach_recorded hc htorn h
  obtain ⟨t, p, hrecovers, hview⟩ := ((call_sat hc.sealed honline hfits.sealed).cut n).view
    htorn hrec
  obtain ⟨⟨result, w'⟩, m', hrun, -, hok, honline', hdata, -⟩ :=
    (init_config hc hconfig hrecovers).run_total
  obtain rfl : result = .ok := hok
  refine ⟨w', m', hrun, fun a dest hin hpage => ⟨_, read_view hc honline hin, ?_⟩⟩
  rw [read_view hc honline' hin]
  congr 3
  refine read_page hc hin fun x hx hsame => ?_
  rw [hdata.view hc.sealed]
  refine hview x hx ?_
  exact hsame ▸ hpage

/-- The object that `config` makes of zeroed memory. -/
def smallObject : WlFlash := small.sealed.object zeroed.state false 0 0

theorem smallObject_config : zeroed.config small = some (.ok, smallObject) :=
  config_valid zeroed small_valid

theorem small_torn : small.sealed.TornInvalid := by
  intro turn _ j hj hlt
  have : 64 ≤ j * small.sealed.sectorSize := Nat.mul_le_mul_right 64 hj
  exact absurd hlt (Nat.not_lt.mpr (Nat.le_trans (by decide) this))

theorem blank_robust : Robust small.sealed blank := by
  have h : ∀ a, Broken small.sealed blank a := by
    intro a j
    have : blank.erase a (j * small.sealed.sectorSize) = blank := by
      funext x
      unfold Bytes.erase
      split <;> rfl
    rw [this]
    exact blank_not_intact a
  exact ⟨fun _ => h _, fun _ => h _⟩

theorem blank_reach (ok : Bytes → Prop) : Reach small ok none blank :=
  .fresh (blank_not_intact _) (blank_not_intact _) blank_robust

theorem blank_noHole : NoHole small.sealed blank :=
  ⟨fun h => (blank_not_intact _ h).elim, fun _ h => (blank_not_intact _ h).elim⟩

/-- A byte is written to each of the two pages, and power is lost in a move. -/
theorem power_loss_keeps_pages_written : ∃ w₀ m₀ r₁ m₁ r₂ m,
    Reach small (NoHole small.sealed) (some w₀) m₀ ∧
    Prog.run (flash small.sectorSize) ((Call.write 0 [1]).prog w₀) m₀ = some (r₁, m₁) ∧
    Prog.run (flash small.sectorSize) ((Call.write 64 [2]).prog r₁.2.2) m₁ = some (r₂, m) ∧
    ∃ w' m', Prog.run (flash small.sectorSize) smallObject.init
        (Prog.cut (flash small.sectorSize) 3 (Call.flush.prog r₂.2.2) m) = some ((.ok, w'), m') ∧
      ∀ a (dest : List UInt8), small.InPage a dest.length →
        Call.flush.page? small ≠ some (a / small.pageSize) →
        ∃ bs, Prog.run (flash small.sectorSize) (r₂.2.2.read a dest dest.length) m =
            some ((.ok, bs), m) ∧
          Prog.run (flash small.sectorSize) (w'.read a dest dest.length) m' =
            some ((.ok, bs), m') := by
  have hstep : ∀ {w m} (call : Call), call.Fits small →
      Reach small (NoHole small.sealed) (some w) m →
      ∃ r m', Prog.run (flash small.sectorSize) (call.prog w) m = some (r, m') ∧
        Reach small (NoHole small.sealed) (some r.2.2) m' := by
    intro w m call hfits hreach
    obtain ⟨turn, pos, honline, -⟩ := reach_recorded small_valid small_torn hreach
    obtain ⟨r, m', hrun, -⟩ := (call_sat small_valid.sealed honline hfits.sealed).run_total
    exact ⟨r, m', hrun, .call call hreach hfits hrun⟩
  obtain ⟨⟨result, w⟩, m₀, hrun, -⟩ := (init_config small_valid smallObject_config
      (.fresh (blank_not_intact _) (blank_not_intact _))).run_total
  have hreach : Reach small (NoHole small.sealed) (some w) m₀ :=
    .boot (blank_reach _) blank_noHole smallObject_config hrun
  obtain ⟨r₁, m₁, hrun₁, hreach₁⟩ := hstep (.write 0 [1]) ⟨by decide, by decide, by decide⟩ hreach
  obtain ⟨r₂, m, hrun₂, hreach₂⟩ := hstep (.write 64 [2]) ⟨by decide, by decide, by decide⟩ hreach₁
  exact ⟨w, m₀, r₁, m₁, r₂, m, hreach, hrun₁, hrun₂,
    power_loss_keeps_pages small_valid small_torn hreach₂ .flush trivial 3 smallObject_config⟩

/-- A run with three power losses: between the two marks of a move, in the rewriting of the first
state copy at the end of the round, and when nothing is going on.  The reads are of page `0` before
and after the last. -/
def holeRun : Option ((EspErr × List UInt8) × EspErr × (EspErr × List UInt8)) := do
  let ((_, w), m) ← Prog.run (flash small.sectorSize) smallObject.init blank
  let ((_, _, w), m) ← Prog.run (flash small.sectorSize) ((Call.write 0 [1]).prog w) m
  let ((_, w), m) ← Prog.run (flash small.sectorSize) smallObject.init
    (Prog.cut (flash small.sectorSize) 4 (Call.flush.prog w) m)
  let ((_, _, w), m) ← Prog.run (flash small.sectorSize) (Call.flush.prog w) m
  let ((_, w), m) ← Prog.run (flash small.sectorSize) smallObject.init
    (Prog.cut (flash small.sectorSize) 6 (Call.flush.prog w) m)
  let (before, _) ← Prog.run (flash small.sectorSize) (w.read 0 [0] 1) m
  let ((result, w'), m') ← Prog.run (flash small.sectorSize) smallObject.init
    (Prog.cut (flash small.sectorSize) 0 (Call.flush.prog w) m)
  let (after, _) ← Prog.run (flash small.sectorSize) (w'.read 0 [0] 1) m'
  return (before, result, after)

theorem hole_loses_page : ∃ w m, Reach small (fun _ => True) (some w) m ∧
    ∃ w' m' m₁ m₂, Prog.run (flash small.sectorSize) smallObject.init
        (Prog.cut (flash small.sectorSize) 0 (Call.flush.prog w) m) = some ((.ok, w'), m') ∧
      Prog.run (flash small.sectorSize) (w.read 0 [0] 1) m = some ((.ok, [1]), m₁) ∧
      Prog.run (flash small.sectorSize) (w'.read 0 [0] 1) m' = some ((.ok, [0xff]), m₂) := by
  have hrun : holeRun = some ((.ok, [1]), .ok, (.ok, [0xff])) := by decide +kernel
  simp only [holeRun, Option.bind_eq_bind, Option.bind_eq_some_iff, Option.pure_def,
    Option.some.injEq, Prod.mk.injEq, Prod.exists] at hrun
  obtain ⟨_, w₁, m₁, h₁, _, _, w₂, m₂, h₂, _, w₃, m₃, h₃, _, _, w₄, m₄, h₄, _, w₅, m₅, h₅,
    _, _, m₆, h₆, result, w₇, m₇, h₇, _, _, m₈, h₈, ⟨rfl, rfl⟩, rfl, rfl, rfl⟩ := hrun
  have r₁ : Reach small (fun _ => True) (some w₁) m₁ :=
    .boot (blank_reach _) trivial smallObject_config h₁
  have r₂ : Reach small (fun _ => True) (some w₂) m₂ :=
    .call (.write 0 [1]) r₁ ⟨by decide, by decide, by decide⟩ h₂
  have r₃ : Reach small (fun _ => True) (some w₃) m₃ :=
    .boot (.callCut .flush 4 r₂ trivial) trivial smallObject_config h₃
  have r₄ : Reach small (fun _ => True) (some w₄) m₄ := .call .flush r₃ trivial h₄
  have r₅ : Reach small (fun _ => True) (some w₅) m₅ :=
    .boot (.callCut .flush 6 r₄ trivial) trivial smallObject_config h₅
  exact ⟨w₅, m₅, r₅, w₇, m₇, m₆, m₈, h₇, h₆, h₈⟩

/-! ### An `init` that is itself cut short -/

def afterCut (cfg : WlConfig) (w₀ : WlFlash) (n : Nat) (m : Bytes) : Bytes :=
  match w₀.config cfg with
  | some (_, wc) => Prog.cut (flash cfg.sectorSize) n wc.init m
  | none => m

/-- The flash after `init` is cut short again and again. -/
def afterCuts (cfg : WlConfig) : List (WlFlash × Nat) → Bytes → Bytes
  | [], m => m
  | (w₀, n) :: cuts, m => afterCuts cfg cuts (afterCut cfg w₀ n m)

/-- An `init` that had to rebuild the first state copy from the second left it with its header, but
without one of its marks. -/
def Torn (c : WlConfig) (m m' : Bytes) : Prop :=
  ¬(stateAt m c.state1).Intact ∧ (stateAt m c.state2).Intact ∧ (stateAt m' c.state1).Intact ∧
    ∃ i < c.pages, ¬Marked c m' c.state1 i

/-- No `init` of a series that is cut short leaves the first state copy so. -/
def NoneTorn (cfg : WlConfig) : List (WlFlash × Nat) → Bytes → Prop
  | [], _ => True
  | (w₀, n) :: cuts, m =>
    ¬Torn cfg m (afterCut cfg w₀ n m) ∧ NoneTorn cfg cuts (afterCut cfg w₀ n m)

theorem Recovers.pos_of_second (hc : c.Valid) (h : Recovers c m turn pos)
    (h1 : ¬(stateAt m c.state1).Intact) (h2 : (stateAt m c.state2).Intact) : pos = c.pages := by
  cases h with
  | fresh _ hn2 => exact (hn2 h2).elim
  | both hturn hh1 _ => exact (h1 (hh1.intact hc hturn)).elim
  | ahead hturn _ _ hh1 _ _ => exact (h1 (hh1.intact hc hturn)).elim
  | first hturn hh1 _ _ => exact (h1 (hh1.intact hc hturn)).elim
  | second => rfl

theorem Recovers.marked_of_end (h : Recovers c m turn pos) (hpos : pos = c.pages)
    (h1 : (stateAt m c.state1).Intact) :
    ∀ i < c.pages, Marked c m c.state1 i := by
  intro i hi
  by_contra hset
  cases h with
  | fresh hn1 _ => exact hn1 h1
  | both hturn _ _ =>
    have := scan_lt hi hset
    omega
  | ahead => omega
  | first => omega
  | second _ hn1 _ => exact hn1 h1

theorem initCut_step (hc : c.Valid) (htorn : c.TornInvalid) (hrob : Robust c m)
    (h : Recovers c m turn pos)
    (hcut : InitCut c m turn pos m') : Robust c m' ∧ (¬Torn c m m' ∧ Recovers c m' turn pos ∨
        Torn c m m' ∧ pos = c.pages ∧ ∃ p < c.pages, Recovers c m' turn p) := by
  obtain ⟨hrob', hmap⟩ := hcut.map htorn hrob
  refine ⟨hrob', ?_⟩
  rcases hmap with hmap | ⟨hn1, hh2, hturn, hpos, h1', h2'⟩
  · refine .inl ⟨?_, hmap⟩
    rintro ⟨hn1, hi2, hi1', i, hi, hset⟩
    exact hset (hmap.marked_of_end (h.pos_of_second hc hn1 hi2) hi1' i hi)
  · by_cases hall : ∀ i < c.pages, Marked c m' c.state1 i
    · left
      refine ⟨fun ht => ?_, ?_⟩
      · obtain ⟨-, -, -, i, hi, hset⟩ := ht
        exact hset (hall i hi)
      · have hboth := Recovers.both hturn h1' h2'
        rw [scan_eq (Nat.le_refl _) hall fun hlt => (Nat.lt_irrefl _ hlt).elim] at hboth
        rw [hpos]
        exact hboth
    · push Not at hall
      obtain ⟨i, hi, hset⟩ := hall
      exact .inr ⟨⟨hn1, hh2.intact hc hturn, h1'.intact hc hturn, i, hi, hset⟩, hpos,
        scan c m', scan_lt hi hset, .both hturn h1' h2'⟩

theorem afterCut_initCut (hc : cfg.Valid) (w₀ : WlFlash) (n : Nat)
    (h : Recovers cfg.sealed m turn pos) :
    InitCut cfg.sealed m turn pos (afterCut cfg w₀ n m) := by
  have hconfig := config_valid w₀ hc
  rw [afterCut, hconfig]
  exact (init_config hc hconfig h).cut n

theorem afterCuts_off_end (hc : cfg.Valid) (htorn : cfg.sealed.TornInvalid)
    (cuts : List (WlFlash × Nat)) (hrob : Robust cfg.sealed m)
    (h : Recovers cfg.sealed m turn pos) (hpos : pos < cfg.pages) :
    NoneTorn cfg cuts m ∧ SameData cfg.sealed m (afterCuts cfg cuts m) ∧
      Recovers cfg.sealed (afterCuts cfg cuts m) turn pos := by
  induction cuts generalizing m with
  | nil => exact ⟨trivial, SameData.refl _ _, h⟩
  | cons cut cuts ih =>
    have hcut := afterCut_initCut hc cut.1 cut.2 h
    obtain ⟨hrob', ⟨hnt, h'⟩ | ⟨-, heq, -⟩⟩ := initCut_step hc.sealed htorn hrob h hcut
    · obtain ⟨hnone, hdata, hfinal⟩ := ih hrob' h'
      exact ⟨⟨hnt, hnone⟩, hcut.data.trans hdata, hfinal⟩
    · exact absurd heq (Nat.ne_of_lt hpos)

theorem afterCuts_map (hc : cfg.Valid) (htorn : cfg.sealed.TornInvalid)
    (cuts : List (WlFlash × Nat)) (hrob : Robust cfg.sealed m)
    (h : Recovers cfg.sealed m turn pos) :
    ∃ p, Recovers cfg.sealed (afterCuts cfg cuts m) turn p ∧
      SameData cfg.sealed m (afterCuts cfg cuts m) ∧ (p = pos ↔ NoneTorn cfg cuts m) := by
  induction cuts generalizing m with
  | nil => exact ⟨pos, h, SameData.refl _ _, iff_of_true rfl trivial⟩
  | cons cut cuts ih =>
    have hcut := afterCut_initCut hc cut.1 cut.2 h
    obtain ⟨hrob', ⟨hnt, h'⟩ | ⟨ht, heq, p, hp, h'⟩⟩ := initCut_step hc.sealed htorn hrob h hcut
    · obtain ⟨p, hfinal, hdata, hiff⟩ := ih hrob' h'
      refine ⟨p, hfinal, hcut.data.trans hdata, hiff.trans ?_⟩
      exact ⟨fun hnone => ⟨hnt, hnone⟩, fun hnone => hnone.2⟩
    · obtain ⟨-, hdata, hfinal⟩ := afterCuts_off_end hc htorn cuts hrob' h' hp
      refine ⟨p, hfinal, hcut.data.trans hdata, ?_⟩
      exact ⟨fun hsame => absurd (hsame.trans heq) (Nat.ne_of_lt hp), fun hnone =>
        (hnone.1 ht).elim⟩

/-- A series of `init`s that are cut short, on any flash that a run with power losses reaches: the
`init` that completes finds the map that an uninterrupted one would have found exactly if none of
the series leaves the first state copy with a header but without one of its marks, and then every
page reads the same. -/
theorem init_restartable (hc : cfg.Valid) (htorn : cfg.sealed.TornInvalid)
    (h : Reach cfg (fun _ => True) none m) (hconfig : w₀.config cfg = some (.ok, wc))
    (cuts : List (WlFlash × Nat)) :
    ∃ w m₁ w' m₂, Prog.run (flash cfg.sectorSize) wc.init m = some ((.ok, w), m₁) ∧
      Prog.run (flash cfg.sectorSize) wc.init (afterCuts cfg cuts m) = some ((.ok, w'), m₂) ∧
      (w'.state.pos = w.state.pos ∧ w'.state.moveCount = w.state.moveCount ↔ NoneTorn cfg cuts m) ∧
      (NoneTorn cfg cuts m → ∀ a (dest : List UInt8), cfg.InPage a dest.length →
        ∃ bs, Prog.run (flash cfg.sectorSize) (w.read a dest dest.length) m₁ =
          some ((.ok, bs), m₁) ∧
          Prog.run (flash cfg.sectorSize) (w'.read a dest dest.length) m₂ =
            some ((.ok, bs), m₂)) := by
  obtain ⟨hrob, turn, pos, hrec⟩ := reach_inv hc htorn h
  obtain ⟨p, hfinal, hdata, hiff⟩ := afterCuts_map hc htorn cuts hrob hrec
  obtain ⟨⟨result, w⟩, m₁, hrun, -, hok, honline, hd₁, -⟩ := (init_config hc hconfig hrec).run_total
  obtain ⟨⟨result', w'⟩, m₂, hrun', -, hok', honline', hd₂, -⟩ :=
    (init_config hc hconfig hfinal).run_total
  obtain rfl : result = .ok := hok
  obtain rfl : result' = .ok := hok'
  have hpos : w.state.pos = pos ∧ w.state.moveCount = turn := by
    obtain ⟨count, crc, d, u, rfl⟩ := honline.object
    exact ⟨rfl, rfl⟩
  have hpos' : w'.state.pos = p ∧ w'.state.moveCount = turn := by
    obtain ⟨count, crc, d, u, rfl⟩ := honline'.object
    exact ⟨rfl, rfl⟩
  refine ⟨w, m₁, w', m₂, hrun, hrun', ?_, fun hnone a dest hin => ?_⟩
  · rw [hpos.1, hpos.2, hpos'.1, hpos'.2, ← hiff]
    exact and_iff_left rfl
  · obtain rfl : p = pos := hiff.mpr hnone
    refine ⟨_, read_view hc honline hin, ?_⟩
    rw [read_view hc honline' hin]
    congr 3
    refine read_page hc hin fun x _ _ => ?_
    rw [(hdata.trans hd₂).view hc.sealed, hd₁.view hc.sealed]

theorem init_restartable_small : Reach small (fun _ => True) none blank ∧
    ∃ w m₁ w' m₂, Prog.run (flash small.sectorSize) smallObject.init blank = some ((.ok, w), m₁) ∧
      Prog.run (flash small.sectorSize) smallObject.init (afterCuts small [(zeroed, 3)] blank) =
        some ((.ok, w'), m₂) ∧
      (w'.state.pos = w.state.pos ∧ w'.state.moveCount = w.state.moveCount ↔
        NoneTorn small [(zeroed, 3)] blank) ∧
      (NoneTorn small [(zeroed, 3)] blank → ∀ a (dest : List UInt8), small.InPage a dest.length →
        ∃ bs, Prog.run (flash small.sectorSize) (w.read a dest dest.length) m₁ =
          some ((.ok, bs), m₁) ∧
          Prog.run (flash small.sectorSize) (w'.read a dest dest.length) m₂ =
            some ((.ok, bs), m₂)) :=
  ⟨blank_reach _, init_restartable small_valid small_torn
    (blank_reach _) smallObject_config [(zeroed, 3)]⟩

/-- A run that loses power when the first state copy is erased at the end of a round, followed by an
`init` without and with a power loss just after the header of that copy is back: the positions
found, and what page `0` then reads. -/
def tornRun : Option ((EspErr × Nat × List UInt8) × (EspErr × Nat × List UInt8)) := do
  let ((_, w), m) ← Prog.run (flash small.sectorSize) smallObject.init blank
  let ((_, _, w), m) ← Prog.run (flash small.sectorSize) ((Call.write 0 [1]).prog w) m
  let ((_, _, w), m) ← Prog.run (flash small.sectorSize) (Call.flush.prog w) m
  let ((_, _, w), m) ← Prog.run (flash small.sectorSize) (Call.flush.prog w) m
  let ((result, w₁), m₁) ← Prog.run (flash small.sectorSize) smallObject.init
    (Prog.cut (flash small.sectorSize) 6 (Call.flush.prog w) m)
  let ((_, bs), _) ← Prog.run (flash small.sectorSize) (w₁.read 0 [0] 1) m₁
  let ((result', w₂), m₂) ← Prog.run (flash small.sectorSize) smallObject.init
    (afterCut small zeroed 4 (Prog.cut (flash small.sectorSize) 6 (Call.flush.prog w) m))
  let ((_, bs'), _) ← Prog.run (flash small.sectorSize) (w₂.read 0 [0] 1) m₂
  return ((result, w₁.state.pos, bs), (result', w₂.state.pos, bs'))

theorem torn_changes_map : ∃ m, Reach small (fun _ => True) none m ∧
    ∃ w m₁ w' m₂, Prog.run (flash small.sectorSize) smallObject.init m = some ((.ok, w), m₁) ∧
      Prog.run (flash small.sectorSize) smallObject.init (afterCuts small [(zeroed, 4)] m) =
        some ((.ok, w'), m₂) ∧
      w.state.pos = 2 ∧ w'.state.pos = 0 ∧
      ∃ r m₃ r' m₄, Prog.run (flash small.sectorSize) (w.read 0 [0] 1) m₁ = some ((r, [1]), m₃) ∧
        Prog.run (flash small.sectorSize) (w'.read 0 [0] 1) m₂ = some ((r', [0xff]), m₄) := by
  have hrun : tornRun = some ((.ok, 2, [1]), (.ok, 0, [0xff])) := by decide +kernel
  simp only [tornRun, Option.bind_eq_bind, Option.bind_eq_some_iff, Option.pure_def,
    Option.some.injEq, Prod.mk.injEq, Prod.exists] at hrun
  obtain ⟨_, w₁, m₁, h₁, _, _, w₂, m₂, h₂, _, _, w₃, m₃, h₃, _, _, w₄, m₄, h₄, _, w₅, m₅, h₅,
    r, _, m₆, h₆, _, w₇, m₇, h₇, r', _, m₈, h₈, ⟨rfl, hpos, rfl⟩, rfl, hpos', rfl⟩ := hrun
  have r₁ : Reach small (fun _ => True) (some w₁) m₁ :=
    .boot (blank_reach _) trivial smallObject_config h₁
  have r₂ : Reach small (fun _ => True) (some w₂) m₂ :=
    .call (.write 0 [1]) r₁ ⟨by decide, by decide, by decide⟩ h₂
  have r₃ : Reach small (fun _ => True) (some w₃) m₃ := .call .flush r₂ trivial h₃
  have r₄ : Reach small (fun _ => True) (some w₄) m₄ := .call .flush r₃ trivial h₄
  exact ⟨_, .callCut .flush 6 r₄ trivial, w₅, m₅, w₇, m₇, h₅, h₇, hpos, hpos', r, m₆, r',
    m₈, h₆, h₈⟩

end EspIdf.WearLevelling
