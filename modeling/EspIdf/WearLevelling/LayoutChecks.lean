import EspIdf.WearLevelling.Transparent

/-! What the checks of `WL_Flash::config` leave open.  The layout is computed again with operations
that fail instead of wrapping or dividing by zero, and the configurations with a usable layout are
found. -/

namespace EspIdf.WearLevelling

open WlConfig (cfgLen_dvd cfgStart pages state1 state2 stateLen_dvd)

/-! ### Arithmetic that does not wrap -/

def addChecked (a b : Nat) : Option Nat := if a + b < 2 ^ 32 then some (a + b) else none

def subChecked (a b : Nat) : Option Nat := if b ≤ a then some (a - b) else none

def mulChecked (a b : Nat) : Option Nat := if a * b < 2 ^ 32 then some (a * b) else none

def divChecked (a b : Nat) : Option Nat := if b = 0 then none else some (a / b)

theorem ite_some_bind {p : Prop} [Decidable p] {f : α → Option β} :
    (if p then some x else none) >>= f = some y ↔ p ∧ f x = some y := by
  split_ifs with h
  · exact (and_iff_right h).symm
  · exact ⟨nofun, fun h' => absurd h'.1 h⟩

section Checked

variable {a b : Nat} {f : Nat → Option β}

theorem addChecked_bind : addChecked a b >>= f = some y ↔ a + b < 2 ^ 32 ∧ f (a + b) = some y :=
  ite_some_bind

theorem subChecked_bind : subChecked a b >>= f = some y ↔ b ≤ a ∧ f (a - b) = some y :=
  ite_some_bind

theorem mulChecked_bind : mulChecked a b >>= f = some y ↔ a * b < 2 ^ 32 ∧ f (a * b) = some y :=
  ite_some_bind

theorem divChecked_bind : divChecked a b >>= f = some y ↔ b ≠ 0 ∧ f (a / b) = some y := by
  rw [divChecked, ← ite_not]
  exact ite_some_bind

theorem mulChecked_eq_some {x : Nat} : mulChecked a b = some x ↔ a * b < 2 ^ 32 ∧ a * b = x := by
  simp [mulChecked]

end Checked

theorem bind_of (h : o = some a) (hf : f a = r) : o >>= f = r := by
  rw [h]
  exact hf

structure Areas where
  stateSize : Nat
  cfgSize : Nat
  addrCfg : Nat
  addrState1 : Nat
  addrState2 : Nat
  flashSize : Nat
  maxPos : Nat
  deriving DecidableEq, Repr

def sectorsChecked (count sectorSize : Nat) : Option Nat := do
  let sum ← addChecked count sectorSize
  let last ← subChecked sum 1
  let sectors ← divChecked last sectorSize
  mulChecked sectors sectorSize

def stateChecked (need sectorSize : Nat) : Option Nat :=
  if sectorSize < need then sectorsChecked need sectorSize else some sectorSize

/-- The computations of `WL_Flash::config` and `WL_Flash::initSections`; `none` if one of them wraps
or divides by zero. -/
def WlConfig.checkedAreas (c : WlConfig) : Option Areas := do
  let sectors ← divChecked c.fullMemSize c.sectorSize
  let marks ← mulChecked sectors c.wrSize
  let need ← addChecked sizeofState marks
  let stateSize ← stateChecked need c.sectorSize
  let cfgSize ← sectorsChecked sizeofConfig c.sectorSize
  let memEnd ← addChecked c.startAddr c.fullMemSize
  let addrCfg ← subChecked memEnd cfgSize
  let states ← mulChecked stateSize 2
  let behindStates ← subChecked memEnd states
  let addrState1 ← subChecked behindStates cfgSize
  let behindState ← subChecked memEnd stateSize
  let addrState2 ← subChecked behindState cfgSize
  let noStates ← subChecked c.fullMemSize states
  let data ← subChecked noStates cfgSize
  let dataPages ← divChecked data c.pageSize
  let pages ← subChecked dataPages 1
  let flashSize ← mulChecked pages c.pageSize
  let flashPages ← divChecked flashSize c.pageSize
  let maxPos ← addChecked 1 flashPages
  let stateCount ← divChecked flashSize stateSize
  let _ ← mulChecked stateCount c.updaterate
  return ⟨stateSize, cfgSize, addrCfg, addrState1, addrState2, flashSize, maxPos⟩

structure WlConfig.Accepted (c : WlConfig) : Prop where
  sectorPos : 0 < c.sectorSize
  buffPos : c.tempBuffSize ≠ 0
  buff : c.sectorSize % c.tempBuffSize = 0
  page : c.sectorSize ≤ c.pageSize

structure InMemory (c : WlConfig) (start stop : Nat) : Prop where
  first : c.startAddr ≤ start
  last : stop ≤ c.startAddr + c.fullMemSize
  firstSector : c.sectorSize ∣ start - c.startAddr
  lastSector : c.sectorSize ∣ stop - c.startAddr

/-- The layout of a configured object is as it should be: no computation wrapped or divided by zero,
there is a page to use, the areas are whole sectors of the memory and do not overlap, and a state
has room for its marks. -/
structure LayoutRight (c : WlConfig) (w : WlFlash) : Prop where
  exact : ∃ maxPos, c.checkedAreas = some ⟨w.stateSize, w.cfgSize, w.addrCfg, w.addrState1,
    w.addrState2, w.flashSize, maxPos⟩ ∧ sizeofState + maxPos * c.wrSize ≤ w.stateSize
  usable : c.pageSize ≤ w.flashSize
  data : InMemory c c.startAddr (c.startAddr + (w.flashSize / c.pageSize + 1) * c.pageSize)
  state1 : InMemory c w.addrState1 (w.addrState1 + w.stateSize)
  state2 : InMemory c w.addrState2 (w.addrState2 + w.stateSize)
  cfg : InMemory c w.addrCfg (w.addrCfg + w.cfgSize)
  disjoint1 : c.startAddr + (w.flashSize / c.pageSize + 1) * c.pageSize ≤ w.addrState1
  disjoint2 : w.addrState1 + w.stateSize ≤ w.addrState2
  disjoint3 : w.addrState2 + w.stateSize ≤ w.addrCfg

/-- There is room for two states, the configuration and two pages below the end of the address
space, in whole sectors, and the product that `initSections` computes for `max_count` is a 32-bit
number. -/
structure WlConfig.Roomy (c : WlConfig) : Prop where
  memEnd : c.startAddr + c.fullMemSize < 2 ^ 32
  room : c.stateLen * 2 + c.cfgLen + c.pageSize * 2 ≤ c.fullMemSize
  fullSectors : c.sectorSize ∣ c.fullMemSize
  dataSectors : c.sectorSize ∣ (c.pages + 1) * c.pageSize
  maxCount : c.pages * c.pageSize / c.stateLen * c.updaterate < 2 ^ 32

section Config

variable {w w' : WlFlash} {c : WlConfig}

theorem config_accepted (h : w.config c = some (.ok, w')) : c.Accepted := by
  simp only [WlFlash.config] at h
  split_ifs at h with h1 h2 h3 h4
  · cases h
  · cases h
  all_goals exact ⟨Nat.pos_of_ne_zero h4, h1, not_not.mp h2, Nat.le_of_not_lt h3⟩

theorem sectorsChecked_eq_some {count sectorSize x : Nat} : sectorsChecked count sectorSize =
    some x ↔
    count + sectorSize < 2 ^ 32 ∧ 1 ≤ count + sectorSize ∧ sectorSize ≠ 0 ∧
      (count + sectorSize - 1) / sectorSize * sectorSize < 2 ^ 32 ∧
      (count + sectorSize - 1) / sectorSize * sectorSize = x := by
  simp only [sectorsChecked, addChecked_bind, subChecked_bind, divChecked_bind, mulChecked_eq_some]

theorem WlConfig.Roomy.fits (hr : c.Roomy) (ha : c.Accepted) : c.Fits :=
  ⟨ha.sectorPos, ha.page, hr.memEnd, hr.room⟩

theorem config_roomy (hr : c.Roomy) (h : w.config c = some (.ok, w')) :
    w' = c.sealed.object w.state w.initialized w.dummyAddr w.usedBits := by
  have ha := config_accepted h
  have hconfig := config_fits w (hr.fits ha) ha.buffPos ha.buff
  rw [h] at hconfig
  exact (Prod.mk.inj (Option.some.inj hconfig)).2

theorem pages_div (ha : c.Accepted) : c.pages * c.pageSize / c.pageSize = c.pages :=
  Nat.mul_div_cancel _ (Nat.lt_of_lt_of_le ha.sectorPos ha.page)

theorem WlConfig.Fits.checkedAreas (hf : c.Fits)
    (hcount : c.pages * c.pageSize / c.stateLen * c.updaterate < 2 ^ 32) :
    c.checkedAreas = some ⟨c.stateLen, c.cfgLen, c.cfgStart, c.state1, c.state2,
      c.pages * c.pageSize, 1 + c.pages⟩ := by
  have hpage : 0 < c.pageSize := Nat.lt_of_lt_of_le hf.sectorPos hf.pageSector
  have hneed := hf.stateNeed_le
  have hsec := hf.sector_le_stateLen
  have hpos := hf.sectorPos
  have husable := hf.usable
  have hbound := hf.bound
  have hpages := hf.pages_pos
  have hfit := hf.pages_fit
  have hcfg : sizeofConfig ≤ c.cfgLen := WlConfig.le_roundUp hf.sectorPos
  have hdata : c.pages + 1 = (c.fullMemSize - c.stateLen * 2 - c.cfgLen) / c.pageSize := by
    unfold pages at hpages ⊢
    omega
  have hmul : (c.pages + 1) * c.pageSize = c.pages * c.pageSize + c.pageSize := Nat.succ_mul _ _
  have hstate : stateChecked c.stateNeed c.sectorSize = some c.stateLen := by
    unfold WlConfig.stateLen at hneed hsec husable ⊢
    unfold stateChecked
    split_ifs with hs
    · rw [if_pos hs] at husable hneed
      exact sectorsChecked_eq_some.mpr ⟨by omega, by omega, by omega, by omega, rfl⟩
    · rfl
  have hneed' : c.stateNeed = sizeofState + c.fullMemSize / c.sectorSize * c.wrSize := rfl
  have hlen : c.cfgLen = (sizeofConfig + c.sectorSize - 1) / c.sectorSize * c.sectorSize := rfl
  have h1 : c.startAddr + c.fullMemSize - c.cfgLen = c.cfgStart := by
    unfold cfgStart state2 state1
    omega
  have h2 : c.startAddr + c.fullMemSize - c.stateLen - c.cfgLen = c.state2 := by
    unfold state2 state1
    omega
  have hpagesLe := Nat.le_mul_of_pos_right c.pages hpage
  refine divChecked_bind.2 ⟨by omega, mulChecked_bind.2 ⟨by omega, addChecked_bind.2 ⟨by omega, ?_⟩⟩⟩
  refine bind_of hstate ?_
  refine bind_of (sectorsChecked_eq_some.mpr ⟨by omega, by omega, by omega, by omega, hlen.symm⟩) ?_
  simp only [addChecked_bind, subChecked_bind, divChecked_bind, mulChecked_bind]
  rw [h1, h2, ← hdata, Nat.add_sub_cancel, Nat.mul_div_cancel _ hpage]
  refine ⟨hbound, ?_, ?_, ?_, ?_, ?_, ?_, ?_, ?_, ?_, ?_, ?_, ?_, ?_, ?_, hcount, rfl⟩
  all_goals omega

theorem stateChecked_some {need sectorSize x : Nat} (h : stateChecked need sectorSize = some x) :
    x = if sectorSize < need then (need + sectorSize - 1) / sectorSize * sectorSize
      else sectorSize := by
  unfold stateChecked at h
  split_ifs at h with hs
  · rw [if_pos hs]
    exact (sectorsChecked_eq_some.mp h).2.2.2.2.symm
  · rw [if_neg hs]
    exact (Option.some.inj h).symm

structure Computed (c : WlConfig) (a : Areas) : Prop where
  memEnd : c.startAddr + c.fullMemSize < 2 ^ 32
  stateSize : a.stateSize = c.stateLen
  cfgSize : a.cfgSize = c.cfgLen
  states : c.stateLen * 2 + c.cfgLen ≤ c.fullMemSize
  addrState1 : a.addrState1 = c.state1
  flashSize : a.flashSize = c.pages * c.pageSize
  maxCount : a.flashSize / c.stateLen * c.updaterate < 2 ^ 32

theorem checkedAreas_computed (h : c.checkedAreas = some a) : Computed c a := by
  simp only [WlConfig.checkedAreas, addChecked_bind, divChecked_bind, mulChecked_bind] at h
  obtain ⟨-, -, -, h⟩ := h
  obtain ⟨_, hstate, h⟩ := Option.bind_eq_some_iff.mp h
  obtain ⟨_, hcfg, h⟩ := Option.bind_eq_some_iff.mp h
  obtain rfl := stateChecked_some hstate
  obtain rfl : c.cfgLen = _ := (sectorsChecked_eq_some.mp hcfg).2.2.2.2
  simp only [addChecked_bind, subChecked_bind, divChecked_bind, mulChecked_bind] at h
  obtain ⟨hend, -, -, -, -, -, -, hfit1, hfit2, -, -, -, -, -, -, hcount, h⟩ := h
  cases h
  exact ⟨hend, rfl, rfl, Nat.add_comm _ _ ▸ Nat.add_le_of_le_sub hfit1 hfit2, rfl, rfl, hcount⟩

theorem WlConfig.Fits.marks_le (hf : c.Fits) :
    sizeofState + (1 + c.pages) * c.wrSize ≤ c.stateLen := by
  have hneed := hf.stateNeed_le
  have hfit := hf.pages_fit
  have hpages : 1 + c.pages ≤ c.fullMemSize / c.sectorSize := by
    rw [Nat.le_div_iff_mul_le hf.sectorPos]
    have := Nat.mul_le_mul_left (c.pages + 1) hf.pageSector
    rw [Nat.add_comm 1]
    omega
  have hmul := Nat.mul_le_mul_right c.wrSize hpages
  unfold WlConfig.stateNeed at hneed
  omega

theorem WlConfig.Roomy.layoutRight (hr : c.Roomy) (ha : c.Accepted) {state : WlState}
    (hw : w' = c.sealed.object state i d u) : LayoutRight c w' := by
  have hf := hr.fits ha
  have hfit := hf.pages_fit
  have hpages := hf.pages_pos
  have hstate : w'.stateSize = c.stateLen := by rw [hw]; rfl
  have hcfg : w'.cfgSize = c.cfgLen := by rw [hw]; rfl
  have h1 : w'.addrState1 = c.state1 := by rw [hw]; rfl
  have h2 : w'.addrState2 = c.state2 := by rw [hw]; rfl
  have h3 : w'.addrCfg = c.cfgStart := by rw [hw]; rfl
  have hflash : w'.flashSize = c.pages * c.pageSize := by rw [hw]; rfl
  have e1 : c.state1 = c.startAddr + (c.fullMemSize - c.stateLen * 2 - c.cfgLen) := by
    unfold state1
    omega
  have e2 : c.state2 = c.startAddr + (c.fullMemSize - c.stateLen * 2 - c.cfgLen + c.stateLen) := by
    rw [state2, e1, Nat.add_assoc]
  have e3 : c.cfgStart = c.startAddr +
      (c.fullMemSize - c.stateLen * 2 - c.cfgLen + c.stateLen + c.stateLen) := by
    rw [cfgStart, e2, Nat.add_assoc]
  have d1 : c.sectorSize ∣ c.fullMemSize - c.stateLen * 2 - c.cfgLen :=
    Nat.dvd_sub (Nat.dvd_sub hr.fullSectors (Dvd.dvd.mul_right (stateLen_dvd c) 2))
      (cfgLen_dvd c)
  have d2 := Nat.dvd_add d1 (stateLen_dvd c)
  have d3 := Nat.dvd_add d2 (stateLen_dvd c)
  have d4 := Nat.dvd_add d3 (cfgLen_dvd c)
  have hdata : c.pages * c.pageSize / c.pageSize = c.pages := pages_div ha
  have hin : ∀ {start stop : Nat}, start ≤ stop → stop ≤ c.fullMemSize → c.sectorSize ∣ start →
      c.sectorSize ∣ stop → InMemory c (c.startAddr + start) (c.startAddr + stop) := by
    intro start stop hle hstop hd1 hd2
    exact ⟨by omega, by omega, by rwa [Nat.add_sub_cancel_left], by rwa [Nat.add_sub_cancel_left]⟩
  refine ⟨⟨1 + c.pages, ?_, ?_⟩, ?_, ?_, ?_, ?_, ?_, ?_, ?_, ?_⟩
  · rw [hstate, hcfg, h1, h2, h3, hflash]
    exact hf.checkedAreas hr.maxCount
  · rw [hstate]
    exact hf.marks_le
  · rw [hflash]
    exact Nat.le_mul_of_pos_left _ hpages
  · rw [hflash, hdata]
    exact hin (Nat.zero_le _) (by omega) (Nat.dvd_zero _) hr.dataSectors
  · rw [h1, hstate, e1, Nat.add_assoc]
    exact hin (by omega) (by omega) d1 d2
  · rw [h2, hstate, e2, Nat.add_assoc]
    exact hin (by omega) (by omega) d2 d3
  · rw [h3, hcfg, e3, Nat.add_assoc c.startAddr]
    exact hin (by omega) (by omega) d3 d4
  · rw [hflash, hdata, h1, e1]
    omega
  · rw [h1, h2, hstate]
    exact Nat.le_refl _
  · rw [h2, h3, hstate]
    exact Nat.le_refl _

/-- The layout that `config` computes is right if and only if there is room. -/
theorem config_layout_iff (h : w.config c = some (.ok, w')) : LayoutRight c w' ↔ c.Roomy := by
  have ha := config_accepted h
  have hpage : 0 < c.pageSize := Nat.lt_of_lt_of_le ha.sectorPos ha.page
  constructor
  · intro hl
    obtain ⟨maxPos, hexact, -⟩ := hl.exact
    obtain ⟨hend, hstate, hcfg, hstates, hstate1, hflash, hcount⟩ := checkedAreas_computed hexact
    simp only at hstate hcfg hstate1 hflash hcount
    have hpages : 0 < c.pages := by
      by_contra hzero
      have husable := hl.usable
      rw [hflash, Nat.eq_zero_of_not_pos hzero] at husable
      omega
    have hroom : c.pageSize * 2 ≤ c.fullMemSize - c.stateLen * 2 - c.cfgLen := by
      rw [Nat.mul_comm, ← Nat.le_div_iff_mul_le hpage]
      unfold pages at hpages
      omega
    have hfirst := hl.state1.firstSector
    rw [hstate1, state1, show c.startAddr + c.fullMemSize - c.stateLen * 2 - c.cfgLen -
      c.startAddr = c.fullMemSize - (c.stateLen * 2 + c.cfgLen) by omega] at hfirst
    have hareas : c.sectorSize ∣ c.stateLen * 2 + c.cfgLen :=
      Nat.dvd_add (Dvd.dvd.mul_right (stateLen_dvd c) 2) (cfgLen_dvd c)
    have hlast := hl.data.lastSector
    rw [hflash, pages_div ha, Nat.add_sub_cancel_left] at hlast
    exact ⟨hend, by omega, (Nat.dvd_sub_iff_left hstates hareas).mp hfirst, hlast,
      by rwa [hflash] at hcount⟩
  · intro hr
    exact hr.layoutRight ha (config_roomy hr h)

end Config

/-- The configuration of `wl_mount` for a partition of `size` bytes. -/
def mountConfig (size : Nat) : WlConfig where
  startAddr := 0
  fullMemSize := size
  pageSize := 4096
  sectorSize := 4096
  updaterate := 16
  wrSize := 16
  version := 1
  tempBuffSize := 32
  crc := 0

theorem config_layout_8_sectors : (mountConfig 0x8000).Roomy ∧
    ∃ w', zeroed.config (mountConfig 0x8000) = some (.ok, w') ∧
      LayoutRight (mountConfig 0x8000) w' := by
  have hr : (mountConfig 0x8000).Roomy :=
    ⟨by decide, by decide, by decide, by decide, by decide⟩
  have hconfig := config_fits zeroed (c := mountConfig 0x8000)
    ⟨by decide, by decide, by decide, by decide⟩ (by decide) (by decide)
  exact ⟨hr, _, hconfig, (config_layout_iff hconfig).mpr hr⟩

theorem config_accepts_no_page : (zeroed.config (mountConfig 0x4000)).any (fun r =>
    r.1 = .ok ∧ r.2.chipSize < (mountConfig 0x4000).pageSize) = true := by
  decide +kernel

/-- On a partition of 3 sectors the usable size wraps to almost all of the address space. -/
example : (zeroed.config (mountConfig 0x3000)).any (fun r =>
    r.1 = .ok ∧ r.2.chipSize = 2 ^ 32 - 4096) = true := by
  decide +kernel

end EspIdf.WearLevelling
