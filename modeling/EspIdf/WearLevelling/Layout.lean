import EspIdf.WearLevelling.Model
import EspIdf.WearLevelling.Rotation

/-! The configurations that the documentation allows, the areas that `WL_Flash::config` lays out for
them, and the map from virtual to physical addresses as a rotation with a hole. -/

namespace EspIdf.WearLevelling

open EspIdf.Device

theorem u32_eq (h : n < 2 ^ 32) : u32 n = n := Nat.mod_eq_of_lt h

theorem u32_lt (n : Nat) : u32 n < 2 ^ 32 := Nat.mod_lt _ (by decide)

theorem sub32_eq (hb : b ≤ a) (ha : a < 2 ^ 32) : sub32 a b = a - b := by
  rw [sub32, show a + (2 ^ 32 - b) = a - b + 2 ^
    32 by omega, Nat.add_mod_right, Nat.mod_eq_of_lt (by omega)]

variable {c : WlConfig}

namespace WlConfig

def stateNeed (c : WlConfig) : Nat := sizeofState + c.fullMemSize / c.sectorSize * c.wrSize

def stateLen (c : WlConfig) : Nat :=
  if c.sectorSize < c.stateNeed then
    (c.stateNeed + c.sectorSize - 1) / c.sectorSize * c.sectorSize
  else c.sectorSize

def cfgLen (c : WlConfig) : Nat :=
  (sizeofConfig + c.sectorSize - 1) / c.sectorSize * c.sectorSize

/-- The number of virtual pages: the pages of the data area less the dummy page. -/
def pages (c : WlConfig) : Nat :=
  (c.fullMemSize - c.stateLen * 2 - c.cfgLen) / c.pageSize - 1

structure Valid (c : WlConfig) : Prop where
  sectorPos : 0 < c.sectorSize
  pagePos : 0 < c.pageSize
  pageSectors : c.sectorSize ∣ c.pageSize
  buffPos : 0 < c.tempBuffSize
  buffSector : c.tempBuffSize ∣ c.sectorSize
  wrPos : 0 < c.wrSize
  startSectors : c.sectorSize ∣ c.startAddr
  fullSectors : c.sectorSize ∣ c.fullMemSize
  bound : c.startAddr + c.fullMemSize < 2 ^ 31
  usable : c.stateLen * 2 + c.cfgLen + c.pageSize * 2 ≤ c.fullMemSize
  updaterate : c.updaterate < 2 ^ 32
  version : c.version < 2 ^ 32

structure Fits (c : WlConfig) : Prop where
  sectorPos : 0 < c.sectorSize
  pageSector : c.sectorSize ≤ c.pageSize
  bound : c.startAddr + c.fullMemSize < 2 ^ 32
  usable : c.stateLen * 2 + c.cfgLen + c.pageSize * 2 ≤ c.fullMemSize

theorem Valid.fits (h : c.Valid) : c.Fits where
  sectorPos := h.sectorPos
  pageSector := Nat.le_of_dvd h.pagePos h.pageSectors
  bound := by
    have := h.bound
    omega
  usable := h.usable

theorem le_roundUp (hs : 0 < s) : n ≤ (n + s - 1) / s * s := by
  have h := Nat.div_add_mod (n + s - 1) s
  have hlt := Nat.mod_lt (n + s - 1) hs
  rw [Nat.mul_comm] at h
  omega

theorem Fits.stateNeed_le (h : c.Fits) : c.stateNeed ≤ c.stateLen := by
  unfold stateLen
  split
  · exact le_roundUp h.sectorPos
  · omega

theorem stateNeed_le (h : c.Valid) : c.stateNeed ≤ c.stateLen := h.fits.stateNeed_le

theorem stateLen_dvd (c : WlConfig) : c.sectorSize ∣ c.stateLen := by
  unfold stateLen
  split
  · exact Nat.dvd_mul_left _ _
  · exact Nat.dvd_refl _

theorem Fits.sector_le_stateLen (h : c.Fits) : c.sectorSize ≤ c.stateLen := by
  have := h.stateNeed_le
  unfold stateLen at this ⊢
  split <;> rename_i hs
  · rw [if_pos hs] at this
    omega
  · exact Nat.le_refl _

theorem sector_le_stateLen (h : c.Valid) : c.sectorSize ≤ c.stateLen :=
  h.fits.sector_le_stateLen

theorem cfgLen_dvd (c : WlConfig) : c.sectorSize ∣ c.cfgLen := Nat.dvd_mul_left _ _

theorem Fits.pages_pos (h : c.Fits) : 0 < c.pages := by
  have h2 : 2 ≤ (c.fullMemSize - c.stateLen * 2 - c.cfgLen) / c.pageSize := by
    rw [Nat.le_div_iff_mul_le (Nat.lt_of_lt_of_le h.sectorPos h.pageSector)]
    have := h.usable
    omega
  unfold pages
  omega

theorem pages_pos (h : c.Valid) : 0 < c.pages := h.fits.pages_pos

theorem Fits.pages_fit (h : c.Fits) :
    (c.pages + 1) * c.pageSize + c.stateLen * 2 + c.cfgLen ≤ c.fullMemSize := by
  have h1 := h.pages_pos
  have h2 := Nat.div_mul_le_self (c.fullMemSize - c.stateLen * 2 - c.cfgLen) c.pageSize
  have h3 : c.pages + 1 = (c.fullMemSize - c.stateLen * 2 - c.cfgLen) / c.pageSize := by
    unfold pages at h1 ⊢
    omega
  have := h.usable
  rw [h3]
  omega

theorem pages_fit (h : c.Valid) :
    (c.pages + 1) * c.pageSize + c.stateLen * 2 + c.cfgLen ≤ c.fullMemSize := h.fits.pages_fit

def state1 (c : WlConfig) : Nat := c.startAddr + c.fullMemSize - c.stateLen * 2 - c.cfgLen

def state2 (c : WlConfig) : Nat := c.state1 + c.stateLen

def cfgStart (c : WlConfig) : Nat := c.state2 + c.stateLen

theorem state2_eq (c : WlConfig) : c.state2 = c.state1 + c.stateLen := rfl

namespace Valid

section

variable (h : c.Valid)
include h

theorem cfg_end : c.cfgStart + c.cfgLen = c.startAddr + c.fullMemSize := by
  have := h.usable
  unfold cfgStart state2 state1
  omega

theorem data_end : c.startAddr + (c.pages + 1) * c.pageSize ≤ c.state1 := by
  have := pages_fit h
  unfold state1
  omega

theorem cfg_lt : c.cfgStart + c.cfgLen < 2 ^ 31 := by
  rw [h.cfg_end]
  exact h.bound

theorem pages_le : c.pages + 1 ≤ c.fullMemSize / c.sectorSize := by
  rw [Nat.le_div_iff_mul_le h.sectorPos]
  have h1 := pages_fit h
  have h2 := Nat.mul_le_mul_left (c.pages + 1) (Nat.le_of_dvd h.pagePos h.pageSectors)
  omega

theorem pages_lt : c.pages + 1 < 2 ^ 31 := by
  have h1 := h.pages_le
  have h2 := Nat.div_le_self c.fullMemSize c.sectorSize
  have h3 := h.bound
  omega

theorem mark_lt (hi : i ≤ c.pages) :
    i * c.wrSize < c.fullMemSize / c.sectorSize * c.wrSize := by
  have h1 := Nat.mul_le_mul_right c.wrSize (Nat.le_trans (Nat.succ_le_succ hi) h.pages_le)
  have h2 := h.wrPos
  rw [Nat.succ_mul] at h1
  omega

theorem marks_le :
    sizeofState + c.fullMemSize / c.sectorSize * c.wrSize ≤ c.stateLen := stateNeed_le h

end

theorem page_le (hp : p ≤ c.pages) : p * c.pageSize + c.pageSize ≤ (c.pages + 1) * c.pageSize := by
  have := Nat.mul_le_mul_right c.pageSize (Nat.succ_le_succ hp)
  rwa [Nat.succ_mul] at this

theorem dvd_state1 (h : c.Valid) : c.sectorSize ∣ c.state1 := by
  have h1 := Nat.dvd_add h.startSectors h.fullSectors
  rw [← h.cfg_end] at h1
  have h2 := (Nat.dvd_add_left (cfgLen_dvd _)).mp h1
  have h3 := (Nat.dvd_add_left (stateLen_dvd _)).mp h2
  exact (Nat.dvd_add_left (stateLen_dvd _)).mp h3

theorem dvd_state2 (h : c.Valid) : c.sectorSize ∣ c.state2 :=
  Nat.dvd_add h.dvd_state1 (stateLen_dvd _)

theorem dvd_cfgStart (h : c.Valid) : c.sectorSize ∣ c.cfgStart :=
  Nat.dvd_add h.dvd_state2 (stateLen_dvd _)

theorem dvd_page (h : c.Valid) (p : Nat) : c.sectorSize ∣ c.startAddr + p * c.pageSize :=
  Nat.dvd_add h.startSectors (Dvd.dvd.mul_left h.pageSectors p)

end Valid

end WlConfig

abbrev WlConfig.object (c : WlConfig) (state : WlState) (initialized : Bool) (dummyAddr : Nat)
    (usedBits : UInt8) : WlFlash where
  configured := true
  initialized := initialized
  state := state
  cfg := c
  addrCfg := c.cfgStart
  addrState1 := c.state1
  addrState2 := c.state2
  flashSize := c.pages * c.pageSize
  stateSize := c.stateLen
  cfgSize := c.cfgLen
  dummyAddr := dummyAddr
  usedBits := usedBits

/-- The configuration as `config` keeps it. -/
def WlConfig.sealed (c : WlConfig) : WlConfig := { c with crc := crc32Le cfgCrcConst c.body }

theorem WlConfig.Valid.sealed (h : c.Valid) : c.sealed.Valid :=
  ⟨h.sectorPos, h.pagePos, h.pageSectors, h.buffPos, h.buffSector, h.wrPos, h.startSectors,
    h.fullSectors, h.bound, h.usable, h.updaterate, h.version⟩

theorem config_fits (w : WlFlash) (hc : c.Fits) (hbuff : c.tempBuffSize ≠ 0)
    (hsector : c.sectorSize % c.tempBuffSize = 0) : w.config c =
    some (.ok, c.sealed.object w.state w.initialized w.dummyAddr w.usedBits) := by
  have hneed := hc.stateNeed_le
  have hsec := hc.sector_le_stateLen
  have husable := hc.usable
  have hbound := hc.bound
  have hpages := hc.pages_pos
  have hfit := hc.pages_fit
  have hcfg : sizeofConfig ≤ c.cfgLen := WlConfig.le_roundUp hc.sectorPos
  have hsp := hc.sectorPos
  have hps := hc.pageSector
  have hneed32 : u32 (sizeofState + u32 (c.fullMemSize / c.sectorSize * c.wrSize)) =
      c.stateNeed := by
    unfold WlConfig.stateNeed at hneed ⊢
    rw [u32_eq (by omega : c.fullMemSize / c.sectorSize * c.wrSize < 2 ^ 32), u32_eq (by omega)]
  have hstate : (if c.sectorSize < c.stateNeed then
      u32 (sub32 (u32 (c.stateNeed + c.sectorSize)) 1 / c.sectorSize * c.sectorSize)
      else c.sectorSize) = c.stateLen := by
    rw [u32_eq (by omega : c.stateNeed + c.sectorSize < 2 ^ 32), sub32_eq (by omega) (by omega)]
    unfold WlConfig.stateLen at hsec husable ⊢
    split <;> rename_i hs
    · rw [if_pos hs] at husable
      exact u32_eq (by omega)
    · rfl
  have hcfgLen : u32 (sub32 (u32 (sizeofConfig + c.sectorSize)) 1 / c.sectorSize * c.sectorSize) =
      c.cfgLen := by
    rw [u32_eq (by omega : sizeofConfig + c.sectorSize < 2 ^ 32), sub32_eq (by omega) (by omega)]
    exact u32_eq (by unfold WlConfig.cfgLen at husable; omega)
  have hflash : u32 (sub32 (sub32 (sub32 c.fullMemSize (u32 (c.stateLen * 2))) c.cfgLen /
      c.pageSize) 1 * c.pageSize) = c.pages * c.pageSize := by
    have hdiv : 1 ≤ (c.fullMemSize - c.stateLen * 2 - c.cfgLen) / c.pageSize := by
      unfold WlConfig.pages at hpages
      omega
    have hle := Nat.div_le_self (c.fullMemSize - c.stateLen * 2 - c.cfgLen) c.pageSize
    have hinner : sub32 (sub32 c.fullMemSize (u32 (c.stateLen * 2))) c.cfgLen =
        c.fullMemSize - c.stateLen * 2 - c.cfgLen := by
      rw [u32_eq (by omega), sub32_eq (a := c.fullMemSize) (by omega) (by omega),
        sub32_eq (by omega) (by omega)]
    rw [hinner, sub32_eq hdiv (by omega)]
    rw [Nat.add_mul] at hfit
    exact u32_eq (by unfold WlConfig.pages at hfit; omega)
  unfold WlFlash.config
  simp only [hbuff, if_false, hsector, ne_eq, not_true_eq_false, Nat.not_lt.mpr hps,
    Nat.ne_of_gt hc.sectorPos]
  have h1 : u32 (c.stateLen * 2) = c.stateLen * 2 := u32_eq (by omega)
  have h2 : u32 (c.stateLen * 1) = c.stateLen := by rw [Nat.mul_one]; exact u32_eq (by omega)
  have hend : u32 (c.startAddr + c.fullMemSize) = c.startAddr + c.fullMemSize := u32_eq (by omega)
  have h3 : sub32 (sub32 (u32 (c.startAddr + c.fullMemSize)) (u32 (c.stateLen * 2))) c.cfgLen =
      c.state1 := by
    rw [hend, h1, sub32_eq (a := c.startAddr + c.fullMemSize) (by omega) (by omega),
      sub32_eq (by omega) (by omega)]
    rfl
  have h4 : sub32 (sub32 (u32 (c.startAddr + c.fullMemSize)) (u32 (c.stateLen * 1))) c.cfgLen =
      c.state2 := by
    rw [hend, h2, sub32_eq (a := c.startAddr + c.fullMemSize) (by omega) (by omega),
      sub32_eq (by omega) (by omega)]
    unfold WlConfig.state2 WlConfig.state1
    omega
  have h5 : sub32 (u32 (c.startAddr + c.fullMemSize)) c.cfgLen = c.cfgStart := by
    rw [hend, sub32_eq (by omega) (by omega)]
    unfold WlConfig.cfgStart WlConfig.state2 WlConfig.state1
    omega
  simp only [hneed32, hstate, hcfgLen, hflash, h3, h4, h5]
  rfl

theorem config_valid (w : WlFlash) (hc : c.Valid) : w.config c =
    some (.ok, c.sealed.object w.state w.initialized w.dummyAddr w.usedBits) :=
  config_fits w hc.fits (Nat.ne_of_gt hc.buffPos) (Nat.mod_eq_zero_of_dvd hc.buffSector)

/-! ### The address map -/

/-- The offset in the data area of virtual address `a`, with the dummy block at `pos` after `turn`
rounds. -/
def WlConfig.place (c : WlConfig) (turn pos a : Nat) : Nat :=
  slot c.pages turn pos (a / c.pageSize) * c.pageSize + a % c.pageSize

theorem page_lt_pages {a : Nat} (ha : a < c.pages * c.pageSize) :
    a / c.pageSize < c.pages := Nat.div_lt_of_lt_mul (by rwa [Nat.mul_comm] at ha)

theorem place_lt (h : c.Valid) (turn pos a : Nat) :
    c.place turn pos a < (c.pages + 1) * c.pageSize := by
  have h1 := slot_le (WlConfig.pages_pos h) turn pos (a / c.pageSize)
  have h2 := Nat.mod_lt a h.pagePos
  have h3 := Nat.mul_le_mul_right c.pageSize h1
  unfold WlConfig.place
  rw [Nat.succ_mul]
  omega

theorem calcAddr_fits (hc : c.Fits) (state : WlState) {i : Bool} {d : Nat}
    {u : UInt8} (hturn : state.moveCount < c.pages) (hpos : state.pos ≤ c.pages) {a : Nat}
    (ha : c.pages * c.pageSize + a < 2 ^ 32) :
    (c.object state i d u).calcAddr a = c.place state.moveCount state.pos a := by
  have hpage : 0 < c.pageSize := Nat.lt_of_lt_of_le hc.sectorPos hc.pageSector
  have hend := hc.pages_fit
  have hmem := hc.bound
  have hturn' := Nat.mul_le_mul_right c.pageSize (Nat.le_of_lt hturn)
  have hpos' := Nat.mul_le_mul_right c.pageSize hpos
  have hmul : (c.pages + 1) * c.pageSize = c.pages * c.pageSize + c.pageSize := Nat.succ_mul _ _
  have hsum : c.pages * c.pageSize - state.moveCount * c.pageSize + a =
      (c.pages - state.moveCount + a / c.pageSize) * c.pageSize + a % c.pageSize := by
    have hdiv := Nat.div_add_mod' a c.pageSize
    rw [Nat.add_mul, Nat.sub_mul]
    omega
  have hmod : (c.pages * c.pageSize - state.moveCount * c.pageSize + a) % (c.pages * c.pageSize) =
      (c.pages - state.moveCount + a / c.pageSize) % c.pages * c.pageSize + a % c.pageSize := by
    have hlt := Nat.mod_lt a hpage
    rw [hsum, Nat.mul_comm c.pages, Nat.mod_mul, Nat.mul_comm _ c.pageSize, Nat.mul_add_mod,
      Nat.mul_add_div hpage, Nat.div_eq_of_lt hlt, Nat.mod_mod, Nat.add_zero,
      Nat.mul_comm c.pageSize, Nat.add_comm]
  have hresult : u32 (sub32 (c.pages * c.pageSize) (u32 (state.moveCount * c.pageSize)) + a) %
      (c.pages * c.pageSize) =
      (c.pages - state.moveCount + a / c.pageSize) % c.pages * c.pageSize + a % c.pageSize := by
    rw [u32_eq (by omega : state.moveCount * c.pageSize < 2 ^ 32), sub32_eq (by omega) (by omega),
      u32_eq (by omega), hmod]
  have hcalc : (c.object state i d u).calcAddr a =
      if u32 (sub32 (c.pages * c.pageSize) (u32 (state.moveCount * c.pageSize)) + a) %
        (c.pages * c.pageSize) < u32 (state.pos * c.pageSize) then
        u32 (sub32 (c.pages * c.pageSize) (u32 (state.moveCount * c.pageSize)) + a) %
          (c.pages * c.pageSize)
      else u32 (u32 (sub32 (c.pages * c.pageSize) (u32 (state.moveCount * c.pageSize)) + a) %
        (c.pages * c.pageSize) + c.pageSize) := rfl
  rw [hcalc, hresult, u32_eq (by omega : state.pos * c.pageSize < 2 ^ 32)]
  set r := (c.pages - state.moveCount + a / c.pageSize) % c.pages with hr
  have hrlt : r < c.pages := Nat.mod_lt _ hc.pages_pos
  have hrmul := Nat.mul_le_mul_right c.pageSize (Nat.succ_le_of_lt hrlt)
  rw [Nat.succ_mul] at hrmul
  have hlt := Nat.mod_lt a hpage
  unfold WlConfig.place slot
  rw [← hr]
  -- the comparison of addresses is the comparison of pages
  by_cases hcase : r < state.pos
  · have hm := Nat.mul_le_mul_right c.pageSize (Nat.succ_le_of_lt hcase)
    rw [Nat.succ_mul] at hm
    rw [if_pos (by omega), if_pos hcase]
  · have hm := Nat.mul_le_mul_right c.pageSize (Nat.le_of_not_lt hcase)
    rw [if_neg (by omega), if_neg hcase, u32_eq (by omega), Nat.succ_mul]
    omega

theorem calcAddr_eq (hc : c.Valid) (state : WlState) {i : Bool} {d : Nat}
    {u : UInt8} (hturn : state.moveCount < c.pages) (hpos : state.pos ≤ c.pages) {a : Nat}
    (ha : a < c.pages * c.pageSize) :
    (c.object state i d u).calcAddr a = c.place state.moveCount state.pos a := by
  have hend := WlConfig.pages_fit hc
  have hmem := hc.bound
  rw [Nat.succ_mul] at hend
  exact calcAddr_fits hc.fits state hturn hpos (by omega)

end EspIdf.WearLevelling
