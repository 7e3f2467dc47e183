import EspIdf.WearLevelling.Layout

/-! The two state copies in flash: their headers, their marks, and the position and round that
`WL_Flash::init` makes of them. -/

namespace EspIdf.WearLevelling

open EspIdf.Device

/-! ### Headers -/

namespace WlState

theorem length_bytes (s : WlState) : s.bytes.length = sizeofState := rfl

theorem ofBytes_bytes {s : WlState} (h1 : s.pos < 2 ^ 32) (h2 : s.maxPos < 2 ^ 32)
    (h3 : s.moveCount < 2 ^ 32) (h4 : s.accessCount < 2 ^ 32) (h5 : s.maxCount < 2 ^ 32)
    (h6 : s.blockSize < 2 ^ 32) (h7 : s.version < 2 ^ 32) (h8 : s.crc < 2 ^ 32) :
    ofBytes s.bytes = s := by
  have hword : ∀ n k, n < 2 ^ 32 → k + 4 ≤ sizeofState →
      (s.bytes.drop k).take 4 = le32 n → word32 s.bytes k = n := by
    intro n k hn hk hsplit
    rw [← word32_le32 hn, ← hsplit]
    simp only [word32, List.getD_eq_getElem?_getD, List.getElem?_take, List.getElem?_drop,
      show (0 : Nat) < 4 by decide, show 0 + 1 < 4 by decide, show 0 + 2 < 4 by decide,
      show 0 + 3 < 4 by decide, if_true, Nat.zero_add, Nat.add_zero]
  have w1 := hword _ 0 h1 (by decide) rfl
  have w2 := hword _ 4 h2 (by decide) rfl
  have w3 := hword _ 8 h3 (by decide) rfl
  have w4 := hword _ 12 h4 (by decide) rfl
  have w5 := hword _ 16 h5 (by decide) rfl
  have w6 := hword _ 20 h6 (by decide) rfl
  have w7 := hword _ 24 h7 (by decide) rfl
  have w8 := hword _ 28 h8 (by decide) rfl
  unfold ofBytes
  rw [w1, w2, w3, w4, w5, w6, w7, w8]

/-- The test that `init` makes on a header. -/
def Intact (s : WlState) : Prop := s.calcCrc = s.crc

instance (s : WlState) : Decidable s.Intact := inferInstanceAs (Decidable (_ = _))

end WlState

/-- The state header that `initSections` and `updateWL` write for a round. -/
def WlConfig.header (c : WlConfig) (turn : Nat) : WlState :=
  let s : WlState :=
    { pos := 0, maxPos := c.pages + 1, moveCount := turn, accessCount := 0,
      maxCount := c.updaterate, blockSize := c.pageSize, version := c.version, crc := 0 }
  { s with crc := s.calcCrc }

section Header

variable {c : WlConfig} {turn turn' : Nat}

theorem header_intact (c : WlConfig) (turn : Nat) : (c.header turn).Intact := rfl

theorem header_crc (c : WlConfig) (turn : Nat) : (c.header turn).calcCrc = (c.header turn).crc :=
  rfl

theorem header_version (c : WlConfig) (turn : Nat) : (c.header turn).version = c.version := rfl

theorem header_crc_lt (c : WlConfig) (turn : Nat) : (c.header turn).crc < 2 ^ 32 :=
  crc32Le_lt (by decide) _

theorem ofBytes_header (h : c.Valid) (ht : turn < c.pages) :
    WlState.ofBytes (c.header turn).bytes = c.header turn := by
  have hpages := h.pages_lt
  have hpage := h.usable
  have hbound := h.bound
  apply WlState.ofBytes_bytes
  · show 0 < 2 ^ 32
    decide
  · show c.pages + 1 < 2 ^ 32
    omega
  · show turn < 2 ^ 32
    omega
  · show 0 < 2 ^ 32
    decide
  · exact h.updaterate
  · show c.pageSize < 2 ^ 32
    omega
  · exact h.version
  · exact header_crc_lt c turn

theorem header_crc_ne (h : c.Valid) (ht : turn < c.pages) (ht' : turn' < c.pages)
    (hne : turn ≠ turn') : (c.header turn).crc ≠ (c.header turn').crc := by
  have hpages := h.pages_lt
  have hword : le32 turn ≠ le32 turn' := fun heq => hne (le32_inj (by omega) (by omega) heq)
  exact crc32Le_word_ne (by decide) (le32 0 ++ le32 (c.pages + 1))
    (le32 0 ++ (le32 c.updaterate ++ (le32 c.pageSize ++ le32 c.version))) hword

end Header

/-! ### The state areas -/

def stateAt (m : Bytes) (a : Nat) : WlState := .ofBytes (m.read a sizeofState)

def HeaderAt (c : WlConfig) (m : Bytes) (a turn : Nat) : Prop :=
  m.read a sizeofState = (c.header turn).bytes

def Broken (c : WlConfig) (m : Bytes) (a : Nat) : Prop :=
  ∀ j, ¬(stateAt (m.erase a (j * c.sectorSize)) a).Intact

def Marked (c : WlConfig) (m : Bytes) (a i : Nat) : Prop :=
  m (a + sizeofState + i * c.wrSize) ≠ 0xff

instance (c : WlConfig) (m : Bytes) (a i : Nat) : Decidable (Marked c m a i) :=
  inferInstanceAs (Decidable (_ ≠ _))

def WlConfig.TornInvalid (c : WlConfig) : Prop :=
  ∀ turn < c.pages, ∀ j, 0 < j → j * c.sectorSize < sizeofState →
    ¬(WlState.ofBytes (List.replicate (j * c.sectorSize) 0xff ++
      (c.header turn).bytes.drop (j * c.sectorSize))).Intact

section Areas

variable {c : WlConfig} {m m' : Bytes} {a turn : Nat}

theorem HeaderAt.state (hc : c.Valid) (h : HeaderAt c m a turn) (ht : turn < c.pages) :
    stateAt m a = c.header turn := by
  rw [stateAt, h, ofBytes_header hc ht]

theorem HeaderAt.congr (h : HeaderAt c m a turn)
    (heq : ∀ x, a ≤ x → x < a + sizeofState → m' x = m x) : HeaderAt c m' a turn := by
  rw [HeaderAt, Bytes.read_congr heq]
  exact h

theorem Broken.not_intact (h : Broken c m a) : ¬(stateAt m a).Intact := by
  have := h 0
  rwa [Nat.zero_mul, Bytes.erase_zero] at this

theorem HeaderAt.intact (hc : c.Valid) (h : HeaderAt c m a turn) (ht : turn < c.pages) :
    (stateAt m a).Intact := by
  rw [h.state hc ht]
  exact header_intact c turn

theorem Broken.congr (h : Broken c m a)
    (heq : ∀ x, a ≤ x → x < a + sizeofState → m' x = m x) : Broken c m' a := by
  intro j
  have : stateAt (m'.erase a (j * c.sectorSize)) a = stateAt (m.erase a (j * c.sectorSize)) a := by
    unfold stateAt
    rw [Bytes.read_congr]
    intro x h1 h2
    simp only [Bytes.erase, heq x h1 h2]
  rw [this]
  exact h j

theorem erase_erase_same (m : Bytes) (a n k : Nat) : (m.erase a n).erase a k =
    m.erase a (max n k) := by
  funext x
  simp only [Bytes.erase]
  split_ifs <;> first | rfl | omega

theorem Broken.erase (h : Broken c m a) (j : Nat) : Broken c (m.erase a (j * c.sectorSize)) a := by
  intro k
  rw [erase_erase_same, Nat.mul_max_mul_right]
  exact h _

theorem erased_not_intact : ¬(WlState.ofBytes (List.replicate 32 0xff)).Intact := by
  decide +kernel

theorem stateAt_erase (m : Bytes) (a k : Nat) : stateAt (m.erase a k) a =
    .ofBytes (List.replicate (min k sizeofState) 0xff ++ (m.read a sizeofState).drop k) := by
  unfold stateAt
  congr 1
  rw [Bytes.read_eq_iff]
  refine ⟨by simp; omega, fun i hi => ?_⟩
  by_cases hik : i < k
  · rw [Bytes.erase_in (by omega) (by omega), List.getD_append _ _ _ _ (by simp; omega),
      List.getD_eq_getElem _ _ (by simp; omega), List.getElem_replicate]
  · rw [Bytes.erase_out (by omega), List.getD_append_right _ _ _ _ (by simp; omega),
      List.length_replicate, List.getD_eq_getElem?_getD, List.getElem?_drop,
      Nat.min_eq_left (by omega), Nat.add_sub_cancel' (by omega), Bytes.getElem?_read hi]
    rfl

theorem HeaderAt.erase_broken (ht : turn < c.pages) (htorn : c.TornInvalid)
    (h : HeaderAt c m a turn)
    (hj : 0 < j) :
    Broken c (m.erase a (j * c.sectorSize)) a := by
  intro k
  rw [erase_erase_same, Nat.mul_max_mul_right, stateAt_erase, h]
  by_cases hlt : max j k * c.sectorSize < sizeofState
  · rw [Nat.min_eq_left (Nat.le_of_lt hlt)]
    exact htorn turn ht _ (by omega) hlt
  · rw [Nat.min_eq_right (by omega), List.drop_eq_nil_of_le (by rw [WlState.length_bytes]; omega)]
    exact erased_not_intact

theorem HeaderAt.program (herased : ∀ x, a ≤ x → x < a + sizeofState → m x = 0xff) :
    HeaderAt c (m.program a (c.header turn).bytes) a turn :=
  Bytes.read_program_erased herased

end Areas

/-! ### The recovered position -/

/-- The first of `k` positions from `i` whose mark is not set in the first state copy, or the one
after them. -/
def scanFrom (c : WlConfig) (m : Bytes) : Nat → Nat → Nat
  | i, 0 => i
  | i, k + 1 => if Marked c m c.state1 i then scanFrom c m (i + 1) k else i

def scan (c : WlConfig) (m : Bytes) : Nat := scanFrom c m 0 c.pages

section Scan

variable {c : WlConfig} {m m' : Bytes}

theorem scanFrom_le (i k : Nat) : scanFrom c m i k ≤ i + k := by
  induction k generalizing i with
  | zero => exact Nat.le_refl _
  | succ k ih =>
    unfold scanFrom
    split
    · have := ih (i + 1)
      omega
    · omega

theorem scan_le : scan c m ≤ c.pages := by
  have := scanFrom_le (c := c) (m := m) 0 c.pages
  unfold scan
  omega

theorem scanFrom_eq (hi : i ≤ p) (hp : p ≤ i + k)
    (hset : ∀ j, i ≤ j → j < p → Marked c m c.state1 j)
    (hunset : p < i + k → ¬Marked c m c.state1 p) : scanFrom c m i k = p := by
  induction k generalizing i with
  | zero => exact Nat.le_antisymm hi hp
  | succ k ih =>
    unfold scanFrom
    rcases Nat.lt_or_eq_of_le hi with hlt | rfl
    · rw [if_pos (hset i (Nat.le_refl _) hlt)]
      exact ih hlt (by omega) (fun j h1 h2 => hset j (by omega) h2) fun h => hunset (by omega)
    · exact if_neg (hunset (by omega))

theorem scan_eq (hp : p ≤ c.pages) (hset : ∀ j < p, Marked c m c.state1 j)
    (hunset : p < c.pages → ¬Marked c m c.state1 p) : scan c m = p :=
  scanFrom_eq (Nat.zero_le _) (by omega) (fun j _ => hset j) fun h => hunset (by omega)

theorem scanFrom_lt (h1 : i ≤ j) (h2 : j < i + k) (h : ¬Marked c m c.state1 j) :
    scanFrom c m i k ≤ j := by
  induction k generalizing i with
  | zero => omega
  | succ k ih =>
    unfold scanFrom
    split
    · rename_i hset
      have : i ≠ j := fun heq => h (heq ▸ hset)
      exact ih (by omega) (by omega)
    · exact h1

theorem scan_lt (hj : j < c.pages) (h : ¬Marked c m c.state1 j) : scan c m < c.pages :=
  Nat.lt_of_le_of_lt (scanFrom_lt (Nat.zero_le _) (by omega) h) hj

theorem scan_zero (h : ¬Marked c m c.state1 0) : scan c m = 0 :=
  scan_eq (Nat.zero_le _) (fun _ hj => (Nat.not_lt_zero _ hj).elim) fun _ => h

structure Recorded (c : WlConfig) (m : Bytes) (pos : Nat) : Prop where
  set : ∀ i < pos, Marked c m c.state1 i
  unset : pos < c.pages → ∀ i, pos ≤ i → i ≤ c.pages → ¬Marked c m c.state1 i

theorem Recorded.scan_eq (h : Recorded c m pos) (hpos : pos ≤ c.pages) : scan c m = pos :=
  WearLevelling.scan_eq hpos h.set fun hlt => h.unset hlt pos (Nat.le_refl _) hpos

theorem Recorded.congr (h : Recorded c m pos) (hpos : pos ≤ c.pages)
    (heq : ∀ i ≤ c.pages, (Marked c m' c.state1 i ↔ Marked c m c.state1 i)) :
    Recorded c m' pos :=
  ⟨fun i hi => (heq i (by omega)).mpr (h.set i hi),
    fun hlt i h1 h2 => (heq i h2).not.mpr (h.unset hlt i h1 h2)⟩

theorem Recorded.of_blank (h : ∀ i ≤ c.pages, ¬Marked c m c.state1 i) : Recorded c m 0 :=
  ⟨fun _ hi => (Nat.not_lt_zero _ hi).elim, fun _ i _ hi => h i hi⟩

end Scan

/-- The marks that `init` goes by have no hole: those of the first copy if its header is valid, else
all of those of the second. -/
structure NoHole (c : WlConfig) (m : Bytes) : Prop where
  first : (stateAt m c.state1).Intact → Recorded c m (scan c m)
  second : ¬(stateAt m c.state1).Intact → (stateAt m c.state2).Intact →
    ∀ i < c.pages, Marked c m c.state2 i

inductive Recovers (c : WlConfig) (m : Bytes) : Nat → Nat → Prop where
  | fresh (h1 : ¬(stateAt m c.state1).Intact) (h2 : ¬(stateAt m c.state2).Intact) :
      Recovers c m 0 0
  | both {turn : Nat} (hturn : turn < c.pages) (h1 : HeaderAt c m c.state1 turn)
      (h2 : HeaderAt c m c.state2 turn) : Recovers c m turn (scan c m)
  | ahead {turn old : Nat} (hturn : turn < c.pages) (hold : old < c.pages) (hne : turn ≠ old)
      (h1 : HeaderAt c m c.state1 turn) (h2 : HeaderAt c m c.state2 old)
      (hblank : ¬Marked c m c.state1 0) : Recovers c m turn 0
  | first {turn : Nat} (hturn : turn < c.pages) (h1 : HeaderAt c m c.state1 turn)
      (h2 : ¬(stateAt m c.state2).Intact) (hblank : ¬Marked c m c.state1 0) : Recovers c m turn 0
  | second {turn : Nat} (hturn : turn < c.pages) (h1 : ¬(stateAt m c.state1).Intact)
      (h2 : HeaderAt c m c.state2 turn) : Recovers c m turn c.pages

structure Robust (c : WlConfig) (m : Bytes) : Prop where
  first : ¬(stateAt m c.state1).Intact → Broken c m c.state1
  second : ¬(stateAt m c.state2).Intact → Broken c m c.state2

/-- The state that an initialised device keeps in memory: its access count and its checksum are not
tied to the flash. -/
def WlConfig.ramState (c : WlConfig) (turn pos count crc : Nat) : WlState :=
  { c.header turn with pos := pos, accessCount := count, crc := crc }

/-- An initialised device in round `turn` with the dummy block at `pos`, and its flash. -/
structure Online (c : WlConfig) (w : WlFlash) (m : Bytes) (turn pos : Nat) : Prop where
  object : ∃ count crc dummyAddr usedBits,
    w = c.object (c.ramState turn pos count crc) true dummyAddr usedBits
  turnLt : turn < c.pages
  posLe : pos ≤ c.pages
  header1 : HeaderAt c m c.state1 turn
  header2 : HeaderAt c m c.state2 turn

def view (c : WlConfig) (turn pos : Nat) (m : Bytes) : Bytes :=
  fun a => m (c.startAddr + c.place turn pos a)

def SameData (c : WlConfig) (m m' : Bytes) : Prop := ∀ x < c.state1, m' x = m x

section View

variable {c : WlConfig} {m m' m'' : Bytes} {turn pos : Nat}

theorem SameData.refl (c : WlConfig) (m : Bytes) : SameData c m m := fun _ _ => rfl

theorem SameData.trans (h : SameData c m m') (h' : SameData c m' m'') : SameData c m m'' :=
  fun x hx => (h' x hx).trans (h x hx)

theorem SameData.erase (ha : c.state1 ≤ a) : SameData c m (m.erase a n) :=
  fun _ hx => Bytes.erase_out (.inl (by omega))

theorem place_lt_state1 (hc : c.Valid) (turn pos a : Nat) :
    c.startAddr + c.place turn pos a < c.state1 := by
  have h1 := place_lt hc turn pos a
  have h2 := hc.data_end
  omega

theorem SameData.view (hc : c.Valid) (h : SameData c m m') (turn pos a : Nat) :
    view c turn pos m' a = view c turn pos m a := h _ (place_lt_state1 hc turn pos a)

theorem blocks_apart (len : Nat) (hne : p ≠ q) : p * len + len ≤ q * len ∨ q * len + len ≤
    p * len := by
  rw [← Nat.succ_mul, ← Nat.succ_mul]
  rcases Nat.lt_or_gt_of_ne hne with hlt | hgt
  · exact .inl (Nat.mul_le_mul_right len hlt)
  · exact .inr (Nat.mul_le_mul_right len hgt)

theorem view_frame (hc : c.Valid) (hne : slot c.pages turn pos (a / c.pageSize) ≠ p)
    (h : ∀ x < c.state1, (x < c.startAddr + p * c.pageSize ∨
    c.startAddr + p * c.pageSize + c.pageSize ≤ x) → m' x = m x) :
    view c turn pos m' a = view c turn pos m a := by
  refine h _ (place_lt_state1 hc turn pos a) ?_
  have hmod := Nat.mod_lt a hc.pagePos
  unfold WlConfig.place
  have hapart := blocks_apart c.pageSize hne
  omega

theorem view_dummy (hc : c.Valid) (turn : Nat)
    (h : ∀ x < c.state1, (x < c.startAddr + pos * c.pageSize ∨
      c.startAddr + pos * c.pageSize + c.pageSize ≤ x) → m' x = m x) (a : Nat) :
    view c turn pos m' a = view c turn pos m a := view_frame hc (slot_ne _ _ _ _) h

theorem view_advance (hc : c.Valid) (hturn : turn < c.pages) (hpos : pos ≤ c.pages)
    (h : ∀ x < c.state1, (x < c.startAddr + pos * c.pageSize ∨
      c.startAddr + pos * c.pageSize + c.pageSize ≤ x) → m' x = m x)
    (hcopy : ∀ o < c.pageSize, m' (c.startAddr + pos * c.pageSize + o) =
      m (c.startAddr + nextSlot c.pages pos * c.pageSize + o)) (a : Nat) :
    view c (advance c.pages turn pos).1 (advance c.pages turn pos).2 m' a =
      view c turn pos m a := by
  have hslot := slot_advance (v := a / c.pageSize) (WlConfig.pages_pos hc) hturn hpos
  by_cases hnext : slot c.pages turn pos (a / c.pageSize) = nextSlot c.pages pos
  · rw [if_pos hnext] at hslot
    have := hcopy (a % c.pageSize) (Nat.mod_lt _ hc.pagePos)
    unfold view WlConfig.place
    rw [hslot, hnext, ← Nat.add_assoc, ← Nat.add_assoc]
    exact this
  · rw [if_neg hnext] at hslot
    rw [← view_dummy hc turn h a]
    unfold view WlConfig.place
    rw [hslot]

end View

end EspIdf.WearLevelling
