import EspIdf.SpiFlash.WriteExact

/-! The writes that `spi_flash_write` asks the ROM for: their lengths, where their data is, and how
often each word is programmed. -/

namespace EspIdf.SpiFlash.Buffers

open EspIdf.Device

def chunk (direct : Bool) : Nat := if direct then maxWriteChunk else 32

def midCalls (direct : Bool) (dst srcc : Nat) : Nat → Nat → Nat → List RomCall
  | 0, _, _ => []
  | n + 1, midOff, mid =>
    if mid = 0 then []
    else ⟨add32 dst midOff, .ram (srcc + midOff), mid⟩ ::
      midCalls direct dst srcc n (midOff + min mid (chunk direct)) (mid - min mid (chunk direct))

def padCalls (addr n : Nat) : List RomCall := if n > 0 then [⟨addr, .t 4 0, 4⟩] else []

def writeCalls (dst srcc size : Nat) : List RomCall :=
  padCalls (align4 dst) (leftSize dst size) ++
    (midCalls (directWrite srcc (leftSize dst size)) dst srcc (midSize dst size)
      (leftSize dst size) (midSize dst size) ++
    padCalls (dst + (leftSize dst size + midSize dst size))
      (size - midSize dst size - leftSize dst size))

/-- The word at `a` is one of those that the call programs. -/
def RomCall.covers (a : Nat) (c : RomCall) : Bool := c.addr ≤ a ∧ a < c.addr + c.len

/-- The writes are short, their data can be read with the cache off, they stay in the words of the
destination, and each whole word is programmed once: at most once if an error ends the call. -/
structure Tidy (inRam : Nat → Bool) (dst size : Nat) (err : EspErr) (calls : List RomCall) :
    Prop where
  len : ∀ c ∈ calls, c.len ≤ maxWriteChunk
  source : ∀ c ∈ calls, c.buf.Aligned ∧ c.buf.Steady inRam c.len
  inside : ∀ c ∈ calls, align4 dst ≤ c.addr ∧ c.addr + c.len ≤ up4 (dst + size)
  once : ∀ a, a % 4 = 0 → dst ≤ a → a + 4 ≤ dst + size → calls.countP (·.covers a) ≤ 1
  all : err = .ok → ∀ a, a % 4 = 0 → dst ≤ a → a + 4 ≤ dst + size →
    calls.countP (·.covers a) = 1

def AlwaysTidy (chip : Chip) (inRam : Nat → Bool) (dst srcc size : Nat) : Prop :=
  ∀ (rom : Rom) (m : Machine), m.log = [] → ∃ err m',
    Prog.run (machine rom) (spiFlashWrite chip.size dst srcc size) m = some (err, m') ∧
      Tidy inRam dst size err m'.log

/-- There is no middle part, or the ROM can take it from where it stands and it is one chunk. -/
def OneChunk (inRam : Nat → Bool) (dst srcc size : Nat) : Prop :=
  midSize dst size = 0 ∨ (srcc + leftSize dst size) % 4 = 0 ∧
    (∀ k < midSize dst size, inRam (srcc + leftSize dst size + k) = true) ∧
    midSize dst size ≤ chunk (directWrite srcc (leftSize dst size))

section Log

variable {chip : Chip} {rom : Rom} {m : Machine} {dst srcc size : Nat}

def Logged (m : Machine) (calls : List RomCall) (rc : RomResult) (m' : Machine) : Prop :=
  ∃ made, m'.log = m.log ++ made ∧ made <+: calls ∧ (rc = .ok → made = calls)

theorem logged_none (rc : RomResult) : Logged m [] rc m :=
  ⟨[], (List.append_nil _).symm, List.prefix_rfl, fun _ => rfl⟩

theorem Logged.next (h : Logged m made .ok m1) (h2 : Logged m1 rest rc m2) :
    Logged m (made ++ rest) rc m2 := by
  obtain ⟨first, hlog, -, hall⟩ := h
  obtain rfl := hall rfl
  obtain ⟨second, hlog2, hsub, hall2⟩ := h2
  refine ⟨first ++ second, ?_, (List.prefix_append_right_inj first).mpr hsub, ?_⟩
  · rw [hlog2, hlog, List.append_assoc]
  · exact fun hrc => by rw [hall2 hrc]

theorem Logged.cut (h : Logged m made rc m1) (hrc : rc ≠ .ok) (rest : List RomCall) :
    Logged m (made ++ rest) rc m1 := by
  obtain ⟨first, hlog, hsub, -⟩ := h
  exact ⟨first, hlog, hsub.trans (List.prefix_append made rest), fun hok => absurd hok hrc⟩

theorem gives_logged (hp : Gives rom (Logged m made) p m)
    (hq : ∀ m1, Gives rom (Logged m1 rest) q m1) :
    Gives rom (Logged m (made ++ rest)) (p.bind fun rc => if rc ≠ .ok then pure rc else q) m :=
  gives_next hp (fun _ _ hrc h => ⟨trivial, h.cut hrc rest⟩)
    fun m1 h => (hq m1).mono fun _ _ _ h2 => h.next h2

theorem writePadded_logged (addr pos srcc off n : Nat) :
    Gives rom (Logged m [⟨addr, .t 4 0, 4⟩]) (writePadded addr pos srcc off n) m :=
  ⟨trivial, trivial, trivial, trivial, [⟨addr, .t 4 0, 4⟩], rfl, List.prefix_rfl, fun _ => rfl⟩

theorem padded_logged (addr pos srcc off n : Nat) :
    Gives rom (Logged m (padCalls addr n))
      (if n > 0 then writePadded addr pos srcc off n else pure .ok) m := by
  unfold padCalls
  split
  · exact writePadded_logged addr pos srcc off n
  · exact ⟨trivial, logged_none .ok⟩

theorem writeMid_logged (direct : Bool) :
    Gives rom (Logged m (midCalls direct dst srcc n midOff mid))
      (writeMid direct dst srcc n midOff mid) m := by
  induction n generalizing m midOff mid with
  | zero => exact ⟨trivial, logged_none .ok⟩
  | succ n ih =>
    unfold writeMid midCalls
    split
    · exact ⟨trivial, logged_none .ok⟩
    · have hbounce : Gives rom (fun _ m' => m'.log = m.log)
          (bounce direct srcc midOff (min mid (chunk direct))) m := by
        unfold bounce
        split
        · exact ⟨trivial, rfl⟩
        · exact ⟨trivial, trivial, rfl⟩
      refine Gives.bind hbounce fun _ m1 hm1 => ?_
      have hwrite : Gives rom (Logged m [⟨add32 dst midOff, .ram (srcc + midOff), mid⟩])
          (romWrite (add32 dst midOff) (.ram (srcc + midOff)) mid) m1 :=
        ⟨trivial, trivial, _, by rw [← hm1]; rfl, List.prefix_rfl, fun _ => rfl⟩
      refine gives_next hwrite (fun _ _ hrc h => ⟨trivial, h.cut hrc _⟩) fun m2 h => ?_
      exact ih.mono fun _ _ _ h2 => h.next h2

theorem writeParts_logged (hend : dst + size ≤ chip.size) :
    Gives rom (Logged m (writeCalls dst srcc size)) (writeParts dst srcc size) m := by
  rw [writeParts_eq hend, ← List.nil_append (writeCalls dst srcc size)]
  have hunlock : Gives rom (Logged m []) unlock m := ⟨trivial, trivial, logged_none _⟩
  exact gives_logged hunlock fun m1 => gives_logged (padded_logged _ _ _ _ _) fun m2 =>
    gives_logged (writeMid_logged _) fun m3 => padded_logged _ _ _ _ _

theorem spiFlashWrite_logged (rom : Rom) (srcc : Nat) (hend : dst + size ≤ chip.size)
    (hlog : m.log = []) :
    Gives rom (fun err m' => m'.log <+: writeCalls dst srcc size ∧
      (err = .ok → m'.log = writeCalls dst srcc size))
        (spiFlashWrite chip.size dst srcc size) m := by
  refine spiFlashWrite_gives hend ?_ fun _ => (writeParts_logged hend).mono ?_
  · rintro rfl
    have hnone : writeCalls dst srcc 0 = [] := by
      simp [writeCalls, leftSize, midSize, align4, padCalls, midCalls]
    rw [hlog, hnone]
    exact ⟨List.prefix_rfl, fun _ => rfl⟩
  · rintro rc m' - ⟨made, hmade, hsub, hall⟩
    rw [hlog] at hmade
    rw [hmade]
    exact ⟨hsub, fun herr => hall (translateRc_ok.mp herr)⟩

end Log

section Tidiness

variable {chip : Chip} {inRam : Nat → Bool} {m : Machine} {dst srcc size a : Nat}

theorem midCalls_zero (direct : Bool) (n midOff : Nat) :
    midCalls direct dst srcc n midOff 0 = [] := by
  cases n <;> rfl

theorem midCalls_succ (h0 : mid ≠ 0) (hend : dst + midOff + mid < 2 ^ 32) :
    midCalls direct dst srcc (n + 1) midOff mid =
      ⟨dst + midOff, .ram (srcc + midOff), mid⟩ :: midCalls direct dst srcc n
        (midOff + min mid (chunk direct)) (mid - min mid (chunk direct)) := by
  rw [midCalls, if_neg h0, add32_eq (n := dst + midOff) (Nat.le_refl _) (by omega)]

theorem midCalls_one (h0 : mid ≠ 0) (hle : mid ≤ chunk direct)
    (hend : dst + midOff + mid < 2 ^ 32) :
    midCalls direct dst srcc mid midOff mid = [⟨dst + midOff, .ram (srcc + midOff), mid⟩] := by
  obtain ⟨n, rfl⟩ : ∃ n, mid = n + 1 := ⟨mid - 1, by omega⟩
  rw [midCalls_succ h0 hend, Nat.min_eq_left hle, Nat.sub_self, midCalls_zero]

theorem mem_padCalls {addr n : Nat} (h : c ∈ padCalls addr n) : 0 < n ∧ c = ⟨addr, .t 4 0, 4⟩ := by
  unfold padCalls at h
  split at h
  · exact ⟨by omega, List.mem_singleton.mp h⟩
  · cases h

theorem padCalls_countP {addr n : Nat} (h : 0 < n → a < addr ∨ addr + 4 ≤ a) :
    (padCalls addr n).countP (·.covers a) = 0 := by
  rw [List.countP_eq_zero]
  intro c hc
  obtain ⟨hn, rfl⟩ := mem_padCalls hc
  simp only [RomCall.covers, decide_eq_true_eq]
  omega

theorem writeCalls_one (hend : dst + size ≤ chip.size) (h : OneChunk inRam dst srcc size) :
    writeCalls dst srcc size = padCalls (align4 dst) (leftSize dst size) ++
      ((if midSize dst size = 0 then [] else
        [⟨dst + leftSize dst size, .ram (srcc + leftSize dst size), midSize dst size⟩]) ++
      padCalls (dst + (leftSize dst size + midSize dst size))
        (size - midSize dst size - leftSize dst size)) := by
  have hlt := chip.lt
  have hp := (writeParts_sizes dst size).le
  unfold writeCalls
  split
  · rename_i h0
    rw [h0, midCalls_zero]
  · rename_i h0
    rw [midCalls_one h0 (h.resolve_left h0).2.2 (by omega)]

theorem writeCalls_countP (hend : dst + size ≤ chip.size) (h : OneChunk inRam dst srcc size)
    (ha : a % 4 = 0) (hdst : dst ≤ a) (hsize : a + 4 ≤ dst + size) :
    (writeCalls dst srcc size).countP (·.covers a) = 1 := by
  obtain ⟨h1, h2, h3, h4, h5⟩ := writeParts_sizes dst size
  have hleft : leftSize dst size = min ((4 - dst % 4) % 4) size := rfl
  rw [writeCalls_one hend h]
  generalize midSize dst size = mid at *
  have h0 : mid ≠ 0 := by omega
  rw [List.countP_append, List.countP_append, if_neg h0, padCalls_countP, padCalls_countP,
    List.countP_singleton]
  · simp only [RomCall.covers, decide_eq_true_eq]
    rw [if_pos (by omega)]
  · intro _
    omega
  · intro _
    unfold align4
    omega

theorem pad_le : 4 ≤ maxWriteChunk := by decide

theorem writeCalls_each (hend : dst + size ≤ chip.size) (h : OneChunk inRam dst srcc size)
    (hc : c ∈ writeCalls dst srcc size) :
    c.len ≤ maxWriteChunk ∧ (c.buf.Aligned ∧ c.buf.Steady inRam c.len) ∧
      align4 dst ≤ c.addr ∧ c.addr + c.len ≤ up4 (dst + size) := by
  obtain ⟨h1, h2, h3, h4, h5⟩ := writeParts_sizes dst size
  rw [writeCalls_one hend h] at hc
  rcases List.mem_append.mp hc with hc | hc
  · obtain ⟨hn, rfl⟩ := mem_padCalls hc
    refine ⟨pad_le, ⟨rfl, fun _ _ => trivial⟩, Nat.le_refl _, ?_⟩
    unfold up4 align4
    simp only
    omega
  rcases List.mem_append.mp hc with hc | hc
  · split at hc
    · cases hc
    · rename_i h0
      obtain ⟨haligned, hin, hchunk⟩ := h.resolve_left h0
      obtain rfl := List.mem_singleton.mp hc
      refine ⟨?_, ⟨haligned, hin⟩, ?_, ?_⟩
      · unfold chunk at hchunk
        unfold maxWriteChunk at hchunk ⊢
        split at hchunk <;> simp only <;> omega
      · unfold align4
        simp only
        omega
      · unfold up4 align4
        simp only
        omega
  · obtain ⟨hn, rfl⟩ := mem_padCalls hc
    refine ⟨pad_le, ⟨rfl, fun _ _ => trivial⟩, ?_, ?_⟩
    · unfold align4
      simp only
      omega
    · unfold up4 align4
      simp only
      omega

theorem tidy_of_oneChunk (hend : dst + size ≤ chip.size) (h : OneChunk inRam dst srcc size) :
    AlwaysTidy chip inRam dst srcc size := by
  intro rom m hlog
  obtain ⟨err, m', hrun, -, hsub, hall⟩ := (spiFlashWrite_logged rom srcc hend hlog).run_total
  have heach := fun (c : RomCall) (hc : c ∈ m'.log) => writeCalls_each hend h (hsub.subset hc)
  refine ⟨err, m', hrun, fun c hc => (heach c hc).1, fun c hc => (heach c hc).2.1,
    fun c hc => (heach c hc).2.2, ?_, ?_⟩
  · intro a ha hdst hsize
    exact Nat.le_trans hsub.sublist.countP_le
      (Nat.le_of_eq (writeCalls_countP hend h ha hdst hsize))
  · intro herr a ha hdst hsize
    rw [hall herr]
    exact writeCalls_countP hend h ha hdst hsize

theorem mid_mem_writeCalls (srcc : Nat) (hend : dst + size ≤ chip.size)
    (h0 : midSize dst size ≠ 0) :
    ⟨dst + leftSize dst size, .ram (srcc + leftSize dst size), midSize dst size⟩ ∈
      writeCalls dst srcc size := by
  have hlt := chip.lt
  have hp := (writeParts_sizes dst size).le
  unfold writeCalls
  generalize midSize dst size = mid at *
  obtain ⟨n, rfl⟩ : ∃ n, mid = n + 1 := ⟨mid - 1, by omega⟩
  rw [midCalls_succ h0 (by omega)]
  simp

section

variable (hend : dst + size ≤ chip.size)
include hend

theorem twice_of_chunks (hmore : chunk (directWrite srcc (leftSize dst size)) < midSize dst size) :
    2 ≤ (writeCalls dst srcc size).countP
      (·.covers (dst + leftSize dst size + midSize dst size - 4)) := by
  have hlt := chip.lt
  obtain ⟨h1, h2, h3, h4, h5⟩ := writeParts_sizes dst size
  have hchunk : 4 ≤ chunk (directWrite srcc (leftSize dst size)) ∧
      chunk (directWrite srcc (leftSize dst size)) % 4 = 0 := by
    unfold chunk
    split <;> decide
  unfold writeCalls
  generalize directWrite srcc (leftSize dst size) = direct at *
  generalize leftSize dst size = left at *
  generalize midSize dst size = mid at *
  obtain ⟨n, hn⟩ : ∃ n, mid = n + 1 + 1 := ⟨mid - 2, by omega⟩
  have htwo : midCalls direct dst srcc mid left mid =
      ⟨dst + left, .ram (srcc + left), mid⟩ ::
        ⟨dst + (left + chunk direct), .ram (srcc + (left + chunk direct)), mid - chunk direct⟩ ::
        midCalls direct dst srcc n
          (left + chunk direct + min (mid - chunk direct) (chunk direct))
          (mid - chunk direct - min (mid - chunk direct) (chunk direct)) := by
    conv_lhs => rw [show midCalls direct dst srcc mid =
      midCalls direct dst srcc (n + 1 + 1) by rw [hn]]
    rw [midCalls_succ (by omega) (by omega), Nat.min_eq_right (by omega),
      midCalls_succ (by omega) (by omega)]
  rw [htwo, List.countP_append, List.countP_append, List.countP_cons_of_pos,
    List.countP_cons_of_pos]
  · omega
  · simp only [RomCall.covers, decide_eq_true_eq]
    omega
  · simp only [RomCall.covers, decide_eq_true_eq]
    omega

theorem writeParts_ok :
    Gives (cacheOffRom inRam) (fun rc _ => rc = .ok) (writeParts dst srcc size) m := by
  rw [writeParts_eq hend]
  have hunlock : Gives (cacheOffRom inRam) (fun rc _ => rc = .ok) unlock m :=
    ⟨trivial, trivial, rfl⟩
  refine gives_next hunlock (fun rc _ hrc h => absurd h hrc) fun m1 _ => ?_
  have hleft : Gives (cacheOffRom inRam) (Clears 0 m1) (if leftSize dst size > 0 then
      writePadded (align4 dst) (dst - align4 dst) srcc 0 (leftSize dst size) else pure .ok) m1 := by
    split
    · exact writePadded_clears 0 _ _ _ _ _
    · exact ⟨trivial, rfl, id⟩
  refine gives_next hleft (fun rc _ hrc h => absurd h.1 hrc) fun m2 _ => ?_
  refine gives_next (writeMid_clears 0 _) (fun rc _ hrc h => absurd h.1 hrc) fun m3 _ => ?_
  split
  · exact (writePadded_clears 0 _ _ _ _ _).mono fun _ _ _ h => h.1
  · exact ⟨trivial, rfl⟩

theorem spiFlashWrite_ok :
    Gives (cacheOffRom inRam) (fun err _ => err = .ok) (spiFlashWrite chip.size dst srcc size) m :=
  spiFlashWrite_gives hend (fun _ => rfl) fun _ =>
    (writeParts_ok hend).mono fun _ _ _ hrc => translateRc_ok.mpr hrc

end

/-- The writes of `spi_flash_write` are tidy if and only if it has no middle part, or one that the
ROM can take and that is one chunk. -/
theorem spiFlashWrite_tidy_iff (inRam : Nat → Bool) (srcc : Nat) (hend : dst + size ≤ chip.size) :
    AlwaysTidy chip inRam dst srcc size ↔ OneChunk inRam dst srcc size := by
  refine ⟨fun h => ?_, tidy_of_oneChunk hend⟩
  obtain ⟨h1, h2, h3, h4, h5⟩ := writeParts_sizes dst size
  obtain ⟨err, m', hrun, htidy⟩ := h (cacheOffRom inRam)
    ⟨Bytes.blank, Bytes.blank, Bytes.blank, Bytes.blank, []⟩ rfl
  -- this ROM reports success, so all the calls were made
  have hok : err = .ok := ((spiFlashWrite_ok hend).run hrun).2
  have hcalls := ((spiFlashWrite_logged _ srcc hend rfl).run hrun).2.2 hok
  by_cases h0 : midSize dst size = 0
  · exact .inl h0
  have hmem := mid_mem_writeCalls srcc hend h0
  rw [← hcalls] at hmem
  obtain ⟨haligned, hin⟩ := htidy.source _ hmem
  refine .inr ⟨haligned, hin, ?_⟩
  by_contra hmore
  have htwo := twice_of_chunks hend (Nat.lt_of_not_le hmore)
  have hone := htidy.once (dst + leftSize dst size + midSize dst size - 4)
    (by omega) (by omega) (by omega)
  rw [hcalls] at hone
  omega

end Tidiness

theorem spiFlashWrite_tidy_few : OneChunk internalRam 6 0x3FFB0002 11 ∧
    AlwaysTidy chip4MB internalRam 6 0x3FFB0002 11 := by
  have hone : OneChunk internalRam 6 0x3FFB0002 11 := .inr (by decide)
  exact ⟨hone, (spiFlashWrite_tidy_iff internalRam 0x3FFB0002 (by decide)).mpr hone⟩

theorem chunks_written_again :
    (Prog.run (machine plainRom) (spiFlashWrite chip4MB.size 0x10000 0x3FFB0000 12288)
      ⟨Bytes.blank, Bytes.blank, Bytes.blank, Bytes.blank, []⟩).any (fun r =>
        r.1 = .ok ∧ r.2.log = [⟨0x10000, .ram 0x3FFB0000, 12288⟩, ⟨0x12000, .ram 0x3FFB2000, 4096⟩])
      = true ∧ maxWriteChunk < 12288 := by
  decide +kernel

end EspIdf.SpiFlash.Buffers
