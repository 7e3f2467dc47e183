import EspIdf.SpiFlash.ReadExact

/-! What `spi_flash_write` programs and asks the ROM for.  `esp_rom_spiflash_write` programs the
words that it reads at the source, at any alignment, while the cache is off.  The middle part is
given to it as it stands in the caller's buffer, and from each chunk on all that is left of it. -/

namespace EspIdf.SpiFlash.Buffers

open EspIdf.Device
open Bytes (blank getD_read length_read program_in program_ones program_out read_add)

def leftSize (dst size : Nat) : Nat := min ((4 - dst % 4) % 4) size

def midSize (dst size : Nat) : Nat := align4 (size - leftSize dst size)

/-- Byte `k` of the buffer can be read with the cache off: it is in a local array, or in memory that
`inRam` holds of. -/
def Buf.SteadyAt (inRam : Nat → Bool) (k : Nat) : Buf → Prop
  | ram addr => inRam (addr + k) = true
  | t _ _ => True
  | writeBuf _ => True

def Buf.Steady (inRam : Nat → Bool) (n : Nat) (buf : Buf) : Prop := ∀ k < n, buf.SteadyAt inRam k

instance (inRam : Nat → Bool) (k : Nat) : ∀ buf : Buf, Decidable (buf.SteadyAt inRam k)
  | .ram _ => inferInstanceAs (Decidable (_ = true))
  | .t _ _ => isTrue trivial
  | .writeBuf _ => isTrue trivial

/-- Whole words of the flash, from a source at any alignment. -/
structure RomCall.Whole (chip : Chip) (c : RomCall) : Prop where
  addr : c.addr % 4 = 0
  len : c.len % 4 = 0
  room : c.buf.Room c.len
  inside : c.addr + c.len ≤ chip.size

/-- The ROM, if it reports success, clears the bits that are 0 in what it reads at the source.  What
needs the cache is read as anything. -/
def Rom.Programs (rom : Rom) (chip : Chip) (inRam : Nat → Bool) : Prop :=
  ∀ (c : RomCall) (m : Machine), c.Whole chip → (rom.write c m).1 = .ok →
    ∃ seen : List UInt8, seen.length = c.len ∧
      (∀ k < c.len, c.buf.SteadyAt inRam k → seen.getD k 0xff = (m.load c.buf c.len).getD k 0xff) ∧
      (rom.write c m).2 = m.flash.program c.addr seen

/-- Whatever such a ROM does otherwise, a call that returns `ESP_OK` has programmed the bytes of the
source and nothing else. -/
def Exact (chip : Chip) (inRam : Nat → Bool) (dst srcc size : Nat) : Prop :=
  ∀ rom : Rom, rom.Programs chip inRam → ∀ m m',
    Prog.run (machine rom) (spiFlashWrite chip.size dst srcc size) m = some (.ok, m') →
    ∀ a, m'.flash a = if dst ≤ a ∧ a < dst + size then m.flash a &&& m.ram (srcc + (a - dst))
      else m.flash a

/-- The middle part of the source can be read with the cache off. -/
def MidReadable (inRam : Nat → Bool) (dst srcc size : Nat) : Prop :=
  ∀ k < midSize dst size, inRam (srcc + leftSize dst size + k) = true

@[simp] theorem length_load (m : Machine) (buf : Buf) (n : Nat) : (m.load buf n).length = n := by
  cases buf <;> exact length_read

theorem Rom.Programs.steady {rom : Rom} {inRam : Nat → Bool} (h : rom.Programs chip inRam)
    {m : Machine}
    (hc : c.Whole chip) (hsteady : c.buf.Steady inRam c.len) (hok : (rom.write c m).1 = .ok) :
    (rom.write c m).2 = m.flash.program c.addr (m.load c.buf c.len) := by
  obtain ⟨seen, hlen, hseen, hflash⟩ := h c m hc hok
  have hsame : seen = m.load c.buf c.len := by
    refine List.ext_getElem (by simp [hlen]) fun k hk hk' => ?_
    have hbyte := hseen k (hlen ▸ hk) (hsteady k (hlen ▸ hk))
    rwa [List.getD_eq_getElem _ _ hk, List.getD_eq_getElem _ _ hk'] at hbyte
  rw [hflash, hsame]

section Program

variable {m : Bytes} {a k pos : Nat} {bs : List UInt8}

theorem program_again : (m.program a bs).program (a + k) (bs.drop k) = m.program a bs := by
  funext x
  by_cases hx : a + k ≤ x
  · rw [program_in hx, program_in (by omega), UInt8.and_assoc]
    have : (bs.drop k).getD (x - (a + k)) 0xff = bs.getD (x - a) 0xff := by
      simp only [List.getD_eq_getElem?_getD, List.getElem?_drop]
      rw [show k + (x - (a + k)) = x - a by omega]
    rw [this, UInt8.and_self]
  · exact program_out (by omega)

theorem program_padded {w : Bytes} (h : pos + bs.length ≤ 4)
    (hw : ∀ i < 4, w i = if pos ≤ i ∧ i < pos + bs.length then bs.getD (i - pos) 0xff else 0xff) :
    m.program a (w.read 0 4) = m.program (a + pos) bs := by
  funext x
  by_cases hx : a ≤ x ∧ x < a + 4
  · rw [program_in hx.1, getD_read (by omega), hw _ (by omega)]
    split_ifs with hin
    · rw [program_in (by omega)]
      congr 2
      omega
    · rw [program_out (by omega)]
      exact UInt8.and_neg_one
  · rw [program_out (by rw [length_read]; omega), program_out (by omega)]

theorem program_read (m src : Bytes) (a b n : Nat) (x : Nat) : m.program a (src.read b n) x =
    if a ≤ x ∧ x < a + n then m x &&& src (b + (x - a)) else m x := by
  split_ifs with h
  · rw [program_in h.1, getD_read (by omega)]
  · exact program_out (by rw [length_read]; omega)

end Program

section Steps

variable {chip : Chip} {rom : Rom} {inRam : Nat → Bool} {m : Machine} {dst srcc size : Nat}

abbrev Gives {α : Type} (rom : Rom) (Q : α → Machine → Prop) : MemProg α → Machine → Prop :=
  Prog.Sat (machine rom) False (fun _ => True) Q

theorem Gives.bind (h : Gives rom Q p m) (hf : ∀ a m', Q a m' → Gives rom S (f a) m') :
    Gives rom S (p.bind f) m :=
  Prog.Sat.bind (h.mono fun a m' _ hq => hf a m' hq)

def Programmed (m : Machine) (dst srcc k : Nat) (rc : RomResult) (m' : Machine) : Prop :=
  rc = .ok → m'.ram = m.ram ∧ m'.flash = m.flash.program dst (m.ram.read srcc k)

theorem gives_romWrite {addr : Nat}
    (h : ∀ m', m'.ram = m.ram → m'.flash = (rom.write ⟨addr, buf, len⟩ m).2 →
    Gives rom Q (f (rom.write ⟨addr, buf, len⟩ m).1) m') :
    Gives rom Q ((romWrite addr buf len).bind f) m :=
  ⟨trivial, h _ rfl rfl⟩

theorem writePadded_gives (hrom : rom.Programs chip inRam) {addr pos n k : Nat}
    (hc : RomCall.Whole chip ⟨addr, .t 4 0, 4⟩) (hpos : pos + n ≤ 4)
    (hk : addr + pos = dst + k) {m0 : Machine}
    (h : m.ram = m0.ram ∧ m.flash = m0.flash.program dst (m0.ram.read srcc k)) :
    Gives rom (Programmed m0 dst srcc (k + n)) (writePadded addr pos srcc k n) m := by
  refine ⟨trivial, trivial, trivial, trivial, fun hrc => ⟨h.1, ?_⟩⟩
  refine (hrom.steady hc (fun _ _ => trivial) hrc).trans ?_
  have hword : ∀ i < 4, ((m.t.store 0 (List.replicate 4 0xff)).store pos
      (m.ram.read (srcc + k) n)) i = if pos ≤ i ∧ i < pos + (m.ram.read (srcc + k) n).length then
        (m.ram.read (srcc + k) n).getD (i - pos) 0xff else 0xff := by
    intro i hi
    rw [Bytes.store]
    split
    · rfl
    · rw [Bytes.store_in (by omega) (by simpa using hi)]
      simp only [List.getD_eq_getElem?_getD, List.getElem?_replicate]
      split <;> rfl
  refine (program_padded (by rw [length_read]; omega) hword).trans ?_
  rw [read_add, Bytes.program_append, length_read, hk, h.1]
  exact congrArg (Bytes.program · _ _) h.2

theorem bounce_gives (rom : Rom) (direct : Bool) (srcc midOff step : Nat) :
    Gives rom (fun _ m' => m'.ram = m.ram ∧ m'.flash = m.flash)
      (bounce direct srcc midOff step) m := by
  unfold bounce
  split
  · exact ⟨trivial, rfl, rfl⟩
  · exact ⟨trivial, trivial, rfl, rfl⟩

theorem writeMid_gives (hrom : rom.Programs chip inRam) (direct : Bool)
    (hdst : (dst + midOff) % 4 = 0)
    (hmid : mid % 4 = 0) (hend : dst + midOff + mid ≤ chip.size) (hn : mid ≤ n)
    (hram : ∀ k < mid, inRam (srcc + midOff + k) = true) :
    Gives rom (fun rc m' => rc = .ok → m'.ram = m.ram ∧
        m'.flash = m.flash.program (dst + midOff) (m.ram.read (srcc + midOff) mid))
      (writeMid direct dst srcc n midOff mid) m := by
  have hlt := chip.lt
  induction n generalizing m midOff mid with
  | zero =>
    obtain rfl : mid = 0 := by omega
    exact ⟨trivial, fun _ => ⟨rfl, (program_ones (n := 0)).symm⟩⟩
  | succ n ih =>
    unfold writeMid
    split
    · rename_i h0
      subst h0
      exact ⟨trivial, fun _ => ⟨rfl, (program_ones (n := 0)).symm⟩⟩
    · have hstep : 0 < min mid (if direct = true then maxWriteChunk else 32) ∧
          min mid (if direct = true then maxWriteChunk else 32) % 4 = 0 ∧
          min mid (if direct = true then maxWriteChunk else 32) ≤ mid := by
        unfold maxWriteChunk
        split <;> omega
      generalize min mid (if direct = true then maxWriteChunk else 32) = step at *
      rw [add32_eq (n := chip.size) (by omega) hlt]
      have hc : RomCall.Whole chip ⟨dst + midOff, .ram (srcc + midOff), mid⟩ :=
        ⟨hdst, hmid, trivial, hend⟩
      refine Gives.bind (bounce_gives rom direct srcc midOff step) fun _ m1 hm1 =>
        gives_romWrite fun m2 hram2 hflash2 => ?_
      split
      · rename_i hne
        exact ⟨trivial, fun hok => absurd hok hne⟩
      · rename_i hok
        have hok := not_not.mp hok
        rw [hrom.steady hc hram hok] at hflash2
        refine (ih (m := m2) (show (dst + (midOff + step)) % 4 = 0 by omega)
          (show (mid - step) % 4 = 0 by omega) (by omega) (by omega) (fun k hk => ?_)).mono ?_
        · have := hram (step + k) (by omega)
          rwa [show srcc + midOff + (step + k) = srcc + (midOff + step) + k by omega] at this
        · intro rc m' _ h hrc
          obtain ⟨h1, h2⟩ := h hrc
          refine ⟨h1.trans (hram2.trans hm1.1), h2.trans ?_⟩
          have hload : m1.load (.ram (srcc + midOff)) mid = m.ram.read (srcc + midOff) mid := by
            rw [← hm1.1]
            rfl
          rw [hload] at hflash2
          rw [hflash2, hram2, hm1.1, hm1.2, ← Nat.add_assoc, ← Nat.add_assoc]
          rw [← Bytes.read_drop]
          exact program_again

structure WriteParts (dst size left mid : Nat) : Prop where
  mid_aligned : mid % 4 = 0
  le : left + mid ≤ size
  lt : size < left + mid + 4
  head : dst - align4 dst + left ≤ 4
  aligned : left < size → (dst + left) % 4 = 0

theorem writeParts_sizes (dst size : Nat) :
    WriteParts dst size (leftSize dst size) (midSize dst size) := by
  unfold midSize align4
  have h : leftSize dst size = min ((4 - dst % 4) % 4) size := rfl
  constructor
  · omega
  · omega
  · omega
  · unfold align4
    omega
  · omega

theorem writeParts_eq (hend : dst + size ≤ chip.size) :
    writeParts dst srcc size = unlock.bind fun rc => if rc ≠ .ok then pure rc else
      (if leftSize dst size > 0 then
        writePadded (align4 dst) (dst - align4 dst) srcc 0 (leftSize dst size)
        else pure RomResult.ok).bind fun rc => if rc ≠ .ok then pure rc else
      (writeMid (directWrite srcc (leftSize dst size)) dst srcc (midSize dst size)
        (leftSize dst size) (midSize dst size)).bind fun rc => if rc ≠ .ok then pure rc else
      if size - midSize dst size - leftSize dst size > 0 then
        writePadded (dst + (leftSize dst size + midSize dst size)) 0 srcc
          (leftSize dst size + midSize dst size) (size - midSize dst size - leftSize dst size)
      else pure .ok := by
  have hlt := chip.lt
  have hwords := chip.words
  have hleft : min (sub32 (align4 (add32 dst 3)) dst) size = leftSize dst size := by
    rw [add32_eq (n := dst + 3) (Nat.le_refl _) (by omega),
      sub32_eq (by unfold align4; omega) (by unfold align4; omega)]
    unfold leftSize align4
    omega
  have hp := writeParts_sizes dst size
  have hright : add32 dst (leftSize dst size + midSize dst size) =
      dst + (leftSize dst size + midSize dst size) :=
    add32_eq (n := chip.size) (by have := hp.le; omega) hlt
  unfold writeParts
  simp only [Prog.bind_eq, hleft]
  rw [show align4 (size - leftSize dst size) = midSize dst size from rfl, hright]
  simp only [Prog.ite_bind]

theorem gives_next {α : Type} {Q : α → Machine → Prop} {S : RomResult → Machine → Prop}
    {p : MemProg RomResult} {q : MemProg α} {e : RomResult → MemProg α} (h : Gives rom S p m)
    (herr : ∀ rc m', rc ≠ .ok → S rc m' → Gives rom Q (e rc) m')
    (hok : ∀ m', S .ok m' → Gives rom Q q m') :
    Gives rom Q (p.bind fun rc => if rc ≠ .ok then e rc else q) m := by
  refine Gives.bind h fun rc m' hS => ?_
  by_cases hrc : rc = .ok
  · subst hrc
    simpa only [ne_eq, not_true_eq_false, if_false] using hok m' hS
  · simpa only [ne_eq, hrc, not_false_eq_true, if_true] using herr rc m' hrc hS

theorem programmed_zero : m.flash = m.flash.program dst (m.ram.read srcc 0) :=
  (program_ones (n := 0)).symm

theorem writeParts_gives (hrom : rom.Programs chip inRam) (hend : dst + size ≤ chip.size)
    (hmid : MidReadable inRam dst srcc size) :
    Gives rom (Programmed m dst srcc size) (writeParts dst srcc size) m := by
  have hwords := chip.words
  have hp := writeParts_sizes dst size
  rw [writeParts_eq hend]
  unfold MidReadable at hmid
  generalize leftSize dst size = left at *
  generalize midSize dst size = mid at *
  obtain ⟨hmid4, hle, hlt, hhead, haligned⟩ := hp
  have hfail : ∀ (k : Nat) rc (m' : Machine), rc ≠ .ok → Programmed m dst srcc k rc m' →
      Gives rom (Programmed m dst srcc size) (pure rc) m' :=
    fun _ rc _ hrc _ => ⟨trivial, fun hok => absurd hok hrc⟩
  have hunlock : Gives rom (Programmed m dst srcc 0) unlock m :=
    ⟨trivial, trivial, fun _ => ⟨rfl, programmed_zero⟩⟩
  refine gives_next hunlock (hfail 0) fun m1 h1 => ?_
  have h1 := h1 rfl
  have hleft : Gives rom (Programmed m dst srcc left) (if left > 0 then
      writePadded (align4 dst) (dst - align4 dst) srcc 0 left else pure .ok) m1 := by
    split
    · have hdst : align4 dst + (dst - align4 dst) = dst + 0 := by unfold align4; omega
      have h := writePadded_gives hrom (n := left)
        ⟨by simp only [align4]; omega, Nat.mod_self 4, Nat.le_refl 4,
          by simp only [align4]; omega⟩ hhead hdst h1
      rwa [Nat.zero_add] at h
    · obtain rfl : left = 0 := by omega
      exact ⟨trivial, fun _ => h1⟩
  refine gives_next hleft (hfail left) fun m2 h2 => ?_
  obtain ⟨hram2, hflash2⟩ := h2 rfl
  have hmiddle : Gives rom (Programmed m dst srcc (left + mid))
      (writeMid (directWrite srcc left) dst srcc mid left mid) m2 := by
    by_cases hz : mid = 0
    · subst hz
      exact ⟨trivial, fun _ => ⟨hram2, hflash2⟩⟩
    · refine (writeMid_gives hrom _ (haligned (by omega)) hmid4 (by omega)
        (Nat.le_refl mid) hmid).mono ?_
      intro rc m3 _ h hrc
      obtain ⟨hram3, hflash3⟩ := h hrc
      refine ⟨hram3.trans hram2, ?_⟩
      rw [hflash3, hflash2, hram2, read_add, Bytes.program_append, length_read]
  refine gives_next hmiddle (hfail (left + mid)) fun m3 h3 => ?_
  have h3 := h3 rfl
  split
  · have h := writePadded_gives hrom (k := left + mid) (n := size - mid - left)
      ⟨show (dst + (left + mid)) % 4 = 0 by omega, Nat.mod_self 4, Nat.le_refl 4,
        by simp only; omega⟩
      (show 0 + (size - mid - left) ≤ 4 by omega) rfl h3
    rwa [show left + mid + (size - mid - left) = size by omega] at h
  · obtain rfl : size = left + mid := by omega
    exact ⟨trivial, fun _ => h3⟩

theorem spiFlashWrite_gives (hend : dst + size ≤ chip.size) (hzero : size = 0 → Q .ok m)
    (h : size ≠ 0 → Gives rom (fun rc m' => Q (translateRc rc) m') (writeParts dst srcc size) m) :
    Gives rom Q (spiFlashWrite chip.size dst srcc size) m := by
  unfold spiFlashWrite
  rw [add32_eq hend chip.lt, if_neg (by omega)]
  split_ifs with h0
  · exact ⟨trivial, hzero h0⟩
  · exact Gives.bind (h h0) fun rc m' hq => ⟨trivial, hq⟩

theorem translateRc_ok : translateRc rc = .ok ↔ rc = .ok := by
  cases rc <;> simp [translateRc]

theorem exact_of_readable (hend : dst + size ≤ chip.size)
    (hmid : MidReadable inRam dst srcc size) : Exact chip inRam dst srcc size := by
  intro rom hrom m m' hrun a
  have hgives : Gives rom (fun err m' => err = .ok →
      m'.flash = m.flash.program dst (m.ram.read srcc size)) (spiFlashWrite chip.size dst srcc size)
      m := by
    refine spiFlashWrite_gives hend ?_ fun _ => ?_
    · rintro rfl _
      exact programmed_zero
    · exact (writeParts_gives hrom hend hmid).mono fun rc m' _ h hok =>
        (h (translateRc_ok.mp hok)).2
  rw [(hgives.run hrun).2 rfl, program_read]

end Steps

/-! ### A source that needs the cache -/

section CacheOff

variable {chip : Chip} {inRam : Nat → Bool} {m : Machine} {dst srcc size midOff mid n k : Nat}

/-- A ROM that reads zeros where the cache is needed. -/
def cacheOffRom (inRam : Nat → Bool) : Rom where
  unlock _ := .ok
  read c m := (.ok, m.store c.buf (m.flash.read c.addr c.len))
  write c m := (.ok, m.flash.program c.addr ((List.range c.len).map fun k =>
    if c.buf.SteadyAt inRam k then (m.load c.buf c.len).getD k 0xff else 0))

theorem cacheOffRom_programs (chip : Chip) (inRam : Nat → Bool) :
    (cacheOffRom inRam).Programs chip inRam := by
  intro c m _ _
  refine ⟨_, by simp, fun k hk hsteady => ?_, rfl⟩
  simp [List.getD_eq_getElem?_getD, hk, hsteady]

/-- A byte of the flash that is 0 stays 0. -/
def Clears (a : Nat) (m : Machine) (rc : RomResult) (m' : Machine) : Prop :=
  rc = .ok ∧ (m.flash a = 0 → m'.flash a = 0)

theorem cacheOffRom_zero {a : Nat} (h : m.flash a = 0) :
    ((cacheOffRom inRam).write c m).2 a = 0 := by
  simp only [cacheOffRom]
  by_cases hx : c.addr ≤ a
  · rw [program_in hx, h]
    exact UInt8.zero_and
  · rw [program_out (by omega), h]

theorem writePadded_clears (a addr pos srcc off n : Nat) :
    Gives (cacheOffRom inRam) (Clears a m) (writePadded addr pos srcc off n) m :=
  ⟨trivial, trivial, trivial, trivial, rfl, fun h => cacheOffRom_zero (by
    exact h)⟩

theorem writeMid_clears (a : Nat) (direct : Bool) :
    Gives (cacheOffRom inRam) (Clears a m) (writeMid direct dst srcc n midOff mid) m := by
  induction n generalizing m midOff mid with
  | zero => exact ⟨trivial, rfl, id⟩
  | succ n ih =>
    unfold writeMid
    split
    · exact ⟨trivial, rfl, id⟩
    · refine Gives.bind (bounce_gives _ direct srcc midOff _) fun _ m1 hm1 =>
        gives_romWrite fun m2 _ hflash2 => ?_
      refine ih.mono fun rc m' _ h => ⟨h.1, fun hz => h.2 ?_⟩
      rw [hflash2]
      exact cacheOffRom_zero (hm1.2 ▸ hz)

theorem writeMid_zeros (direct : Bool) (hend : dst + midOff + mid ≤ chip.size) (hk : k < mid)
    (hbad : inRam (srcc + midOff + k) ≠ true) :
    Gives (cacheOffRom inRam) (fun rc m' => rc = .ok ∧ m'.flash (dst + midOff + k) = 0)
      (writeMid direct dst srcc (n + 1) midOff mid) m := by
  unfold writeMid
  rw [if_neg (by omega)]
  refine Gives.bind (bounce_gives _ direct srcc midOff _) fun _ m1 _ =>
    gives_romWrite fun m2 _ hflash2 => ?_
  refine (writeMid_clears _ direct).mono fun rc m' _ h => ⟨h.1, h.2 ?_⟩
  have hsteady : ¬ (Buf.ram (srcc + midOff)).SteadyAt inRam k := hbad
  have hsub : dst + midOff + k - (dst + midOff) = k := by omega
  rw [hflash2, add32_eq (n := chip.size) (by omega) chip.lt]
  simp only [cacheOffRom]
  rw [program_in (Nat.le_add_right _ _), hsub]
  simp [List.getD_eq_getElem?_getD, hk, hsteady]

theorem writeParts_zeros (hend : dst + size ≤ chip.size) (hk : k < midSize dst size)
    (hbad : inRam (srcc + leftSize dst size + k) ≠ true) :
    Gives (cacheOffRom inRam)
      (fun rc m' => rc = .ok ∧ m'.flash (dst + leftSize dst size + k) = 0)
      (writeParts dst srcc size) m := by
  have hle := (writeParts_sizes dst size).le
  rw [writeParts_eq hend]
  generalize leftSize dst size = left at *
  generalize midSize dst size = mid at *
  have hunlock : Gives (cacheOffRom inRam) (Clears (dst + left + k) m) unlock m :=
    ⟨trivial, trivial, rfl, id⟩
  refine gives_next hunlock (fun rc _ hrc h => absurd h.1 hrc) fun m1 _ => ?_
  have hleft : Gives (cacheOffRom inRam) (Clears (dst + left + k) m1) (if left > 0 then
      writePadded (align4 dst) (dst - align4 dst) srcc 0 left else pure .ok) m1 := by
    split
    · exact writePadded_clears _ _ _ _ _ _
    · exact ⟨trivial, rfl, id⟩
  refine gives_next hleft (fun rc _ hrc h => absurd h.1 hrc) fun m2 _ => ?_
  obtain ⟨n, rfl⟩ : ∃ n, mid = n + 1 := ⟨mid - 1, by omega⟩
  have hmid : dst + left + (n + 1) ≤ chip.size := by omega
  refine gives_next (writeMid_zeros _ hmid hk hbad)
    (fun rc _ hrc h => absurd h.1 hrc) fun m3 h3 => ?_
  split
  · exact (writePadded_clears _ _ _ _ _ _).mono fun rc m' _ h => ⟨h.1, h.2 h3.2⟩
  · exact ⟨trivial, rfl, h3.2⟩

/-- With every ROM that programs what it reads, `spi_flash_write` programs exactly the source if and
only if the middle part is in memory that is readable with the cache off. -/
theorem spiFlashWrite_exact_iff (inRam : Nat → Bool) (srcc : Nat) (hend : dst + size ≤ chip.size) :
    Exact chip inRam dst srcc size ↔ MidReadable inRam dst srcc size := by
  refine ⟨fun h k hk => by_contra fun hbad => ?_, exact_of_readable hend⟩
  -- on a blank flash, with a source of ones, nothing may change
  have hle := (writeParts_sizes dst size).le
  have hgives : Gives (cacheOffRom inRam)
      (fun err m' => err = .ok ∧ m'.flash (dst + leftSize dst size + k) = 0)
      (spiFlashWrite chip.size dst srcc size) ⟨blank, blank, blank, blank, []⟩ :=
    spiFlashWrite_gives hend (fun hz => absurd hz (by omega)) fun _ =>
      (writeParts_zeros hend hk hbad).mono fun rc m' _ h => ⟨translateRc_ok.mpr h.1, h.2⟩
  obtain ⟨err, m', hrun, -, herr, hflash⟩ := hgives.run_total
  subst herr
  have hat := h _ (cacheOffRom_programs chip inRam) _ _ hrun (dst + leftSize dst size + k)
  rw [if_pos ⟨by omega, by omega⟩, hflash] at hat
  have hones : (0 : UInt8) = 0xff &&& 0xff := hat
  exact absurd hones (by decide)

end CacheOff

def internalRam (a : Nat) : Bool := 0x3FFAE000 ≤ a ∧ a < 0x40000000

/-- A source that is not aligned, for an address that is not either. -/
theorem spiFlashWrite_exact_unaligned : MidReadable internalRam 6 0x3FFB0001 11 ∧
    Exact chip4MB internalRam 6 0x3FFB0001 11 := by
  have hmid : MidReadable internalRam 6 0x3FFB0001 11 := by
    unfold MidReadable
    decide
  exact ⟨hmid, (spiFlashWrite_exact_iff internalRam 0x3FFB0001 (by decide)).mpr hmid⟩

theorem cached_source_programs_zeros : (cacheOffRom internalRam).Programs chip4MB internalRam ∧
    (Prog.run (machine (cacheOffRom internalRam)) (spiFlashWrite chip4MB.size 0x10000 0x3F400020 8)
      ⟨Bytes.blank, Bytes.blank, Bytes.blank, Bytes.blank, []⟩).any (fun r =>
        r.1 = .ok ∧ r.2.flash 0x10000 ≠ Bytes.blank 0x10000 &&& Bytes.blank 0x3F400020) = true :=
  ⟨cacheOffRom_programs _ _, by decide +kernel⟩

end EspIdf.SpiFlash.Buffers
