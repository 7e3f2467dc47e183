import EspIdf.SpiFlash.RomCalls

/-! What `spi_flash_read` leaves in the caller's buffer, with a ROM that copies words. -/

namespace EspIdf.SpiFlash.Buffers

open EspIdf.Device
open Prog (bind_eq run run_bind_of)

/-- The call is for whole words of the chip, with a word aligned buffer that has room for them. -/
structure RomCall.Words (chip : Chip) (c : RomCall) : Prop where
  addr : c.addr % 4 = 0
  len : c.len % 4 = 0
  buf : c.buf.Aligned
  room : c.buf.Room c.len
  inside : c.addr + c.len ≤ chip.size

def Rom.Copies (rom : Rom) (chip : Chip) : Prop := ∀ (c : RomCall) (m : Machine), c.Words chip →
  rom.read c m = (.ok, m.store c.buf (m.flash.read c.addr c.len))

/-- Bytes `lo` to `hi` of the buffer at `dst` are those of the flash at `src`, and nothing outside
of its `size` bytes has changed since `m0`. -/
structure Filled (chip : Chip) (m0 : Machine) (src dst size lo hi : Nat) (m : Machine) : Prop where
  flash : m.flash = m0.flash
  log : ∀ c ∈ m.log, c ∈ m0.log ∨ c.Words chip
  copied : ∀ i, lo ≤ i → i < hi → m.ram (dst + i) = m0.flash (src + i)
  frame : ∀ a, a < dst ∨ dst + size ≤ a → m.ram a = m0.ram a

namespace Filled

variable {chip : Chip} {m0 m m' : Machine} {src dst size lo hi : Nat}

theorem start (chip : Chip) (m : Machine) (src dst size : Nat) : Filled chip m src dst size 0 0 m :=
  ⟨rfl, fun _ => .inl, fun _ _ h => absurd h (Nat.not_lt_zero _), fun _ _ => rfl⟩

theorem fetched (h : Filled chip m0 src dst size lo hi m) (hc : c.Words chip) (bs : List UInt8)
    (hbuf : c.buf = .t k 0) :
    Filled chip m0 src dst size lo hi { m.store c.buf bs with log := m.log ++ [c] } where
  flash := by rw [Machine.store_flash, h.flash]
  log c' hc' := by
    rcases List.mem_append.mp hc' with hc' | hc'
    · exact h.log c' hc'
    · obtain rfl := List.mem_singleton.mp hc'
      exact .inr hc
  copied := by rw [hbuf]; exact h.copied
  frame := by rw [hbuf]; exact h.frame

theorem put (h : Filled chip m0 src dst size lo hi m) (off : Nat) (bs : List UInt8)
    (hsize : off + bs.length ≤ size)
    (hbs : ∀ i, lo' ≤ i → i < hi' → off ≤ i → i < off + bs.length → bs.getD (i - off) 0xff =
    m0.flash (src + i))
    (hold : ∀ i, lo' ≤ i → i < hi' → i < off ∨ off + bs.length ≤ i → lo ≤ i ∧ i < hi)
    (hflash : m'.flash = m.flash) (hlog : ∀ c ∈ m'.log, c ∈ m.log ∨ c.Words chip)
    (hram : m'.ram = m.ram.store (dst + off) bs) : Filled chip m0 src dst size lo' hi' m' where
  flash := hflash.trans h.flash
  log c hc := (hlog c hc).elim (h.log c) .inr
  copied i h1 h2 := by
    rw [hram]
    by_cases hin : off ≤ i ∧ i < off + bs.length
    · rw [Bytes.store_in (by omega) (by omega), ← hbs i h1 h2 hin.1 hin.2]
      congr 1
      omega
    · obtain ⟨h3, h4⟩ := hold i h1 h2 (by omega)
      rw [Bytes.store_out (by omega), h.copied i h3 h4]
  frame a ha := by
    rw [hram, Bytes.store_out (by omega), h.frame a ha]

end Filled

section Run

variable {chip : Chip} {rom : Rom} {m : Machine} {src dst size : Nat}

theorem run_romRead (hrom : rom.Copies chip) {addr : Nat} (hc : RomCall.Words chip ⟨addr, buf, len⟩)
    (f : RomResult → MemProg α) :
    run (machine rom) ((romRead addr buf len).bind f) m = run (machine rom) (f .ok)
      { m.store buf (m.flash.read addr len) with log := m.log ++ [⟨addr, buf, len⟩] } := by
  change run (machine rom) (f (rom.read ⟨addr, buf, len⟩ m).1)
    { (rom.read ⟨addr, buf, len⟩ m).2 with log := m.log ++ [⟨addr, buf, len⟩] } = _
  rw [hrom _ m hc]

theorem run_copy (f : Unit → MemProg α) :
    run (machine rom) ((copy target source len).bind f) m =
      run (machine rom) (f ()) (m.store target (m.load source len)) := rfl

theorem readMid_run (hrom : rom.Copies chip) (hsrc : src % 4 = 0) (hdst : dst % 4 = 0)
    (hread : midRead % 4 = 0) (hrem : midRemaining % 4 = 0)
    (hend : src + midRead + midRemaining ≤ chip.size) (hn : midRemaining ≤ n) :
    ∃ m', run (machine rom) (readMid src dst n midRead midRemaining) m = some (.ok, m') ∧
      m'.flash = m.flash ∧ (∀ c ∈ m'.log, c ∈ m.log ∨ c.Words chip) ∧
      m'.ram = m.ram.store (dst + midRead) (m.flash.read (src + midRead) midRemaining) := by
  have hlt := chip.lt
  induction n generalizing m midRead midRemaining with
  | zero =>
    obtain rfl : midRemaining = 0 := by omega
    exact ⟨m, rfl, rfl, fun _ => .inl, by rw [Bytes.read]; simp⟩
  | succ n ih =>
    by_cases h0 : midRemaining = 0
    · subst h0
      exact ⟨m, by simp [readMid], rfl, fun _ => .inl, by rw [Bytes.read]; simp⟩
    unfold readMid maxReadChunk
    simp only [if_neg h0, bind_eq]
    generalize hk : min midRemaining 16384 = readSize
    rw [add32_eq (n := chip.size) (by omega) hlt]
    have hc : RomCall.Words chip ⟨src + midRead, .ram (dst + midRead), readSize⟩ :=
      ⟨by simp only; omega, by simp only; omega, by simp only [Buf.Aligned]; omega, trivial,
        by simp only; omega⟩
    rw [run_romRead hrom hc]
    obtain ⟨m', hrun, hflash, hlog, hram⟩ := ih (m := { m.store (.ram (dst + midRead))
        (m.flash.read (src + midRead) readSize) with
        log := m.log ++ [⟨src + midRead, .ram (dst + midRead), readSize⟩] })
      (show (midRead + readSize) % 4 = 0 by omega) (show (midRemaining - readSize) % 4 = 0 by omega)
      (by omega) (by omega)
    refine ⟨m', hrun, hflash, ?_, ?_⟩
    · intro c hc'
      rcases hlog c hc' with hc' | hc'
      · rcases List.mem_append.mp hc' with hc' | hc'
        · exact .inl hc'
        · obtain rfl := List.mem_singleton.mp hc'
          exact .inr hc
      · exact .inr hc'
    · -- the chunk and the rest are stored one behind the other
      have hsplit : m.flash.read (src + midRead) midRemaining =
          m.flash.read (src + midRead) readSize ++
            m.flash.read (src + midRead + readSize) (midRemaining - readSize) := by
        rw [← Bytes.read_add, show readSize + (midRemaining - readSize) = midRemaining by omega]
      rw [hram, hsplit, Bytes.store_append, Bytes.length_read, ← Nat.add_assoc, ← Nat.add_assoc]
      rfl

theorem shiftMid_run (rom : Rom) (src size : Nat) {midSize : Nat}
    (hsrc : srcMidOff + midSize ≤ size)
    (hdst : dstMidOff + midSize ≤ size) (hflash : m1.flash = m.flash)
    (hlog : ∀ c ∈ m1.log, c ∈ m.log ∨ c.Words chip)
    (hram : m1.ram = m.ram.store (dst + dstMidOff) (m.flash.read (src + srcMidOff) midSize)) :
    ∃ m', run (machine rom) (shiftMid dst srcMidOff dstMidOff midSize) m1 = some ((), m') ∧
      Filled chip m src dst size srcMidOff (srcMidOff + midSize) m' := by
  have hlen : (m.flash.read (src + srcMidOff) midSize).length = midSize := Bytes.length_read
  have hbytes : ∀ i, srcMidOff ≤ i → i < srcMidOff + midSize →
      (m.flash.read (src + srcMidOff) midSize).getD (i - srcMidOff) 0xff = m.flash (src + i) := by
    intro i h1 h2
    rw [Bytes.getD_read (by omega), show src + srcMidOff + (i - srcMidOff) = src + i by omega]
  by_cases hsame : srcMidOff = dstMidOff
  · subst hsame
    refine ⟨m1, by simp [shiftMid], ?_⟩
    exact (Filled.start chip m src dst size).put _ _ (by omega) (fun i h1 h2 _ _ => hbytes i h1 h2)
      (by omega) hflash hlog hram
  · refine ⟨m1.store (.ram (dst + srcMidOff)) (m1.load (.ram (dst + dstMidOff)) midSize), ?_, ?_⟩
    · simp only [shiftMid, ne_eq, hsame, not_false_eq_true, if_true]
      rfl
    · have hback : m1.ram.read (dst + dstMidOff) midSize =
          m.flash.read (src + srcMidOff) midSize := by
        have h : (m.ram.store (dst + dstMidOff) (m.flash.read (src + srcMidOff) midSize)).read
            (dst + dstMidOff) (m.flash.read (src + srcMidOff) midSize).length = _ :=
              Bytes.read_store
        rwa [hlen, ← hram] at h
      have hscratch : Filled chip m src dst size 0 0 m1 :=
        (Filled.start chip m src dst size).put _ _ (by omega) (by omega) (by omega) hflash hlog hram
      refine hscratch.put _ (m.flash.read (src + srcMidOff) midSize) (by omega)
        (fun i h1 h2 _ _ => hbytes i h1 h2) (by omega) (Machine.store_flash _ _ _)
        (fun c hc => .inl ?_) ?_
      · rwa [Machine.store_log] at hc
      · rw [← hback]
        rfl

theorem viaLocal_run (off pos n : Nat) {addr : Nat} (hrom : rom.Copies chip)
    (h : Filled chip m0 src dst size lo hi m) (hc : RomCall.Words chip ⟨addr, .t k 0, len⟩)
    (hpos : pos + n ≤ len) (hsize : off + n ≤ size) (haddr : addr + pos = src + off)
    (hold : ∀ i, lo' ≤ i → i < hi' → i < off ∨ off + n ≤ i → lo ≤ i ∧ i < hi) :
    ∃ m', run (machine rom) ((romRead addr (.t k 0) len).bind fun rc =>
        if rc ≠ .ok then pure rc
        else (copy (.ram (dst + off)) (.t k pos) n).bind fun _ => pure rc) m = some (.ok, m') ∧
      Filled chip m0 src dst size lo' hi' m' := by
  have hm1 := h.fetched hc (m.flash.read addr len) rfl
  rw [run_romRead hrom hc]
  simp only [ne_eq, not_true_eq_false, if_false]
  rw [run_copy]
  refine ⟨_, rfl, ?_⟩
  refine hm1.put off ((m.t.store 0 (m.flash.read addr len)).read pos n)
    (by rw [Bytes.length_read]; omega) ?_ ?_ (Machine.store_flash _ _ _) (fun c hc => .inl ?_) rfl
  · intro i _ _ h3 h4
    rw [Bytes.length_read] at h4
    rw [Bytes.getD_read (by omega), Bytes.store_in (by omega) (by rw [Bytes.length_read]; omega),
      Bytes.getD_read (by omega), h.flash]
    congr 1
    omega
  · rw [Bytes.length_read]
    exact hold
  · rwa [Machine.store_log] at hc

theorem readPadLeft_run (hrom : rom.Copies chip) (h : Filled chip m0 src dst size padLeftSize hi m)
    (hlt : padLeftSize < 4) (hpad : (src + padLeftSize) % 4 = 0) (hle : padLeftSize ≤ size)
    (hend : src + 4 ≤ chip.size) :
    ∃ m', run (machine rom) (readPadLeft src dst padLeftSize) m = some (.ok, m') ∧
      Filled chip m0 src dst size 0 hi m' := by
  by_cases h0 : padLeftSize = 0
  · subst h0
    exact ⟨m, rfl, h⟩
  have hc : RomCall.Words chip ⟨align4 src, .t 4 0, 4⟩ :=
    ⟨by simp only [align4]; omega, Nat.mod_self 4, rfl, Nat.le_refl 4, by simp only [align4]; omega⟩
  unfold readPadLeft
  rw [if_pos (by omega)]
  exact viaLocal_run 0 (4 - padLeftSize) padLeftSize hrom h hc (by omega) (by omega)
    (by unfold align4; omega) (by omega)

theorem readPadRight_run {off : Nat} (hrom : rom.Copies chip)
    (h : Filled chip m0 src dst size 0 off m)
    (hle : off ≤ size) (hlt : size < off + 8) (haligned : (src + off) % 4 = 0)
    (hend : src + size ≤ chip.size) :
    ∃ m', run (machine rom) (readPadRight (src + off) dst off (size - off)) m =
        some (.ok, m') ∧ Filled chip m0 src dst size 0 size m' := by
  have hwords := chip.words
  by_cases h0 : size - off = 0
  · obtain rfl : off = size := by omega
    exact ⟨m, by simp [readPadRight], h⟩
  generalize hlen : (if size - off ≤ 4 then 4 else 8) = len
  have hlen' : size - off ≤ len ∧ len % 4 = 0 ∧ src + off + len ≤ chip.size ∧ 0 + len ≤ 8 := by
    split at hlen <;> omega
  have hc : RomCall.Words chip ⟨src + off, .t 8 0, len⟩ :=
    ⟨haligned, hlen'.2.1, rfl, hlen'.2.2.2, hlen'.2.2.1⟩
  unfold readPadRight
  rw [if_pos (by omega), hlen]
  exact viaLocal_run off 0 (size - off) hrom h hc (by omega) (by omega) rfl (by omega)

theorem readLarge_run (dst : Nat) (hrom : rom.Copies chip) (hsize : 16 ≤ size)
    (hend : src + size ≤ chip.size) :
    ∃ m', run (machine rom) (readLarge src dst size) m = some (.ok, m') ∧
      Filled chip m src dst size 0 size m' := by
  have hlt := chip.lt
  have hp := readParts src dst size hsize
  have hdst : (dst + if dst % 4 = 0 then 0 else 4 - dst % 4) % 4 = 0 := by split <;> omega
  unfold readLarge
  simp only [bind_eq]
  generalize (if src % 4 = 0 then 0 else 4 - src % 4) = srcMidOff at *
  generalize (if dst % 4 = 0 then 0 else 4 - dst % 4) = dstMidOff at *
  generalize align4 (size - max srcMidOff dstMidOff) = midSize at *
  obtain ⟨h1, h2, h3, h4, h5, h6⟩ := hp
  have hsrc : add32 src srcMidOff = src + srcMidOff := add32_eq (n := chip.size) (by omega) hlt
  have hmid : add32 (src + srcMidOff) midSize = src + srcMidOff + midSize :=
    add32_eq (n := chip.size) (by omega) hlt
  have hright : align4 (src + srcMidOff + midSize) = src + srcMidOff + midSize := by
    unfold align4
    omega
  rw [hsrc, hmid, hright, sub32_eq (show src ≤ src + srcMidOff + midSize by omega) (by omega),
    sub32_eq (a := size) (by omega) (by omega)]
  obtain ⟨m1, hrun1, hflash1, hlog1, hram1⟩ := readMid_run (m := m) hrom h3 hdst (Nat.zero_mod 4) h4
    (by omega) (Nat.le_refl midSize)
  rw [Nat.add_zero] at hram1
  rw [run_bind_of _ hrun1]
  simp only [ne_eq, not_true_eq_false, if_false]
  obtain ⟨m2, hrun2, h2'⟩ := shiftMid_run rom src size (by omega) (by omega) hflash1 hlog1
    hram1
  rw [run_bind_of _ hrun2]
  obtain ⟨m3, hrun3, h3'⟩ := readPadLeft_run hrom h2' h1 h3 (by omega) (by omega)
  rw [run_bind_of _ hrun3]
  rw [Nat.add_assoc, Nat.add_sub_cancel_left]
  exact readPadRight_run hrom h3' (by omega) (by omega) (by omega) hend

theorem readSmall_run (dst : Nat) (hrom : rom.Copies chip) (hsize : size < 16)
    (hend : src + size ≤ chip.size) :
    ∃ m', run (machine rom) (readSmall src dst size) m = some (.ok, m') ∧
      Filled chip m src dst size 0 size m' := by
  have hwords := chip.words
  have hc : RomCall.Words chip ⟨align4 src, .t 24 0, align4 (src % 4 + size + 3)⟩ :=
    ⟨by simp only [align4]; omega, by simp only [align4]; omega, rfl,
      by simp only [Buf.Room, align4]; omega, by simp only [align4]; omega⟩
  have hlen : src % 4 + size ≤ align4 (src % 4 + size + 3) := by
    unfold align4
    omega
  exact viaLocal_run 0 (src % 4) size hrom (Filled.start chip m src dst size) hc hlen (by omega)
    (by unfold align4; omega) (by omega)

/-- With a ROM that copies words, `spi_flash_read` inside the chip fills the buffer with the bytes
of the flash, changes nothing else, and asks the ROM for whole words of the chip only. -/
theorem spiFlashRead_exact (hrom : rom.Copies chip) (hend : src + size ≤ chip.size) (m : Machine) :
    ∃ m', Prog.run (machine rom) (spiFlashRead chip.size src dst size) m = some (.ok, m') ∧
      m'.flash = m.flash ∧ (∀ i < size, m'.ram (dst + i) = m.flash (src + i)) ∧
      (∀ a, a < dst ∨ dst + size ≤ a → m'.ram a = m.ram a) ∧
      ∀ c ∈ m'.log, c ∈ m.log ∨ c.Words chip := by
  have hsum : add32 src size = src + size := add32_eq hend chip.lt
  have hfilled : ∃ m', run (machine rom) (spiFlashRead chip.size src dst size) m =
      some (.ok, m') ∧ Filled chip m src dst size 0 size m' := by
    unfold spiFlashRead
    simp only [bind_eq]
    rw [if_neg (by omega)]
    split_ifs with h0 h16
    · subst h0
      exact ⟨m, rfl, Filled.start chip m src dst 0⟩
    · obtain ⟨m', hrun, hm'⟩ := readSmall_run (m := m) dst hrom h16 hend
      exact ⟨m', by rw [run_bind_of _ hrun]; rfl, hm'⟩
    · obtain ⟨m', hrun, hm'⟩ := readLarge_run (m := m) dst hrom (by omega) hend
      exact ⟨m', by rw [run_bind_of _ hrun]; rfl, hm'⟩
  obtain ⟨m', hrun, hm'⟩ := hfilled
  exact ⟨m', hrun, hm'.flash, fun i hi => hm'.copied i (Nat.zero_le i) hi, hm'.frame, hm'.log⟩

end Run

theorem spiFlashRead_exact_unaligned : plainRom.Copies chip4MB ∧ ∃ m',
    Prog.run (machine plainRom) (spiFlashRead chip4MB.size 5 0x3FFB0002 21)
        ⟨fun a => UInt8.ofNat a, Bytes.blank, Bytes.blank, Bytes.blank, []⟩ = some (.ok, m') ∧
      m'.flash = (fun a => UInt8.ofNat a) ∧
      (∀ i < 21, m'.ram (0x3FFB0002 + i) = UInt8.ofNat (5 + i)) ∧
      (∀ a, a < 0x3FFB0002 ∨ 0x3FFB0002 + 21 ≤ a → m'.ram a = Bytes.blank a) ∧
      ∀ c ∈ m'.log, c ∈ ([] : List RomCall) ∨ c.Words chip4MB :=
  ⟨fun _ _ _ => rfl, spiFlashRead_exact (fun _ _ _ => rfl) (by decide) _⟩

end EspIdf.SpiFlash.Buffers
