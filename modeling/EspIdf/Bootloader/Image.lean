import EspIdf.Device.Ram
import EspIdf.EspErr
import Mathlib.Logic.Function.Iterate

/-! Verification of an application image in flash, `esp_image_basic_verify` of `esp_image_format.c`.
An image is a header of 24 bytes, segments with headers of 8 bytes, and padding to a multiple of 16
bytes that ends with a checksum. -/

namespace EspIdf.Bootloader

open EspIdf.Device

/-! ### The verification -/

def flashRead (chipSize : Nat) (m : Bytes) (a n : Nat) : Except EspErr (List UInt8) :=
  if a + n ≤ chipSize then .ok (m.read a n) else .error .flashOpFail

def sixteenMb : Nat := 0x1000000

def imageHeaderSize : Nat := 24

def segmentHeaderSize : Nat := 8

structure ImageHeader where
  magic : UInt8
  segmentCount : UInt8

structure SegmentHeader where
  loadAddr : Nat
  dataLen : Nat

def espImageLoadHeader (chipSize : Nat) (m : Bytes) (srcAddr : Nat) :
    Except EspErr ImageHeader := do
  let bs ← flashRead chipSize m srcAddr imageHeaderSize
  if bs.getD 0 0 ≠ 0xe9 then .error .imageInvalid
  else .ok ⟨bs.getD 0 0, bs.getD 1 0⟩

def readSegmentHeader (chipSize : Nat) (m : Bytes) (a : Nat) : Except EspErr SegmentHeader := do
  let bs ← flashRead chipSize m a segmentHeaderSize
  if word32 bs 4 % 4 ≠ 0 ∨ word32 bs 4 ≥ sixteenMb then .error .imageInvalid
  else .ok ⟨word32 bs 0, word32 bs 4⟩

/-- The loop of `esp_image_load_segment_header` from the header at `a`, over `i` segments to the one
that is asked for: its header and the address of its data. -/
def segmentLoop (chipSize : Nat) (m : Bytes) : Nat → Nat → Except EspErr (SegmentHeader × Nat)
  | 0, a => do
    let h ← readSegmentHeader chipSize m a
    .ok (h, (a + segmentHeaderSize) % 2 ^ 32)
  | i + 1, a => do
    let h ← readSegmentHeader chipSize m a
    segmentLoop chipSize m i ((a + segmentHeaderSize + h.dataLen) % 2 ^ 32)

def espImageLoadSegmentHeader (chipSize : Nat) (m : Bytes) (index srcAddr : Nat)
    (header : ImageHeader) :
    Except EspErr (SegmentHeader × Nat) :=
  if index ≥ header.segmentCount.toNat then .error .invalidArg
  else segmentLoop chipSize m index ((srcAddr + imageHeaderSize) % 2 ^ 32)

def xorAll (checksum : UInt8) (bs : List UInt8) : UInt8 := bs.foldl (· ^^^ ·) checksum

/-- The loop over the data of a segment from byte `i` on, in reads of 128 bytes into `buf`.  It has
at most `fuel` more rounds. -/
def checksumLoop (chipSize : Nat) (m : Bytes) (dataOffs dataLen : Nat) :
    Nat → Nat → UInt8 → List UInt8 → Except EspErr (UInt8 × List UInt8)
  | 0, _, checksum, buf => .ok (checksum, buf)
  | fuel + 1, i, checksum, buf =>
    if i < dataLen then do
      let buf ← flashRead chipSize m ((dataOffs + i) % 2 ^ 32) 128
      checksumLoop chipSize m dataOffs dataLen fuel (i + 128)
        (xorAll checksum (buf.take (dataLen - i))) buf
    else .ok (checksum, buf)

structure VerifyState where
  checksum : UInt8
  buf : List UInt8
  dataLen : Nat
  dataOffs : Nat

/-- The loop over the segments from `i` on, with `k` rounds to go.  The check that a mapped segment
is aligned only logs. -/
def segmentsLoop (chipSize : Nat) (m : Bytes) (srcAddr : Nat) (header : ImageHeader) :
    Nat → Nat → VerifyState → Except EspErr VerifyState
  | 0, _, s => .ok s
  | k + 1, i, s => do
    let (h, dataOffs) ← espImageLoadSegmentHeader chipSize m i srcAddr header
    let (checksum, buf) ← checksumLoop chipSize m dataOffs h.dataLen (h.dataLen / 128 + 1) 0
      s.checksum s.buf
    segmentsLoop chipSize m srcAddr header k (i + 1) ⟨checksum, buf, h.dataLen, dataOffs⟩

/-- The part of `esp_image_basic_verify` after the loop.  The result of reading the checksum block
is ignored. -/
def verifyEnd (chipSize : Nat) (m : Bytes) (srcAddr : Nat) (s : VerifyState) : Except EspErr Nat :=
  let endAddr := (s.dataOffs + s.dataLen) % 2 ^ 32
  if endAddr < srcAddr then .error .imageInvalid
  else if endAddr - srcAddr ≥ sixteenMb then .error .imageInvalid
  else
    let length := endAddr - srcAddr + 16
    let length := length - length % 16
    let buf := match flashRead chipSize m ((srcAddr + length - 16) % 2 ^ 32) 16 with
      | .ok bs => bs ++ s.buf.drop 16
      | .error _ => s.buf
    if s.checksum ≠ buf.getD 15 0 then .error .imageInvalid
    else .ok length

/-- `esp_image_basic_verify`, with the value of `*p_length`; `buf` is what the buffer on the stack
holds at first. -/
def espImageBasicVerify (chipSize : Nat) (m : Bytes) (buf : List UInt8) (srcAddr : Nat) :
    Except EspErr Nat := do
  let header ← espImageLoadHeader chipSize m srcAddr
  let s ← segmentsLoop chipSize m srcAddr header header.segmentCount.toNat 0 ⟨0xef, buf, 0, 0⟩
  verifyEnd chipSize m srcAddr s

/-! ### What an image is -/

def lenAt (m : Bytes) (a : Nat) : Nat := m.load32 (a + 4)

def nextSegment (m : Bytes) (a : Nat) : Nat := a + segmentHeaderSize + lenAt m a

def chainEnd (m : Bytes) (k a : Nat) : Nat := (nextSegment m)^[k] a

def LenOk (n : Nat) : Prop := n % 4 = 0 ∧ n < sixteenMb

instance (n : Nat) : Decidable (LenOk n) := inferInstanceAs (Decidable (_ ∧ _))

def LensOk (m : Bytes) : Nat → Nat → Prop
  | 0, _ => True
  | k + 1, a => LenOk (lenAt m a) ∧ LensOk m k (nextSegment m a)

def dataSum (m : Bytes) (k a : Nat) (checksum : UInt8) : UInt8 :=
  ((fun p : Nat × UInt8 => (nextSegment m p.1,
    xorAll p.2 (m.read (p.1 + segmentHeaderSize) (lenAt m p.1))))^[k] (a, checksum)).2

def padded (length : Nat) : Nat := (length / 16 + 1) * 16

def segmentCount (m : Bytes) (src : Nat) : Nat := (m (src + 1)).toNat

def imageEnd (m : Bytes) (src : Nat) : Nat :=
  chainEnd m (segmentCount m src) (src + imageHeaderSize)

/-- The bytes from `src` on are an image of `length` bytes that lies inside the chip. -/
structure IsImage (chipSize : Nat) (m : Bytes) (src length : Nat) : Prop where
  magic : m src = 0xe9
  lens : LensOk m (segmentCount m src) (src + imageHeaderSize)
  short : imageEnd m src - src < sixteenMb
  padding : length = padded (imageEnd m src - src)
  inside : src + length ≤ chipSize
  checksum : m (src + length - 1) = dataSum m (segmentCount m src) (src + imageHeaderSize) 0xef

/-! ### Reads -/

section Reads

variable {chipSize a i k : Nat} {m : Bytes}

theorem ok_bind (x : α) (f : α → Except ε β) : (Except.ok x >>= f) = f x := rfl

theorem error_bind (err : ε) (f : α → Except ε β) :
    ((Except.error err : Except ε α) >>= f) = .error err := rfl

theorem flashRead_ok (h : a + n ≤ chipSize) : flashRead chipSize m a n = .ok (m.read a n) :=
  if_pos h

theorem flashRead_error (h : ¬ a + n ≤ chipSize) : flashRead chipSize m a n = .error .flashOpFail :=
  if_neg h

theorem word32_read_four : word32 (m.read a segmentHeaderSize) 4 = lenAt m a := by
  have h8 : segmentHeaderSize = 8 := rfl
  simp only [lenAt, Bytes.load32, word32]
  rw [Bytes.getD_read (by omega), Bytes.getD_read (by omega), Bytes.getD_read (by omega),
    Bytes.getD_read (by omega), Bytes.getD_read (by omega), Bytes.getD_read (by omega),
    Bytes.getD_read (by omega), Bytes.getD_read (by omega)]

def segmentHeaderAt (m : Bytes) (a : Nat) : SegmentHeader :=
  ⟨word32 (m.read a segmentHeaderSize) 0, lenAt m a⟩

theorem readSegmentHeader_eq (h : a + segmentHeaderSize ≤ chipSize) :
    readSegmentHeader chipSize m a =
      if lenAt m a % 4 ≠ 0 ∨ lenAt m a ≥ sixteenMb then .error .imageInvalid
      else .ok (segmentHeaderAt m a) := by
  simp only [readSegmentHeader, flashRead_ok h, bind, Except.bind, word32_read_four,
    segmentHeaderAt]

theorem readSegmentHeader_ok (h : a + segmentHeaderSize ≤ chipSize) (hlen : LenOk (lenAt m a)) :
    readSegmentHeader chipSize m a = .ok (segmentHeaderAt m a) := by
  have h1 := hlen.1
  have h2 := hlen.2
  rw [readSegmentHeader_eq h, if_neg (by omega)]

theorem readSegmentHeader_error (h : ¬ (a + segmentHeaderSize ≤ chipSize ∧ LenOk (lenAt m a))) :
    ∃ err, readSegmentHeader chipSize m a = .error err := by
  by_cases hin : a + segmentHeaderSize ≤ chipSize
  · refine ⟨.imageInvalid, ?_⟩
    rw [readSegmentHeader_eq hin, if_pos]
    by_contra hno
    exact h ⟨hin, by omega, by omega⟩
  · refine ⟨.flashOpFail, ?_⟩
    simp only [readSegmentHeader, flashRead_error hin, bind, Except.bind]

theorem chainEnd_zero : chainEnd m 0 a = a := Function.iterate_zero_apply _ _

theorem chainEnd_cons : chainEnd m (k + 1) a = chainEnd m k (nextSegment m a) :=
  Function.iterate_succ_apply _ _ _

theorem chainEnd_succ : chainEnd m (k + 1) a = nextSegment m (chainEnd m k a) :=
  Function.iterate_succ_apply' _ _ _

theorem dataSum_zero : dataSum m 0 a checksum = checksum := by
  rw [dataSum, Function.iterate_zero_apply]

theorem dataSum_cons : dataSum m (k + 1) a checksum =
    dataSum m k (nextSegment m a) (xorAll checksum
      (m.read (a + segmentHeaderSize) (lenAt m a))) := by
  rw [dataSum, Function.iterate_succ_apply, dataSum]

theorem le_nextSegment : a + segmentHeaderSize ≤ nextSegment m a := Nat.le_add_right _ _

theorem le_chainEnd (k : Nat) : a ≤ chainEnd m k a := by
  induction k with
  | zero => exact Nat.le_refl a
  | succ k ih =>
    have := @le_nextSegment (chainEnd m k a) m
    rw [chainEnd_succ]
    omega

structure Passed (chipSize : Nat) (m : Bytes) (k a : Nat) : Prop where
  lens : LensOk m k a
  inside : chainEnd m k a ≤ chipSize

theorem segmentLoop_cons (h : a + segmentHeaderSize ≤ chipSize) (hlen : LenOk (lenAt m a))
    (hwrap : nextSegment m a < 2 ^ 32) :
    segmentLoop chipSize m (k + 1) a = segmentLoop chipSize m k (nextSegment m a) := by
  have hnext : (a + segmentHeaderSize + (segmentHeaderAt m a).dataLen) % 2 ^ 32 = nextSegment m a :=
    Nat.mod_eq_of_lt hwrap
  simp only [segmentLoop, readSegmentHeader_ok h hlen, bind, Except.bind, hnext]

theorem segmentLoop_passed (hchip : chipSize < 2 ^ 32) : ∀ {a : Nat}, Passed chipSize m k a →
    segmentLoop chipSize m k a = segmentLoop chipSize m 0 (chainEnd m k a) := by
  induction k with
  | zero => exact fun _ => rfl
  | succ k ih =>
    intro a h
    have hinside := h.inside
    rw [chainEnd_cons] at hinside
    have hle := @le_chainEnd (nextSegment m a) m k
    have hnext := @le_nextSegment a m
    rw [segmentLoop_cons (by omega) h.lens.1 (by omega), chainEnd_cons]
    exact ih ⟨h.lens.2, hinside⟩

theorem Passed.succ (h : Passed chipSize m k a) (hlen : LenOk (lenAt m (chainEnd m k a)))
    (hinside : nextSegment m (chainEnd m k a) ≤ chipSize) : Passed chipSize m (k + 1) a := by
  refine ⟨?_, by rwa [chainEnd_succ]⟩
  have happend : ∀ {k a : Nat}, LensOk m k a → LenOk (lenAt m (chainEnd m k a)) →
      LensOk m (k + 1) a := by
    intro k
    induction k with
    | zero => exact fun _ hlast => ⟨hlast, trivial⟩
    | succ k ih =>
      intro a hlens hlast
      rw [chainEnd_cons] at hlast
      exact ⟨hlens.1, ih hlens.2 hlast⟩
  exact happend h.lens hlen

end Reads

/-! ### Segment data -/

def readLen (dataLen : Nat) : Nat := (dataLen + 127) / 128 * 128

section Data

variable {chipSize offs len : Nat} {m : Bytes}

theorem xorAll_append (checksum : UInt8) (bs cs : List UInt8) :
    xorAll checksum (bs ++ cs) = xorAll (xorAll checksum bs) cs := List.foldl_append

theorem read_chunk (hi : i < len) : m.read (offs + i) (len - i) =
    (m.read (offs + i) 128).take (len - i) ++ m.read (offs + (i + 128)) (len - (i + 128)) := by
  rw [Bytes.read_take]
  by_cases h : len - i ≤ 128
  · rw [Nat.min_eq_left h, show len - (i + 128) = 0 by omega]
    exact (List.append_nil _).symm
  · rw [Nat.min_eq_right (by omega), ← Nat.add_assoc, ← Bytes.read_add,
      show 128 + (len - (i + 128)) = len - i by omega]

theorem checksumLoop_ok (hchip : chipSize < 2 ^ 32) (hin : offs + readLen len ≤ chipSize) :
    ∀ {fuel i : Nat} {checksum : UInt8} {buf : List UInt8}, i % 128 = 0 → len ≤ i + 128 * fuel →
      checksumLoop chipSize m offs len fuel i checksum buf =
        .ok (xorAll checksum (m.read (offs + i) (len - i)),
          if i < len then m.read (offs + (len - 1) / 128 * 128) 128 else buf) := by
  intro fuel
  induction fuel with
  | zero =>
    intro i checksum buf _ hfuel
    rw [show len - i = 0 by omega, if_neg (by omega)]
    rfl
  | succ fuel ih =>
    intro i checksum buf halign hfuel
    by_cases hi : i < len
    · have hchunk : offs + i + 128 ≤ chipSize := by
        rw [readLen] at hin
        omega
      have hrest := @ih (i + 128)
        (xorAll checksum ((m.read (offs + i) 128).take (len - i))) (m.read (offs + i) 128)
        (by omega) (by omega)
      have hlast : (if i + 128 < len then m.read (offs + (len - 1) / 128 * 128) 128
          else m.read (offs + i) 128) = m.read (offs + (len - 1) / 128 * 128) 128 := by
        split_ifs with hmore
        · rfl
        · rw [show (len - 1) / 128 * 128 = i by omega]
      rw [hlast] at hrest
      rw [if_pos hi, read_chunk hi, xorAll_append, ← hrest, checksumLoop, if_pos hi,
        Nat.mod_eq_of_lt (by omega), flashRead_ok hchunk]
      rfl
    · rw [checksumLoop, if_neg hi, if_neg hi, show len - i = 0 by omega]
      rfl

theorem checksumLoop_error (hchip : chipSize < 2 ^ 32) (hout : ¬ offs + readLen len ≤ chipSize) :
    ∀ {fuel i : Nat} {checksum : UInt8} {buf : List UInt8}, i % 128 = 0 → len ≤ i + 128 * fuel →
      i < len → offs + i ≤ chipSize →
      checksumLoop chipSize m offs len fuel i checksum buf = .error .flashOpFail := by
  intro fuel
  rw [readLen] at hout
  induction fuel with
  | zero =>
    intro i checksum buf _ hfuel hi
    omega
  | succ fuel ih =>
    intro i checksum buf halign hfuel hi hle
    rw [checksumLoop, if_pos hi, Nat.mod_eq_of_lt (by omega)]
    by_cases hchunk : offs + i + 128 ≤ chipSize
    · rw [flashRead_ok hchunk]
      exact ih (by omega) (by omega) (by omega) (by omega)
    · rw [flashRead_error hchunk]
      rfl

end Data

/-! ### The loop over the segments -/

section Segments

variable {chipSize src a k i : Nat} {m : Bytes} {header : ImageHeader} {s : VerifyState}

/-- The `k` segments from `a` on are accepted: their headers and the reads of their data are inside
the chip, and their lengths are allowed. -/
def Accepted (chipSize : Nat) (m : Bytes) : Nat → Nat → Prop
  | 0, _ => True
  | k + 1, a => a + segmentHeaderSize ≤ chipSize ∧ LenOk (lenAt m a) ∧
      a + segmentHeaderSize + readLen (lenAt m a) ≤ chipSize ∧
        Accepted chipSize m k (nextSegment m a)

/-- What the buffer holds after the data of the segment at `a` was read. -/
def chunkAfter (m : Bytes) (a : Nat) (buf : List UInt8) : List UInt8 :=
  if 0 < lenAt m a then m.read (a + segmentHeaderSize + (lenAt m a - 1) / 128 * 128) 128 else buf

/-- What it holds after `k` segments. -/
def lastChunk (m : Bytes) (k a : Nat) (buf : List UInt8) : List UInt8 :=
  ((fun p : Nat × List UInt8 => (nextSegment m p.1, chunkAfter m p.1 p.2))^[k] (a, buf)).2

theorem lastChunk_zero : lastChunk m 0 a buf = buf := by
  rw [lastChunk, Function.iterate_zero_apply]

theorem lastChunk_cons : lastChunk m (k + 1) a buf =
    lastChunk m k (nextSegment m a) (chunkAfter m a buf) := by
  rw [lastChunk, Function.iterate_succ_apply, lastChunk]

theorem le_readLen (len : Nat) : len ≤ readLen len := by
  rw [readLen]
  omega

section

variable (hchip : chipSize < 2 ^ 32)
include hchip

section

variable (hpassed : Passed chipSize m i (src + imageHeaderSize))
include hpassed

theorem loadSegmentHeader_passed (hi : i < header.segmentCount.toNat) :
    espImageLoadSegmentHeader chipSize m i src header =
      segmentLoop chipSize m 0 (chainEnd m i (src + imageHeaderSize)) := by
  have hle := @le_chainEnd (src + imageHeaderSize) m i
  have hinside := hpassed.inside
  rw [espImageLoadSegmentHeader, if_neg (by omega), Nat.mod_eq_of_lt (by omega),
    segmentLoop_passed hchip hpassed]

theorem segmentsLoop_step (hi : i < header.segmentCount.toNat)
    (ha : chainEnd m i (src + imageHeaderSize) = a) (hin : a + segmentHeaderSize ≤ chipSize)
    (hlen : LenOk (lenAt m a)) (hread : a + segmentHeaderSize + readLen (lenAt m a) ≤ chipSize) :
    segmentsLoop chipSize m src header (k + 1) i s = segmentsLoop chipSize m src header k (i + 1)
        ⟨xorAll s.checksum (m.read (a + segmentHeaderSize) (lenAt m a)), chunkAfter m a s.buf,
          lenAt m a,
          a + segmentHeaderSize⟩ := by
  have hsum := @checksumLoop_ok chipSize (a + segmentHeaderSize) (lenAt m a) m hchip hread
    (lenAt m a / 128 + 1) 0 s.checksum s.buf rfl (by omega)
  have hheader : espImageLoadSegmentHeader chipSize m i src header =
      .ok (segmentHeaderAt m a, a + segmentHeaderSize) := by
    rw [loadSegmentHeader_passed hchip hpassed hi, ha, segmentLoop, readSegmentHeader_ok hin hlen]
    simp only [bind, Except.bind]
    rw [Nat.mod_eq_of_lt (by omega)]
  simp only [Nat.add_zero, Nat.sub_zero] at hsum
  rw [segmentsLoop, hheader, ok_bind]
  dsimp only [segmentHeaderAt]
  rw [hsum, ok_bind]
  rfl

theorem segmentsLoop_stop (hi : i < header.segmentCount.toNat)
    (ha : chainEnd m i (src + imageHeaderSize) = a)
    (h : ¬ (a + segmentHeaderSize ≤ chipSize ∧ LenOk (lenAt m a) ∧
      a + segmentHeaderSize + readLen (lenAt m a) ≤ chipSize)) :
    ∃ err, segmentsLoop chipSize m src header (k + 1) i s = .error err := by
  have hheader := @loadSegmentHeader_passed chipSize src i m header hchip hpassed hi
  rw [ha] at hheader
  by_cases hvalid : a + segmentHeaderSize ≤ chipSize ∧ LenOk (lenAt m a)
  · obtain ⟨hin, hlen⟩ := hvalid
    have hout : ¬ a + segmentHeaderSize + readLen (lenAt m a) ≤ chipSize := fun hread =>
      h ⟨hin, hlen, hread⟩
    have hpos : 0 < lenAt m a := by
      by_contra hzero
      rw [show lenAt m a = 0 by omega] at hout
      exact hout hin
    have hsum := @checksumLoop_error chipSize (a + segmentHeaderSize) (lenAt m a) m hchip hout
      (lenAt m a / 128 + 1) 0 s.checksum s.buf rfl (by omega) hpos hin
    have hok : espImageLoadSegmentHeader chipSize m i src header =
        .ok (segmentHeaderAt m a, a + segmentHeaderSize) := by
      rw [hheader, segmentLoop, readSegmentHeader_ok hin hlen]
      simp only [bind, Except.bind]
      rw [Nat.mod_eq_of_lt (by omega)]
    refine ⟨.flashOpFail, ?_⟩
    rw [segmentsLoop, hok, ok_bind]
    dsimp only [segmentHeaderAt]
    rw [hsum, error_bind]
  · obtain ⟨err, herr⟩ := readSegmentHeader_error hvalid
    refine ⟨err, ?_⟩
    rw [segmentsLoop, hheader, segmentLoop, herr, error_bind, error_bind]

end

theorem segmentsLoop_spec : ∀ {i a : Nat} {s : VerifyState},
    Passed chipSize m i (src + imageHeaderSize) → chainEnd m i (src + imageHeaderSize) = a →
    i + k ≤ header.segmentCount.toNat →
    (¬ Accepted chipSize m k a → ∃ err, segmentsLoop chipSize m src header k i s = .error err) ∧
    (Accepted chipSize m k a → ∃ s', segmentsLoop chipSize m src header k i s = .ok s' ∧
      s'.checksum = dataSum m k a s.checksum ∧ s'.buf = lastChunk m k a s.buf ∧
      (0 < k → s'.dataOffs + s'.dataLen = chainEnd m k a ∧ chainEnd m k a ≤ chipSize)) := by
  induction k with
  | zero =>
    intro i a s _ _ _
    exact ⟨fun h => absurd trivial h, fun _ => ⟨s, rfl, dataSum_zero.symm, lastChunk_zero.symm,
      fun h => absurd h (by omega)⟩⟩
  | succ k ih =>
    intro i a s hpassed ha hcount
    by_cases hfirst : a + segmentHeaderSize ≤ chipSize ∧ LenOk (lenAt m a) ∧
        a + segmentHeaderSize + readLen (lenAt m a) ≤ chipSize
    · obtain ⟨hin, hlen, hread⟩ := hfirst
      have hreadLen := le_readLen (lenAt m a)
      have hinside : nextSegment m a ≤ chipSize := by
        rw [nextSegment]
        omega
      have hstep := @segmentsLoop_step chipSize src a k i m header s hchip hpassed (by omega) ha
        hin hlen hread
      have hpassed' : Passed chipSize m (i + 1) (src + imageHeaderSize) :=
        hpassed.succ (ha ▸ hlen) (ha ▸ hinside)
      obtain ⟨hno, hyes⟩ := @ih (i + 1) (nextSegment m a)
        ⟨xorAll s.checksum (m.read (a + segmentHeaderSize) (lenAt m a)), chunkAfter m a s.buf,
          lenAt m a,
          a + segmentHeaderSize⟩ hpassed' (by rw [chainEnd_succ, ha]) (by omega)
      rw [hstep]
      refine ⟨fun h => hno fun hrest => h ⟨hin, hlen, hread, hrest⟩, fun h => ?_⟩
      obtain ⟨s', hrun, hsum, hbuf, hend⟩ := hyes h.2.2.2
      refine ⟨s', hrun, hsum.trans dataSum_cons.symm, hbuf.trans lastChunk_cons.symm, fun _ => ?_⟩
      rw [chainEnd_cons]
      cases k with
      | zero =>
        cases hrun
        exact ⟨rfl, hinside⟩
      | succ k => exact hend (by omega)
    · refine ⟨fun _ => segmentsLoop_stop hchip hpassed (by omega) ha hfirst, fun h => ?_⟩
      exact absurd ⟨h.1, h.2.1, h.2.2.1⟩ hfirst

end

end Segments

/-! ### When the verification is exact -/

/-- The verification accepts exactly the images. -/
def Exact (chipSize : Nat) (m : Bytes) (buf : List UInt8) (src : Nat) : Prop :=
  ∀ length, espImageBasicVerify chipSize m buf src = .ok length ↔ IsImage chipSize m src length

def HeaderOk (chipSize : Nat) (m : Bytes) (src : Nat) : Prop :=
  src + imageHeaderSize ≤ chipSize ∧ m src = 0xe9

/-- The reads of 128 bytes of the data of the first `k` segments from `a` on are inside the chip. -/
def ReadsInside (chipSize : Nat) (m : Bytes) (k a : Nat) : Prop :=
  ∀ i < k, chainEnd m i a + segmentHeaderSize + readLen (lenAt m (chainEnd m i a)) ≤ chipSize

/-- An image has segments, and the reads of their data do not leave the chip.  Nothing else is
accepted: the byte that is compared for an image without segments at address 0, or the one that is
left in the buffer where the checksum block leaves the chip, is not the checksum. -/
structure VerifiesRight (chipSize : Nat) (m : Bytes) (buf : List UInt8) (src : Nat) : Prop where
  image : ∀ length, IsImage chipSize m src length →
    segmentCount m src ≠ 0 ∧ ReadsInside chipSize m (segmentCount m src) (src + imageHeaderSize)
  empty : HeaderOk chipSize m src → segmentCount m src = 0 → src = 0 → m 15 ≠ 0xef
  stale : HeaderOk chipSize m src → segmentCount m src ≠ 0 →
    Accepted chipSize m (segmentCount m src) (src + imageHeaderSize) →
    imageEnd m src - src < sixteenMb → chipSize < src + padded (imageEnd m src - src) →
    dataSum m (segmentCount m src) (src + imageHeaderSize) 0xef ≠
      (lastChunk m (segmentCount m src) (src + imageHeaderSize) buf).getD 15 0

section Exact

variable {chipSize src : Nat} {m : Bytes}

theorem accepted_iff : ∀ {a : Nat}, a ≤ chipSize → (Accepted chipSize m k a ↔
    LensOk m k a ∧ chainEnd m k a ≤ chipSize ∧ ReadsInside chipSize m k a) := by
  induction k with
  | zero =>
    intro a ha
    exact iff_of_true trivial ⟨trivial, ha, fun i hi => absurd hi (Nat.not_lt_zero i)⟩
  | succ k ih =>
    intro a ha
    have hle := @le_nextSegment a m
    have hle' := @le_chainEnd (nextSegment m a) m k
    have hlen := le_readLen (lenAt m a)
    have hnext : nextSegment m a = a + segmentHeaderSize + lenAt m a := rfl
    have hreads : ReadsInside chipSize m (k + 1) a ↔
        a + segmentHeaderSize + readLen (lenAt m a) ≤ chipSize ∧
          ReadsInside chipSize m k (nextSegment m a) := by
      constructor
      · intro h
        refine ⟨h 0 (by omega), fun i hi => ?_⟩
        have := h (i + 1) (by omega)
        rwa [chainEnd_cons] at this
      · rintro ⟨hfirst, hrest⟩ i hi
        cases i with
        | zero => exact hfirst
        | succ i =>
          rw [chainEnd_cons]
          exact hrest i (by omega)
    rw [chainEnd_cons, hreads]
    constructor
    · rintro ⟨-, hlenOk, hread, hacc⟩
      obtain ⟨hlens, hend, hrest⟩ := (ih (by omega)).mp hacc
      exact ⟨⟨hlenOk, hlens⟩, hend, hread, hrest⟩
    · rintro ⟨⟨hlenOk, hlens⟩, hend, hread, hrest⟩
      exact ⟨by omega, hlenOk, hread, (ih (by omega)).mpr ⟨hlens, hend, hrest⟩⟩

theorem espImageLoadHeader_ok (hin : src + imageHeaderSize ≤ chipSize) (hmagic : m src = 0xe9) :
    espImageLoadHeader chipSize m src = .ok ⟨0xe9, m (src + 1)⟩ := by
  have h0 : (m.read src imageHeaderSize).getD 0 0 = m src := Bytes.getD_read (by decide) 0
  have h1 : (m.read src imageHeaderSize).getD 1 0 = m (src + 1) := Bytes.getD_read (by decide) 0
  rw [espImageLoadHeader, flashRead_ok hin, ok_bind, h0, h1, hmagic, if_neg (by simp)]

theorem espImageLoadHeader_error (h : ¬ (src + imageHeaderSize ≤ chipSize ∧ m src = 0xe9)) :
    ∃ err, espImageLoadHeader chipSize m src = .error err := by
  by_cases hin : src + imageHeaderSize ≤ chipSize
  · have h0 : (m.read src imageHeaderSize).getD 0 0 = m src := Bytes.getD_read (by decide) 0
    refine ⟨.imageInvalid, ?_⟩
    rw [espImageLoadHeader, flashRead_ok hin, ok_bind, h0, if_pos fun hmagic => h ⟨hin, hmagic⟩]
  · refine ⟨.flashOpFail, ?_⟩
    rw [espImageLoadHeader, flashRead_error hin, error_bind]

theorem verifyEnd_ok_iff (hchip : chipSize < 2 ^ 32) (hstop : s.dataOffs + s.dataLen = stop)
    (hinside : stop ≤ chipSize) (hsrc : src ≤ stop)
    (hblock : src + padded (stop - src) ≤ chipSize) :
    verifyEnd chipSize m src s = .ok length ↔
      stop - src < sixteenMb ∧ length = padded (stop - src) ∧
        s.checksum = m (src + length - 1) := by
  have hpad : stop - src + 16 - (stop - src + 16) % 16 = padded (stop - src) := by
    rw [padded]
    omega
  simp only [verifyEnd, hstop, Nat.mod_eq_of_lt (Nat.lt_of_le_of_lt hinside hchip)]
  rw [if_neg (by omega)]
  by_cases hshort : stop - src < sixteenMb
  · rw [if_neg (by omega), hpad, Nat.mod_eq_of_lt (by omega), flashRead_ok (by omega)]
    have hbyte : (m.read (src + padded (stop - src) - 16) 16 ++ s.buf.drop 16).getD 15 0 =
        m (src + padded (stop - src) - 1) := by
      rw [List.getD_append _ _ _ _ (by simp), Bytes.getD_read (by omega)]
      congr 1
      omega
    rw [hbyte]
    by_cases hsum : s.checksum = m (src + padded (stop - src) - 1)
    · rw [if_neg (not_not.mpr hsum)]
      constructor
      · intro h
        cases h
        exact ⟨hshort, rfl, hsum⟩
      · rintro ⟨-, rfl, -⟩
        rfl
    · rw [if_pos hsum]
      refine iff_of_false (by simp) ?_
      rintro ⟨-, rfl, h⟩
      exact hsum h
  · rw [if_pos (by omega)]
    exact iff_of_false (by simp) fun h => hshort h.1

theorem verifyEnd_stale (hchip : chipSize < 2 ^ 32) (hstop : s.dataOffs + s.dataLen = stop)
    (hinside : stop ≤ chipSize) (hsrc : src ≤ stop) (hshort : stop - src < sixteenMb)
    (hblock : chipSize < src + padded (stop - src)) :
    verifyEnd chipSize m src s =
      if s.checksum ≠ s.buf.getD 15 0 then .error .imageInvalid else .ok (padded (stop - src)) := by
  have hpad : stop - src + 16 - (stop - src + 16) % 16 = padded (stop - src) := by
    rw [padded]
    omega
  have hread : flashRead chipSize m ((src + padded (stop - src) - 16) % 2 ^ 32) 16 =
      .error .flashOpFail := by
    have hle : padded (stop - src) ≤ stop - src + 16 := by
      rw [padded]
      omega
    rw [Nat.mod_eq_of_lt (by omega)]
    exact flashRead_error (by omega)
  simp only [verifyEnd, hstop, Nat.mod_eq_of_lt (Nat.lt_of_le_of_lt hinside hchip)]
  rw [if_neg (by omega), if_neg (by omega), hpad, hread]

theorem IsImage.headerOk (h : IsImage chipSize m src length) : HeaderOk chipSize m src := by
  have hend := @le_chainEnd (src + imageHeaderSize) m (segmentCount m src)
  have hinside := h.inside
  have hpadding := h.padding
  rw [imageEnd, padded] at hpadding
  exact ⟨by omega, h.magic⟩

theorem IsImage.imageEnd_le (h : IsImage chipSize m src length) : imageEnd m src ≤ chipSize := by
  have hinside := h.inside
  have hpadding := h.padding
  rw [padded] at hpadding
  omega

theorem verify_empty (hheader : HeaderOk chipSize m src) (hcount : segmentCount m src = 0)
    (buf : List UInt8) :
    espImageBasicVerify chipSize m buf src = if src = 0 ∧ m 15 = 0xef then .ok 16
      else .error .imageInvalid := by
  have hzero : (m (src + 1)).toNat = 0 := hcount
  have hhead : imageHeaderSize = 24 := rfl
  rw [espImageBasicVerify, espImageLoadHeader_ok hheader.1 hheader.2, ok_bind, hzero, segmentsLoop,
    ok_bind, verifyEnd]
  by_cases hsrc : src = 0
  · subst hsrc
    have hin : 0 + imageHeaderSize ≤ chipSize := hheader.1
    have hread : flashRead chipSize m ((0 + (0 - 0 + 16 - (0 - 0 + 16) % 16) - 16) % 2 ^ 32) 16 =
        .ok (m.read 0 16) := flashRead_ok (by omega)
    have hbyte : (m.read 0 16 ++ buf.drop 16).getD 15 0 = m 15 := by
      rw [List.getD_append _ _ _ _ (by simp), Bytes.getD_read (by omega)]
    simp only [Nat.add_zero, Nat.zero_mod, hread, hbyte]
    by_cases hef : m 15 = 0xef
    · simp [hef, sixteenMb]
    · simp [hef, sixteenMb, Ne.symm hef]
  · exact (if_pos (show (0 + 0) % 2 ^ 32 < src by omega)).trans (if_neg fun h => hsrc h.1).symm

section

variable (hchip : chipSize < 2 ^ 32) (hheader : HeaderOk chipSize m src)
include hchip hheader

theorem verify_accepted (hcount : segmentCount m src ≠ 0)
    (haccept : Accepted chipSize m (segmentCount m src) (src + imageHeaderSize))
    (buf : List UInt8) :
    ∃ s, espImageBasicVerify chipSize m buf src = verifyEnd chipSize m src s ∧
      s.dataOffs + s.dataLen = imageEnd m src ∧
      s.checksum = dataSum m (segmentCount m src) (src + imageHeaderSize) 0xef ∧
      s.buf = lastChunk m (segmentCount m src) (src + imageHeaderSize) buf := by
  obtain ⟨-, hyes⟩ := @segmentsLoop_spec chipSize src (segmentCount m src) m ⟨0xe9, m (src + 1)⟩
    hchip 0 (src + imageHeaderSize) ⟨0xef, buf, 0, 0⟩
      ⟨trivial, by rw [chainEnd_zero]; exact hheader.1⟩
    chainEnd_zero (by rw [Nat.zero_add]; exact Nat.le_refl _)
  obtain ⟨s, hrun, hsum, hbuf, hstop⟩ := hyes haccept
  change segmentsLoop chipSize m src ⟨0xe9, m (src + 1)⟩ (m (src + 1)).toNat 0 _ = _ at hrun
  refine ⟨s, ?_, (hstop (Nat.pos_of_ne_zero hcount)).1, hsum, hbuf⟩
  rw [espImageBasicVerify, espImageLoadHeader_ok hheader.1 hheader.2, ok_bind, hrun, ok_bind]

theorem verify_refused (haccept : ¬ Accepted chipSize m (segmentCount m src)
    (src + imageHeaderSize))
    (buf : List UInt8) : ∃ err, espImageBasicVerify chipSize m buf src = .error err := by
  obtain ⟨hno, -⟩ := @segmentsLoop_spec chipSize src (segmentCount m src) m ⟨0xe9, m (src + 1)⟩
    hchip 0 (src + imageHeaderSize) ⟨0xef, buf, 0, 0⟩
      ⟨trivial, by rw [chainEnd_zero]; exact hheader.1⟩
    chainEnd_zero (by rw [Nat.zero_add]; exact Nat.le_refl _)
  obtain ⟨err, herr⟩ := hno haccept
  change segmentsLoop chipSize m src ⟨0xe9, m (src + 1)⟩ (m (src + 1)).toNat 0 _ = _ at herr
  refine ⟨err, ?_⟩
  rw [espImageBasicVerify, espImageLoadHeader_ok hheader.1 hheader.2, ok_bind, herr, error_bind]

end

theorem exact_of_error (h : espImageBasicVerify chipSize m buf src = .error err) :
    Exact chipSize m buf src ↔ ∀ length, ¬ IsImage chipSize m src length := by
  simp [Exact, h]

theorem exact_empty_iff (hheader : HeaderOk chipSize m src) (hcount : segmentCount m src = 0)
    (buf : List UInt8) : Exact chipSize m buf src ↔ VerifiesRight chipSize m buf src := by
  have hverify := verify_empty hheader hcount buf
  by_cases hzero : src = 0 ∧ m 15 = 0xef
  · rw [if_pos hzero] at hverify
    refine iff_of_false (fun hexact => ?_) fun h => h.empty hheader hcount hzero.1 hzero.2
    have himage := (hexact 16).mp hverify
    have hpadding := himage.padding
    rw [imageEnd, hcount, chainEnd_zero, padded, imageHeaderSize] at hpadding
    omega
  · rw [if_neg hzero] at hverify
    rw [exact_of_error hverify]
    constructor
    · exact fun hno => ⟨fun length himage => absurd himage (hno length),
        fun _ _ hsrc hef => hzero ⟨hsrc, hef⟩, fun _ hpos => absurd hcount hpos⟩
    · exact fun h length himage => (h.image length himage).1 hcount

theorem exact_accepted_iff (hchip : chipSize < 2 ^ 32) (hheader : HeaderOk chipSize m src)
    (hcount : segmentCount m src ≠ 0)
    (haccept : Accepted chipSize m (segmentCount m src) (src + imageHeaderSize))
    (buf : List UInt8) :
    Exact chipSize m buf src ↔ VerifiesRight chipSize m buf src := by
  obtain ⟨s, hverify, hstop, hsum, hbuf⟩ := verify_accepted hchip hheader hcount haccept buf
  obtain ⟨hlens, hinside, hreads⟩ := (accepted_iff hheader.1).mp haccept
  have hinside : imageEnd m src ≤ chipSize := hinside
  have hsrc : src ≤ imageEnd m src :=
    Nat.le_trans (Nat.le_add_right _ _) (@le_chainEnd (src + imageHeaderSize) m
      (segmentCount m src))
  by_cases hshort : imageEnd m src - src < sixteenMb
  · by_cases hblock : src + padded (imageEnd m src - src) ≤ chipSize
    · refine iff_of_true (fun length => ?_) ⟨fun _ _ => ⟨hcount, hreads⟩,
        fun _ hzero => absurd hzero hcount, fun _ _ _ _ hout => absurd hblock (by omega)⟩
      rw [hverify, verifyEnd_ok_iff hchip hstop hinside hsrc hblock]
      constructor
      · rintro ⟨-, rfl, hck⟩
        exact ⟨hheader.2, hlens, hshort, rfl, hblock, hck.symm.trans hsum⟩
      · intro himage
        exact ⟨himage.short, himage.padding, hsum.trans himage.checksum.symm⟩
    · -- the checksum block leaves the chip, so there is no image
      have hno : ∀ length, ¬ IsImage chipSize m src length := fun length himage =>
        hblock (himage.padding ▸ himage.inside)
      rw [verifyEnd_stale hchip hstop hinside hsrc hshort (Nat.lt_of_not_le hblock), hsum,
        hbuf] at hverify
      by_cases hstale : dataSum m (segmentCount m src) (src + imageHeaderSize) 0xef =
          (lastChunk m (segmentCount m src) (src + imageHeaderSize) buf).getD 15 0
      · rw [if_neg (not_not.mpr hstale)] at hverify
        refine iff_of_false (fun hexact => hno _ ((hexact _).mp hverify)) fun h => ?_
        exact h.stale hheader hcount haccept hshort (Nat.lt_of_not_le hblock) hstale
      · rw [if_pos hstale] at hverify
        rw [exact_of_error hverify]
        exact iff_of_true hno ⟨fun length himage => absurd himage (hno length),
          fun _ hzero => absurd hzero hcount, fun _ _ _ _ _ => hstale⟩
  · have hend : ∀ length, verifyEnd chipSize m src s ≠ .ok length := by
      intro length h
      rw [verifyEnd, hstop, Nat.mod_eq_of_lt (Nat.lt_of_le_of_lt hinside hchip)] at h
      dsimp only at h
      rw [if_neg (Nat.not_lt.mpr hsrc), if_pos (Nat.not_lt.mp hshort)] at h
      cases h
    have hno : ∀ length, ¬ IsImage chipSize m src length := fun _ himage => hshort himage.short
    refine iff_of_true (fun length => ?_) ⟨fun length himage => absurd himage (hno length),
      fun _ hzero => absurd hzero hcount, fun _ _ _ h => absurd h hshort⟩
    rw [hverify]
    exact iff_of_false (hend length) (hno length)

/-- For every contents of the flash, and of the buffer on the stack: the verification accepts
exactly the images if and only if the data of an image can be read in chunks of 128 bytes, it has
segments, and the byte that is compared in place of the checksum differs from it. -/
theorem verify_exact_iff (hchip : chipSize < 2 ^ 32) (m : Bytes) (buf : List UInt8) (src : Nat) :
    Exact chipSize m buf src ↔ VerifiesRight chipSize m buf src := by
  by_cases hheader : HeaderOk chipSize m src
  · by_cases hcount : segmentCount m src = 0
    · exact exact_empty_iff hheader hcount buf
    by_cases haccept : Accepted chipSize m (segmentCount m src) (src + imageHeaderSize)
    · exact exact_accepted_iff hchip hheader hcount haccept buf
    · obtain ⟨err, herr⟩ := verify_refused hchip hheader haccept buf
      rw [exact_of_error herr]
      constructor
      · exact fun hno => ⟨fun length himage => absurd himage (hno length),
          fun _ hzero => absurd hzero hcount, fun _ _ hacc => absurd hacc haccept⟩
      · intro h length himage
        exact haccept ((accepted_iff hheader.1).mpr
          ⟨himage.lens, himage.imageEnd_le, (h.image length himage).2⟩)
  · obtain ⟨err, herr⟩ := espImageLoadHeader_error hheader
    have hverify : espImageBasicVerify chipSize m buf src = .error err := by
      rw [espImageBasicVerify, herr, error_bind]
    have hno : ∀ length, ¬ IsImage chipSize m src length := fun _ himage => hheader himage.headerOk
    rw [exact_of_error hverify]
    exact iff_of_true hno ⟨fun length himage => absurd himage (hno length),
      fun h => absurd h hheader, fun h => absurd h hheader⟩

end Exact

/-- One segment of 4 bytes, and the checksum at the end of 48. -/
def tinyImage : Bytes := fun x =>
  if x = 0 then 0xe9 else if x = 1 then 1 else if x = 28 then 4 else if x = 47 then 0xef else 0

theorem tinyImage_isImage {chipSize : Nat} (h : 48 ≤ chipSize) :
    IsImage chipSize tinyImage 0 48 where
  magic := rfl
  lens := ⟨by decide, trivial⟩
  short := by decide
  padding := rfl
  inside := h
  checksum := rfl

theorem verify_exact_tinyImage : espImageBasicVerify 0x1000 tinyImage [] 0 = .ok 48 := by
  refine ((verify_exact_iff (by decide) tinyImage [] 0).mpr
    ⟨fun _ _ => ⟨by decide, ?_⟩, ?_, ?_⟩ 48).mpr
    (tinyImage_isImage (by decide))
  · intro i hi
    have hcount : segmentCount tinyImage 0 = 1 := rfl
    obtain rfl : i = 0 := by omega
    decide
  · exact fun _ hzero => absurd hzero (by decide)
  · exact fun _ _ _ _ hout => absurd hout (by decide)

def wideImage : Bytes := fun x =>
  if x = 0 then 0xe9 else if x = 1 then 1 else if x = 28 then 128 else if x = 48 then 0xef else 0

def emptyImage : Bytes := fun x => if x = 64 then 0xe9 else if x = 95 then 0xef else 0

theorem verify_not_exact :
    (IsImage 48 tinyImage 0 48 ∧ espImageBasicVerify 48 tinyImage [] 0 = .error .flashOpFail) ∧
    (espImageBasicVerify 160 wideImage [] 0 = .ok 176 ∧ ¬ IsImage 160 wideImage 0 176) ∧
    (IsImage 96 emptyImage 64 32 ∧ espImageBasicVerify 96 emptyImage [] 64 =
      .error .imageInvalid) := by
  refine ⟨⟨tinyImage_isImage (Nat.le_refl 48), rfl⟩,
    ⟨by decide +kernel, fun h => absurd h.inside (by decide)⟩, ?_,
    rfl⟩
  exact ⟨rfl, trivial, by decide, rfl, by decide, rfl⟩

end EspIdf.Bootloader
