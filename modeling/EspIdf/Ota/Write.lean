import EspIdf.Ota.Model
import EspIdf.Device.Ram

/-! Writing an update: `esp_ota_begin`, `esp_ota_write` and the flush of `esp_ota_end` in
`esp_ota_ops.c`, for the entry of one handle, over the range checks of `partition.c`.  With flash
encryption only blocks of 16 bytes are written, and the rest waits in the entry. -/

namespace EspIdf.Ota

open EspIdf.Device

/-! ### Calls on a partition -/

/-- What reaches the flash of a partition, with offsets in the partition. -/
inductive PartOp where
  | eraseRange (startAddr size : Nat)
  | write (dstOffset : Nat) (src : List UInt8)
  deriving DecidableEq, Repr

/-- `esp_partition_write` on a partition of `partSize` bytes; `flashOk` says whether the flash
driver succeeds. -/
def espPartitionWrite (partSize : Nat) (flashOk : Bool) (dstOffset : Nat) (src : List UInt8) :
    EspErr × List PartOp :=
  if dstOffset > partSize then (.invalidArg, [])
  else if (dstOffset + src.length) % 2 ^ 32 > partSize then (.invalidSize, [])
  else (if flashOk then .ok else .flashOpFail, [.write dstOffset src])

def espPartitionEraseRange (partSize : Nat) (flashOk : Bool) (startAddr size : Nat) :
    EspErr × List PartOp :=
  if startAddr > partSize then (.invalidArg, [])
  else if (startAddr + size) % 2 ^ 32 > partSize then (.invalidSize, [])
  else if size % secSize ≠ 0 then (.invalidSize, [])
  else if startAddr % secSize ≠ 0 then (.invalidArg, [])
  else (if flashOk then .ok else .flashOpFail, [.eraseRange startAddr size])

/-- The entry of the table that the caller's copy stands for.  A copy whose `encrypted` differs from
the entry's is left out. -/
def espPartitionVerify (table : List Part) (p : Part) : Option Part :=
  table.find? fun q => p.type = q.type ∧ (p.subtype = 0xff ∨ p.subtype = q.subtype) ∧
    (p.label = [] ∨ p.label = q.label) ∧ q.pos.offset = p.pos.offset ∧ p.pos.size = q.pos.size

/-! ### The entry of a handle -/

structure OtaOpsEntry where
  part : Part
  erasedSize : Nat
  wroteSize : Nat
  partialBytes : Nat
  partialData : List UInt8
  deriving DecidableEq, Repr

def otaSizeUnknown : Nat := 0xffffffff

def isOtaPartition (p : Part) : Bool :=
  p.type = typeApp ∧ p.subtype ≥ subtypeAppOtaMin ∧ p.subtype < subtypeAppOtaMin + 16

def beginEraseSize (p : Part) (imageSize : Nat) : Nat :=
  if imageSize = 0 ∨ imageSize = otaSizeUnknown then p.pos.size
  else (imageSize / secSize + 1) * secSize % 2 ^ 32

/-- The entry that `calloc` makes, filled in. -/
def newEntry (p : Part) (imageSize : Nat) : OtaOpsEntry where
  part := p
  erasedSize := if imageSize = 0 ∨ imageSize = otaSizeUnknown then p.pos.size else imageSize
  wroteSize := 0
  partialBytes := 0
  partialData := List.replicate 16 0

/-- `esp_ota_begin`; `running` is the running partition, `flashOk` and `memOk` say whether erasing
and `calloc` succeed. -/
def espOtaBegin (table : List Part) (running : Option Part) (flashOk memOk : Bool)
    (partition : Option Part) (imageSize : Nat) : EspErr × Option OtaOpsEntry × List PartOp :=
  match partition with
  | none => (.invalidArg, none, [])
  | some partition =>
    match espPartitionVerify table partition with
    | none => (.notFound, none, [])
    | some p =>
      if ¬ isOtaPartition p then (.invalidArg, none, [])
      else if running = some p then (.otaPartitionConflict, none, [])
      else
        let (ret, ops) := espPartitionEraseRange p.pos.size flashOk 0 (beginEraseSize p imageSize)
        if ret ≠ .ok then (ret, none, ops)
        else if ¬ memOk then (.noMem, none, ops)
        else (.ok, some (newEntry p imageSize), ops)

def overlay (l : List UInt8) (k : Nat) (bs : List UInt8) : List UInt8 :=
  l.take k ++ bs ++ l.drop (k + bs.length)

def saveTrailing (e : OtaOpsEntry) (data : List UInt8) : OtaOpsEntry × List UInt8 :=
  let n := data.length % 16
  if n ≠ 0 then
    let size := data.length - n
    ({ e with partialBytes := n, partialData := overlay e.partialData 0 (data.drop size) },
      data.take size)
  else ({ e with partialBytes := 0 }, data)

def writeData (flashOk : Bool) (e : OtaOpsEntry) (data : List UInt8) :
    EspErr × OtaOpsEntry × List PartOp :=
  let (ret, ops) := espPartitionWrite e.part.pos.size flashOk e.wroteSize data
  if ret = .ok then (ret, { e with wroteSize := (e.wroteSize + data.length) % 2 ^ 32 }, ops)
  else (ret, e, ops)

def writeEncrypted (flashOk flashOk' : Bool) (e : OtaOpsEntry) (data : List UInt8) :
    EspErr × OtaOpsEntry × List PartOp :=
  if e.partialBytes ≠ 0 then
    let copyLen := min (16 - e.partialBytes) data.length
    let e := { e with
      partialData := overlay e.partialData e.partialBytes (data.take copyLen)
      partialBytes := e.partialBytes + copyLen }
    if e.partialBytes ≠ 16 then (.ok, e, [])
    else
      let (ret, ops) := espPartitionWrite e.part.pos.size flashOk e.wroteSize e.partialData
      if ret ≠ .ok then (ret, e, ops)
      else
        let e := { e with
          partialBytes := 0
          partialData := List.replicate 16 0xff
          wroteSize := (e.wroteSize + 16) % 2 ^ 32 }
        let (e, data) := saveTrailing e (data.drop copyLen)
        let (ret, e, ops') := writeData flashOk' e data
        (ret, e, ops ++ ops')
  else
    let (e, data) := saveTrailing e data
    writeData flashOk' e data

/-- `esp_ota_write` for the entry of the handle; `flashOk` and `flashOk'` say whether the writes of
a completed block and of the data after it succeed, and `none` is the failed assertion. -/
def espOtaWrite (encryption flashOk flashOk' : Bool) (e : OtaOpsEntry) (data : List UInt8) :
    Option (EspErr × OtaOpsEntry × List PartOp) :=
  if ¬ e.erasedSize > 0 then none
  else if e.wroteSize = 0 ∧ data.length > 0 ∧ data.head? ≠ some 0xe9 then
    some (.otaValidateFailed, e, [])
  else if encryption then some (writeEncrypted flashOk flashOk' e data)
  else some (writeData flashOk' e data)

def espOtaEnd (flashOk imageOk : Bool) (e : OtaOpsEntry) : EspErr × List PartOp :=
  if e.erasedSize = 0 ∨ e.wroteSize = 0 then (.invalidArg, [])
  else if e.partialBytes > 0 then
    let (ret, ops) := espPartitionWrite e.part.pos.size flashOk e.wroteSize e.partialData
    if ret ≠ .ok then (.invalidState, ops)
    else (if imageOk then .ok else .otaValidateFailed, ops)
  else (if imageOk then .ok else .otaValidateFailed, [])

/-! ### Partition calls in range -/

theorem espPartitionWrite_ok {partSize off : Nat} (h : off + src.length ≤ partSize)
    (hsize : partSize < 2 ^ 32) :
    espPartitionWrite partSize true off src = (.ok, [.write off src]) := by
  rw [espPartitionWrite, if_neg (by omega), if_neg (by omega), if_pos rfl]

theorem writeData_ok {data : List UInt8} (h : e.wroteSize + data.length ≤ e.part.pos.size)
    (hsize : e.part.pos.size < 2 ^ 32) :
    writeData true e data = (.ok, { e with wroteSize := e.wroteSize + data.length },
      [.write e.wroteSize data]) := by
  rw [writeData, espPartitionWrite_ok h hsize]
  dsimp only
  rw [if_pos rfl, Nat.mod_eq_of_lt (by omega)]

theorem espPartitionEraseRange_zero {partSize size : Nat} (hsize : size < 2 ^ 32)
    (hsec : size % secSize = 0) :
    espPartitionEraseRange partSize true 0 size =
      if size ≤ partSize then (.ok, [.eraseRange 0 size]) else (.invalidSize, []) := by
  rw [espPartitionEraseRange, if_neg (by omega)]
  by_cases h : size ≤ partSize
  · rw [if_neg (by omega), if_neg (by simpa using hsec), if_neg (by simp), if_pos h, if_pos rfl]
  · rw [if_pos (by omega), if_neg h]

theorem espPartitionEraseRange_eq_ok (h : espPartitionEraseRange partSize flashOk a n =
    (.ok, ops)) :
    ops = [.eraseRange a n] ∧ (a + n) % 2 ^ 32 ≤ partSize := by
  unfold espPartitionEraseRange at h
  split_ifs at h with h1 h2 h3 h4 h5
  all_goals simp only [Prod.mk.injEq, reduceCtorEq, false_and, true_and] at h
  exact ⟨h.symm, Nat.le_of_not_gt h2⟩

/-! ### A handle that was begun -/

theorem espOtaBegin_ok (h : espOtaBegin table running flashOk memOk partition imageSize =
    (.ok, some e, ops)) :
    e = newEntry e.part imageSize ∧ ops = [.eraseRange 0 (beginEraseSize e.part imageSize)] ∧
      beginEraseSize e.part imageSize % 2 ^ 32 ≤ e.part.pos.size := by
  cases partition with
  | none => simp [espOtaBegin] at h
  | some partition =>
    cases hv : espPartitionVerify table partition with
    | none => simp [espOtaBegin, hv] at h
    | some p =>
      rcases he : espPartitionEraseRange p.pos.size flashOk 0 (beginEraseSize p imageSize) with
        ⟨ret, ops'⟩
      simp only [espOtaBegin, hv, he] at h
      split_ifs at h with hota hrun hret hmem
      all_goals simp only [Prod.mk.injEq, Option.some.injEq, reduceCtorEq, false_and, and_false,
        true_and] at h
      obtain ⟨rfl, rfl⟩ := h
      obtain ⟨hops, hle⟩ := espPartitionEraseRange_eq_ok (he.trans (by rw [not_not.mp hret]))
      rw [Nat.zero_add] at hle
      exact ⟨rfl, hops, hle⟩

def writes : Nat → List (List UInt8) → List PartOp
  | _, [] => []
  | a, b :: bs => .write a b :: writes (a + b.length) bs

def flushed (encryption : Bool) (n : Nat) : Nat := if encryption then n / 16 * 16 else n

/-- The entry after the bytes `w` were taken.  The block that is not complete waits in the entry,
before bytes `fill`. -/
structure Holds (encryption : Bool) (e : OtaOpsEntry) (w : List UInt8) (fill : UInt8) : Prop where
  erased : 0 < e.erasedSize
  wrote : e.wroteSize = flushed encryption w.length
  bytes : e.partialBytes = w.length - e.wroteSize
  data : encryption = true →
    e.partialData = w.drop e.wroteSize ++ List.replicate (16 - e.partialBytes) fill

def fillAfter (n : Nat) (fill : UInt8) (chunk : List UInt8) : UInt8 :=
  if n % 16 ≠ 0 ∧ 16 ≤ n % 16 + chunk.length then 0xff else fill

theorem newEntry_holds (encryption : Bool) (h : 0 < (newEntry p imageSize).erasedSize) :
    Holds encryption (newEntry p imageSize) [] 0 :=
  ⟨h, by simp [newEntry, flushed], rfl, fun _ => rfl⟩

variable {fill : UInt8}

theorem Holds.write_aligned (h : Holds true e w fill) (halign : w.length % 16 = 0)
    (hfit : flushed true (w.length + c.length) ≤ e.part.pos.size)
    (hsize : e.part.pos.size < 2 ^ 32) :
    ∃ e' d, writeData true (saveTrailing e c).1 (saveTrailing e c).2 =
        (.ok, e', [.write e.wroteSize d]) ∧ Holds true e' (w ++ c) fill ∧ e'.part = e.part ∧
      d = ((w ++ c).take e'.wroteSize).drop e.wroteSize ∧ e'.wroteSize =
        e.wroteSize + d.length := by
  have hwrote : e.wroteSize = w.length := by
    rw [h.wrote]
    simp only [flushed, if_true]
    omega
  have hbytes : e.partialBytes = 0 := by rw [h.bytes]; omega
  have hdata : e.partialData = List.replicate 16 fill := by
    rw [h.data rfl, hwrote, List.drop_length, hbytes]
    rfl
  simp only [flushed, if_true] at hfit
  by_cases hn : c.length % 16 = 0
  · have hsave : saveTrailing e c = ({ e with partialBytes := 0 }, c) := by
      exact if_neg (by omega)
    rw [hsave]
    refine ⟨_, c, writeData_ok (by dsimp only; omega) hsize, ⟨h.erased, ?_, ?_, ?_⟩, rfl, ?_, rfl⟩
    · simp only [flushed, List.length_append, if_true]
      omega
    · simp only [List.length_append]
      omega
    · intro _
      rw [hdata, List.drop_eq_nil_of_le (by simp; omega)]
      rfl
    · rw [List.take_of_length_le (by simp; omega), hwrote, List.drop_left]
  · have hsave : saveTrailing e c =
        ({ e with
          partialBytes := c.length % 16
          partialData := overlay e.partialData 0 (c.drop (c.length - c.length % 16)) },
        c.take (c.length - c.length % 16)) := by
      exact if_pos hn
    have hlen : (c.take (c.length - c.length % 16)).length = c.length - c.length % 16 := by
      rw [List.length_take]
      omega
    rw [hsave]
    refine ⟨_, _, writeData_ok (by dsimp only; omega) hsize,
      ⟨h.erased, ?_, ?_, ?_⟩, rfl, ?_, rfl⟩
    · simp only [flushed, List.length_append, if_true, hlen]
      omega
    · simp only [List.length_append, hlen]
      omega
    · intro _
      rw [hlen, hwrote, List.drop_length_add_append, hdata, overlay, List.drop_replicate,
        List.length_drop, List.take_zero, List.nil_append, Nat.zero_add,
          Nat.sub_sub_self (by omega)]
    · rw [hlen, hwrote, List.take_length_add_append, List.drop_left]

theorem Holds.completed (h : Holds true e w fill) (hc : w.length % 16 + c.length = 16) :
    Holds true { e with
      partialBytes := 0
      partialData := List.replicate 16 0xff
      wroteSize := e.wroteSize + 16 } (w ++ c) 0xff := by
  have hwrote := h.wrote
  simp only [flushed, if_true] at hwrote
  refine ⟨h.erased, ?_, ?_, fun _ => ?_⟩
  · simp only [flushed, List.length_append, if_true]
    omega
  · simp only [List.length_append]
    omega
  · rw [List.drop_eq_nil_of_le (by simp; omega)]
    rfl

theorem Holds.overlay_eq (h : Holds true e w fill) (c : List UInt8) :
    overlay e.partialData e.partialBytes c =
      (w ++ c).drop e.wroteSize ++ List.replicate (16 - (e.partialBytes + c.length)) fill := by
  have hwrote := h.wrote
  simp only [flushed, if_true] at hwrote
  have hlen : (w.drop e.wroteSize).length = e.partialBytes := by rw [List.length_drop, h.bytes]
  rw [overlay, h.data rfl, List.take_left' hlen, ← hlen, List.drop_length_add_append,
    List.drop_replicate, List.drop_append_of_le_length (by omega), Nat.sub_sub]

theorem Holds.partialBytes_eq (h : Holds true e w fill) : e.partialBytes = w.length % 16 := by
  rw [h.bytes, h.wrote]
  simp only [flushed, if_true]
  omega

theorem Holds.write_unaligned (h : Holds true e w fill) (hn : w.length % 16 ≠ 0)
    (hfit : flushed true (w.length + c.length) ≤ e.part.pos.size)
    (hsize : e.part.pos.size < 2 ^ 32) :
    ∃ e' bs, writeEncrypted true true e c = (.ok, e', writes e.wroteSize bs) ∧
      Holds true e' (w ++ c) (fillAfter w.length fill c) ∧ e'.part = e.part ∧
      bs.flatten = ((w ++ c).take e'.wroteSize).drop e.wroteSize ∧
      e'.wroteSize = e.wroteSize + bs.flatten.length := by
  have hbytes := h.partialBytes_eq
  have hwrote := h.wrote
  simp only [flushed, if_true] at hwrote hfit
  by_cases hfull : w.length % 16 + c.length < 16
  · have hcopy : min (16 - e.partialBytes) c.length = c.length := by omega
    have hrun : writeEncrypted true true e c = (.ok, { e with
        partialData := overlay e.partialData e.partialBytes c
        partialBytes := e.partialBytes + c.length }, []) := by
      rw [writeEncrypted, if_pos (by omega), hcopy]
      dsimp only
      rw [if_pos (by omega), List.take_length]
    refine ⟨_, [], hrun, ⟨h.erased, ?_, ?_, fun _ => ?_⟩, rfl, ?_, rfl⟩
    · simp only [flushed, List.length_append, if_true]
      omega
    · simp only [List.length_append]
      omega
    · rw [fillAfter, if_neg (by omega)]
      exact h.overlay_eq c
    · rw [List.drop_eq_nil_of_le (List.length_take_le _ _)]
      rfl
  · have hcopy : min (16 - e.partialBytes) c.length = 16 - e.partialBytes := by omega
    obtain ⟨c₁, c₂, rfl, hlen⟩ : ∃ c₁ c₂, c = c₁ ++ c₂ ∧ c₁.length = 16 - e.partialBytes :=
      ⟨_, _, (List.take_append_drop _ c).symm, by rw [List.length_take, hcopy]⟩
    have hdone := h.completed (c := c₁) (by omega)
    have hblock := h.overlay_eq c₁
    rw [show 16 - (e.partialBytes + c₁.length) = 0 by omega, List.replicate_zero, List.append_nil]
      at hblock
    have hblen : (overlay e.partialData e.partialBytes c₁).length = 16 := by
      rw [hblock, List.length_drop, List.length_append]
      omega
    rw [List.length_append] at hfit
    obtain ⟨e', d, hrest, hholds, hpart, hflat, hend⟩ := hdone.write_aligned (c := c₂)
      (by rw [List.length_append]; omega)
      (by simp only [flushed, if_true, List.length_append]; omega) hsize
    have hrun : writeEncrypted true true e (c₁ ++ c₂) =
        (.ok, e', writes e.wroteSize [overlay e.partialData e.partialBytes c₁, d]) := by
      rw [writeEncrypted, if_pos (by omega), hcopy]
      dsimp only
      rw [List.take_left' hlen, List.drop_left' hlen, if_neg (by omega),
        espPartitionWrite_ok (by omega) hsize]
      rw [if_neg (by simp), Nat.mod_eq_of_lt (by omega), hrest]
      simp only [writes, hblen, List.singleton_append]
    refine ⟨e', _, hrun, ?_, hpart, ?_, ?_⟩
    · rw [fillAfter, if_pos ⟨hn, by omega⟩, ← List.append_assoc]
      exact hholds
    · have htaken : (w ++ c₁).length = e.wroteSize + 16 := by
        rw [List.length_append]
        omega
      have hsplit : (w ++ c₁ ++ c₂).take e'.wroteSize =
          w ++ c₁ ++ c₂.take (e'.wroteSize - (w ++ c₁).length) := by
        rw [List.take_append, List.take_of_length_le
          (by rw [htaken, hend]; exact Nat.le_add_right ..)]
      simp only [List.flatten_cons, List.flatten_nil, List.append_nil]
      rw [hflat, hblock, ← List.append_assoc, hsplit, List.drop_left' htaken]
      exact (List.drop_append_of_le_length (by omega)).symm
    · rw [hend]
      simp only [List.flatten_cons, List.flatten_nil, List.append_nil, List.length_append, hblen]
      omega

/-- The check of the first byte passes: some byte has reached the flash, or the chunk starts with
the magic byte. -/
def MagicOk (encryption : Bool) (n : Nat) (chunk : List UInt8) : Prop :=
  flushed encryption n = 0 → chunk ≠ [] → chunk.head? = some 0xe9

theorem Holds.write (h : Holds encryption e w fill) (hmagic : MagicOk encryption w.length c)
    (hfit : flushed encryption (w.length + c.length) ≤ e.part.pos.size)
    (hsize : e.part.pos.size < 2 ^ 32) :
    ∃ e' bs, espOtaWrite encryption true true e c = some (.ok, e', writes e.wroteSize bs) ∧
      Holds encryption e' (w ++ c) (fillAfter w.length fill c) ∧ e'.part = e.part ∧
      bs.flatten = ((w ++ c).take e'.wroteSize).drop e.wroteSize ∧
      e'.wroteSize = e.wroteSize + bs.flatten.length := by
  have herased := h.erased
  have hcheck : ¬ (e.wroteSize = 0 ∧ c.length > 0 ∧ c.head? ≠ some 0xe9) := by
    rintro ⟨hwrote, hc, hhead⟩
    exact hhead (hmagic (h.wrote ▸ hwrote) (List.ne_nil_of_length_pos hc))
  rw [espOtaWrite, if_neg (by omega), if_neg hcheck]
  cases encryption with
  | false =>
    have hwrote : e.wroteSize = w.length := h.wrote
    have hbytes := h.bytes
    rw [writeData_ok (by rw [hwrote]; exact hfit) hsize]
    refine ⟨_, [c], rfl, ⟨h.erased, ?_, ?_, by simp⟩, rfl, ?_, by simp⟩
    · simp [flushed, hwrote]
    · simp only [List.length_append]
      omega
    · rw [List.take_of_length_le (by simp [hwrote]), hwrote]
      simp
  | true =>
    rw [if_pos rfl]
    by_cases hn : w.length % 16 = 0
    · obtain ⟨e', d, hrun, hholds, hpart, hflat, hend⟩ := h.write_aligned hn hfit hsize
      refine ⟨e', [d], ?_, ?_, hpart, by simpa using hflat, by simpa using hend⟩
      · rw [writeEncrypted, if_neg (by rw [h.partialBytes_eq, hn]; simp)]
        exact congrArg some hrun
      · rw [fillAfter, if_neg (by omega)]
        exact hholds
    · obtain ⟨e', bs, hrun, hrest⟩ := h.write_unaligned hn hfit hsize
      exact ⟨e', bs, congrArg some hrun, hrest⟩

theorem Holds.write_magic (h : Holds encryption e w fill)
    (hmagic : ¬ MagicOk encryption w.length c) :
    espOtaWrite encryption true true e c = some (.otaValidateFailed, e, []) := by
  have herased := h.erased
  simp only [MagicOk, not_forall] at hmagic
  obtain ⟨hwrote, hc, hhead⟩ := hmagic
  rw [espOtaWrite, if_neg (by omega),
    if_pos ⟨h.wrote.trans hwrote, List.length_pos_iff.mpr hc, hhead⟩]

/-! ### Writing erased flash only -/

/-- The call programs the byte at `x`. -/
def PartOp.Programs (x : Nat) : PartOp → Prop
  | eraseRange _ _ => False
  | write dstOffset src => dstOffset ≤ x ∧ x < dstOffset + src.length

/-- The call erases the byte at `x`. -/
def PartOp.Erases (x : Nat) : PartOp → Prop
  | eraseRange startAddr size => startAddr ≤ x ∧ x < startAddr + size
  | write _ _ => False

instance (x : Nat) : DecidablePred (PartOp.Programs x)
  | .eraseRange _ _ => inferInstanceAs (Decidable False)
  | .write _ _ => inferInstanceAs (Decidable (_ ∧ _))

instance (x : Nat) : DecidablePred (PartOp.Erases x)
  | .eraseRange _ _ => inferInstanceAs (Decidable (_ ∧ _))
  | .write _ _ => inferInstanceAs (Decidable False)

theorem programs_writes : ∀ {a : Nat},
    (∃ op ∈ writes a bs, op.Programs x) → a ≤ x ∧ x < a + bs.flatten.length := by
  induction bs with
  | nil => simp [writes]
  | cons b bs ih =>
    rintro a ⟨op, hop, hx⟩
    rw [List.flatten_cons, List.length_append]
    rcases List.mem_cons.mp hop with rfl | hop
    · have : a ≤ x ∧ x < a + b.length := hx
      omega
    · have := ih ⟨op, hop, hx⟩
      omega

/-- The chunk does not go beyond what `esp_ota_begin` erased. -/
def WithinErased (encryption : Bool) (erased : Nat) (e : OtaOpsEntry) (chunk : List UInt8) : Prop :=
  e.wroteSize + flushed encryption (e.partialBytes + chunk.length) ≤ erased

instance (encryption : Bool) (erased : Nat) (e : OtaOpsEntry) (chunk : List UInt8) :
    Decidable (WithinErased encryption erased e chunk) :=
  inferInstanceAs (Decidable (_ ≤ _))

/-- The entry, and which bytes were programmed, after calls of `esp_ota_write` without flash errors
that stay within the first `erased` bytes. -/
inductive WriteRun (encryption : Bool) (erased : Nat) (e₀ : OtaOpsEntry) :
    OtaOpsEntry → (Nat → Prop) → Prop
  | begun : WriteRun encryption erased e₀ e₀ fun _ => False
  | call {e e' : OtaOpsEntry} {programmed : Nat → Prop} {chunk : List UInt8} {ret : EspErr}
      {ops : List PartOp} (run : WriteRun encryption erased e₀ e programmed)
      (within : WithinErased encryption erased e chunk)
      (step : espOtaWrite encryption true true e chunk = some (ret, e', ops)) :
      WriteRun encryption erased e₀ e' fun x => programmed x ∨ ∃ op ∈ ops, op.Programs x

theorem Holds.flushed_add (h : Holds encryption e w fill) (n : Nat) :
    flushed encryption (w.length + n) = e.wroteSize + flushed encryption (e.partialBytes + n) := by
  have hbytes := h.bytes
  have hwrote := h.wrote
  cases encryption
  · simp only [flushed] at *
    simp only [Bool.false_eq_true, if_false] at *
    omega
  · simp only [flushed, if_true] at *
    omega

theorem WriteRun.holds (h₀ : Holds encryption e₀ [] 0) (herased : erased ≤ e₀.part.pos.size)
    (hsize : e₀.part.pos.size < 2 ^ 32) (h : WriteRun encryption erased e₀ e programmed) :
    ∃ w fill, Holds encryption e w fill ∧ e.part = e₀.part ∧ ∀ x, programmed x →
      x < e.wroteSize := by
  induction h with
  | begun => exact ⟨[], 0, h₀, rfl, fun _ => False.elim⟩
  | @call e e' programmed chunk ret ops run within step ih =>
    obtain ⟨w, fill, hholds, hpart, hprog⟩ := ih
    by_cases hmagic : MagicOk encryption w.length chunk
    · obtain ⟨e₁, bs, hrun, hholds₁, hpart₁, -, hend⟩ := hholds.write hmagic
        (by
          rw [hholds.flushed_add, hpart]
          exact within.trans herased)
        (hpart ▸ hsize)
      obtain ⟨-, rfl, rfl⟩ : EspErr.ok = ret ∧ e₁ = e' ∧ writes e.wroteSize bs = ops := by
        simpa using hrun.symm.trans step
      refine ⟨_, _, hholds₁, hpart₁.trans hpart, ?_⟩
      rintro x (hx | hx)
      · have := hprog x hx
        omega
      · have := programs_writes hx
        omega
    · obtain ⟨-, rfl, rfl⟩ : EspErr.otaValidateFailed = ret ∧ e = e' ∧ [] = ops := by
        simpa using (hholds.write_magic hmagic).symm.trans step
      exact ⟨w, fill, hholds, hpart, by simpa using hprog⟩

theorem WriteRun.eq_begun (h₀ : e₀.erasedSize = 0)
    (h : WriteRun encryption erased e₀ e programmed) : e = e₀ := by
  induction h with
  | begun => rfl
  | call run within step ih =>
    rw [ih, espOtaWrite, if_pos (by omega)] at step
    cases step

theorem WriteRun.step_erased {chunk : List UInt8} (herased : erased ≤ p.pos.size)
    (hsize : p.pos.size < 2 ^ 32) (run : WriteRun encryption erased
    (newEntry p imageSize) e programmed)
    (within : WithinErased encryption erased e chunk)
    (step : espOtaWrite encryption true true e chunk = some (.ok, e', ops))
    (hx : ∃ op ∈ ops, op.Programs x) : x < erased ∧ ¬ programmed x := by
  by_cases h₀ : 0 < (newEntry p imageSize).erasedSize
  · obtain ⟨w, fill, hholds, hpart, hprog⟩ := run.holds (newEntry_holds _ h₀) herased hsize
    by_cases hmagic : MagicOk encryption w.length chunk
    · obtain ⟨e₁, bs, hrun, hholds₁, -, -, hend⟩ := hholds.write hmagic
        (by
          rw [hholds.flushed_add, hpart]
          exact within.trans herased)
        (hpart ▸ hsize)
      obtain ⟨rfl, rfl⟩ : e₁ = e' ∧ writes e.wroteSize bs = ops := by
        simpa using hrun.symm.trans step
      have hlt := programs_writes hx
      have hend₁ := hholds₁.wrote
      rw [List.length_append, hholds.flushed_add] at hend₁
      have hle : e.wroteSize + flushed encryption (e.partialBytes + chunk.length) ≤ erased := within
      refine ⟨by omega, fun hbefore => ?_⟩
      have := hprog x hbefore
      omega
    · rw [hholds.write_magic hmagic] at step
      simp at step
  · have h₀ : (newEntry p imageSize).erasedSize = 0 := by omega
    rw [run.eq_begun h₀, espOtaWrite, if_pos (by omega)] at step
    cases step

theorem beginEraseSize_lt (hsize : p.pos.size < 2 ^ 32) : beginEraseSize p imageSize < 2 ^ 32 := by
  rw [beginEraseSize]
  split_ifs
  · exact hsize
  · exact Nat.mod_lt _ (by decide)

theorem espOtaBegin_fst (hverify : espPartitionVerify table partition = some p)
    (hota : isOtaPartition p)
    (hrunning : running ≠ some p) (hsec : p.pos.size % secSize = 0) (hsize : p.pos.size < 2 ^ 32)
    (hpos : 1 ≤ imageSize) (hle : imageSize ≤ p.pos.size) :
    (espOtaBegin table running true true (some partition) imageSize).1 = .ok ↔
      imageSize ≠ p.pos.size ∨ p.pos.size = 2 ^ 32 - secSize := by
  have h4096 : secSize = 4096 := rfl
  rw [h4096] at hsec
  have herase : beginEraseSize p imageSize = (imageSize / 4096 + 1) * 4096 % 2 ^ 32 :=
    if_neg (by rw [otaSizeUnknown]; omega)
  have hmod : beginEraseSize p imageSize % secSize = 0 := by
    rw [h4096]
    omega
  simp only [espOtaBegin, hverify]
  rw [if_neg (by simpa using hota), if_neg hrunning,
    espPartitionEraseRange_zero (beginEraseSize_lt hsize) hmod]
  by_cases hfit : beginEraseSize p imageSize ≤ p.pos.size
  · simp only [if_pos hfit]
    refine iff_of_true (by simp) ?_
    omega
  · simp only [if_neg hfit]
    refine iff_of_false (by simp) ?_
    omega

/-- A partition `ota_0` of two sectors. -/
def otaSlot : Part := ⟨typeApp, subtypeAppOtaMin, ⟨0x10000, 0x2000⟩, []⟩

/-- For an image of a positive size that is at most the partition's, `esp_ota_begin` succeeds unless
the size is the partition's; and calls of `esp_ota_write` that stay within what it erased program
bytes that it erased, each at most once. -/
theorem ota_writes_erased (table : List Part) (running : Option Part) (imageSize : Nat) :
    (∀ partition p : Part,
      espPartitionVerify table partition = some p → isOtaPartition p → running ≠ some p →
      p.pos.size % secSize = 0 → p.pos.size < 2 ^ 32 → 1 ≤ imageSize → imageSize ≤ p.pos.size →
      ((espOtaBegin table running true true (some partition) imageSize).1 = .ok ↔
        imageSize ≠ p.pos.size ∨ p.pos.size = 2 ^ 32 - secSize)) ∧
    (∀ (partition : Option Part) (flashOk memOk : Bool) (e₀ : OtaOpsEntry) (ops₀ : List PartOp),
      e₀.part.pos.size < 2 ^ 32 →
      espOtaBegin table running flashOk memOk partition imageSize = (.ok, some e₀, ops₀) →
      ∀ (encryption : Bool) (e : OtaOpsEntry) (programmed : Nat → Prop),
        WriteRun encryption (beginEraseSize e₀.part imageSize) e₀ e programmed →
        ∀ (chunk : List UInt8) (e' : OtaOpsEntry) (ops : List PartOp),
          WithinErased encryption (beginEraseSize e₀.part imageSize) e chunk →
          espOtaWrite encryption true true e chunk = some (.ok, e', ops) →
          ∀ x, (∃ op ∈ ops, op.Programs x) → (∃ op ∈ ops₀, op.Erases x) ∧ ¬ programmed x) := by
  refine ⟨fun _ _ => espOtaBegin_fst, ?_⟩
  intro partition flashOk memOk e₀ ops₀ hsize hbegin encryption e programmed run chunk e' ops within
    step x hx
  obtain ⟨he₀, hops₀, hle⟩ := espOtaBegin_ok hbegin
  rw [Nat.mod_eq_of_lt (beginEraseSize_lt hsize)] at hle
  rw [he₀] at run
  obtain ⟨hlt, hnot⟩ := run.step_erased hle hsize within step hx
  subst hops₀
  have herases : PartOp.Erases x (.eraseRange 0 (beginEraseSize e₀.part imageSize)) :=
    ⟨Nat.zero_le x, by omega⟩
  exact ⟨⟨_, List.mem_singleton_self _, herases⟩, hnot⟩

theorem ota_writes_erased_second :
    (espOtaBegin [otaSlot] none true true (some otaSlot) 100).1 = .ok ∧
    espOtaWrite false true true (newEntry otaSlot 100) [0xe9, 1] =
      some (.ok, { newEntry otaSlot 100 with wroteSize := 2 }, [.write 0 [0xe9, 1]]) ∧
    espOtaWrite false true true { newEntry otaSlot 100 with wroteSize := 2 } [2, 3, 4] =
      some (.ok, { newEntry otaSlot 100 with wroteSize := 5 }, [.write 2 [2, 3, 4]]) ∧
    ∀ x, (∃ op ∈ [PartOp.write 2 [2, 3, 4]], op.Programs x) →
      (∃ op ∈ [PartOp.eraseRange 0 0x1000], op.Erases x) ∧
        ¬ (False ∨ ∃ op ∈ [PartOp.write 0 [0xe9, 1]], op.Programs x) := by
  have hfirst : espOtaWrite false true true (newEntry otaSlot 100) [0xe9, 1] =
      some (.ok, { newEntry otaSlot 100 with wroteSize := 2 }, [.write 0 [0xe9, 1]]) := by decide
  have hsecond : espOtaWrite false true true { newEntry otaSlot 100 with
      wroteSize := 2 } [2, 3, 4] =
      some (.ok, { newEntry otaSlot 100 with wroteSize := 5 }, [.write 2 [2, 3, 4]]) := by decide
  obtain ⟨hbegin, hwrite⟩ := ota_writes_erased [otaSlot] none 100
  refine ⟨(hbegin otaSlot otaSlot (by decide) (by decide) (by decide) (by decide) (by decide)
    (by decide) (by decide)).mpr (.inl (by decide)), hfirst, hsecond, ?_⟩
  exact hwrite (some otaSlot) true true (newEntry otaSlot 100) [.eraseRange 0 0x1000] (by decide)
    (by decide) false _ _ (.call .begun (by decide) hfirst) [2, 3, 4] _ _ (by decide) hsecond

theorem whole_partition_refused :
    (espOtaBegin [otaSlot] none true true (some otaSlot) 0x2000).1 = .invalidSize ∧
    espOtaBegin [otaSlot] none true true (some otaSlot) 100 =
      (.ok, some (newEntry otaSlot 100), [.eraseRange 0 0x1000]) ∧
    ∃ chunk e' ops, espOtaWrite false true true (newEntry otaSlot 100) chunk = some (.ok, e', ops) ∧
      ∃ op ∈ ops, op.Programs 0x1000 := by
  obtain ⟨zeros, hlen⟩ : ∃ zeros : List UInt8, zeros.length = 0x1000 :=
    ⟨List.replicate 0x1000 0, List.length_replicate⟩
  have hrun : espOtaWrite false true true (newEntry otaSlot 100) (0xe9 :: zeros) =
      some (.ok, { newEntry otaSlot 100 with wroteSize := 0x1001 },
        [.write 0 (0xe9 :: zeros)]) := by
    rw [espOtaWrite, if_neg (by decide), writeData_ok]
    · simp [newEntry, hlen]
    · simp [newEntry, otaSlot, hlen]
    · decide
  refine ⟨by decide, by decide, _, _, _, hrun, _, List.mem_singleton_self _, ?_⟩
  simp [PartOp.Programs, hlen]

end EspIdf.Ota
