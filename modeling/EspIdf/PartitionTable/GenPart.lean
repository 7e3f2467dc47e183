import Mathlib.Algebra.Group.Int.Defs
import Mathlib.Data.Int.Order.Basic
import Mathlib.Data.List.DropRight
import EspIdf.Device.ListSort
import EspIdf.Device.Nor

/-! The partition table generator `gen_esp32part.py`: tables are read from CSV, verified, written in
the binary format of the bootloader and read back.  Strings of Python 2 are lists of bytes, and an
exception is an error of `Except`. -/

namespace EspIdf.PartitionTable

open EspIdf.Device EspIdf.ListSort

/-! ### Python -/

abbrev Str := List UInt8

def str (s : String) : Str := s.toList.map fun c => UInt8.ofNat c.toNat

inductive PyError where
  | unknownVariable (name : Str)
  | typeEmpty
  | sizeEmpty
  | unknownFlag (flag : Str)
  | invalidFieldValue (v : Str)
  | notValid (v : Str)
  | errorAtLine (lineNo : Nat) (e : PyError)
  | offsetBelow (offset : Int)
  | overlaps (offset lastOffset lastEnd : Int)
  | longerThanMax (length : Nat)
  | lengthNotMultiple
  | missingEndMarker
  | definitionLength (length : Nat)
  | invalidMagic (magic : Str)
  | indexError
  /-- `verify` raises `ValidationError`, which is not defined. -/
  | nameError
  | structError
  /-- Raised by a comparison of `sorted`. -/
  | overflowError
  deriving DecidableEq, Repr

def PyError.isInputError : PyError → Bool
  | .indexError | .nameError | .structError | .overflowError => false
  | _ => true

/-- `PartitionDefinition`, once `from_csv` has read its line: only the offset may still be
`None`. -/
structure PartitionDefinition where
  name : Str
  type : Int
  subtype : Int
  offset : Option Int
  size : Int
  encrypted : Bool
  deriving DecidableEq, Repr

structure Python where
  /-- `int(v, 0)`; `none` is a `ValueError`. -/
  int : Str → Option Int
  /-- `os.path.expandvars`. -/
  expandvars : Str → Str
  /-- The largest C long. -/
  maxLong : Int

def isSpace (c : UInt8) : Bool := c = 32 ∨ 9 ≤ c ∧ c ≤ 13

def strip (s : Str) : Str := (s.dropWhile isSpace).rdropWhile isSpace

def lower (c : UInt8) : UInt8 := if 65 ≤ c ∧ c ≤ 90 then c + 32 else c

/-! ### Reading CSV -/

section Csv

variable (py : Python)

def parsePlain (keywords : List (Str × Int)) (v : Str) : Except PyError Int :=
  match py.int v with
  | some x => .ok x
  | none =>
    if keywords = [] then .error (.invalidFieldValue v)
    else
      match keywords.lookup (v.map lower) with
      | some x => .ok x
      | none => .error (.notValid v)

def parseSuffixed (keywords : List (Str × Int)) : Str → Except PyError Int
  | [] => parsePlain py keywords []
  | c :: rest =>
    if lower c = 107 then (· * 1024) <$> parseSuffixed keywords rest
    else if lower c = 109 then (· * (1024 * 1024)) <$> parseSuffixed keywords rest
    else parsePlain py keywords (c :: rest).reverse

def parseInt (v : Str) (keywords : List (Str × Int)) : Except PyError Int :=
  parseSuffixed py keywords v.reverse

def appType : Int := 0x00

def dataType : Int := 0x01

def types : List (Str × Int) := [(str "app", appType), (str "data", dataType)]

def subtypes (type : Int) : List (Str × Int) :=
  if type = appType then
    [(str "factory", 0x00), (str "test", 0x20)] ++
      (List.range 16).map fun slot => (str "ota_" ++ str (toString slot), 0x10 + (slot : Int))
  else if type = dataType then
    [(str "ota", 0x00), (str "phy", 0x01), (str "nvs", 0x02), (str "coredump", 0x03),
      (str "esphttpd", 0x80), (str "fat", 0x81), (str "spiffs", 0x82)]
  else []

def parseType (strval : Str) : Except PyError Int :=
  if strval = [] then .error .typeEmpty else parseInt py strval types

def parseSubtype (type : Int) (strval : Str) : Except PyError Int :=
  if strval = [] then .ok 0 else parseInt py strval (subtypes type)

def parseAddress (strval : Str) : Except PyError (Option Int) :=
  if strval = [] then .ok none else some <$> parseInt py strval []

def isVarStart (c : UInt8) : Bool := c = 95 ∨ 97 ≤ lower c ∧ lower c ≤ 122

def expandVars (f : Str) : Except PyError Str :=
  match py.expandvars f with
  | 36 :: c :: rest =>
    if isVarStart c then
      .error (.unknownVariable (c :: rest.takeWhile fun d => isVarStart d || (48 ≤ d && d ≤ 57)))
    else .ok (36 :: c :: rest)
  | f => .ok f

def fieldAt (fields : List Str) (i : Nat) : Except PyError Str :=
  match fields[i]? with
  | some f => .ok f
  | none => .error .indexError

def parseFlags : List Str → Except PyError Bool
  | [] => .ok false
  | flag :: rest =>
    if flag = str "encrypted" then do
      let _ ← parseFlags rest
      .ok true
    else if flag = [] then parseFlags rest
    else .error (.unknownFlag flag)

def PartitionDefinition.fromCsv (line : Str) : Except PyError PartitionDefinition := do
  let fields ← ((line ++ str ",,,,").splitOn 44).mapM fun f => expandVars py (strip f)
  let name ← fieldAt fields 0
  let type ← parseType py (← fieldAt fields 1)
  let subtype ← parseSubtype py type (← fieldAt fields 2)
  let offset ← parseAddress py (← fieldAt fields 3)
  let size ← parseAddress py (← fieldAt fields 4)
  match size with
  | none => .error .sizeEmpty
  | some size => do
    let encrypted ← parseFlags ((← fieldAt fields 5).splitOn 58)
    .ok ⟨name, type, subtype, offset, size, encrypted⟩

/-- The lines of the table from line `lineNo` on. -/
def fromCsvLines : Nat → List Str → Except PyError (List PartitionDefinition)
  | _, [] => .ok []
  | lineNo, line :: rest =>
    if (strip line).head? = some 35 ∨ strip line = [] then fromCsvLines (lineNo + 1) rest
    else
      match PartitionDefinition.fromCsv py (strip line) with
      | .error e => .error (if e.isInputError then .errorAtLine lineNo e else e)
      | .ok p => do
        let ps ← fromCsvLines (lineNo + 1) rest
        .ok (p :: ps)

def padded (lastEnd type : Int) : Int :=
  let padTo := if type = appType then 0x10000 else 4
  if lastEnd % padTo ≠ 0 then lastEnd + (padTo - lastEnd % padTo) else lastEnd

def fixUp : Int → List PartitionDefinition → List PartitionDefinition
  | _, [] => []
  | lastEnd, e :: es =>
    let offset := e.offset.getD (padded lastEnd e.type)
    let size := if e.size < 0 then -e.size - offset else e.size
    { e with offset := some offset, size := size } :: fixUp (offset + size) es

def fromCsv (csvContents : Str) : Except PyError (List PartitionDefinition) := do
  let res ← fromCsvLines py 1 (csvContents.splitOn 10)
  .ok (fixUp 0x5000 res)

/-! ### Verifying -/

def alignment (type : Int) : Int := if type = appType then 0x1000 else 4

def PartitionDefinition.verify (p : PartitionDefinition) : Except PyError Unit :=
  match p.offset with
  | none => .error .nameError
  | some offset => if offset % alignment p.type ≠ 0 then .error .nameError else .ok ()

def checkOverlaps : Option (Int × Int) → List PartitionDefinition → Except PyError Unit
  | _, [] => .ok ()
  | last, p :: rest =>
    let offset := p.offset.getD 0
    if offset < 0x5000 then .error (.offsetBelow offset)
    else
      match last with
      | none => checkOverlaps (some (offset, p.size)) rest
      | some (lastOffset, lastSize) =>
        if offset < lastOffset + lastSize then
          .error (.overlaps offset lastOffset (lastOffset + lastSize - 1))
        else checkOverlaps (some (offset, p.size)) rest

def PartitionDefinition.start (p : PartitionDefinition) : Int := p.offset.getD 0

/-- `__cmp__`, whose result Python 2 converts to a C long. -/
def PartitionDefinition.cmp (p other : PartitionDefinition) : Except PyError Int :=
  let result := p.start - other.start
  if -py.maxLong - 1 ≤ result ∧ result ≤ py.maxLong then .ok result else .error .overflowError

def PartitionDefinition.lt (p other : PartitionDefinition) : Except PyError Bool := do
  let result ← p.cmp py other
  return result < 0

def sorted (t : List PartitionDefinition) : Except PyError (List PartitionDefinition) :=
  sort (PartitionDefinition.lt py) t

def verify (t : List PartitionDefinition) : Except PyError Unit := do
  t.forM PartitionDefinition.verify
  checkOverlaps none (← sorted py t)

end Csv

/-! ### The binary format -/

def magicBytes : Str := [0xaa, 0x50]

def maxPartitionLength : Nat := 0xc00

def packB (n : Int) : Except PyError Str :=
  if 0 ≤ n ∧ n < 2 ^ 8 then .ok [UInt8.ofNat n.toNat] else .error .structError

def packL (n : Int) : Except PyError Str :=
  if 0 ≤ n ∧ n < 2 ^ 32 then .ok (le32 n.toNat) else .error .structError

def pack16s (s : Str) : Str := s.take 16 ++ List.replicate (16 - s.length) 0

def PartitionDefinition.toBinary (p : PartitionDefinition) : Except PyError Str := do
  let type ← packB p.type
  let subtype ← packB p.subtype
  let offset ← (match p.offset with
    | none => .error .structError
    | some offset => packL offset)
  let size ← packL p.size
  .ok (magicBytes ++ type ++ subtype ++ offset ++ size ++ pack16s p.name ++
    le32 (if p.encrypted then 1 else 0))

def toBinary (t : List PartitionDefinition) : Except PyError Str := do
  let result := (← t.mapM PartitionDefinition.toBinary).flatten
  if result.length ≥ maxPartitionLength then .error (.longerThanMax result.length)
  else .ok (result ++ List.replicate (maxPartitionLength - result.length) 0xff)

def PartitionDefinition.fromBinary (b : Str) : Except PyError PartitionDefinition :=
  if b.length ≠ 32 then .error (.definitionLength b.length)
  else if b.take 2 ≠ magicBytes then .error (.invalidMagic (b.take 2))
  else .ok {
    name := ((b.drop 12).take 16).takeWhile (· ≠ 0)
    type := (b.getD 2 0).toNat
    subtype := (b.getD 3 0).toNat
    offset := some (word32 b 4)
    size := word32 b 8
    encrypted := word32 b 28 % 2 = 1 }

def fromBinaryLoop : Nat → Str → Except PyError (List PartitionDefinition)
  | 0, _ => .error .missingEndMarker
  | n + 1, b =>
    if (b.take 32).length ≠ 32 then .error .lengthNotMultiple
    else if b.take 32 = List.replicate 32 0xff then .ok []
    else do
      let p ← PartitionDefinition.fromBinary (b.take 32)
      let ps ← fromBinaryLoop n (b.drop 32)
      .ok (p :: ps)

def fromBinary (b : Str) : Except PyError (List PartitionDefinition) :=
  fromBinaryLoop ((b.length + 31) / 32) b

/-! ### One definition -/

section Definition

variable {p : PartitionDefinition}

structure PartitionDefinition.Fits (p : PartitionDefinition) : Prop where
  type : 0 ≤ p.type ∧ p.type < 2 ^ 8
  subtype : 0 ≤ p.subtype ∧ p.subtype < 2 ^ 8
  offset : ∃ offset, p.offset = some offset ∧ 0 ≤ offset ∧ offset < 2 ^ 32
  size : 0 ≤ p.size ∧ p.size < 2 ^ 32

def PartitionDefinition.packed (p : PartitionDefinition) : Str :=
  magicBytes ++ [UInt8.ofNat p.type.toNat] ++ [UInt8.ofNat p.subtype.toNat] ++
    le32 (p.offset.getD 0).toNat ++ le32 p.size.toNat ++ pack16s p.name ++
    le32 (if p.encrypted then 1 else 0)

theorem PartitionDefinition.Fits.toBinary (h : p.Fits) : p.toBinary = .ok p.packed := by
  obtain ⟨offset, hoffset, hrange⟩ := h.offset
  rw [PartitionDefinition.toBinary, packed, packB, if_pos h.type, packB, if_pos h.subtype,
    hoffset, packL,
    if_pos h.size]
  simp only [packL, if_pos hrange]
  rfl

theorem PartitionDefinition.toBinary_of_not_fits (h : ¬ p.Fits) :
    p.toBinary = .error .structError := by
  unfold PartitionDefinition.toBinary
  by_cases htype : 0 ≤ p.type ∧ p.type < 2 ^ 8
  · by_cases hsubtype : 0 ≤ p.subtype ∧ p.subtype < 2 ^ 8
    · rw [packB, if_pos htype, packB, if_pos hsubtype]
      cases hoffset : p.offset with
      | none => rfl
      | some offset =>
        by_cases hrange : 0 ≤ offset ∧ offset < 2 ^ 32
        · have hsize : ¬ (0 ≤ p.size ∧ p.size < 2 ^ 32) := fun hsize =>
            h ⟨htype, hsubtype, ⟨offset, hoffset, hrange⟩, hsize⟩
          simp only [packL, if_pos hrange, if_neg hsize]
          rfl
        · simp only [packL, if_neg hrange]
          rfl
    · rw [packB, if_pos htype, packB, if_neg hsubtype]
      rfl
  · rw [packB, if_neg htype]
    rfl

@[simp] theorem length_pack16s (s : Str) : (pack16s s).length = 16 := by
  simp only [pack16s, List.length_append, List.length_take, List.length_replicate]
  omega

@[simp] theorem length_packed : p.packed.length = 32 := by
  simp [PartitionDefinition.packed, magicBytes]

def storedName (s : Str) : Str := (s.take 16).takeWhile (· ≠ 0)

theorem takeWhile_pack16s (s : Str) : (pack16s s).takeWhile (· ≠ 0) = storedName s := by
  have hzeros : ∀ n, (List.replicate n (0 : UInt8)).takeWhile (· ≠ 0) = [] := fun n => by
    rw [List.takeWhile_replicate, if_neg (by simp)]
  rw [pack16s, storedName]
  induction s.take 16 with
  | nil => exact hzeros _
  | cons c cs ih =>
    rw [List.cons_append, List.takeWhile_cons, List.takeWhile_cons, ih]

theorem storedName_eq_iff : storedName s = s ↔ s.length ≤ 16 ∧ 0 ∉ s := by
  constructor
  · intro h
    refine ⟨?_, fun hzero => ?_⟩
    · have hle : (storedName s).length ≤ (s.take 16).length :=
        (List.takeWhile_sublist _).length_le
      rw [h, List.length_take] at hle
      omega
    · rw [← h] at hzero
      simpa using List.mem_takeWhile_imp hzero
  · rintro ⟨hlen, hzero⟩
    rw [storedName, List.take_of_length_le hlen, List.takeWhile_eq_self_iff]
    intro c hc
    have hne : c ≠ 0 := fun h0 => hzero (h0 ▸ hc)
    simpa using hne

theorem PartitionDefinition.Fits.fromBinary (h : p.Fits) :
    PartitionDefinition.fromBinary p.packed = .ok { p with name := storedName p.name } := by
  obtain ⟨offset, hoffset, ho⟩ := h.offset
  have htype := h.type
  have hsubtype := h.subtype
  have hsize := h.size
  -- the fields in order, each behind what precedes it
  have hshape : p.packed = (magicBytes ++ [UInt8.ofNat p.type.toNat] ++
    [UInt8.ofNat p.subtype.toNat]) ++
      (le32 offset.toNat ++ (le32 p.size.toNat ++ (pack16s p.name ++
        le32 (if p.encrypted then 1 else 0)))) := by
    rw [PartitionDefinition.packed, hoffset]
    simp only [Option.getD_some, List.append_assoc]
  have hname : (p.packed.drop 12).take 16 = pack16s p.name := by
    rw [PartitionDefinition.packed, List.append_assoc, List.drop_left' (by simp [magicBytes]),
      List.take_left' (length_pack16s _)]
  have hoff : word32 p.packed 4 = offset.toNat := by
    rw [hshape]
    exact word32_le32 (by omega)
  have hsz : word32 p.packed 8 = p.size.toNat := by
    rw [hshape]
    exact word32_le32 (by omega)
  have hflags : word32 p.packed 28 = if p.encrypted then 1 else 0 := by
    rw [hshape, word32_append_right (by simp [magicBytes]),
      word32_append_right (by simp [magicBytes]),
      word32_append_right (by simp [magicBytes]), word32_append_right (by simp [magicBytes])]
    simp only [magicBytes, List.length_append, length_le32, length_pack16s]
    exact word32_le32 (by split_ifs <;> decide)
  have hbyte2 : p.packed.getD 2 0 = UInt8.ofNat p.type.toNat := by rfl
  have hbyte3 : p.packed.getD 3 0 = UInt8.ofNat p.subtype.toNat := by rfl
  have hbyte : ∀ n : Int, 0 ≤ n ∧ n < 2 ^ 8 → ((UInt8.ofNat n.toNat).toNat : Int) = n := by
    intro n hn
    rw [UInt8.toNat_ofNat']
    omega
  rw [PartitionDefinition.fromBinary, if_neg (by simp), hname,
    takeWhile_pack16s, hbyte2, hbyte3, hoff, hsz, hflags, hbyte _ htype, hbyte _ hsubtype,
    Int.toNat_of_nonneg ho.1, Int.toNat_of_nonneg hsize.1, ← hoffset]
  cases p.encrypted <;> rfl

end Definition

/-! ### The table -/

section Table

variable {t : List PartitionDefinition} {py : Python} {text : Str}

theorem mapM_toBinary (h : ∀ p ∈ t, p.Fits) :
    t.mapM PartitionDefinition.toBinary = .ok (t.map PartitionDefinition.packed) := by
  induction t with
  | nil => rfl
  | cons p ps ih =>
    rw [List.mapM_cons, (h p List.mem_cons_self).toBinary,
      ih fun q hq => h q (List.mem_cons_of_mem _ hq)]
    rfl

theorem mapM_toBinary_of_not_fits (h : ¬ ∀ p ∈ t, p.Fits) :
    t.mapM PartitionDefinition.toBinary = .error .structError := by
  induction t with
  | nil => simp at h
  | cons p ps ih =>
    rw [List.mapM_cons]
    by_cases hp : p.Fits
    · rw [hp.toBinary, ih fun hps => h fun q hq => ?_]
      · rfl
      · rcases List.mem_cons.mp hq with rfl | hq
        · exact hp
        · exact hps q hq
    · rw [PartitionDefinition.toBinary_of_not_fits hp]
      rfl

theorem length_flatten_packed : (t.map PartitionDefinition.packed).flatten.length =
    32 * t.length := by
  induction t with
  | nil => rfl
  | cons p ps ih =>
    rw [List.map_cons, List.flatten_cons, List.length_append, ih, length_packed, List.length_cons]
    omega

theorem fromBinaryLoop_packed (h : ∀ p ∈ t, p.Fits) (hn : t.length < n) (hk : 32 ≤ k) :
    fromBinaryLoop n ((t.map PartitionDefinition.packed).flatten ++ List.replicate k 0xff) =
      .ok (t.map fun p => { p with name := storedName p.name }) := by
  induction t generalizing n with
  | nil =>
    obtain ⟨n, rfl⟩ := Nat.exists_eq_add_one.mpr hn
    have htake : (List.replicate k (0xff : UInt8)).take 32 = List.replicate 32 0xff := by
      rw [List.take_replicate, min_eq_left hk]
    rw [fromBinaryLoop, List.map_nil, List.flatten_nil, List.nil_append, htake]
    rfl
  | cons p ps ih =>
    obtain ⟨n, rfl⟩ := Nat.exists_eq_add_one.mpr (Nat.zero_lt_of_lt hn)
    rw [List.length_cons] at hn
    have hp := h p List.mem_cons_self
    rw [fromBinaryLoop, List.map_cons, List.flatten_cons, List.append_assoc,
      List.take_left' length_packed, List.drop_left' length_packed, if_neg (by simp),
      hp.fromBinary,
      ih (fun q hq => h q (List.mem_cons_of_mem _ hq)) (by omega)]
    rfl

theorem fromBinaryLoop_fields (h : fromBinaryLoop n b = .ok t) :
    ∀ p ∈ t, ∃ type subtype offset size : Nat, p.type = type ∧ p.subtype = subtype ∧
      p.offset = some (offset : Int) ∧ p.size = size := by
  induction n generalizing b t with
  | zero => cases h
  | succ n ih =>
    rw [fromBinaryLoop] at h
    split_ifs at h
    · cases h
      simp
    · unfold PartitionDefinition.fromBinary at h
      split_ifs at h
      · cases h
      · cases hrest : fromBinaryLoop n (b.drop 32) with
        | error e =>
          rw [hrest] at h
          cases h
        | ok ps =>
          rw [hrest] at h
          cases h
          exact List.forall_mem_cons.mpr ⟨⟨_, _, _, _, rfl, rfl, rfl, rfl⟩, ih hrest⟩

theorem map_storedName_eq_iff : (t.map fun p => { p with name := storedName p.name }) = t ↔
    ∀ p ∈ t, storedName p.name = p.name := by
  induction t with
  | nil => simp
  | cons p ps ih =>
    rw [List.map_cons, List.cons.injEq, ih, List.forall_mem_cons]
    refine and_congr_left fun _ => ⟨fun h => congrArg PartitionDefinition.name h, fun h => ?_⟩
    rw [h]

/-- The table is refused as an input error, or it comes back from its bytes. -/
def Survives (t : List PartitionDefinition) : Prop :=
  match toBinary t with
  | .error e => e.isInputError
  | .ok b => fromBinary b = .ok t

theorem survives_of_not_fits (h : ¬ ∀ p ∈ t, p.Fits) : ¬ Survives t := by
  rw [Survives, toBinary, mapM_toBinary_of_not_fits h]
  simp [bind, Except.bind, PyError.isInputError]

theorem survives_of_fits (h : ∀ p ∈ t, p.Fits) :
    Survives t ↔ (t.length < 96 → ∀ p ∈ t, p.name.length ≤ 16 ∧ 0 ∉ p.name) := by
  have hmax : maxPartitionLength = 32 * 96 := rfl
  have hlen := @length_flatten_packed t
  rw [Survives, toBinary, mapM_toBinary h]
  simp only [bind, Except.bind]
  by_cases hlong : t.length < 96
  · rw [if_neg (by omega)]
    simp only [fromBinary]
    rw [fromBinaryLoop_packed h (by rw [List.length_append, List.length_replicate]; omega)
      (by omega)]
    simp only [Except.ok.injEq, hlong, forall_const]
    rw [map_storedName_eq_iff]
    exact forall₂_congr fun _ _ => storedName_eq_iff
  · rw [if_pos (by omega)]
    simp [hlong, PyError.isInputError]

theorem fixUp_offset (hp : p ∈ fixUp lastEnd t) : ∃ offset, p.offset = some offset := by
  induction t generalizing lastEnd with
  | nil => simp [fixUp] at hp
  | cons e es ih =>
    rcases List.mem_cons.mp hp with rfl | hp
    · exact ⟨_, rfl⟩
    · exact ih hp

theorem fromCsv_offset (h : fromCsv py text = .ok t) (hp : p ∈ t) :
    ∃ offset, p.offset = some offset := by
  rw [fromCsv] at h
  cases hlines : fromCsvLines py 1 (text.splitOn 10) with
  | error e =>
    rw [hlines] at h
    cases h
  | ok res =>
    rw [hlines] at h
    cases h
    exact fixUp_offset hp

theorem checkOverlaps_cons (h : checkOverlaps last (q :: qs) = .ok ()) :
    0x5000 ≤ q.offset.getD 0 ∧ ∃ last', checkOverlaps last' qs = .ok () := by
  cases last with
  | none =>
    rw [checkOverlaps] at h
    split_ifs at h with hbelow
    exact ⟨by omega, _, h⟩
  | some last =>
    rw [checkOverlaps] at h
    split_ifs at h with hbelow hoverlap
    exact ⟨by omega, _, h⟩

theorem checkOverlaps_ok (h : checkOverlaps last t = .ok ()) (hp : p ∈ t) :
    0x5000 ≤ p.offset.getD 0 := by
  induction t generalizing last with
  | nil => simp at hp
  | cons q qs ih =>
    obtain ⟨hq, last', hrest⟩ := checkOverlaps_cons h
    rcases List.mem_cons.mp hp with rfl | hp
    · exact hq
    · exact ih hrest hp

theorem PartitionDefinition.lt_iff {p q : PartitionDefinition} {c : Bool}
    (h : p.lt py q = .ok c) : c = true ↔ p.start < q.start := by
  obtain ⟨d, hd, h⟩ := bind_eq_ok.1 h
  rw [PartitionDefinition.cmp] at hd
  split_ifs at hd
  cases hd
  cases h
  rw [decide_eq_true_iff]
  omega

theorem sorted_sorts (h : sorted py t = .ok ps) :
    ps.Perm t ∧ ps.Pairwise fun p q => p.start ≤ q.start :=
  sort_spec (fun _ _ _ => PartitionDefinition.lt_iff) h

theorem verify_offset (h : verify py t = .ok ()) (hp : p ∈ t) : 0x5000 ≤ p.offset.getD 0 := by
  obtain ⟨_, -, h⟩ := bind_eq_ok.1 h
  obtain ⟨ps, hps, h⟩ := bind_eq_ok.1 h
  exact checkOverlaps_ok h ((sorted_sorts hps).1.mem_iff.mpr hp)

/-- The numbers of a verified table fit their fields, and the names too if the table is not too
long. -/
structure Encodable (t : List PartitionDefinition) : Prop where
  type : ∀ p ∈ t, 0 ≤ p.type ∧ p.type < 2 ^ 8
  subtype : ∀ p ∈ t, 0 ≤ p.subtype ∧ p.subtype < 2 ^ 8
  offset : ∀ p ∈ t, ∀ offset, p.offset = some offset → offset < 2 ^ 32
  size : ∀ p ∈ t, 0 ≤ p.size ∧ p.size < 2 ^ 32
  name : t.length < 96 → ∀ p ∈ t, p.name.length ≤ 16 ∧ 0 ∉ p.name

/-- A table that is read from CSV and verified is refused or comes back from its bytes, exactly when
its numbers fit the binary fields and its names fit theirs, whatever the environment. -/
theorem table_survives_iff (hcsv : fromCsv py text = .ok t) (hverify : verify py t = .ok ()) :
    Survives t ↔ Encodable t := by
  by_cases hfits : ∀ p ∈ t, p.Fits
  · rw [survives_of_fits hfits]
    refine ⟨fun hname => ⟨fun p hp => (hfits p hp).type, fun p hp => (hfits p hp).subtype,
      fun p hp offset hoffset => ?_, fun p hp => (hfits p hp).size, hname⟩, fun h => h.name⟩
    obtain ⟨offset', hoffset', hrange⟩ := (hfits p hp).offset
    rw [hoffset] at hoffset'
    cases hoffset'
    exact hrange.2
  · refine iff_of_false (survives_of_not_fits hfits) fun h => hfits fun p hp => ?_
    obtain ⟨offset, hoffset⟩ := fromCsv_offset hcsv hp
    have hbehind := verify_offset hverify hp
    rw [hoffset, Option.getD_some] at hbehind
    have hlt := h.offset p hp offset hoffset
    exact ⟨h.type p hp, h.subtype p hp, ⟨offset, hoffset, by omega, hlt⟩, h.size p hp⟩

end Table

/-! ### Texts -/

def digits (base : Nat) : Nat → Str → Option Nat
  | n, [] => some n
  | n, c :: cs =>
    let d := if c ≤ 57 then c.toNat - 48 else (lower c).toNat - 87
    if (48 ≤ c ∧ c ≤ 57 ∨ 97 ≤ lower c ∧ lower c ≤ 122) ∧
      d < base then digits base (n * base + d) cs
    else none

def intLiteral : Str → Option Int
  | [] => none
  | 48 :: 120 :: c :: cs => (digits 16 0 (c :: cs)).map Int.ofNat
  | 48 :: cs => (digits 8 0 cs).map Int.ofNat
  | v => (digits 10 0 v).map Int.ofNat

def plainPython : Python where
  int := intLiteral
  expandvars := id
  maxLong := 0x7fffffffffffffff

theorem table_survives_nvs : ∃ t, fromCsv plainPython (str "nvs, data, nvs, , 16k, encrypted") =
    .ok t ∧
    (Survives t ↔ Encodable t) :=
  ⟨[⟨str "nvs", 1, 2, some 0x5000, 0x4000, true⟩], by decide +kernel,
    @table_survives_iff _ plainPython (str "nvs, data, nvs, , 16k, encrypted") (by decide +kernel)
      (by decide +kernel)⟩

theorem long_name_cut :
    (∃ t b, fromCsv plainPython (str "seventeen_letters,data,nvs,,16k") = .ok t ∧
      verify plainPython t = .ok () ∧ toBinary t = .ok b ∧
      fromBinary b = .ok [⟨str "seventeen_letter", 1, 2, some 0x5000, 0x4000, false⟩] ∧
        ¬ Survives t) ∧
    ∃ t, fromCsv plainPython (str "big,data,nvs,,8192m") = .ok t ∧ verify plainPython t = .ok () ∧
      toBinary t = .error .structError := by
  let t : List PartitionDefinition := [⟨str "seventeen_letters", 1, 2, some 0x5000, 0x4000, false⟩]
  have hbin : toBinary t = .ok (t.flatMap PartitionDefinition.packed ++
      List.replicate 3040 0xff) := by
    decide +kernel
  have hback : fromBinary (t.flatMap PartitionDefinition.packed ++ List.replicate 3040 0xff) =
      .ok [⟨str "seventeen_letter", 1, 2, some 0x5000, 0x4000, false⟩] := by
    decide +kernel
  refine ⟨⟨t, _, by decide +kernel, by decide +kernel, hbin, hback, ?_⟩,
    [⟨str "big", 1, 2, some 0x5000, 0x200000000, false⟩], by decide +kernel, by decide +kernel,
    by decide +kernel⟩
  rw [Survives, hbin]
  decide +kernel

end EspIdf.PartitionTable
