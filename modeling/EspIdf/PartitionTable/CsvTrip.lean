import Mathlib.Data.Nat.Digits.Defs
import EspIdf.PartitionTable.GenPart

/-! Writing a table as CSV with `to_csv` and reading it again: a table that was read from its binary
format comes back, whichever of the two formats of numbers is used. -/

namespace EspIdf.PartitionTable

/-! ### Writing CSV -/

def digitByte (d : Nat) : UInt8 := if d < 10 then UInt8.ofNat (48 + d) else UInt8.ofNat (87 + d)

def numeral (base n : Nat) : Str :=
  if n = 0 then [48] else (Nat.digits base n).reverse.map digitByte

def formatInt (base : Nat) (a : Int) : Str :=
  if a < 0 then 45 :: numeral base (-a).toNat else numeral base a.toNat

def addrFormat (simple : Bool) (a : Int) (includeSizes : Bool) : Str :=
  if simple = false ∧ includeSizes ∧ a % 0x100000 = 0 then formatInt 10 (a / 0x100000) ++ str "M"
  else if simple = false ∧ includeSizes ∧ a % 0x400 = 0 then formatInt 10 (a / 0x400) ++ str "K"
  else str "0x" ++ formatInt 16 a

/-- `lookup_keyword`; the values of a table of keywords differ, so the order of the search does not
matter. -/
def lookupKeyword (simple : Bool) (t : Int) (keywords : List (Str × Int)) : Str :=
  match keywords.find? fun kv => simple = false ∧ t = kv.2 with
  | some kv => kv.1
  | none => formatInt 10 t

def csvFields (simple : Bool) (p : PartitionDefinition) (offset : Int) : List Str :=
  [p.name, lookupKeyword simple p.type types, lookupKeyword simple p.subtype (subtypes p.type),
    addrFormat simple offset false, addrFormat simple p.size true,
    if p.encrypted then str "encrypted" else []]

/-- An offset that is not set is a `TypeError`. -/
def PartitionDefinition.toCsv (simple : Bool) (p : PartitionDefinition) : Option Str :=
  p.offset.map fun offset => [44].intercalate (csvFields simple p offset)

/-- `PartitionTable.to_csv`. -/
def toCsv (simple : Bool) (t : List PartitionDefinition) : Option Str :=
  (t.mapM (PartitionDefinition.toCsv simple)).map fun rows =>
    [10].intercalate (str "# Espressif ESP32 Partition Table" ::
      str "# Name, Type, SubType, Offset, Size, Flags" :: rows) ++ [10]

/-! ### Reading it again -/

/-- `int(v, 0)` on the numbers that `to_csv` writes and on keywords, and `os.path.expandvars` on
texts without a dollar sign. -/
structure ReadsNumbers (py : Python) : Prop where
  decimal : ∀ n : Nat, py.int (numeral 10 n) = some (n : Int)
  hex : ∀ n : Nat, py.int (str "0x" ++ numeral 16 n) = some (n : Int)
  keyword : ∀ kv ∈ types ++ subtypes appType ++ subtypes dataType, py.int kv.1 = none
  expandvars : ∀ s : Str, 36 ∉ s → py.expandvars s = s

def Clean (f : Str) : Prop := ∀ c ∈ f, isSpace c = false ∧ c ≠ 44 ∧ c ≠ 36

instance (f : Str) : Decidable (Clean f) := List.decidableBAll _ f

structure NameOk (name : Str) : Prop where
  comma : 44 ∉ name
  newline : 10 ∉ name
  dollar : 36 ∉ name
  hash : 35 ∉ name
  blanks : strip name = name

section Fields

variable {py : Python} {simple : Bool} {keywords : List (Str × Int)} {base n : Nat}

theorem digitByte_clean : ∀ d < 16, digitByte d ∈ str "0123456789abcdef" := by decide

theorem mem_numeral (h1 : 1 < base) (h16 : base ≤ 16) (hc : c ∈ numeral base n) :
    c ∈ str "0123456789abcdef" := by
  unfold numeral at hc
  split_ifs at hc
  · rw [List.mem_singleton.mp hc]
    decide
  · obtain ⟨d, hd, rfl⟩ := List.mem_map.mp hc
    have hlt := Nat.digits_lt_base h1 (List.mem_reverse.mp hd)
    exact digitByte_clean d (by omega)

theorem numeral_clean (h1 : 1 < base) (h16 : base ≤ 16) : Clean (numeral base n) := by
  have hall : Clean (str "0123456789abcdef") := by decide
  exact fun c hc => hall c (mem_numeral h1 h16 hc)

theorem numeral_getLast (h1 : 1 < base) (h16 : base ≤ 16) :
    ∃ c, (numeral base n).getLast? = some c ∧ lower c ≠ 107 ∧ lower c ≠ 109 := by
  have hne : numeral base n ≠ [] := by
    unfold numeral
    split_ifs with h0
    · simp
    · simpa [Nat.digits_eq_nil_iff_eq_zero] using h0
  have hall : ∀ c ∈ str "0123456789abcdef", lower c ≠ 107 ∧ lower c ≠ 109 :=
    @of_decide_eq_true _ (List.decidableBAll _ _) rfl
  exact ⟨_, List.getLast?_eq_some_getLast hne, hall _ (mem_numeral h1 h16 (List.getLast_mem hne))⟩

theorem Clean.append (hf : Clean f) (hg : Clean g) : Clean (f ++ g) := fun c hc =>
  (List.mem_append.mp hc).elim (hf c) (hg c)

theorem formatInt_natCast : formatInt base (n : Int) = numeral base n := by
  rw [formatInt, if_neg (by omega), Int.toNat_natCast]

theorem parseInt_plain (hv : v.getLast? = some c) (hk : lower c ≠ 107) (hm : lower c ≠ 109) :
    parseInt py v keywords = parsePlain py keywords v := by
  obtain ⟨init, rfl⟩ := List.getLast?_eq_some_iff.mp hv
  rw [parseInt, List.reverse_append, List.reverse_singleton, List.singleton_append, parseSuffixed,
    if_neg hk, if_neg hm, List.reverse_cons, List.reverse_reverse]

theorem parseInt_numeral (h : ReadsNumbers py) : parseInt py (numeral 10 n) keywords =
    .ok (n : Int) := by
  obtain ⟨c, hc, hk, hm⟩ := @numeral_getLast 10 n (by decide) (by decide)
  rw [parseInt_plain hc hk hm, parsePlain, h.decimal]

theorem parseInt_suffix (v : Str) :
    parseInt py (v ++ str "M") keywords = (· * (1024 * 1024)) <$> parseInt py v keywords ∧
      parseInt py (v ++ str "K") keywords = (· * 1024) <$> parseInt py v keywords := by
  simp only [parseInt, List.reverse_append]
  exact ⟨rfl, rfl⟩

theorem addrFormat_clean (a : Nat) (includeSizes : Bool) :
    Clean (addrFormat simple a includeSizes) := by
  have hdec := @numeral_clean 10
  unfold addrFormat
  split_ifs
  · exact (hdec (by decide) (by decide)).append (by decide)
  · exact (hdec (by decide) (by decide)).append (by decide)
  · exact Clean.append (by decide) (numeral_clean (by decide) (by decide))

theorem parseAddress_addrFormat (h : ReadsNumbers py) (a : Nat) (includeSizes : Bool) :
    parseAddress py (addrFormat simple a includeSizes) = .ok (some (a : Int)) := by
  have hsome : ∀ v : Str, v ≠ [] → parseInt py v [] = .ok (a : Int) →
      parseAddress py v = .ok (some (a : Int)) := by
    intro v hne hv
    rw [parseAddress, if_neg hne, hv]
    rfl
  unfold addrFormat
  split_ifs with hm hk
  · refine hsome _ (by simp [str]) ?_
    rw [show (a : Int) / 0x100000 = ((a / 0x100000 : Nat) : Int) by omega, formatInt_natCast,
      (parseInt_suffix _).1, parseInt_numeral h]
    exact congrArg Except.ok (by dsimp only; omega)
  · refine hsome _ (by simp [str]) ?_
    rw [show (a : Int) / 0x400 = ((a / 0x400 : Nat) : Int) by omega, formatInt_natCast,
      (parseInt_suffix _).2, parseInt_numeral h]
    exact congrArg Except.ok (by dsimp only; omega)
  · refine hsome _ (by simp [str]) ?_
    obtain ⟨c, hc, hk, hm⟩ := @numeral_getLast 16 a (by decide) (by decide)
    rw [formatInt_natCast, parseInt_plain (c := c) (by simp [List.getLast?_append, hc]) hk hm,
      parsePlain,
      h.hex]

theorem keywords_ok : ∀ table ∈ [types, subtypes appType, subtypes dataType], ∀ kv ∈ table,
    Clean kv.1 ∧ kv.1 ≠ [] ∧ (∀ c ∈ kv.1.getLast?, lower c ≠ 107 ∧ lower c ≠ 109) ∧
      table.lookup (kv.1.map lower) = some kv.2 := by
  decide +kernel

theorem lookupKeyword_ok (h : ReadsNumbers py) {table : List (Str × Int)}
    (htable : table ∈ [types, subtypes appType, subtypes dataType] ∨ table = []) (v : Nat) :
    Clean (lookupKeyword simple v table) ∧ lookupKeyword simple v table ≠ [] ∧
      parseInt py (lookupKeyword simple v table) table = .ok (v : Int) := by
  unfold lookupKeyword
  cases hfind : table.find? fun kv => decide (simple = false ∧ (v : Int) = kv.2) with
  | none =>
    rw [formatInt_natCast]
    obtain ⟨c, hc, -⟩ := @numeral_getLast 10 v (by decide) (by decide)
    exact ⟨numeral_clean (by decide) (by decide),
      fun hnil => by simp [hnil] at hc, parseInt_numeral h⟩
  | some kv =>
    have hmem := List.mem_of_find?_eq_some hfind
    have hval : (v : Int) = kv.2 := (of_decide_eq_true (List.find?_some hfind :)).2
    have htable : table ∈ [types, subtypes appType, subtypes dataType] :=
      htable.resolve_right fun hnil => by simp [hnil] at hmem
    obtain ⟨hclean, hne, hlast, hlookup⟩ := keywords_ok table htable kv hmem
    obtain ⟨hk, hm⟩ := hlast _ (List.getLast?_eq_some_getLast hne)
    have hnone : py.int kv.1 = none := h.keyword kv (by
      rcases List.mem_cons.mp htable with rfl | htable
      · exact List.mem_append_left _ (List.mem_append_left _ hmem)
      · rcases List.mem_cons.mp htable with rfl | htable
        · exact List.mem_append_left _ (List.mem_append_right _ hmem)
        · rw [List.mem_singleton.mp htable] at hmem
          exact List.mem_append_right _ hmem)
    refine ⟨hclean, hne, ?_⟩
    rw [parseInt_plain (List.getLast?_eq_some_getLast hne) hk hm, parsePlain, hnone, hval]
    simp only [List.ne_nil_of_mem hmem, if_false, hlookup]

theorem subtypes_cases (type : Int) :
    subtypes type ∈ [types, subtypes appType, subtypes dataType] ∨ subtypes type = [] := by
  by_cases happ : type = appType
  · exact .inl (by simp [happ])
  · by_cases hdata : type = dataType
    · exact .inl (by simp [hdata])
    · exact .inr (by simp [subtypes, happ, hdata])

theorem strip_eq_self (hhead : ∀ c, f.head? = some c → isSpace c = false)
    (hlast : ∀ c, f.getLast? = some c → isSpace c = false) : strip f = f := by
  have hdrop : f.dropWhile isSpace = f := by
    cases f with
    | nil => rfl
    | cons d ds => simp [hhead d rfl]
  rw [strip, hdrop, List.rdropWhile_eq_self_iff]
  intro hl
  simp [hlast _ (List.getLast?_eq_some_getLast hl)]

theorem head_of_strip (h : strip f = f) (hc : f.head? = some c) : isSpace c = false := by
  cases f with
  | nil => simp at hc
  | cons d ds =>
    obtain rfl : d = c := by simpa using hc
    by_contra hspace
    have hlen : (strip (d :: ds)).length ≤ ds.length := by
      rw [strip, List.dropWhile_cons_of_pos (by simpa using hspace)]
      exact (List.rdropWhile_prefix _ _).length_le.trans (List.dropWhile_suffix _).length_le
    rw [h, List.length_cons] at hlen
    omega

theorem Clean.strip_eq (h : Clean f) : strip f = f :=
  strip_eq_self (fun c hc => (h c (List.mem_of_mem_head? hc)).1)
    fun c hc => (h c (List.mem_of_mem_getLast? hc)).1

theorem expandVars_eq (h : ReadsNumbers py) (hf : 36 ∉ f) : expandVars py f = .ok f := by
  rw [expandVars, h.expandvars f hf]
  split
  · exact absurd List.mem_cons_self hf
  · rfl

theorem mapM_fields (h : ReadsNumbers py) {fields : List Str}
    (hf : ∀ f ∈ fields, strip f = f ∧ 36 ∉ f) :
    fields.mapM (fun f => expandVars py (strip f)) = .ok fields := by
  induction fields with
  | nil => rfl
  | cons f fs ih =>
    obtain ⟨⟨hstrip, hdollar⟩, hfs⟩ := List.forall_mem_cons.mp hf
    rw [List.mapM_cons, hstrip, expandVars_eq h hdollar, ih hfs]
    rfl

end Fields

/-! ### Lines -/

section Lines

variable {py : Python} {simple : Bool} {p : PartitionDefinition} {type subtype offset size : Nat}

structure PartitionDefinition.Read (p : PartitionDefinition) (type subtype offset size : Nat) :
    Prop where
  type : p.type = type
  subtype : p.subtype = subtype
  offset : p.offset = some (offset : Int)
  size : p.size = size
  name : NameOk p.name

section

variable (h : ReadsNumbers py)
include h

section

variable (hp : p.Read type subtype offset size)
include hp

theorem Read.fields_ok :
    ∀ f ∈ csvFields simple p offset, strip f = f ∧ 44 ∉ f ∧ 36 ∉ f ∧ 10 ∉ f := by
  have hclean : ∀ f : Str, Clean f → strip f = f ∧ 44 ∉ f ∧ 36 ∉ f ∧ 10 ∉ f := fun f hf =>
    ⟨hf.strip_eq, fun hc => (hf _ hc).2.1 rfl, fun hc => (hf _ hc).2.2 rfl,
      fun hc => absurd (hf _ hc).1 (by decide)⟩
  rw [csvFields, hp.type, hp.subtype, hp.size]
  simp only [List.forall_mem_cons]
  refine ⟨⟨hp.name.blanks, hp.name.comma, hp.name.dollar, hp.name.newline⟩,
    hclean _ (lookupKeyword_ok h (.inl (by simp)) type).1,
    hclean _ (lookupKeyword_ok h (subtypes_cases _) subtype).1, hclean _ (addrFormat_clean _ _),
    hclean _ (addrFormat_clean _ _), hclean _ ?_, by simp⟩
  cases p.encrypted <;> decide

theorem Read.fromCsv :
    PartitionDefinition.fromCsv py ([44].intercalate (csvFields simple p offset)) = .ok p := by
  have hfields := @Read.fields_ok py simple p type subtype offset size h hp
  have hsplit : ([44].intercalate (csvFields simple p offset) ++ str ",,,,").splitOn 44 =
      csvFields simple p offset ++ [[], [], [], []] := by
    rw [show [44].intercalate (csvFields simple p offset) ++ str ",,,," =
      [44].intercalate (csvFields simple p offset ++ [[], [], [], []]) by
        simp [List.intercalate, csvFields, str]]
    refine List.splitOn_intercalate 44 (fun f hf => ?_) (by simp [csvFields])
    rcases List.mem_append.mp hf with hf | hf
    · exact (hfields f hf).2.1
    · have : f = [] := by simpa using hf
      simp [this]
  have hmapM : (csvFields simple p offset ++ [[], [], [], []]).mapM
      (fun f => expandVars py (strip f)) =
      .ok (csvFields simple p offset ++ [[], [], [], []]) := by
    refine mapM_fields h fun f hf => ?_
    rcases List.mem_append.mp hf with hf | hf
    · exact ⟨(hfields f hf).1, (hfields f hf).2.2.1⟩
    · have : f = [] := by simpa using hf
      rw [this]
      exact ⟨rfl, by simp⟩
  obtain ⟨-, htype, hparseType⟩ := @lookupKeyword_ok py simple h types (.inl (by simp)) type
  obtain ⟨-, hsub, hparseSub⟩ := @lookupKeyword_ok py simple h _ (subtypes_cases type) subtype
  have hflags : parseFlags ((if p.encrypted then str "encrypted" else []).splitOn 58) =
      .ok p.encrypted := by cases p.encrypted <;> decide
  rw [PartitionDefinition.fromCsv, hsplit, hmapM]
  simp only [csvFields, List.cons_append, fieldAt, bind, Except.bind, List.getElem?_cons_zero,
    List.getElem?_cons_succ, hp.type, hp.subtype, hp.size, parseType, if_neg htype, hparseType,
    parseSubtype, if_neg hsub, hparseSub, parseAddress_addrFormat h, hflags]
  rw [← hp.type, ← hp.subtype, ← hp.size, ← hp.offset]

theorem Read.line_ok :
    strip ([44].intercalate (csvFields simple p offset)) = [44].intercalate
      (csvFields simple p offset) ∧
      ([44].intercalate (csvFields simple p offset)).head? ≠ some 35 ∧
      [44].intercalate (csvFields simple p offset) ≠ [] ∧
      10 ∉ [44].intercalate (csvFields simple p offset) := by
  have hfields := @Read.fields_ok py simple p type subtype offset size h hp
  have hhead : [44].intercalate (csvFields simple p offset) = p.name ++ 44 ::
      [44].intercalate (csvFields simple p offset).tail := by simp [List.intercalate, csvFields]
  have hflags : [44].intercalate (csvFields simple p offset) = [44].intercalate
      (csvFields simple p offset).dropLast ++ [44] ++ if p.encrypted then
        str "encrypted" else [] := by
    simp [List.intercalate, csvFields]
  have hnewline : 10 ∉ [44].intercalate (csvFields simple p offset) := by
    simp only [csvFields, List.forall_mem_cons] at hfields
    simp [List.intercalate, csvFields, hfields]
  refine ⟨strip_eq_self (fun c hc => ?_) fun c hc => ?_, fun hc => ?_, by simp [hhead], hnewline⟩
  · rw [hhead] at hc
    cases hn : p.name with
    | nil =>
      obtain rfl : 44 = c := by simpa [hn] using hc
      decide
    | cons d ds => exact head_of_strip hp.name.blanks (by simpa [hn] using hc)
  · rw [hflags] at hc
    cases hencrypted : p.encrypted with
    | true =>
      obtain rfl : 100 = c := by simpa [hencrypted, str] using hc
      decide
    | false =>
      obtain rfl : 44 = c := by simpa [hencrypted] using hc
      decide
  · have hhash := hp.name.hash
    rw [hhead] at hc
    cases hn : p.name with
    | nil => simp [hn] at hc
    | cons d ds =>
      obtain rfl : d = 35 := by simpa [hn] using hc
      simp [hn] at hhash

end

theorem fromCsvLines_rows {t : List PartitionDefinition}
    (ht : ∀ p ∈ t, ∃ type subtype offset size, p.Read type subtype offset size) :
    ∃ rows, t.mapM (PartitionDefinition.toCsv simple) = some rows ∧ (∀ row ∈ rows, 10 ∉ row) ∧
      ∀ lineNo, fromCsvLines py lineNo (rows ++ [[]]) = .ok t := by
  induction t with
  | nil => exact ⟨[], rfl, by simp, fun lineNo => rfl⟩
  | cons p ps ih =>
    obtain ⟨⟨type, subtype, offset, size, hp⟩, hps⟩ := List.forall_mem_cons.mp ht
    obtain ⟨rows, hrows, hnewline, hread⟩ := ih hps
    obtain ⟨hstrip, hhash, hne, hline⟩ := @Read.line_ok py simple p type subtype offset size h hp
    refine ⟨[44].intercalate (csvFields simple p offset) :: rows, ?_,
      List.forall_mem_cons.mpr ⟨hline, hnewline⟩, fun lineNo => ?_⟩
    · rw [List.mapM_cons, PartitionDefinition.toCsv, hp.offset, hrows]
      rfl
    · rw [List.cons_append, fromCsvLines, hstrip, if_neg (not_or.mpr ⟨hhash, hne⟩),
        Read.fromCsv h hp]
      simp only [hread]
      rfl

end

theorem fixUp_eq_self (ht : ∀ p ∈ t, ∃ type subtype offset size, p.Read type subtype offset size)
    (lastEnd : Int) :
    fixUp lastEnd t = t := by
  induction t generalizing lastEnd with
  | nil => rfl
  | cons p ps ih =>
    obtain ⟨⟨type, subtype, offset, size, hp⟩, hps⟩ := List.forall_mem_cons.mp ht
    rw [fixUp, ih hps, hp.offset, Option.getD_some, if_neg (by rw [hp.size]; omega), ← hp.offset]

theorem intercalate_newline {row : Str} :
    [10].intercalate (row :: rows) ++ [10] = [10].intercalate (row :: rows ++ [[]]) := by
  induction rows generalizing row with
  | nil => simp [List.intercalate]
  | cons row' rows ih =>
    have hcons : ∀ rest : List Str, [10].intercalate (row :: row' :: rest) =
        row ++ 10 :: [10].intercalate (row' :: rest) := fun rest => by simp [List.intercalate]
    rw [List.cons_append, List.cons_append, hcons, hcons, List.append_assoc, List.cons_append, ih]
    rfl

end Lines

/-- A table that was read from bytes, with names that can be written, comes back from CSV, whichever
way its numbers are written. -/
theorem csv_round_trip {py : Python} {b : Str} {t : List PartitionDefinition} (h : ReadsNumbers py)
    (hb : fromBinary b = .ok t) (hnames : ∀ p ∈ t, NameOk p.name) (simple : Bool) :
    ∃ text, toCsv simple t = some text ∧ fromCsv py text = .ok t := by
  have ht : ∀ p ∈ t, ∃ type subtype offset size, p.Read type subtype offset size := by
    intro p hp
    obtain ⟨type, subtype, offset, size, h1, h2, h3, h4⟩ := fromBinaryLoop_fields hb p hp
    exact ⟨type, subtype, offset, size, h1, h2, h3, h4, hnames p hp⟩
  obtain ⟨rows, hrows, hnewline, hread⟩ := @fromCsvLines_rows py simple h t ht
  rw [toCsv, hrows, Option.map_some]
  refine ⟨_, rfl, ?_⟩
  rw [fromCsv, intercalate_newline, List.splitOn_intercalate 10 ?_ (by simp)]
  · rw [List.cons_append, List.cons_append, fromCsvLines, fromCsvLines,
      hread]
    exact congrArg Except.ok (fixUp_eq_self ht _)
  · simp only [List.cons_append, List.forall_mem_cons, List.forall_mem_append]
    exact ⟨by decide, by decide, hnewline, by simp⟩

/-! ### An environment -/

def digitValue (c : UInt8) : Nat := if c ≤ 57 then c.toNat - 48 else c.toNat - 87

/-- An environment without variables that reads decimal and hexadecimal numbers. -/
def numberPython : Python where
  int v :=
    if v.all fun c => 48 ≤ c ∧ c ≤ 57 then some (Nat.ofDigits 10 (v.reverse.map digitValue) : Nat)
    else if v.take 2 = str "0x" then some
      (Nat.ofDigits 16 ((v.drop 2).reverse.map digitValue) : Nat)
    else none
  expandvars := id
  maxLong := 0x7fffffffffffffff

theorem ofDigits_numeral (h1 : 1 < base) (h16 : base ≤ 16) :
    Nat.ofDigits base ((numeral base n).reverse.map digitValue) = n := by
  unfold numeral
  split_ifs with h0
  · rw [h0]
    rfl
  · have hvalue : ∀ d < 16, digitValue (digitByte d) = d := by decide
    rw [← List.map_reverse, List.reverse_reverse, List.map_map, List.map_congr_left (g := id),
      List.map_id,
      Nat.ofDigits_digits]
    exact fun d hd => hvalue d (by have := Nat.digits_lt_base h1 hd; omega)

theorem readsNumbers_numberPython : ReadsNumbers numberPython := by
  refine ⟨fun n => ?_, fun n => ?_, by decide +kernel, fun _ _ => rfl⟩
  · have hdigits : (numeral 10 n).all (fun c => decide (48 ≤ c ∧ c ≤ 57)) = true := by
      rw [List.all_eq_true]
      intro c hc
      unfold numeral at hc
      split_ifs at hc
      · rw [List.mem_singleton.mp hc]
        decide
      · obtain ⟨d, hd, rfl⟩ := List.mem_map.mp hc
        have hten : ∀ d < 10, decide (48 ≤ digitByte d ∧ digitByte d ≤ 57) = true := by decide
        exact hten d (Nat.digits_lt_base (by decide) (List.mem_reverse.mp hd))
    rw [numberPython]
    simp only [hdigits, if_true, ofDigits_numeral (by decide : 1 < 10) (by decide)]
  · rw [numberPython]
    have hx : (str "0x" ++ numeral 16 n).all (fun c => decide (48 ≤ c ∧ c ≤ 57)) = false := by
      simp [str]
    simp only [hx, Bool.false_eq_true, if_false]
    rw [if_pos (show List.take 2 (str "0x" ++ numeral 16 n) = str "0x" from rfl),
      show List.drop 2 (str "0x" ++ numeral 16 n) = numeral 16 n from rfl,
      ofDigits_numeral (by decide) (by decide)]

def nvsTable : List PartitionDefinition := [⟨str "nvs", 1, 2, some 0x9000, 0x4000, true⟩]

theorem csv_round_trip_nvs : ∃ text, toCsv false nvsTable = some text ∧
    fromCsv numberPython text = .ok nvsTable := by
  refine @csv_round_trip numberPython (nvsTable.flatMap PartitionDefinition.packed ++
    List.replicate 32 0xff) _ readsNumbers_numberPython (by decide +kernel) (fun p hp => ?_) false
  rw [List.mem_singleton.mp hp]
  exact ⟨by decide, by decide, by decide, by decide, by decide⟩

end EspIdf.PartitionTable
