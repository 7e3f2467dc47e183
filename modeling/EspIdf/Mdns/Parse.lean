import EspIdf.Device.Ram

/-! `mdns_parse_packet` of `mdns.c`: the answers it asks for and the search results it adds.  Reads
are not checked against the packet's length, so bytes behind it can be answered and become results.
A definition has the name of its function without `mdns`.  Strings are lists of bytes without the
NUL, and the packet buffer is a memory of bytes. -/

namespace EspIdf.Mdns

open EspIdf.Device

abbrev Str := List UInt8

def str (s : String) : Str := s.toList.map fun c => UInt8.ofNat c.toNat

def defaultDomain : Str := str "local"

def subStr : Str := str "_sub"

def nameMaxLen : Nat := 64

def headLen : Nat := 12

/-! ### The server -/

structure Service where
  instanceName : Option Str
  service : Str
  proto : Str
  port : Nat
  deriving DecidableEq, Repr

/-- `mdns_server_t`. -/
structure Server where
  hostname : Str
  instanceName : Option Str
  services : List Service
  deriving DecidableEq, Repr

def createService (service proto : Str) (port : Nat) : Service :=
  ⟨none, service.take nameMaxLen, proto.take nameMaxLen, port⟩

def instanceOf (server : Server) (service : Service) : Str :=
  service.instanceName.getD (server.instanceName.getD server.hostname)

def answerTxt : UInt8 := 0x04

def answerSrv : UInt8 := 0x02

def answerA : UInt8 := 0x01

def answerSdptr : UInt8 := 0x80

/-! ### Names -/

def sdName : List Str := [str "_services", str "_dns-sd", str "_udp", defaultDomain]

def cstr (s : Str) : Str := s.takeWhile (· ≠ 0)

def addLabel (name : List Str) (buf : Str) : List Str :=
  if name.length = 1 ∧ buf.head? ≠ some 95 ∧ buf ≠ defaultDomain ∧ buf ≠ str "ip6" ∧
      buf ≠ str "in-addr" then
    [(name.headD [] ++ str "." ++ buf).take nameMaxLen]
  else if buf = subStr then name
  else name ++ [buf]

structure Name where
  host : Str
  service : Str
  proto : Str
  domain : Str
  sub : Bool
  deriving DecidableEq, Repr

def addPart (name : List Str × Bool) (buf : Str) : List Str × Bool :=
  (addLabel name.1 buf, name.2 || buf == subStr)

def readName (packet : Bytes) : Nat → Nat → Nat → List Str × Bool → Option (Nat × List Str × Bool)
  | 0, _, _, _ => none
  | fuel + 1, start, pos, name =>
    let len := (packet pos).toNat
    if len = 0 then some (pos + 1, name)
    else if name.1.length = 4 then none
    else if len < 64 then
      readName packet fuel start (pos + 1 + len) (addPart name (cstr (packet.read (pos + 1) len)))
    else
      let address := len % 64 * 256 + (packet (pos + 1)).toNat
      if address ≥ start then none
      else (readName packet fuel address address name).map fun res => (pos + 2, res.2)

/-- The parts moved to the places that they have by their number; a name with another domain is
none. -/
def formatName (parts : List Str × Bool) : Option Name :=
  let name? : Option Name := match parts.1 with
    | [host, domain] => some ⟨host, [], [], domain, parts.2⟩
    | [service, proto, domain] => some ⟨[], service, proto, domain, parts.2⟩
    | [host, service, proto, domain] => some ⟨host, service, proto, domain, parts.2⟩
    | _ => none
  name?.filter fun name => name.domain = defaultDomain ∨ name.domain = str "arpa"

def parseFqdn (fuel : Nat) (packet : Bytes) (start : Nat) : Option (Nat × Name) :=
  (readName packet fuel start start ([], false)).bind fun res =>
    (formatName res.2).map fun name => (res.1, name)

def readU16 (packet : Bytes) (index : Nat) : Nat :=
  (packet index).toNat * 256 + (packet (index + 1)).toNat

/-! ### Questions -/

/-- `mdns_answer_item_t` with the index of the service, or `none` for `NULL`. -/
abbrev Item := Option Nat × UInt8

def addAnswer (answers : List Item) (service : Option Nat) (type : UInt8) : List Item :=
  if answers.any (·.1 = service) then
    answers.map fun a => if a.1 = service then (a.1, a.2 ||| type) else a
  else (service, type) :: answers

def typeA : Nat := 0x0001

def typePtr : Nat := 0x000c

def typeTxt : Nat := 0x0010

def typeAaaa : Nat := 0x001c

def typeSrv : Nat := 0x0021

def typeAny : Nat := 0x00ff

def answerAll : UInt8 := 0x3f

def serviceQuestion (server : Server) (name : Name) (type i : Nat) (host : Str)
    (answers : List Item) :
    List Item :=
  if type = typePtr then addAnswer answers (some i) answerAll
  else if type = typeTxt then
    if host = [] ∨ name.host = [] ∨ name.host ≠ host then answers
    else addAnswer answers (some i) answerTxt
  else if type = typeSrv then
    if host = [] ∨ name.host = [] ∨ name.host ≠ host then answers
    else addAnswer answers (some i) (answerSrv ||| answerA)
  else if type = typeAny then
    if name.host = [] ∨ server.hostname = [] ∨ name.host ≠ server.hostname then
      addAnswer answers (some i) answerAll
    else answers
  else answers

def question (server : Server) (name : Name) (type : Nat) (answers : List Item) : List Item :=
  if name.service = [] ∨ name.proto = [] then
    if (type = typeA ∨ type = typeAaaa ∨ type = typeAny) ∧ name.host ≠ [] ∧ server.hostname ≠ [] ∧
        name.host = server.hostname then addAnswer answers none answerA
    else answers
  else if name.host = str "_services" ∧ name.service = str "_dns-sd" ∧ name.proto = str "_udp" ∧
      name.domain = defaultDomain ∧ type = typePtr then
    (List.range server.services.length).foldl
      (fun answers i => addAnswer answers (some i) answerSdptr)
      answers
  else if name.sub then answers
  else
    let asked (s : Service) : Bool := s.service = name.service ∧ s.proto = name.proto
    match server.services.findIdx? asked, server.services.find? asked with
    | some i, some s => serviceQuestion server name type i (instanceOf server s) answers
    | _, _ => answers

/-- The loop over `qs` questions: where it ends, or `none` after an error, and the answers. -/
def questionLoop (fuel : Nat) (server : Server) (packet : Bytes) :
    Nat → Nat → List Item → Option Nat × List Item
  | 0, content, answers => (some content, answers)
  | qs + 1, content, answers =>
    match parseFqdn fuel packet content with
    | none => (none, answers)
    | some (next, name) =>
      questionLoop fuel server packet qs (next + 4)
        (question server name (readU16 packet next) answers)

/-! ### Records -/

structure Temp where
  host : Str
  instanceName : Str
  txt : Str
  priority : Nat
  weight : Nat
  port : Nat
  addr : List UInt8
  addrv6 : List UInt8
  ptr : Bool
  deriving DecidableEq, Repr

def Temp.zero : Temp := ⟨[], [], [], 0, 0, 0, [0, 0, 0, 0], List.replicate 16 0, false⟩

def Temp.noAddr (a : Temp) : Bool := a.addr = [0, 0, 0, 0]

structure SearchState where
  host : Str
  service : Str
  proto : Str
  running : Bool
  results : List Temp

def txtMaxLen : Nat := 1024

def txtLoop : Nat → List UInt8 → Str → Str
  | fuel + 1, partLen :: rest, txt =>
    if rest.length < partLen.toNat ∨ txtMaxLen < txt.length + partLen.toNat + 1 then txt
    else
      let txt := txt ++ rest.take partLen.toNat
      let rest := rest.drop partLen.toNat
      txtLoop fuel rest (if rest = [] then txt else txt ++ str "&")
  | _, _, txt => txt

/-- The check of the host of an address: `none` for a wrong host. -/
def hostOf (search : SearchState) (name : Name) (answer : Temp) : Option Temp :=
  if search.host ≠ [] then if name.host ≠ search.host then none else some answer
  else if ¬ answer.ptr then some { answer with host := name.host }
  else if answer.host ≠ name.host then none
  else some answer

def otherService (search : SearchState) (name : Name) : Prop :=
  search.host ≠ [] ∨ name.service ≠ search.service ∨ name.proto ≠ search.proto

instance {search : SearchState} {name : Name} : Decidable (otherService search name) :=
  inferInstanceAs (Decidable (_ ∨ _))

def record (fuel : Nat) (search : SearchState) (packet : Bytes) (name : Name)
    (type dataPtr dataLen : Nat)
    (s : Temp × List Temp) : Temp × List Temp :=
  let answer := s.1
  if type = typePtr then
    match parseFqdn fuel packet dataPtr with
    | none => s
    | some (_, name) =>
      if otherService search name then s else ({ answer with instanceName := name.host }, s.2)
  else if type = typeSrv then
    if otherService search name then s
    else if answer.instanceName ≠ [] ∧ answer.instanceName ≠ name.host then s
    else
      let answer := { answer with instanceName := name.host }
      match parseFqdn fuel packet (dataPtr + 6) with
      | none => (answer, s.2)
      | some (_, target) =>
        ({ answer with
          ptr := true
          priority := readU16 packet dataPtr
          weight := readU16 packet (dataPtr + 2)
          port := readU16 packet (dataPtr + 4)
          addr := if answer.host ≠ [] ∧ answer.host ≠ target.host then [0, 0, 0, 0] else answer.addr
          host := target.host }, s.2)
  else if type = typeTxt then
    ({ answer with txt := cstr (txtLoop dataLen (packet.read dataPtr dataLen) []) }, s.2)
  else if type = typeAaaa then
    match hostOf search name answer with
    | none => s
    | some answer => ({ answer with addrv6 := packet.read dataPtr 16 }, s.2)
  else if type = typeA then
    match hostOf search name answer with
    | none => s
    | some answer => ({ answer with addr := packet.read dataPtr 4 },
        if answer.noAddr then s.2 else { answer with ptr := false } :: s.2)
  else s

def recordLoop (fuel : Nat) (search : SearchState) (packet : Bytes) (len : Nat) :
    Nat → Nat → Temp × List Temp → Bool × Temp × List Temp
  | 0, _, s => (true, s)
  | n + 1, content, s =>
    if content < len then
      match parseFqdn fuel packet content with
      | none => (false, s)
      | some (next, name) =>
        let dataLen := readU16 packet (next + 8)
        if next + 10 + dataLen > len then (false, s)
        else recordLoop fuel search packet len n (next + 10 + dataLen)
          (record fuel search packet name (readU16 packet next) (next + 10) dataLen s)
    else (true, s)

def recordResults (fuel : Nat) (search : SearchState) (packet : Bytes) (len content : Nat) :
    List Temp :=
  let (ended, answer, results) := recordLoop fuel search packet len len content
    (.zero, search.results)
  if ended ∧ (search.host ≠ [] ∨ answer.ptr) ∧ ¬ answer.noAddr then
    { answer with ptr := false } :: results
  else results

def parsePacket (fuel : Nat) (server : Server) (search : SearchState) (packet : Bytes) (len : Nat) :
    List Item × List Temp :=
  let questions := readU16 packet 4
  let asked := if questions = 0 then (some headLen, [])
    else questionLoop fuel server packet (questions % 256) headLen []
  match asked with
  | (none, answers) => (answers, search.results)
  | (some content, answers) =>
    (answers, if search.running ∧ (readU16 packet 6 ≠ 0 ∨ readU16 packet 10 ≠ 0) then
      recordResults fuel search packet len content else search.results)

/-! ### What packets can name -/

def labelsName : List Str → List Str × Bool → Option (List Str × Bool)
  | [], name => some name
  | label :: labels, name =>
    if name.1.length = 4 then none else labelsName labels (addPart name (cstr label))

def LabelsOk (labels : List Str) : Prop := ∀ label ∈ labels, label ≠ [] ∧ label.length < 64

def Nameable (name : Name) : Prop :=
  ∃ labels, LabelsOk labels ∧ (labelsName labels ([], false)).bind formatName = some name

def LooksInside (server : Server) (search : SearchState) : Prop :=
  ∀ (fuel len : Nat) (packet packet' : Bytes), (∀ x < len, packet x = packet' x) →
    parsePacket fuel server search packet len = parsePacket fuel server search packet' len

structure Silent (server : Server) (search : SearchState) : Prop where
  services : server.services = []
  hostname : ∀ name, Nameable name → name.service = [] ∨ name.proto = [] → name.host ≠ [] →
    name.host ≠ server.hostname
  search : search.running → search.host ≠ [] ∧ ∀ name, Nameable name → name.host ≠ search.host

section Silent

variable {fuel start pos : Nat} {packet : Bytes} {server : Server} {search : SearchState}

theorem readName_sound (h : readName packet fuel start pos n = some res) :
    ∃ labels, LabelsOk labels ∧ labelsName labels n = some res.2 := by
  induction fuel generalizing start pos n res with
  | zero => cases h
  | succ fuel ih =>
    rw [readName] at h
    simp only at h
    split_ifs at h with h0 h4 h64 haddr
    · cases h
      exact ⟨[], fun _ hl => absurd hl List.not_mem_nil, rfl⟩
    · obtain ⟨labels, hok, hname⟩ := ih h
      refine ⟨packet.read (pos + 1) (packet pos).toNat :: labels, fun l hl => ?_, ?_⟩
      · rcases List.mem_cons.mp hl with rfl | hl
        · refine ⟨fun hnil => h0 ?_, by rw [Bytes.length_read]; exact h64⟩
          rw [← @Bytes.length_read packet (pos + 1) (packet pos).toNat, hnil]
          rfl
        · exact hok l hl
      · rw [labelsName, if_neg h4, hname]
    · obtain ⟨res', hres', rfl⟩ := Option.map_eq_some_iff.mp h
      obtain ⟨labels, hok, hname⟩ := ih hres'
      exact ⟨labels, hok, hname⟩

theorem nameable_of_parseFqdn {next : Nat} {name : Name}
    (h : parseFqdn fuel packet start = some (next, name)) : Nameable name := by
  obtain ⟨res, hread, hmap⟩ := Option.bind_eq_some_iff.mp h
  obtain ⟨name', hformat, heq⟩ := Option.map_eq_some_iff.mp hmap
  obtain ⟨labels, hok, hlabels⟩ := readName_sound hread
  cases heq
  exact ⟨labels, hok, by rw [hlabels, Option.bind_some, hformat]⟩

section

variable (h : Silent server search)
include h

theorem Silent.question {name : Name} (hname : Nameable name) (type : Nat) :
    question server name type [] = [] := by
  unfold Mdns.question
  split_ifs with hhost hasked hsd
  · exact absurd hasked.2.2.2 (h.hostname name hname hhost hasked.2.1)
  · rfl
  · rw [h.services]
    rfl
  · rfl
  · rw [h.services]
    rfl

theorem Silent.questionLoop (qs content : Nat) :
    (questionLoop fuel server packet qs content []).2 = [] := by
  induction qs generalizing content with
  | zero => rfl
  | succ qs ih =>
    rw [Mdns.questionLoop]
    split
    · rfl
    · rename_i next name hparse
      rw [h.question (nameable_of_parseFqdn hparse)]
      exact ih _

theorem Silent.record (hrunning : search.running = true) {name : Name}
    (hname : Nameable name) {type dataPtr dataLen : Nat} (hs : s.1.noAddr = true) :
    (record fuel search packet name type dataPtr dataLen s).1.noAddr = true ∧
      (record fuel search packet name type dataPtr dataLen s).2 = s.2 := by
  obtain ⟨hhost, hother⟩ := h.search hrunning
  have hof : ∀ answer, hostOf search name answer = none := fun answer => by
    rw [hostOf, if_pos hhost, if_pos (hother name hname)]
  have hservice : ∀ name, otherService search name := fun _ => .inl hhost
  unfold Mdns.record
  simp only [hof, hservice, if_true]
  split_ifs
  · split <;> exact ⟨hs, rfl⟩
  all_goals exact ⟨hs, rfl⟩

theorem Silent.recordLoop (hrunning : search.running = true) {len n : Nat}
    {content : Nat} {s : Temp × List Temp} (hs : s.1.noAddr = true) :
    (recordLoop fuel search packet len n content s).2.1.noAddr = true ∧
      (recordLoop fuel search packet len n content s).2.2 = s.2 := by
  induction n generalizing content s with
  | zero => exact ⟨hs, rfl⟩
  | succ n ih =>
    rw [Mdns.recordLoop]
    split_ifs
    · split
      · exact ⟨hs, rfl⟩
      · rename_i next name hparse
        obtain ⟨hs', hresults⟩ := h.record hrunning (nameable_of_parseFqdn hparse) hs
        simp only
        split_ifs
        · exact ⟨hs, rfl⟩
        · rw [← hresults]
          exact ih hs'
    · exact ⟨hs, rfl⟩

theorem Silent.parsePacket (len : Nat) :
    parsePacket fuel server search packet len = ([], search.results) := by
  have hresults : ∀ content, (if search.running ∧
    (readU16 packet 6 ≠ 0 ∨ readU16 packet 10 ≠ 0) then
      recordResults fuel search packet len content else search.results) = search.results := by
    intro content
    split_ifs with hsearch
    · obtain ⟨haddr, heq⟩ := @Silent.recordLoop fuel packet server search h hsearch.1 len
        len content
        (.zero, search.results) rfl
      rw [recordResults]
      simp only [haddr, not_true_eq_false, and_false, if_false]
      exact heq
    · rfl
  unfold Mdns.parsePacket
  simp only [hresults]
  split
  · rename_i answers hasked
    split_ifs at hasked
    · cases hasked
    · rw [← h.questionLoop, hasked]
  · rename_i content answers hasked
    split_ifs at hasked
    · cases hasked
      rfl
    · rw [← h.questionLoop, hasked]

end

end Silent

/-! ### Packets that end too early -/

def ofBytes (bs : List UInt8) : Bytes := fun x => bs.getD x 0

def encode : List Str → List UInt8
  | [] => [0]
  | label :: labels => UInt8.ofNat label.length :: (label ++ encode labels)

/-- A header with numbers of questions and of answers. -/
def header (questions answers : UInt8) : List UInt8 :=
  [0, 0, 0, 0, 0, questions, 0, answers, 0, 0, 0, 0]

section Early

variable {fuel start pos len : Nat} {packet : Bytes} {server : Server} {search : SearchState}
  {name : Name}

theorem read_append : packet.read pos (as ++ bs).length = as ++ bs ↔
    packet.read pos as.length = as ∧ packet.read (pos + as.length) bs.length = bs := by
  rw [List.length_append, Bytes.read_add]
  refine ⟨fun h => List.append_inj h Bytes.length_read, fun h => ?_⟩
  rw [h.1, h.2]

theorem read_ofBytes {as bs cs : List UInt8} :
    (ofBytes (as ++ bs ++ cs)).read as.length bs.length = bs := by
  rw [Bytes.read_eq_iff]
  refine ⟨rfl, fun k hk => ?_⟩
  have hle : ¬ as.length + k < as.length := by omega
  simp [ofBytes, List.getD_eq_getElem?_getD, List.getElem?_append, hk, hle]

theorem readU16_at {as bs : List UInt8} {k : Nat} : readU16 (ofBytes (as ++ bs)) (as.length + k) =
    (bs.getD k 0).toNat * 256 + (bs.getD (k + 1) 0).toNat := by
  rw [readU16, Nat.add_assoc]
  simp only [ofBytes]
  rw [List.getD_append_right _ _ _ _ (Nat.le_add_right _ _),
    List.getD_append_right _ _ _ _ (Nat.le_add_right _ _), Nat.add_sub_cancel_left,
    Nat.add_sub_cancel_left]

theorem header_fields {questions answers : UInt8} {bs : List UInt8} :
    readU16 (ofBytes (header questions answers ++ bs)) 4 = questions.toNat ∧
      readU16 (ofBytes (header questions answers ++ bs)) 6 = answers.toNat ∧
      readU16 (ofBytes (header questions answers ++ bs)) 10 = 0 := by
  simp [readU16, ofBytes, header]

theorem readName_encode (hok : LabelsOk labels)
    (hread : packet.read pos (encode labels).length = encode labels)
    (hname : labelsName labels n = some n')
    (hfuel : labels.length < fuel) :
    readName packet fuel start pos n = some (pos + (encode labels).length, n') := by
  induction labels generalizing fuel pos n with
  | nil =>
    obtain ⟨fuel, rfl⟩ : ∃ f, fuel = f + 1 := ⟨fuel - 1, by omega⟩
    have hzero : packet pos = 0 := (Bytes.read_eq_iff.mp hread).2 0 (by decide)
    cases hname
    rw [readName]
    simp only [hzero]
    rfl
  | cons label labels ih =>
    obtain ⟨fuel, rfl⟩ : ∃ f, fuel = f + 1 := ⟨fuel - 1, by omega⟩
    obtain ⟨hne, hlt⟩ := hok label List.mem_cons_self
    have hpos : label.length ≠ 0 := fun h => hne (List.length_eq_zero_iff.mp h)
    have hparts : packet.read pos ([UInt8.ofNat label.length] ++ (label ++ encode labels)).length =
      [UInt8.ofNat label.length] ++ (label ++ encode labels) := hread
    obtain ⟨hfirst, hrest⟩ := read_append.mp hparts
    obtain ⟨hlabel, hrest⟩ := read_append.mp hrest
    rw [List.length_singleton] at hlabel hrest
    have hbyte : packet pos = UInt8.ofNat label.length :=
      (Bytes.read_eq_iff.mp hfirst).2 0 Nat.one_pos
    have hlen : (packet pos).toNat = label.length := by
      rw [hbyte, UInt8.toNat_ofNat']
      omega
    rw [labelsName] at hname
    split_ifs at hname with h4
    rw [readName]
    simp only [hlen, hpos, if_false, h4, hlt, if_true]
    rw [hlabel, ih (fun l hl => hok l (List.mem_cons_of_mem _ hl)) hrest hname
      (by simp at hfuel; omega)]
    simp only [encode, List.length_cons, List.length_append, Option.some.injEq, Prod.mk.injEq,
      and_true]
    omega

theorem Nameable.encoded (h : Nameable name) : ∃ bs fuel, ∀ packet start,
    Bytes.read packet start bs.length = bs → parseFqdn fuel packet start =
      some (start + bs.length, name) := by
  obtain ⟨labels, hok, hname⟩ := h
  obtain ⟨n, hn, hformat⟩ := Option.bind_eq_some_iff.mp hname
  refine ⟨encode labels, labels.length + 1, fun packet start hread => ?_⟩
  rw [parseFqdn, readName_encode hok hread hn (Nat.lt_succ_self _), Option.bind_some, hformat]
  rfl

theorem LooksInside.no_answer (h : LooksInside server search) (hname : Nameable name)
    (type : UInt8) :
    question server name type.toNat [] = [] := by
  obtain ⟨bs, fuel, hparse⟩ := hname.encoded
  have hask := h fuel 0 (ofBytes (header 1 0 ++ bs ++ [0, type])) (ofBytes []) fun x hx => by omega
  have hcontent := hparse (ofBytes (header 1 0 ++ bs ++ [0, type])) headLen read_ofBytes
  have htype : readU16 (ofBytes (header 1 0 ++ bs ++ [0, type])) (headLen + bs.length) =
      type.toNat := by
    have hat := @readU16_at (header 1 0 ++ bs) [0, type] 0
    rw [List.length_append, Nat.add_zero] at hat
    rw [show headLen = (header 1 0).length from rfl, hat]
    simp
  have hone : parsePacket fuel server search (ofBytes (header 1 0 ++ bs ++ [0, type])) 0 =
      (question server name type.toNat [], search.results) := by
    have hfields := @header_fields 1 0 (bs ++ [0, type])
    rw [← List.append_assoc] at hfields
    have hloop : questionLoop fuel server (ofBytes (header 1 0 ++ bs ++ [0, type])) 1 headLen [] =
        (some (headLen + bs.length + 4), question server name type.toNat []) := by
      rw [questionLoop, hcontent]
      simp only [htype, questionLoop]
    unfold parsePacket
    simp only [hfields.1, hfields.2.1, hfields.2.2]
    rw [show UInt8.toNat 1 % 256 = 1 from rfl, hloop]
    simp
  rw [hone] at hask
  exact congrArg Prod.fst hask

theorem recordLoop_next {n content next : Nat} (hlt : content < len)
    (hparse : parseFqdn fuel packet content = some (next, name))
    (hend : next + 10 + readU16 packet (next + 8) ≤ len) :
    recordLoop fuel search packet len (n + 1) content s =
      recordLoop fuel search packet len n (next + 10 + readU16 packet (next + 8))
        (record fuel search packet name (readU16 packet next) (next + 10)
          (readU16 packet (next + 8)) s) := by
  rw [recordLoop, if_pos hlt, hparse]
  simp only
  rw [if_neg (by omega)]

theorem recordLoop_end : recordLoop fuel search packet len n len s = (true, s) := by
  cases n with
  | zero => rfl
  | succ n => rw [recordLoop, if_neg (Nat.lt_irrefl _)]

theorem parsePacket_answers {answers : UInt8} {bs : List UInt8} (hanswers : answers ≠ 0)
    (hrunning : search.running = true) :
    parsePacket fuel server search (ofBytes (header 0 answers ++ bs)) len =
      ([], recordResults fuel search (ofBytes (header 0 answers ++ bs)) len headLen) := by
  obtain ⟨hq, ha, -⟩ := @header_fields 0 answers bs
  have hne : answers.toNat ≠ 0 := fun h => hanswers (UInt8.toNat_inj.mp h)
  unfold parsePacket
  simp [hq, ha, hrunning, hne]

def emptyA : List UInt8 := [0, 1, 0, 1, 0, 0, 0, 0, 0, 0]

theorem record_a {answer : Temp} (h : hostOf search name s.1 = some answer) :
    record fuel search packet name typeA dataPtr dataLen s =
      ({ answer with addr := packet.read dataPtr 4 },
      if answer.noAddr then s.2 else { answer with ptr := false } :: s.2) := by
  unfold record
  rw [if_neg (by decide), if_neg (by decide), if_neg (by decide), if_neg (by decide), if_pos rfl, h]

theorem recordResults_behind (hhost : search.host ≠ []) (hname : name.host = search.host)
    (hparse : parseFqdn fuel (ofBytes (header 0 1 ++ bs ++ emptyA ++ [b, b, b, b])) headLen =
    some (headLen + bs.length, name)) :
    recordResults fuel search (ofBytes (header 0 1 ++ bs ++ emptyA ++ [b, b, b, b]))
      (headLen + bs.length + 10) headLen =
      if b = 0 then search.results else { Temp.zero with addr := [b, b, b, b] } ::
        search.results := by
  have hlen : (header 0 1 ++ bs).length = headLen + bs.length := List.length_append
  have htype := @readU16_at (header 0 1 ++ bs) (emptyA ++ [b, b, b, b]) 0
  have hdata := @readU16_at (header 0 1 ++ bs) (emptyA ++ [b, b, b, b]) 8
  rw [← List.append_assoc, hlen] at htype hdata
  have haddr : (ofBytes (header 0 1 ++ bs ++ emptyA ++ [b, b, b, b])).read
      (headLen + bs.length + 10) 4 =
      [b, b, b, b] := by
    have hread := @read_ofBytes (header 0 1 ++ bs ++ emptyA) [b, b, b, b] []
    rw [List.append_nil, List.length_append, hlen] at hread
    exact hread
  have hof : hostOf search name Temp.zero = some Temp.zero := by
    rw [hostOf, if_pos hhost, if_neg (not_not.mpr hname)]
  replace htype := htype.trans (show _ = typeA by simp [emptyA, typeA])
  replace hdata := hdata.trans (show _ = 0 by simp [emptyA])
  rw [Nat.add_zero] at htype
  rw [recordResults, recordLoop_next (by omega) hparse (by omega), hdata, htype, record_a hof,
    recordLoop_end, haddr]
  by_cases hb : b = 0 <;> simp [Temp.noAddr, Temp.zero, hhost, hb]

theorem LooksInside.no_host (h : LooksInside server search) (hrunning : search.running = true)
    (hhost : search.host ≠ []) (hname : Nameable name) : name.host ≠ search.host := by
  intro heq
  obtain ⟨bs, fuel, hparse⟩ := hname.encoded
  have hsame := h fuel (headLen + bs.length + 10)
    (ofBytes (header 0 1 ++ bs ++ emptyA ++ [0, 0, 0, 0]))
    (ofBytes (header 0 1 ++ bs ++ emptyA ++ [1, 1, 1, 1])) fun x hx => by
      have hlen : x < (header 0 1 ++ bs ++ emptyA).length := by
        simp [header, emptyA, headLen] at hx ⊢
        omega
      rw [ofBytes, ofBytes, List.getD_append _ _ _ _ hlen, List.getD_append _ _ _ _ hlen]
  have hresults : ∀ b, parsePacket fuel server search
    (ofBytes (header 0 1 ++ bs ++ emptyA ++ [b, b, b, b]))
      (headLen + bs.length + 10) = ([], if b = 0 then search.results
        else { Temp.zero with addr := [b, b, b, b] } :: search.results) := by
    intro b
    have hread := @read_ofBytes (header 0 1) bs (emptyA ++ [b, b, b, b])
    have hanswers := @parsePacket_answers fuel (headLen + bs.length + 10) server search 1
      (bs ++ emptyA ++ [b, b, b, b]) (by decide) hrunning
    rw [← List.append_assoc] at hread
    rw [← List.append_assoc, ← List.append_assoc] at hanswers
    rw [hanswers, recordResults_behind hhost heq (hparse _ _ hread)]
  rw [hresults 0, hresults 1] at hsame
  exact List.cons_ne_self _ _ (congrArg Prod.snd hsame).symm

def threeRecords : List UInt8 :=
  header 0 3 ++ [1, 97, 5, 108, 111, 99, 97, 108, 0, 0, 1, 0, 1, 0, 0, 0, 0, 0, 4, 1, 1, 1, 1] ++
    [0xc0, 12, 0, 0x1c, 0, 1, 0, 0, 0, 0, 0, 0] ++ [0xc0, 12] ++ emptyA

def aLocal : Name := ⟨str "a", [], [], defaultDomain, false⟩

def behind (v : Bool) : Bytes := ofBytes (threeRecords ++ List.replicate 4 (if v then 1 else 0))

theorem behind_parse : ∀ v, parseFqdn 4 (behind v) 12 = some (21, aLocal) ∧
    parseFqdn 4 (behind v) 35 = some (37, aLocal) ∧ parseFqdn 4 (behind v) 47 =
      some (49, aLocal) := by
  decide +kernel

theorem behind_read : ∀ v, readU16 (behind v) 21 = typeA ∧ readU16 (behind v) 29 = 4 ∧
    (behind v).read 31 4 = [1, 1, 1, 1] ∧ readU16 (behind v) 37 = typeAaaa ∧
      readU16 (behind v) 45 = 0 ∧
    readU16 (behind v) 49 = typeA ∧ readU16 (behind v) 57 = 0 := by
  decide +kernel

theorem record_aaaa {answer : Temp} (h : hostOf search name s.1 = some answer) :
    record fuel search packet name typeAaaa dataPtr dataLen s =
      ({ answer with addrv6 := packet.read dataPtr 16 }, s.2) := by
  unfold record
  rw [if_neg (by decide), if_neg (by decide), if_neg (by decide), if_pos rfl, h]

theorem recordResults_three (hhost : search.host = []) (v : Bool) :
    (recordResults 4 search (behind v) 59 12).head?.map (·.addrv6) =
      some ((behind v).read 47 16) := by
  obtain ⟨h1, h2, h3⟩ := behind_parse v
  obtain ⟨ht1, hd1, ha1, ht2, hd2, ht3, hd3⟩ := behind_read v
  have hof : ∀ {answer : Temp}, answer.ptr = false →
      hostOf search aLocal answer = some { answer with host := aLocal.host } := by
    intro answer hptr
    rw [hostOf, if_neg (not_not.mpr hhost), if_pos (by simp [hptr])]
  rw [recordResults, recordLoop_next (by decide) h1 (by simp [hd1]), hd1, ht1,
    record_a (hof rfl), ha1,
    recordLoop_next (by decide) h2 (by simp [hd2]), hd2, ht2, record_aaaa (hof rfl),
    recordLoop_next (by decide) h3 (by simp [hd3]), hd3, ht3, record_a (hof rfl), recordLoop_end]
  simp [hhost, Temp.noAddr, Temp.zero]

theorem LooksInside.host (h : LooksInside server search) (hrunning : search.running = true) :
    search.host ≠ [] := by
  intro hhost
  have hresults : ∀ v, parsePacket 4 server search (behind v) 59 =
      ([], recordResults 4 search (behind v) 59 12) := fun v =>
    @parsePacket_answers 4 59 server search 3 _ (by decide) hrunning
  have hsame := h 4 59 (behind false) (behind true) (by decide +kernel)
  rw [hresults, hresults] at hsame
  have hsnd : recordResults 4 search (behind false) 59 12 =
      recordResults 4 search (behind true) 59 12 :=
    congrArg Prod.snd hsame
  have hbytes : some ((behind false).read 47 16) = some ((behind true).read 47 16) := by
    rw [← recordResults_three hhost, ← recordResults_three hhost, hsnd]
  exact absurd hbytes (by decide +kernel)

theorem addAnswer_ne_nil (answers : List Item) (service : Option Nat) (type : UInt8) :
    addAnswer answers service type ≠ [] := by
  unfold addAnswer
  split_ifs with hany
  · intro hnil
    rw [List.map_eq_nil_iff.mp hnil] at hany
    simp at hany
  · exact List.cons_ne_nil _ _

def sdQuery : Name := ⟨str "_services", str "_dns-sd", str "_udp", defaultDomain, false⟩

theorem nameable_sdQuery : Nameable sdQuery := by
  refine ⟨sdName, ?_, by decide +kernel⟩
  unfold LabelsOk
  decide +kernel

/-- Nothing behind a packet is answered or becomes a result exactly if the server has nothing that a
name read there could ask for, and no search that one could answer. -/
theorem looks_inside_iff_silent : LooksInside server search ↔ Silent server search := by
  constructor
  · intro h
    refine ⟨?_, fun name hname hempty hne heq => ?_, fun hrunning =>
      ⟨h.host hrunning, fun name hname =>
      h.no_host hrunning (h.host hrunning) hname⟩⟩
    · by_contra hne
      obtain ⟨n, hn⟩ := Nat.exists_eq_succ_of_ne_zero fun h => hne (List.length_eq_zero_iff.mp h)
      have hsd := h.no_answer nameable_sdQuery 12
      rw [question, hn, List.range_succ,
        List.foldl_append] at hsd
      exact addAnswer_ne_nil _ _ _ hsd
    · have hasked := h.no_answer hname 1
      rw [question, if_pos hempty, if_pos ⟨.inl rfl, hne, heq ▸ hne, heq⟩] at hasked
      exact addAnswer_ne_nil _ _ _ hasked
  · intro h fuel len packet packet' _
    rw [h.parsePacket, h.parsePacket]

theorem query_behind_packet : ∃ server search packet packet', (∀ x < 12, packet x = packet' x) ∧
    parsePacket 5 server search packet 12 ≠ parsePacket 5 server search packet' 12 :=
  ⟨⟨str "esp", none, [createService (str "_http") (str "_tcp") 80]⟩, ⟨[], [], [], false, []⟩,
    ofBytes (header 1 0 ++ encode sdName ++ [0, 12]), ofBytes (header 1 0), by decide +kernel,
    by decide +kernel⟩

end Early

end EspIdf.Mdns
