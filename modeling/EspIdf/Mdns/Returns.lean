import EspIdf.Mdns.Parse

/-! `_mdns_read_fqdn` returns: it follows pointers to smaller and smaller offsets and fills at most
four fields. -/

namespace EspIdf.Mdns

open EspIdf.Device

/-- What happens to a label: it is joined to the host, only remembered, or copied to a field. -/
inductive Place where
  | joined
  | sub
  | field (i : Nat)
  deriving DecidableEq, Repr

/-- `parts` counts a label that is copied, and no other. -/
def Place.counted : Place → Bool
  | field _ => true
  | _ => false

def placeOf (name : List Str) (buf : Str) : Place :=
  if name.length = 1 ∧ buf.head? ≠ some 95 ∧ buf ≠ defaultDomain ∧ buf ≠ str "ip6" ∧
      buf ≠ str "in-addr" then .joined
  else if buf = subStr then .sub
  else .field name.length

/-- A label of `len` bytes and the record after it. -/
structure Label where
  len : Nat
  place : Place
  name : List Str × Bool
  deriving DecidableEq

def nameBufLen : Nat := nameMaxLen + 1

/-- The number of bytes that are written to the field: `memcpy` copies the whole label and its NUL,
`snprintf` writes the new host. -/
def Label.bytes (l : Label) : Nat :=
  match l.place with
  | .joined => (l.name.1.headD []).length + 1
  | .sub => 0
  | .field _ => l.len + 1

/-- The label fits into `buf`, and what is written of it into one of the four fields. -/
structure Label.Fits (l : Label) : Prop where
  buf : l.len + 1 ≤ nameBufLen
  bytes : l.bytes ≤ nameBufLen
  field : ∀ i, l.place = .field i → i < 4

/-- A reading of a name: the offsets of the pointers, the labels and the result. -/
structure Reading where
  followed : List Nat
  labels : List Label
  result : Option (Nat × List Str × Bool)
  deriving DecidableEq

def Reading.counted (r : Reading) : Nat := r.labels.countP (·.place.counted)

/-- `readName` with its steps; `none` if `fuel` steps are not enough to return. -/
def readSteps (packet : Bytes) : Nat → Nat → Nat → List Str × Bool → Option Reading
  | 0, _, _, _ => none
  | fuel + 1, start, pos, name =>
    let len := (packet pos).toNat
    if len = 0 then some ⟨[], [], some (pos + 1, name)⟩
    else if name.1.length = 4 then some ⟨[], [], none⟩
    else if len < 64 then
      let buf := cstr (packet.read (pos + 1) len)
      (readSteps packet fuel start (pos + 1 + len) (addPart name buf)).map fun r =>
        { r with labels := ⟨len, placeOf name.1 buf, addPart name buf⟩ :: r.labels }
    else
      let address := len % 64 * 256 + (packet (pos + 1)).toNat
      if address ≥ start then some ⟨[], [], none⟩
      else (readSteps packet fuel address address name).map fun r =>
        ⟨address :: r.followed, r.labels, r.result.map fun res => (pos + 2, res.2)⟩

theorem length_addPart (name : List Str × Bool) (buf : Str) :
    (addPart name buf).1.length =
      name.1.length + if (placeOf name.1 buf).counted then 1 else 0 := by
  unfold addPart addLabel placeOf
  by_cases hjoined : name.1.length = 1 ∧ buf.head? ≠ some 95 ∧ buf ≠ defaultDomain ∧
    buf ≠ str "ip6" ∧
      buf ≠ str "in-addr"
  · rw [if_pos hjoined, if_pos hjoined]
    exact hjoined.1.symm
  · rw [if_neg hjoined, if_neg hjoined]
    by_cases hsub : buf = subStr
    · rw [if_pos hsub, if_pos hsub]
      rfl
    · rw [if_neg hsub, if_neg hsub]
      exact List.length_append

theorem label_fits {name : List Str × Bool} {label : List UInt8} (hroom : name.1.length < 4)
    (hlen : label.length < 64) :
    Label.Fits ⟨label.length, placeOf name.1 (cstr label), addPart name (cstr label)⟩ := by
  have hbuf : nameBufLen = 65 := rfl
  refine ⟨by dsimp only; omega, ?_, fun i hi => ?_⟩
  · unfold Label.bytes placeOf addPart addLabel
    split_ifs
    · have htake : ((name.1.headD [] ++ str "." ++ cstr label).take nameMaxLen).length ≤
          nameMaxLen :=
        List.length_take_le ..
      exact Nat.succ_le_succ htake
    · exact Nat.zero_le _
    · exact (by omega : label.length + 1 ≤ nameBufLen)
  · unfold placeOf at hi
    split_ifs at hi
    cases hi
    exact hroom

theorem readSteps_spec (h : readSteps packet fuel start pos name = some r)
    (hname : name.1.length ≤ 4) :
    readName packet fuel start pos name = r.result ∧ (start :: r.followed).Pairwise (· > ·) ∧
      (∀ l ∈ r.labels, l.Fits) ∧ name.1.length + r.counted ≤ 4 ∧
      ∀ res, r.result = some res → res.2.1.length = name.1.length + r.counted := by
  induction fuel generalizing start pos name r with
  | zero => cases h
  | succ fuel ih =>
    rw [readSteps] at h
    rw [readName]
    simp only at h ⊢
    split_ifs at h ⊢ with h0 h4 h64 haddr
    · cases h
      refine ⟨rfl, List.pairwise_singleton _ _, by simp, by simpa [Reading.counted] using hname, ?_⟩
      rintro res ⟨⟩
      rfl
    · cases h
      exact ⟨rfl, List.pairwise_singleton _ _, by simp, by simpa [Reading.counted] using hname,
        fun _ h => by cases h⟩
    · obtain ⟨r', hr', rfl⟩ := Option.map_eq_some_iff.mp h
      have hlabel : (packet.read (pos + 1) (packet pos).toNat).length = (packet pos).toNat :=
        Bytes.length_read
      have hfits := @label_fits name (packet.read (pos + 1) (packet pos).toNat) (by omega)
        (by rw [hlabel]; exact h64)
      rw [hlabel] at hfits
      have hadd := length_addPart name (cstr (packet.read (pos + 1) (packet pos).toNat))
      obtain ⟨hres, hless, hall, hcount, hparts⟩ := ih hr' (by
        rw [hadd]
        split_ifs <;> omega)
      have hcounted : (addPart name (cstr (packet.read (pos + 1) (packet pos).toNat))).1.length +
          r'.counted = name.1.length + Reading.counted { r' with
            labels := ⟨(packet pos).toNat, placeOf name.1 (cstr (packet.read (pos + 1)
              (packet pos).toNat)), addPart name (cstr (packet.read (pos + 1)
              (packet pos).toNat))⟩ :: r'.labels } := by
        rw [hadd, Reading.counted, Reading.counted, List.countP_cons]
        exact (Nat.add_assoc ..).trans (congrArg _ (Nat.add_comm ..))
      rw [hcounted] at hcount hparts
      exact ⟨hres, hless, List.forall_mem_cons.mpr ⟨hfits, hall⟩, hcount, hparts⟩
    · cases h
      exact ⟨rfl, List.pairwise_singleton _ _, by simp, by simpa [Reading.counted] using hname,
        fun _ h => by cases h⟩
    · obtain ⟨r', hr', rfl⟩ := Option.map_eq_some_iff.mp h
      obtain ⟨hres, hless, hall, hcount, hparts⟩ := ih hr' hname
      refine ⟨by rw [hres], List.pairwise_cons.mpr ⟨fun x hx => ?_, hless⟩, hall, hcount, ?_⟩
      · rcases List.mem_cons.mp hx with rfl | hx
        · exact Nat.lt_of_not_le haddr
        · exact Nat.lt_trans ((List.pairwise_cons.mp hless).1 x hx) (Nat.lt_of_not_le haddr)
      · intro res hres'
        obtain ⟨res', hres'', rfl⟩ := Option.map_eq_some_iff.mp hres'
        exact hparts res' hres''

def Returns (packet : Bytes) (start pos : Nat) (name : List Str × Bool) : Prop :=
  ∃ r N, ∀ fuel, N ≤ fuel → readSteps packet fuel start pos name = some r

theorem Returns.step (N : Nat) (h : ∀ fuel, N ≤ fuel → readSteps packet (fuel + 1) start pos name =
    some r) :
    Returns packet start pos name := by
  refine ⟨r, N + 1, fun fuel hfuel => ?_⟩
  obtain ⟨fuel, rfl⟩ := Nat.exists_eq_add_of_le' hfuel
  exact h (fuel + N) (Nat.le_add_left ..)

/-- A pointer leads to a smaller offset, and a label, which is shorter than the zeros behind the
packet, to a larger position before their end. -/
theorem returns_of_zeros (hzero : ∀ x, len ≤ x → x < len + 64 → packet x = 0) (start pos : Nat)
    (name : List Str × Bool) (hstart : start < len + 64) (hpos : pos < len + 64) :
    Returns packet start pos name := by
  by_cases h0 : (packet pos).toNat = 0
  · exact .step 0 fun _ _ => if_pos h0
  have hinside : pos < len := by
    by_contra hle
    exact h0 (by rw [hzero pos (by omega) hpos]; rfl)
  by_cases h4 : name.1.length = 4
  · exact .step 0 fun _ _ => (if_neg h0).trans (if_pos h4)
  by_cases h64 : (packet pos).toNat < 64
  · obtain ⟨r, N, hr⟩ := returns_of_zeros hzero start (pos + 1 + (packet pos).toNat)
      (addPart name (cstr (packet.read (pos + 1) (packet pos).toNat))) hstart (by omega)
    exact .step N fun fuel hfuel => (if_neg h0).trans ((if_neg h4).trans
      ((if_pos h64).trans (congrArg (Option.map _) (hr fuel hfuel))))
  by_cases haddr : (packet pos).toNat % 64 * 256 + (packet (pos + 1)).toNat ≥ start
  · exact .step 0 fun _ _ => (if_neg h0).trans
      ((if_neg h4).trans ((if_neg h64).trans (if_pos haddr)))
  · have hless := Nat.lt_trans (Nat.lt_of_not_le haddr) hstart
    obtain ⟨r, N, hr⟩ := returns_of_zeros hzero _ _ name hless hless
    exact .step N fun fuel hfuel => (if_neg h0).trans ((if_neg h4).trans
      ((if_neg h64).trans ((if_neg haddr).trans (congrArg (Option.map _) (hr fuel hfuel)))))
termination_by (start, len + 64 - pos)

/-- From every offset of a packet with 64 zeros behind it the name is read in finitely many steps.
The pointers lead to smaller and smaller offsets, every label fits, and at most four are counted;
those that are joined to the host or are `_sub` are not. -/
theorem name_reading_returns (packet : Bytes) (len start : Nat)
    (hzero : ∀ x, len ≤ x → x < len + 64 → packet x = 0) (hstart : start < len) :
    ∃ r N, (∀ fuel, N ≤ fuel → readSteps packet fuel start start ([], false) = some r ∧
        readName packet fuel start start ([], false) = r.result) ∧
      (start :: r.followed).Pairwise (· > ·) ∧ (∀ l ∈ r.labels, l.Fits) ∧ r.counted ≤ 4 ∧
      ∀ res, r.result = some res → res.2.1.length = r.counted := by
  obtain ⟨r, N, hr⟩ := returns_of_zeros hzero start start ([], false) (by omega) (by omega)
  have hspec := fun fuel hfuel => readSteps_spec (hr fuel hfuel) (Nat.zero_le 4)
  obtain ⟨-, hless, hfits, hcount, hparts⟩ := hspec N (Nat.le_refl _)
  rw [List.length_nil, Nat.zero_add] at hcount
  simp only [List.length_nil, Nat.zero_add] at hparts
  exact ⟨r, N, fun fuel hfuel => ⟨hr fuel hfuel, (hspec fuel hfuel).1⟩, hless, hfits,
    hcount, hparts⟩

/-- `a._sub._x.local`, and `b` with a pointer to it. -/
def pointerPacket : Bytes := fun x =>
  ([1, 97, 4, 95, 115, 117, 98, 2, 95, 120, 5, 108, 111, 99, 97, 108, 0, 1, 98, 0xc0, 0] :
    List UInt8).getD x 0

theorem name_reading_returns_pointer :
    readSteps pointerPacket 8 17 17 ([], false) = some ⟨[0],
      [⟨1, .field 0, [str "b"], false⟩, ⟨1, .joined, [str "b.a"], false⟩,
        ⟨4, .sub, [str "b.a"], true⟩,
        ⟨2, .field 1, [str "b.a", str "_x"], true⟩,
        ⟨5, .field 2, [str "b.a", str "_x", str "local"], true⟩],
      some (21, [str "b.a", str "_x", str "local"], true)⟩ ∧
    ∃ r N, (∀ fuel, N ≤ fuel → readSteps pointerPacket fuel 17 17 ([], false) = some r ∧
        readName pointerPacket fuel 17 17 ([], false) = r.result) ∧
      (17 :: r.followed).Pairwise (· > ·) ∧ (∀ l ∈ r.labels, l.Fits) ∧ r.counted ≤ 4 ∧
      ∀ res, r.result = some res → res.2.1.length = r.counted := by
  refine ⟨by decide +kernel, name_reading_returns pointerPacket 21 17 (fun x hx _ => ?_) (by decide)⟩
  exact List.getD_eq_default _ _ hx

/-- A packet of one byte with one zero behind it. -/
def strayPacket : Bytes := fun x => if x = 1 then 0 else 1

theorem readSteps_strayPacket (fuel pos : Nat) (host : Str) :
    readSteps strayPacket fuel 0 (2 * pos + 2) ([host], false) = none := by
  induction fuel generalizing pos host with
  | zero => rfl
  | succ fuel ih =>
    exact congrArg (Option.map _) (ih (pos + 1) ((host ++ str "." ++ [1]).take nameMaxLen))

def fiveLabels : Bytes := fun x => [1, 97, 1, 98, 1, 99, 1, 100, 5, 108, 111, 99, 97, 108].getD x 0

/-- A label steps over the only zero, and a name of five labels is accepted. -/
theorem zero_skipped_and_five_labels :
    (∀ fuel, readSteps strayPacket fuel 0 0 ([], false) = none) ∧
    (parseFqdn 6 fiveLabels 0).isSome ∧
    (readSteps fiveLabels 6 0 0 ([], false)).any (·.labels.length = 5) := by
  refine ⟨fun fuel => ?_, by decide +kernel, by decide +kernel⟩
  cases fuel with
  | zero => rfl
  | succ fuel => exact congrArg (Option.map _) (readSteps_strayPacket fuel 0 [])

end EspIdf.Mdns
