import EspIdf.Ota.Write

/-! An image written in chunks, compared with the image written at once.  The contents of an
encrypted partition are those that are read back through decryption. -/

namespace EspIdf.Ota

open EspIdf.Device

/-! ### Contents of the partition -/

/-- With encryption, the contents as they are read back through decryption from flash that was
erased; what a write to flash that was not erased gives is left out. -/
def put (encryption : Bool) (m : Bytes) (a : Nat) (bs : List UInt8) : Bytes :=
  if encryption then m.store a bs else m.program a bs

def PartOp.apply (encryption : Bool) (m : Bytes) : PartOp → Bytes
  | eraseRange startAddr size => m.erase startAddr size
  | write dstOffset src => put encryption m dstOffset src

def applyOps (encryption : Bool) (m : Bytes) (ops : List PartOp) : Bytes :=
  ops.foldl (PartOp.apply encryption) m

/-- Calls of `esp_ota_write` for the chunks, without flash failures: the entry and the contents, if
every call returns `ESP_OK`. -/
def writeAll (encryption : Bool) : OtaOpsEntry → Bytes → List (List UInt8) →
    Option (OtaOpsEntry × Bytes)
  | e, m, [] => some (e, m)
  | e, m, c :: cs =>
    match espOtaWrite encryption true true e c with
    | some (.ok, e', ops) => writeAll encryption e' (applyOps encryption m ops) cs
    | _ => none

/-- The contents after the flush of `esp_ota_end`. -/
def contentsAfter (encryption imageOk : Bool) (s : OtaOpsEntry × Bytes) : Bytes :=
  applyOps encryption s.2 (espOtaEnd true imageOk s.1).2

theorem put_append {encryption : Bool} {m : Bytes} {a : Nat} {bs cs : List UInt8} :
    put encryption m a (bs ++ cs) = put encryption (put encryption m a bs) (a + bs.length) cs := by
  cases encryption
  · exact Bytes.program_append
  · exact Bytes.store_append

theorem put_nil : put encryption m a [] = m := by
  cases encryption
  · exact @Bytes.program_ones m a 0
  · exact Bytes.store_nil

theorem applyOps_writes : ∀ {m : Bytes} {a : Nat},
    applyOps encryption m (writes a bs) = put encryption m a bs.flatten := by
  induction bs with
  | nil => exact put_nil.symm
  | cons b bs ih =>
    intro m a
    rw [List.flatten_cons, put_append, ← ih]
    rfl

/-! ### Runs of chunks -/

def MagicsOk (encryption : Bool) : Nat → List (List UInt8) → Prop
  | _, [] => True
  | n, c :: cs => MagicOk encryption n c ∧ MagicsOk encryption (n + c.length) cs

def Completes : Nat → List (List UInt8) → Prop
  | _, [] => False
  | n, c :: cs => (n % 16 ≠ 0 ∧ 16 ≤ n % 16 + c.length) ∨ Completes (n + c.length) cs

def fillOf : Nat → UInt8 → List (List UInt8) → UInt8
  | _, fill, [] => fill
  | n, fill, c :: cs => fillOf (n + c.length) (fillAfter n fill c) cs

theorem fillOf_ff (cs : List (List UInt8)) : ∀ n, fillOf n 0xff cs = 0xff := by
  induction cs with
  | nil => exact fun _ => rfl
  | cons c cs ih =>
    intro n
    rw [fillOf, show fillAfter n 0xff c = 0xff from ite_self _]
    exact ih _

variable {fill : UInt8}

theorem fillOf_completes : ∀ {n : Nat},
    Completes n cs → fillOf n fill cs = 0xff := by
  induction cs with
  | nil => exact False.elim
  | cons c cs ih =>
    rintro n (h | h)
    · rw [fillOf, fillAfter, if_pos h]
      exact fillOf_ff cs _
    · by_cases hc : n % 16 ≠ 0 ∧ 16 ≤ n % 16 + c.length
      · rw [fillOf, fillAfter, if_pos hc]
        exact fillOf_ff cs _
      · rw [fillOf, fillAfter, if_neg hc]
        exact ih h

theorem fillOf_not_completes : ∀ {n : Nat},
    ¬ Completes n cs → fillOf n fill cs = fill := by
  induction cs with
  | nil => exact fun _ => rfl
  | cons c cs ih =>
    intro n h
    obtain ⟨hc, hcs⟩ := not_or.mp h
    rw [fillOf, fillAfter, if_neg hc]
    exact ih hcs

theorem flushed_le (encryption : Bool) (n : Nat) : flushed encryption n ≤ n := by
  rw [flushed]
  split_ifs <;> omega

def Reached (encryption : Bool) (m₀ : Bytes) (w : List UInt8) (s : OtaOpsEntry × Bytes) : Prop :=
  s.2 = put encryption m₀ 0 (w.take s.1.wroteSize)

theorem Reached.write (hm : Reached encryption m₀ w (e, m)) (h : Holds encryption e w fill)
    (hflat : bs.flatten = ((w ++ c).take e'.wroteSize).drop e.wroteSize)
    (hend : e'.wroteSize = e.wroteSize + bs.flatten.length) :
    Reached encryption m₀ (w ++ c) (e', applyOps encryption m (writes e.wroteSize bs)) := by
  have hle : e.wroteSize ≤ w.length := h.wrote ▸ flushed_le _ _
  have hsplit : (w ++ c).take e'.wroteSize = w.take e.wroteSize ++ bs.flatten := by
    rw [hflat, ← List.take_append_drop e.wroteSize ((w ++ c).take e'.wroteSize), List.take_take,
      Nat.min_eq_left (by omega), List.take_append_of_le_length hle, List.drop_left'
      (by rw [List.length_take]; omega)]
  have hlen : (w.take e.wroteSize).length = e.wroteSize := by
    rw [List.length_take]
    omega
  change applyOps encryption m (writes e.wroteSize bs) =
    put encryption m₀ 0 ((w ++ c).take e'.wroteSize)
  rw [hsplit, put_append, Nat.zero_add, hlen, applyOps_writes]
  exact congrArg (put encryption · e.wroteSize bs.flatten) hm

theorem writeAll_cons (h : espOtaWrite encryption true true e c = some (.ok, e', ops))
    (cs : List (List UInt8)) :
    writeAll encryption e m (c :: cs) = writeAll encryption e' (applyOps encryption m ops) cs := by
  rw [writeAll, h]

theorem writeAll_ok :
    ∀ {e : OtaOpsEntry} {m : Bytes} {w : List UInt8} {fill : UInt8},
      Holds encryption e w fill → Reached encryption m₀ w (e, m) →
      w.length + cs.flatten.length ≤ e.part.pos.size → e.part.pos.size < 2 ^ 32 →
      MagicsOk encryption w.length cs →
      ∃ s, writeAll encryption e m cs = some s ∧
        Holds encryption s.1 (w ++ cs.flatten) (fillOf w.length fill cs) ∧ s.1.part = e.part ∧
        Reached encryption m₀ (w ++ cs.flatten) s := by
  induction cs with
  | nil =>
    intro e m w fill h hm _ _ _
    refine ⟨(e, m), rfl, ?_, rfl, ?_⟩
    · simpa [fillOf] using h
    · simpa using hm
  | cons c cs ih =>
    intro e m w fill h hm hfit hsize ⟨hmagic, hmagics⟩
    rw [List.flatten_cons, List.length_append] at hfit
    obtain ⟨e', bs, hrun, hholds, hpart, hflat, hend⟩ := h.write hmagic
      ((flushed_le _ _).trans (by omega)) hsize
    obtain ⟨s, hall, hs, hspart, hscont⟩ := ih hholds (hm.write h hflat hend)
      (by rw [List.length_append, hpart]; omega) (hpart ▸ hsize)
      (by rw [List.length_append]; exact hmagics)
    rw [List.length_append] at hs
    rw [List.flatten_cons, ← List.append_assoc]
    exact ⟨s, (writeAll_cons hrun cs).trans hall, hs, hspart.trans hpart, hscont⟩

theorem writeAll_none :
    ∀ {e : OtaOpsEntry} {m : Bytes} {w : List UInt8} {fill : UInt8},
      Holds encryption e w fill → w.length + cs.flatten.length ≤ e.part.pos.size →
      e.part.pos.size < 2 ^ 32 → ¬ MagicsOk encryption w.length cs →
      writeAll encryption e m cs = none := by
  induction cs with
  | nil => exact fun _ _ _ h => absurd trivial h
  | cons c cs ih =>
    intro e m w fill h hfit hsize hmagics
    rw [List.flatten_cons, List.length_append] at hfit
    by_cases hmagic : MagicOk encryption w.length c
    · obtain ⟨e', bs, hrun, hholds, hpart, -, -⟩ := h.write hmagic
        ((flushed_le _ _).trans (by omega)) hsize
      rw [writeAll_cons hrun]
      refine ih hholds (by rw [List.length_append, hpart]; omega) (hpart ▸ hsize) ?_
      rw [List.length_append]
      exact fun hrest => hmagics ⟨hmagic, hrest⟩
    · rw [writeAll, h.write_magic hmagic]

/-! ### The flush -/

def finalBytes (encryption : Bool) (w : List UInt8) (fill : UInt8) : List UInt8 :=
  if encryption then
    if w.length < 16 then []
    else if w.length % 16 = 0 then w
    else w ++ List.replicate (16 - w.length % 16) fill
  else w

theorem contentsAfter_eq (h : Holds encryption s.1 w fill) (hm : Reached encryption m₀ w s)
    (hfit : w.length ≤ s.1.part.pos.size) (hsec : s.1.part.pos.size % secSize = 0)
    (hsize : s.1.part.pos.size < 2 ^ 32) :
    contentsAfter encryption imageOk s = put encryption m₀ 0 (finalBytes encryption w fill) := by
  obtain ⟨e, m⟩ := s
  have herased := h.erased
  have hwrote := h.wrote
  have hbytes := h.bytes
  change m = put encryption m₀ 0 (w.take e.wroteSize) at hm
  have h4096 : e.part.pos.size % 4096 = 0 := hsec
  dsimp only at herased hwrote hbytes hfit hsize
  simp only [contentsAfter, espOtaEnd]
  cases encryption with
  | false =>
    have hnone : e.partialBytes = 0 := by
      rw [hbytes, hwrote]
      exact Nat.sub_self _
    have hall : w.take e.wroteSize = w := by
      rw [hwrote]
      exact List.take_length
    rw [hm, hall]
    split_ifs <;> first | rfl | omega
  | true =>
    simp only [flushed, if_true] at hwrote
    rw [finalBytes, if_pos rfl]
    by_cases hshort : w.length < 16
    · have hzero : e.wroteSize = 0 := by omega
      rw [if_pos (.inr hzero), if_pos hshort, hm, hzero]
      rfl
    · rw [if_neg (by omega), if_neg hshort]
      by_cases hn : w.length % 16 = 0
      · rw [if_neg (by omega), hm, List.take_of_length_le (by omega)]
        split_ifs <;> rfl
      · have hdata : e.partialData = w.drop e.wroteSize ++ List.replicate
            (16 - e.partialBytes) fill :=
          h.data rfl
        have hlen : e.partialData.length = 16 := by
          rw [hdata, List.length_append, List.length_drop, List.length_replicate]
          omega
        have htaken : (w.take e.wroteSize).length = e.wroteSize := by
          rw [List.length_take]
          omega
        have hbytes' : e.partialBytes = w.length % 16 := by omega
        rw [if_pos (by omega), if_neg hn, espPartitionWrite_ok (by omega) hsize]
        change put true m e.wroteSize e.partialData = _
        have hput := @put_append true m₀ 0 (w.take e.wroteSize) e.partialData
        rw [Nat.zero_add, htaken, ← hm] at hput
        rw [← hput, hdata, ← List.append_assoc, List.take_append_drop, hbytes']

/-! ### Independence of the chunking -/

/-- With encryption, every chunk that starts before a block was flushed starts with the magic byte;
and the image is shorter than a block, or ends at the end of one, or no chunk completes a block that
an earlier one began. -/
def ChunksOk (encryption : Bool) (cs : List (List UInt8)) : Prop :=
  encryption = true → MagicsOk true 0 cs ∧
    (cs.flatten.length < 16 ∨ cs.flatten.length % 16 = 0 ∨ ¬ Completes 0 cs)

/-- Every call returns `ESP_OK` and the contents in the end are those of a single call. -/
def ChunksRight (encryption imageOk : Bool) (e : OtaOpsEntry) (m : Bytes) (cs : List (List UInt8)) :
    Prop :=
  ∃ s s', writeAll encryption e m cs = some s ∧ writeAll encryption e m [cs.flatten] = some s' ∧
    contentsAfter encryption imageOk s = contentsAfter encryption imageOk s'

theorem magicsOk_singleton (h : image.head? = some 0xe9) :
    MagicsOk encryption 0 [image] := ⟨fun _ _ => h, trivial⟩

theorem finalBytes_ne (hlen : ¬ w.length < 16) (hn : w.length % 16 ≠ 0) :
    put true m 0 (finalBytes true w 0xff) ≠ put true m 0 (finalBytes true w 0) := by
  intro heq
  have hbyte : ∀ fill, put true m 0 (finalBytes true w fill) w.length = fill := by
    intro fill
    have hpos : 0 < 16 - w.length % 16 := by omega
    simp only [put, finalBytes, if_true, if_neg hlen, if_neg hn]
    rw [Bytes.store_in (Nat.zero_le _) (by simp; omega), Nat.sub_zero,
      List.getD_append_right _ _ _ _ le_rfl, Nat.sub_self, List.getD_replicate _ hpos]
  have h := congrFun heq w.length
  rw [hbyte, hbyte] at h
  exact absurd h (by decide)

theorem magicsOk_plain : ∀ {n : Nat},
    (n = 0 → cs.flatten ≠ [] → cs.flatten.head? = some 0xe9) → MagicsOk false n cs := by
  induction cs with
  | nil => exact fun _ => trivial
  | cons c cs ih =>
    intro n h
    rw [List.flatten_cons] at h
    refine ⟨fun (hn : n = 0) hc => ?_, ih fun hn => ?_⟩
    · have := h hn (List.append_ne_nil_of_left_ne_nil hc _)
      rwa [List.head?_append_of_ne_nil _ hc] at this
    · have hc : c = [] := List.eq_nil_of_length_eq_zero (by omega)
      subst hc
      exact h (by omega)

/-- On a handle that was begun, chunks of an image that fits into the partition are right exactly
under the condition. -/
theorem chunks_right_iff {table : List Part} {running partition : Option Part}
    {flashOk memOk : Bool}
    {imageSize : Nat} {e : OtaOpsEntry} {ops : List PartOp}
    (hbegin : espOtaBegin table running flashOk memOk partition imageSize = (.ok, some e, ops))
    (hsec : e.part.pos.size % secSize = 0) (hsize : e.part.pos.size < 2 ^ 32)
    (encryption imageOk : Bool) (m : Bytes) (cs : List (List UInt8))
    (hmagic : cs.flatten.head? = some 0xe9) (hfit : cs.flatten.length ≤ e.part.pos.size) :
    ChunksRight encryption imageOk e m cs ↔ ChunksOk encryption cs := by
  have hpos : 0 < cs.flatten.length := by
    apply List.length_pos_iff.mpr
    rintro hnil
    rw [hnil] at hmagic
    cases hmagic
  have h₀ : Holds encryption e [] 0 := by
    rw [(espOtaBegin_ok hbegin).1]
    apply newEntry_holds
    simp only [newEntry]
    split_ifs <;> omega
  have hm₀ : Reached encryption m [] (e, m) := by
    change m = put encryption m 0 (List.take _ [])
    rw [List.take_nil, put_nil]
  have hfit₀ : ([] : List UInt8).length + cs.flatten.length ≤ e.part.pos.size := by simpa using hfit
  -- the contents that chunks leave which are all taken
  have hcontents : ∀ ds, ds.flatten = cs.flatten → MagicsOk encryption 0 ds →
      ∃ s, writeAll encryption e m ds = some s ∧ contentsAfter encryption imageOk s =
        put encryption m 0 (finalBytes encryption cs.flatten (fillOf 0 0 ds)) := by
    intro ds hflat hmagics
    obtain ⟨s, hrun, hholds, hpart, hreached⟩ := writeAll_ok h₀ hm₀ (hflat ▸ hfit₀) hsize hmagics
    rw [hflat] at hholds hreached
    exact ⟨s, hrun, contentsAfter_eq hholds hreached (hpart ▸ hfit) (hpart ▸ hsec) (hpart ▸ hsize)⟩
  obtain ⟨s', hrun', hcont'⟩ := hcontents [cs.flatten] (by simp) (magicsOk_singleton hmagic)
  have hfill : fillOf 0 0 [cs.flatten] = 0 := fillOf_not_completes (by simp [Completes])
  rw [hfill] at hcont'
  constructor
  · rintro ⟨s, s₂, hrun, hrun₂, heq⟩ rfl
    obtain rfl : s' = s₂ := Option.some.inj (hrun'.symm.trans hrun₂)
    have hmagics : MagicsOk true 0 cs := by
      by_contra hno
      rw [writeAll_none h₀ hfit₀ hsize hno] at hrun
      cases hrun
    refine ⟨hmagics, ?_⟩
    obtain ⟨s₁, hrun₁, hcont⟩ := hcontents cs rfl hmagics
    obtain rfl : s₁ = s := Option.some.inj (hrun₁.symm.trans hrun)
    by_contra hno
    simp only [not_or, not_not] at hno
    obtain ⟨hlen, hn, hcompletes⟩ := hno
    rw [hcont, hcont', fillOf_completes hcompletes] at heq
    exact finalBytes_ne hlen hn heq
  · intro hok
    cases encryption with
    | false =>
      obtain ⟨s, hrun, hcont⟩ := hcontents cs rfl (magicsOk_plain fun _ _ => hmagic)
      exact ⟨s, s', hrun, hrun', hcont.trans hcont'.symm⟩
    | true =>
      obtain ⟨hmagics, hpad⟩ := hok rfl
      obtain ⟨s, hrun, hcont⟩ := hcontents cs rfl hmagics
      refine ⟨s, s', hrun, hrun', hcont.trans (Eq.trans ?_ hcont'.symm)⟩
      rcases hpad with hshort | hn | hno
      · simp only [finalBytes, if_true, if_pos hshort]
      · simp only [finalBytes, if_true, if_pos hn]
      · rw [fillOf_not_completes hno]

/-- Three chunks, of which the second and the third complete a block that an earlier one began. -/
def blockChunks : List (List UInt8) :=
  [List.replicate 10 0xe9, 0xe9 :: List.replicate 15 7, List.replicate 6 8]

theorem chunks_right_blockChunks : Completes 0 blockChunks ∧
    ChunksRight true true (newEntry otaSlot 100) (fun _ => 0xff) blockChunks := by
  have hbegin : espOtaBegin [otaSlot] none true true (some otaSlot) 100 =
      (.ok, some (newEntry otaSlot 100), [.eraseRange 0 0x1000]) := by decide
  have hmagics : MagicsOk true 0 blockChunks :=
    ⟨fun _ _ => rfl, fun _ _ => rfl, fun h => absurd h (by decide), trivial⟩
  refine ⟨by simp [Completes, blockChunks], ?_⟩
  refine (chunks_right_iff hbegin (by decide) (by decide) true true _ _ (by decide) (by decide)).mpr
    ?_
  exact fun _ => ⟨hmagics, .inr (.inl (by decide))⟩

theorem second_chunk_refused :
    writeAll true (newEntry otaSlot 100) (fun _ => 0xff) [[0xe9], [0]] = none ∧
    (writeAll true (newEntry otaSlot 100) (fun _ => 0xff)
      [List.replicate 8 0xe9, List.replicate 9 0xe9]).map (contentsAfter true true · 17) =
        some 0xff ∧
    (writeAll true (newEntry otaSlot 100) (fun _ => 0xff)
      [List.replicate 17 0xe9]).map (contentsAfter true true · 17) = some 0 := by
  decide

end EspIdf.Ota
