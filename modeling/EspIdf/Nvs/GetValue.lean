import EspIdf.Nvs.Api
import EspIdf.Nvs.Lookup

/-! What `nvs_get_str` and `nvs_get_blob` leave in the caller's buffer and in `*length`, for a
stored value whose data bytes may be damaged. -/

namespace EspIdf.Nvs

open EspIdf.Device Prog

/-! ### Reading the data entries -/

theorem run_spiFlashRead :
    run wordFlash ((spiFlashRead a n).bind f) m = run wordFlash (f (.ok, m.read a n)) m := rfl

theorem Page.copyData_run (p : Page) (hi : i + n ≤ entryCount) (left : Nat) (dst : List UInt8)
    (m : Bytes) :
    run wordFlash (p.copyData i left dst n) m = some ((.ok, dst ++
      m.read (p.baseAddress + entryDataOffset + i * entrySize) (min left (entrySize * n))), m) := by
  induction n generalizing i left dst with
  | zero => simp [Page.copyData, Bytes.read]
  | succ n ih =>
    have hlt : i < entryCount := by omega
    have hcopy : (if left < entrySize then left else entrySize) = min left entrySize := by
      split_ifs <;> omega
    have haddr : p.baseAddress + entryDataOffset + (i + 1) * entrySize =
        p.baseAddress + entryDataOffset + i * entrySize + entrySize := by
      rw [Nat.add_mul, Nat.one_mul, Nat.add_assoc, Nat.add_assoc, Nat.add_assoc]
    simp only [Page.copyData, Page.getEntryAddress, Prog.bind_eq, Prog.pure_eq, hlt, decide_true,
      Prog.assert_true, Prog.ret_bind, run_spiFlashRead, hcopy]
    rw [if_neg (by decide), ih (by omega), haddr, Bytes.read_take, List.append_assoc]
    have hsplit : min left (entrySize * (n + 1)) =
        min (min left entrySize) entrySize + min (left - min left entrySize) (entrySize * n) := by
      rw [Nat.mul_add]
      omega
    rw [hsplit, Bytes.read_add]
    by_cases hle : left ≤ entrySize
    · simp [hle, Bytes.read]
    · rw [show min (min left entrySize) entrySize = entrySize by omega]

/-! ### Erasing an item -/

theorem HashList.erase_isSome {l : HashList} {n : HashListNode} (h : n ∈ l.blocks.flatten) :
    (l.erase n.index).isSome := by
  have hblocks : ∀ blocks : List (List HashListNode), n ∈ blocks.flatten →
      (eraseBlocks n.index blocks).isSome := by
    intro blocks hn
    induction blocks with
    | nil => simp at hn
    | cons block blocks ih =>
      rw [List.flatten_cons, List.mem_append] at hn
      unfold eraseBlocks
      split_ifs with hany hused
      · rfl
      all_goals
        have hrest := ih (hn.resolve_left fun hn => hany (List.any_eq_true.2 ⟨n, hn, by simp⟩))
      · rwa [Option.isSome_map]
      · exact hrest
  rw [erase, Option.isSome_map]
  exact hblocks _ h

namespace Page

variable {p q : Page} {m : Bytes} {index n : Nat}

theorem writeTableWord_runs (q : Page) (k : Nat) (m : Bytes) :
    ∃ rc m', run wordFlash (q.writeTableWord k) m = some (rc, m') := by
  have hrun : ∀ (accepted : Bool) (m' : Bytes), ∃ rc, run wordFlash
      ((if accepted = true then ret true else ret false : WordProg Bool).bind fun accepted =>
        ret (if accepted = true then EspErr.ok else .flashOpFail)) m' = some (rc, m') := by
    intro accepted m'
    cases accepted <;> exact ⟨_, rfl⟩
  obtain ⟨rc, h⟩ := hrun _ _
  exact ⟨rc, _, h⟩

theorem alterEntryState_runs (hi : index < entryCount) (q : Page) (m : Bytes) :
    ∃ r m', run wordFlash (q.alterEntryState index .erased) m = some (r, m') := by
  simp only [alterEntryState, setEntryState, Prog.bind_eq, Prog.pure_eq, hi, decide_true,
    assert_true, ret_bind]
  obtain ⟨rc, m', hwrite⟩ := writeTableWord_runs
    { q with entryTable := q.entryTable.set index .erased } (EnumTable.getWordIndex 2 index) m
  rw [run_bind_of _ hwrite]
  split
  · exact ⟨_, _, rfl⟩
  · exact ⟨_, _, rfl⟩

theorem alterEntryRangeLoop_runs {start : Nat} (hend : start + n ≤ entryCount) (wordIndex : Nat)
    (q : Page) (m : Bytes) :
    ∃ r m', run wordFlash (q.alterEntryRangeLoop start .erased wordIndex n) m = some (r, m') := by
  induction n generalizing q m wordIndex with
  | zero => exact ⟨_, _, rfl⟩
  | succ n ih =>
    have hlt : start + n < entryCount := by omega
    simp only [alterEntryRangeLoop, setEntryState, Prog.bind_eq, Prog.pure_eq, hlt, decide_true,
      assert_true, ret_bind]
    generalize (if n = 0 then sizeMax else EnumTable.getWordIndex 2 (start + n - 1)) = next
    split
    · obtain ⟨rc, m', hwrite⟩ := writeTableWord_runs
        { q with entryTable := q.entryTable.set (start + n) .erased } wordIndex m
      rw [run_bind_of _ hwrite]
      split
      · exact ⟨_, _, rfl⟩
      · exact ih (by omega) _ _ _
    · exact ih (by omega) _ _ _

theorem countErased_runs (hend : index + n ≤ entryCount) (q : Page) :
    ∃ q', run wordFlash (q.countErased index n) m = some (q', m) := by
  induction n generalizing q with
  | zero => exact ⟨q, rfl⟩
  | succ n ih =>
    have hlt : index + n < entryCount := by omega
    simp only [countErased, getEntryState, Prog.bind_eq, Prog.pure_eq, hlt, decide_true,
      assert_true, ret_bind]
    exact ih (by omega) _

/-- An item that lies on the page can be erased without a failed assertion. -/
theorem Leads.erase_runs (h : p.Leads m ns dt key i) (hspan : 0 < (p.entry m i).span.toNat)
    (hon : i + (p.entry m i).span.toNat ≤ entryCount) :
    ∃ r m', run wordFlash (p.eraseEntryAndSpan i) m = some (r, m') := by
  have hi : i < entryCount := h.lt.trans_le p.endEntry_le
  obtain ⟨hwritten, hvalid, -⟩ := h.holds
  obtain ⟨n, hfind, hn⟩ := HashList.find_lt h.index hi
  obtain ⟨l, hl⟩ := Option.isSome_iff_exists.1
    (HashList.erase_isSome (List.mem_of_find?_eq_some hfind))
  rw [hn] at hl
  have hentries : ∃ r m', run wordFlash ({ p with hashList := l }.eraseEntries i .written) m =
      some (r, m') := by
    have hread := readEntry_run { p with hashList := l } hi m
    have hentry : { p with hashList := l }.entry m i = p.entry m i := rfl
    unfold eraseEntries
    simp only [Prog.bind_eq, if_true]
    rw [run_bind_of _ hread, hentry]
    simp only [ne_eq, not_true_eq_false, if_false]
    rw [if_neg (not_not_intro hvalid.symm)]
    obtain ⟨q, hcount⟩ := countErased_runs (m := m) hon { p with hashList := l }
    rw [run_bind_of _ hcount]
    split
    · obtain ⟨r, m', hrun⟩ := alterEntryState_runs hi q m
      exact ⟨_, m', (run_bind_of _ hrun).trans rfl⟩
    · obtain ⟨r, m', hrun⟩ := alterEntryRangeLoop_runs hon
        (EnumTable.getWordIndex 2 (i + (p.entry m i).span.toNat - 1)) q m
      have hrange : run wordFlash (q.alterEntryRangeState i (i + (p.entry m i).span.toNat) .erased)
          m =
          some (r, m') := by
        unfold alterEntryRangeState
        simp only [Prog.bind_eq, hon, decide_true, assert_true, ret_bind,
          show i < i + (p.entry m i).span.toNat by omega, Nat.add_sub_cancel_left]
        exact hrun
      exact ⟨_, m', (run_bind_of _ hrange).trans rfl⟩
  obtain ⟨⟨rc, span, q⟩, m', hrun⟩ := hentries
  simp only [eraseEntryAndSpan, getEntryState, Prog.bind_eq, Prog.pure_eq, hi, decide_true,
    assert_true, ret_bind, hwritten, hl, true_or]
  rw [run_bind_of _ hrun]
  split
  · exact ⟨_, m', rfl⟩
  · split
    · rename_i hfirst
      have hassert : decide (i = q.firstUsedEntry) = true := decide_eq_true hfirst
      simp only [updateFirstUsedEntry, Prog.bind_eq, Prog.pure_eq, hassert, assert_true, ret_bind]
      exact ⟨_, m', rfl⟩
    · exact ⟨_, m', rfl⟩

end Page

/-! ### Stored values -/

/-- Where a value is: the handle's entry, the page, and the entry with the head. -/
structure StoredValue where
  entry : HandleEntry
  pageIndex : Nat
  index : Nat

namespace StoredValue

variable (v : StoredValue) (s : Storage) (m : Bytes)

def item : Item := (s.page v.pageIndex).entry m v.index

def data : List UInt8 :=
  m.read ((s.page v.pageIndex).baseAddress + entryDataOffset + (v.index + 1) * entrySize)
    (v.item s m).dataSize

def Intact : Prop := Item.dataChecksum (v.data s m) = (v.item s m).dataCrc32

instance : Decidable (v.Intact s m) := inferInstanceAs (Decidable (_ = _))

@[simp] theorem length_data : (v.data s m).length = (v.item s m).dataSize :=
  Bytes.length_read

end StoredValue

/-- A string or blob is stored under the key: its entries are on the page and hold all its bytes,
and the hash lists lead to it, past pages that do not have the key or have it with another type. -/
structure IsStored (nvs : Statics) (m : Bytes) (handle : Nat) (type : ItemType) (key : Key)
    (v : StoredValue) : Prop where
  varLength : type.varLength = true
  handle : nvsFindNsHandle nvs handle = some v.entry
  active : nvs.storage.state = .active
  leads : nvs.storage.Leads m v.entry.nsIndex type key v.pageIndex v.index
  span_pos : 0 < (v.item nvs.storage m).span.toNat
  onPage : v.index + (v.item nvs.storage m).span.toNat ≤ entryCount
  fits : (v.item nvs.storage m).dataSize ≤ entrySize * ((v.item nvs.storage m).span.toNat - 1)

section Read

variable {nvs : Statics} {m : Bytes} {handle : Nat} {type : ItemType} {key : Key} {v : StoredValue}
  {buf : List UInt8}

/-- `Page::readItem` for an item that the hash list leads to: the data are copied, and then
checked. -/
theorem Page.Leads.readItem {p : Page} {i : Nat} {ns : UInt8} (h : p.Leads m ns type key i)
    (htype : (p.entry m i).datatype = type) (hvar : type.varLength = true)
    (hspan : 0 < (p.entry m i).span.toNat) (hon : i + (p.entry m i).span.toNat ≤ entryCount)
    (hfits : (p.entry m i).dataSize ≤ entrySize * ((p.entry m i).span.toNat - 1))
    (hbuf : buf.length = (p.entry m i).dataSize)
    (hdata : m.read (p.baseAddress + entryDataOffset + (i + 1) * entrySize)
      (p.entry m i).dataSize = data) :
    ∃ err q m', run wordFlash (p.readItem ns type key buf) m = some ((err, q, data), m') ∧
      (err = .ok ↔ Item.dataChecksum data = (p.entry m i).dataCrc32) := by
  have hlen : data.length = (p.entry m i).dataSize := by
    rw [← hdata]
    exact Bytes.length_read
  have hmin : min (p.entry m i).dataSize (entrySize * ((p.entry m i).span.toNat - 1)) =
      (p.entry m i).dataSize := Nat.min_eq_left hfits
  have hover : Page.overlay buf data = data := by
    rw [Page.overlay, hlen, ← hbuf, List.drop_length, List.append_nil]
  have hfound := h.findItem Page.noItem
  rw [if_pos htype] at hfound
  have hcopy := (p.cached ns type key i).copyData_run (i := i + 1)
    (n := (p.entry m i).span.toNat - 1) (by omega) (p.entry m i).dataSize [] m
  rw [hmin, List.nil_append] at hcopy
  change run _ _ _ = some ((_, m.read (p.baseAddress + _ + _) _), _) at hcopy
  rw [hdata] at hcopy
  unfold Page.readItem
  rw [if_neg fun hinvalid => open_iff.1 h.opened (.inr (.inl hinvalid))]
  simp only [Prog.bind_eq, Prog.pure_eq]
  rw [run_bind_of _ hfound]
  simp only [hvar, not_true_eq_false, if_false, ne_eq]
  rw [if_neg (by omega), run_bind_of _ hcopy]
  simp only [not_true_eq_false, if_false, hover, List.take_of_length_le hlen.le]
  by_cases hintact : Item.dataChecksum data = (p.entry m i).dataCrc32
  · rw [if_neg (not_not_intro hintact)]
    exact ⟨.ok, _, m, rfl, iff_of_true rfl hintact⟩
  · rw [if_pos hintact]
    obtain ⟨⟨rc, q⟩, m', herase⟩ := h.cached.erase_runs hspan hon
    rw [run_bind_of _ herase]
    by_cases hrc : rc = .ok
    · exact ⟨.nvsNotFound, q, m', by simp [hrc], iff_of_false (by decide) hintact⟩
    · exact ⟨rc, q, m', by simp [hrc], iff_of_false hrc hintact⟩

/-- The store after the first lookup of the value. -/
def StoredValue.looked (v : StoredValue) (s : Storage) (type : ItemType) (key : Key) : Storage :=
  s.setPage v.pageIndex ((s.page v.pageIndex).cached v.entry.nsIndex type key v.index)

theorem IsStored.readItem (h : IsStored nvs m handle type key v)
    (hbuf : buf.length = (v.item nvs.storage m).dataSize) :
    ∃ err s m', run wordFlash
        ((v.looked nvs.storage type key).readItem v.entry.nsIndex type key buf) m =
      some ((err, s, v.data nvs.storage m), m') ∧ (err = .ok ↔ v.Intact nvs.storage m) := by
  have hactive : (v.looked nvs.storage type key).state = .active := h.active
  have hlook := h.leads.cached.findItem
  obtain ⟨err, q, m', hread, hok⟩ := h.leads.page.cached.cached.readItem h.leads.datatype
    h.varLength h.span_pos h.onPage h.fits hbuf rfl
  unfold Storage.readItem
  rw [if_neg (not_not_intro hactive)]
  simp only [Prog.bind_eq, Prog.pure_eq]
  rw [StoredValue.looked, run_bind_of _ hlook]
  simp only [Storage.page_setPage_self]
  rw [run_bind_of _ hread]
  exact ⟨err, _, m', rfl, hok⟩

end Read

/-! ### The contract -/

/-- What callers rely on, for a value with these bytes: the buffer and `*length` after the call. -/
structure GetContract (stored : List UInt8) (outValue : Option (List UInt8)) (length : Option Nat)
    (r : EspErr × Statics × Option (List UInt8) × Option Nat) : Prop where
  value : r.1 = .ok → ∀ out, outValue = some out →
    r.2.2.2 = some stored.length ∧ ∃ out', r.2.2.1 = some out' ∧ out'.take stored.length = stored
  unmodified : r.1 ≠ .ok → r.2.2.1 = outValue
  required : ∀ len, length = some len → outValue = none ∨ len < stored.length →
    r.2.2.2 = some stored.length

section Contract

variable {nvs : Statics} {m : Bytes} {handle : Nat} {type : ItemType} {key : Key} {v : StoredValue}

theorem IsStored.get (h : IsStored nvs m handle type key v) (outValue : Option (List UInt8))
    (length : Option Nat) :
    run wordFlash (nvsGetStrOrBlob type nvs handle key outValue length) m =
      run wordFlash (match length, outValue with
        | none, _ => .ret (.nvsInvalidLength, nvs.withStorage (v.looked nvs.storage type key),
          outValue, length)
        | some _, none => .ret (.ok, nvs.withStorage (v.looked nvs.storage type key), outValue,
          some (v.item nvs.storage m).dataSize)
        | some len, some out =>
          if len < (v.item nvs.storage m).dataSize then
            .ret (.nvsInvalidLength, nvs.withStorage (v.looked nvs.storage type key), outValue,
              some (v.item nvs.storage m).dataSize)
          else ((v.looked nvs.storage type key).readItem v.entry.nsIndex type key
              (out.take (v.item nvs.storage m).dataSize)).bind fun r =>
            .ret (r.1, nvs.withStorage r.2.1,
              some (r.2.2 ++ out.drop (v.item nvs.storage m).dataSize), length)) m := by
  have hsize : run wordFlash (nvs.storage.getItemDataSize v.entry.nsIndex type key) m =
      some ((.ok, v.looked nvs.storage type key, some (v.item nvs.storage m).dataSize), m) := by
    unfold Storage.getItemDataSize
    rw [if_neg (not_not_intro h.active)]
    exact run_bind_of _ h.leads.findItem
  unfold nvsGetStrOrBlob
  simp only [h.handle, Prog.bind_eq, Prog.pure_eq]
  rw [run_bind_of _ hsize]
  cases length with
  | none => rfl
  | some len => cases outValue <;> rfl

end Contract

/-! ### Examples of both -/

def blobKey : Key := ⟨5, [107]⟩

/-- A blob of three bytes in a store on three erased sectors, under the handle 1. -/
def oneBlob : WordProg Statics := do
  let (_, nvs) ← nvsFlashInitCustom .adjacent Statics.new 0 3
  let (_, nvs, _) ← nvsOpen nvs ⟨4, [110]⟩ .readWrite
  let (_, nvs) ← nvsSetBlob nvs 1 blobKey [1, 2, 3]
  return nvs

/-- The same with a number under the key before it, and the results of both writes. -/
def numberAndBlob : WordProg (EspErr × EspErr × Statics) := do
  let (_, nvs) ← nvsFlashInitCustom .adjacent Statics.new 0 3
  let (_, nvs, _) ← nvsOpen nvs ⟨4, [110]⟩ .readWrite
  let (err, nvs) ← nvsSetU8 nvs 1 blobKey 7
  let (err', nvs) ← nvsSetBlob nvs 1 blobKey [1, 2, 3]
  return (err, err', nvs)

/-- The blob: the entry 1 of the page 0. -/
def theBlob : StoredValue := ⟨⟨1, false, 1⟩, 0, 1⟩

/-- What `IsStored` asks of the blob, on the one page that is in use. -/
def blobStored (nvs : Statics) (m : Bytes) : Prop :=
  nvsFindNsHandle nvs 1 = some theBlob.entry ∧ nvs.storage.state = .active ∧
  nvs.storage.pageManager.pageList = [0] ∧ (nvs.storage.page 0).Open ∧
  (nvs.storage.page 0).cachedIndex 1 .BLOB blobKey = 1 ∧ 1 < (nvs.storage.page 0).endEntry ∧
  (nvs.storage.page 0).Holds m (cstr maxKeyLength blobKey.text) 1 ∧
  (theBlob.item nvs.storage m).nsIndex = 1 ∧ (theBlob.item nvs.storage m).datatype = .BLOB ∧
  (theBlob.item nvs.storage m).span = 2 ∧ (theBlob.item nvs.storage m).dataSize = 3

instance (nvs : Statics) (m : Bytes) : Decidable (blobStored nvs m) :=
  inferInstanceAs (Decidable (_ ∧ _ ∧ _ ∧ _ ∧ _ ∧ _ ∧ _ ∧ _ ∧ _ ∧ _ ∧ _))

theorem isStored_theBlob (h : blobStored nvs m) : IsStored nvs m 1 .BLOB blobKey theBlob := by
  obtain ⟨hhandle, hactive, hlist, hopen, hindex, hlt, hholds, hns, htype, hspan, hsize⟩ := h
  refine ⟨rfl, hhandle, hactive, ⟨⟨[], [], hlist, by simp, by simp⟩,
    ⟨hopen, by decide, by decide, hindex, hlt, hholds, hns⟩, htype⟩, ?_, ?_, ?_⟩
  · rw [hspan]
    decide
  · rw [hspan]
    decide
  · rw [hspan, hsize]
    decide

theorem oneBlob_reads : ∃ nvs m, run wordFlash oneBlob Bytes.blank = some (nvs, m) ∧
    (blobStored nvs m ∧ theBlob.data nvs.storage m = [1, 2, 3] ∧ theBlob.Intact nvs.storage m) ∧
    blobStored nvs (m.store 128 [0]) ∧
    (run wordFlash (nvsGetBlob nvs 1 blobKey (some [9, 9, 9]) (some 3)) (m.store 128 [0])).any
      (fun g => g.1.1 = .nvsNotFound ∧ g.1.2.2.1 = some [0, 2, 3]) = true ∧
    (run wordFlash (nvsGetBlob nvs 1 blobKey (some [9, 9, 9, 9]) (some 4)) m).any
      (fun g => g.1.1 = .ok ∧ g.1.2.2.2 = some 4) = true := by
  have heval : (run wordFlash oneBlob Bytes.blank).any (fun r =>
      (blobStored r.1 r.2 ∧ theBlob.data r.1.storage r.2 = [1, 2, 3] ∧
        theBlob.Intact r.1.storage r.2) ∧
      blobStored r.1 (r.2.store 128 [0]) ∧
      (run wordFlash (nvsGetBlob r.1 1 blobKey (some [9, 9, 9]) (some 3)) (r.2.store 128 [0])).any
        (fun g => g.1.1 = .nvsNotFound ∧ g.1.2.2.1 = some [0, 2, 3]) = true ∧
      (run wordFlash (nvsGetBlob r.1 1 blobKey (some [9, 9, 9, 9]) (some 4)) r.2).any
        (fun g => g.1.1 = .ok ∧ g.1.2.2.2 = some 4) = true) = true := by
    decide +kernel
  obtain ⟨⟨nvs, m⟩, hset, hreads⟩ := (Option.any_eq_true _ _).1 heval
  exact ⟨nvs, m, hset, of_decide_eq_true hreads⟩

end EspIdf.Nvs
