import EspIdf.Nvs.Api
import EspIdf.Nvs.Lookup

/-! Keys and names of more than 15 characters.  Every lookup compares and hashes 15 characters, so a
longer key is taken for the one it begins with; only `Page::writeItem` looks at the length. -/

namespace EspIdf.Nvs

open EspIdf.Device Prog

def Key.chars (k : Key) : List UInt8 := k.text.takeWhile (· ≠ 0)

def Key.short (k : Key) : Key := ⟨k.addr, cstr maxKeyLength k.text⟩

def Key.Long (k : Key) : Prop := maxKeyLength < k.chars.length

theorem Key.Long.ne_cstr {k : Key} (h : k.Long) (bs : List UInt8) :
    cstr maxKeyLength bs ≠ k.chars := fun heq => by
  have hle := cstr_length_le maxKeyLength bs
  rw [heq] at hle
  exact absurd h (Nat.not_lt.2 hle)

/-! ### Writing -/

section Writing

variable {ns : UInt8} {dt : ItemType} {k : Key} {data : List UInt8}

theorem Page.writeItem_long (hk : k.Long) (p : Page) :
    Within (fun _ => True) (fun r => r.1 ≠ .ok) (p.writeItem ns dt k data) := by
  have hlen : strlen k.text > maxKeyLength := hk
  have hbody : ∀ r : EspErr × Page, Within (fun _ => True) (fun r => r.1 ≠ .ok)
      (if r.1 ≠ .ok then Prog.ret (r.1, r.2) else r.2.writeItemBody ns dt k data) := by
    intro r
    by_cases herr : r.1 ≠ .ok
    · rw [if_pos herr]
      exact herr
    · rw [if_neg herr, Page.writeItemBody]
      by_cases hfull : r.2.state = .full
      · simp [hfull, Within]
      · simp [hfull, hlen, Within]
  unfold Page.writeItem
  by_cases hinvalid : p.state = .invalid
  · simp [hinvalid, Within]
  · rw [if_neg hinvalid]
    split
    · exact (within_trivial _).bind fun r _ => hbody r
    · exact (within_trivial _).bind fun r _ => hbody r

theorem Storage.writeNew_long (hk : k.Long) (s : Storage) :
    Within (fun _ => True) (fun r => r.1 ≠ .ok) (s.writeNew ns dt k data) := by
  -- the second try, on the new page
  have hagain : ∀ s : Storage, Within (fun _ => True) (fun r => r.1 ≠ .ok)
      (((s.page s.currentPage).writeItem ns dt k data).bind fun r =>
        Prog.ret (if r.1 = .nvsPageFull then .nvsNotEnoughSpace else r.1,
          s.setPage s.currentPage r.2)) := by
    intro s
    refine (Page.writeItem_long hk _).bind fun r hr => ?_
    by_cases hfull : r.1 = .nvsPageFull
    · simp [Within, hfull]
    · simpa [Within, hfull] using hr
  have hrest : ∀ (cur : Nat) (s : Storage) (r : EspErr × Page),
    Within (fun _ => True) (fun r => r.1 ≠ .ok)
        (if r.1 ≠ .ok then Prog.ret (r.1, s.setPage cur r.2)
        else (s.setPage cur r.2).pageManager.requestNewPage.bind fun r' =>
          if r'.1 ≠ .ok then Prog.ret (r'.1, (s.setPage cur r.2).withManager r'.2)
          else ((((s.setPage cur r.2).withManager r'.2).page
              ((s.setPage cur r.2).withManager r'.2).currentPage).writeItem ns dt k data).bind
            fun r'' => Prog.ret (if r''.1 = .nvsPageFull then .nvsNotEnoughSpace else r''.1,
              ((s.setPage cur r.2).withManager r'.2).setPage
                ((s.setPage cur r.2).withManager r'.2).currentPage r''.2)) := by
    intro cur s r
    by_cases herr : r.1 ≠ .ok
    · rw [if_pos herr]
      exact herr
    · rw [if_neg herr]
      refine (within_trivial _).bind fun r' _ => ?_
      by_cases herr' : r'.1 ≠ .ok
      · rw [if_pos herr']
        exact herr'
      · rw [if_neg herr']
        exact hagain _
  refine (Page.writeItem_long hk _).bind fun r hr => ?_
  simp only
  by_cases hfull : r.1 ≠ .nvsPageFull
  · rw [if_pos hfull]
    exact hr
  · rw [if_neg hfull]
    split
    · exact (within_trivial _).bind fun r' _ => hrest _ _ r'
    · exact (within_trivial _).bind fun r' _ => hrest _ _ r'

def Storage.writeOnly (s : Storage) (ns : UInt8) (dt : ItemType) (k : Key) (data : List UInt8) :
    WordProg (EspErr × Storage) := do
  if s.state ≠ .active then return (.nvsNotInitialized, s)
  let (err, s, _, _) ← s.findItem ns dt k
  if err ≠ .ok ∧ err ≠ .nvsNotFound then return (err, s)
  s.writeNew ns dt k data

theorem Storage.writeItem_long (hk : k.Long) (s : Storage) :
    s.writeItem ns dt k data = s.writeOnly ns dt k data := by
  unfold Storage.writeItem Storage.writeOnly
  by_cases hstate : s.state ≠ .active
  · rw [if_pos hstate, if_pos hstate]
  · rw [if_neg hstate, if_neg hstate]
    simp only [Prog.bind_eq]
    congr 1
    funext r
    obtain ⟨err, s, findPage, item⟩ := r
    by_cases herr : err ≠ .ok ∧ err ≠ .nvsNotFound
    · rw [if_pos herr, if_pos herr]
    · rw [if_neg herr, if_neg herr]
      refine ((Storage.writeNew_long hk s).bind_congr fun r hr => ?_).trans (Prog.bind_ret _)
      rw [if_pos hr]
      rfl

theorem Storage.writeItem_ne_ok (hk : k.Long) (s : Storage) :
    Within (fun _ => True) (fun r => r.1 ≠ .ok) (s.writeItem ns dt k data) := by
  rw [Storage.writeItem_long hk, Storage.writeOnly]
  by_cases hstate : s.state ≠ .active
  · rw [if_pos hstate]
    simp [Within]
  · rw [if_neg hstate]
    refine (within_trivial _).bind fun r _ => ?_
    obtain ⟨err, s, findPage, item⟩ := r
    simp only
    by_cases herr : err ≠ .ok ∧ err ≠ .nvsNotFound
    · rw [if_pos herr]
      exact herr.1
    · rw [if_neg herr]
      exact Storage.writeNew_long hk s

end Writing

/-! ### Calls with a longer key -/

def Storage.FindsOther (s : Storage) (m : Bytes) (ns : UInt8) (dt : ItemType) (k : Key) : Prop :=
  ∃ r m', run wordFlash (s.findItem ns dt k) m = some (r, m') ∧ r.1 = .ok ∧ r.2.2.2.name ≠ k.chars

/-- Calls with key or name `k` do not touch what is stored under another one: nothing else is
returned or erased, a write does not get to an older item, and a namespace that is opened has the
name. -/
structure Storage.OwnDataOnly (s : Storage) (m : Bytes) (k : Key) : Prop where
  read : ∀ ns dt buf r m', run wordFlash (s.readItem ns dt k buf) m = some (r, m') → r.1 = .ok →
    ¬ s.FindsOther m ns dt k
  size : ∀ ns dt r m', run wordFlash (s.getItemDataSize ns dt k) m = some (r, m') → r.1 = .ok →
    ¬ s.FindsOther m ns dt k
  erase : ∀ ns dt r m', run wordFlash (s.eraseItem ns dt k) m = some (r, m') → r.1 = .ok →
    ¬ s.FindsOther m ns dt k
  write : ∀ ns dt data r m', run wordFlash (s.writeItem ns dt k data) m = some (r, m') →
    r.1 ≠ .ok ∧ run wordFlash (s.writeOnly ns dt k data) m = some (r, m')
  open_ : ∀ canCreate r m' i, run wordFlash (s.createOrOpenNamespace k canCreate) m = some (r, m') →
    r.1 = .ok → r.2.2 = some i →
    ∃ e ∈ r.2.1.namespaces, cstr maxKeyLength e.name = k.chars ∧ e.index = i

/-- No entry in use has the first 15 characters of the key as its key, and no namespace has them as
its name. -/
structure Storage.NothingUnder (s : Storage) (m : Bytes) (k : Key) : Prop where
  items : ∀ j ∈ s.pageManager.pageList, ∀ i < entryCount, ¬ (s.page j).Holds m k.short.text i
  namespaces : ∀ e ∈ s.namespaces, cstr maxKeyLength e.name ≠ k.short.text

section Calls

variable {s : Storage} {m : Bytes} {k : Key} {ns : UInt8} {dt : ItemType}

theorem find_of_bind {γ : Type} {f : EspErr × Storage × Option Nat × Item → WordProg γ}
    {err : γ → EspErr} {r : γ} {m' : Bytes} (hf : ∀ q, q.1 ≠ .ok → ∃ a, f q = .ret a ∧ err a = q.1)
    (hrun : run wordFlash ((s.findItem ns dt k).bind f) m = some (r, m')) (hok : err r = .ok) :
    ∃ q m₁, run wordFlash (s.findItem ns dt k) m = some (q, m₁) ∧ q.1 = .ok := by
  obtain ⟨q, m₁, hfind, hrun⟩ := (run_bind_iff _).1 hrun
  refine ⟨q, m₁, hfind, ?_⟩
  by_contra herr
  obtain ⟨a, ha, hea⟩ := hf q herr
  rw [ha] at hrun
  cases hrun
  exact herr (hea.symm.trans hok)

theorem getItemDataSize_ok_iff (hactive : s.state = .active) :
    (∃ r m', run wordFlash (s.getItemDataSize ns dt k) m = some (r, m') ∧ r.1 = .ok) ↔
      ∃ r m', run wordFlash (s.findItem ns dt k) m = some (r, m') ∧ r.1 = .ok := by
  unfold Storage.getItemDataSize
  rw [if_neg (by simp [hactive])]
  constructor
  · rintro ⟨r, m', hrun, hok⟩
    refine find_of_bind ?_ hrun hok
    rintro ⟨err, s', j, item⟩ herr
    exact ⟨_, if_pos herr, rfl⟩
  · rintro ⟨⟨err, s', j, item⟩, m', hfind, hok⟩
    obtain rfl : err = .ok := hok
    exact ⟨(.ok, s', some item.dataSize), m', (run_bind_of _ hfind).trans rfl, rfl⟩

theorem find_of_readItem {buf : List UInt8} {r : EspErr × Storage × List UInt8} {m' : Bytes}
    (hrun : run wordFlash (s.readItem ns dt k buf) m = some (r, m')) (hok : r.1 = .ok) :
    ∃ q m₁, run wordFlash (s.findItem ns dt k) m = some (q, m₁) ∧ q.1 = .ok := by
  unfold Storage.readItem at hrun
  by_cases hactive : s.state ≠ .active
  · rw [if_pos hactive] at hrun
    cases hrun
    cases hok
  · rw [if_neg hactive] at hrun
    refine find_of_bind ?_ hrun hok
    rintro ⟨err, s', j, item⟩ herr
    dsimp only at herr ⊢
    split
    · exact (herr rfl).elim
    · exact ⟨_, rfl, rfl⟩

theorem find_of_eraseItem {r : EspErr × Storage} {m' : Bytes}
    (hrun : run wordFlash (s.eraseItem ns dt k) m = some (r, m')) (hok : r.1 = .ok) :
    ∃ q m₁, run wordFlash (s.findItem ns dt k) m = some (q, m₁) ∧ q.1 = .ok := by
  unfold Storage.eraseItem at hrun
  by_cases hactive : s.state ≠ .active
  · rw [if_pos hactive] at hrun
    cases hrun
    cases hok
  · rw [if_neg hactive] at hrun
    refine find_of_bind ?_ hrun hok
    rintro ⟨err, s', j, item⟩ herr
    dsimp only at herr ⊢
    split
    · exact (herr rfl).elim
    · exact ⟨_, rfl, rfl⟩

theorem open_long (hk : k.Long)
    (hrun : run wordFlash (s.createOrOpenNamespace k canCreate) m = some (r, m'))
    (hok : r.1 = .ok) :
    ∃ e ∈ s.namespaces, cstr maxKeyLength e.name = k.short.text := by
  unfold Storage.createOrOpenNamespace at hrun
  by_cases hactive : s.state ≠ .active
  · rw [if_pos hactive] at hrun
    obtain ⟨rfl, -⟩ := Prod.mk.inj (Option.some.inj hrun)
    simp at hok
  rw [if_neg hactive] at hrun
  cases hfind : s.namespaces.find? fun e =>
      cstr maxKeyLength k.text = cstr maxKeyLength e.name with
  | some e =>
    have hname := List.find?_some hfind
    exact ⟨e, List.mem_of_find?_eq_some hfind, (of_decide_eq_true hname).symm⟩
  | none =>
    simp only [hfind] at hrun
    exfalso
    by_cases hcreate : ¬ canCreate = true
    · rw [if_pos hcreate] at hrun
      obtain ⟨rfl, -⟩ := Prod.mk.inj (Option.some.inj hrun)
      simp at hok
    rw [if_neg hcreate] at hrun
    by_cases hfull : unusedIndex s.namespaceUsage 1 254 = 255
    · rw [if_pos hfull] at hrun
      obtain ⟨rfl, -⟩ := Prod.mk.inj (Option.some.inj hrun)
      simp at hok
    rw [if_neg hfull] at hrun
    obtain ⟨⟨err, s'⟩, m₁, hwrite, hrun⟩ := (run_bind_iff _).1 hrun
    have herr : err ≠ .ok := (Storage.writeItem_ne_ok hk s).run _ hwrite
    rw [if_pos herr] at hrun
    obtain ⟨rfl, -⟩ := Prod.mk.inj (Option.some.inj hrun)
    exact herr hok

end Calls

/-- Calls with a key of more than 15 characters keep away from what is stored under other keys if no
entry in use, and no namespace, has the first 15 of them.  They do not if a lookup is led to an item
with these, or a namespace has them. -/
theorem long_key_own_data {s : Storage} (hactive : s.state = .active) (m : Bytes) {k : Key}
    (hk : k.Long)
    (hsectors : ∀ j ∈ s.pageManager.pageList, (s.page j).baseAddress % sectorSize = 0) :
    (s.NothingUnder m k → s.OwnDataOnly m k) ∧
      (s.OwnDataOnly m k → (∀ ns dt j i, ¬ s.Leads m ns dt k j i) ∧
        ∀ e ∈ s.namespaces, cstr maxKeyLength e.name ≠ k.short.text) := by
  constructor
  · intro h
    have hnone : ¬ ∃ ns dt r m', run wordFlash (s.findItem ns dt k) m = some (r, m') ∧
        r.1 = .ok := by
      rintro ⟨ns, dt, r, m', hrun, hok⟩
      exact Storage.findOn_without (fun j hj => ⟨hsectors j hj, h.items j hj⟩) hrun hok
    refine ⟨fun ns dt buf r m' hrun hok => ?_, fun ns dt r m' hrun hok => ?_,
      fun ns dt r m' hrun hok => ?_, fun ns dt data r m' hrun => ?_,
      fun canCreate r m' i hrun hok _ => ?_⟩
    · exact absurd ⟨ns, dt, find_of_readItem hrun hok⟩ hnone
    · exact absurd ⟨ns, dt, (getItemDataSize_ok_iff hactive).1 ⟨r, m', hrun, hok⟩⟩ hnone
    · exact absurd ⟨ns, dt, find_of_eraseItem hrun hok⟩ hnone
    · exact ⟨(Storage.writeItem_ne_ok hk s).run _ hrun, Storage.writeItem_long hk s ▸ hrun⟩
    · obtain ⟨e, he, hname⟩ := open_long hk hrun hok
      exact absurd hname (h.namespaces e he)
  · intro h
    refine ⟨fun ns dt j i hleads => ?_, fun e he hname => ?_⟩
    · have hfind := hleads.findItem
      obtain ⟨r, m', hsize, hok⟩ := (getItemDataSize_ok_iff hactive).2 ⟨_, m, hfind, rfl⟩
      exact h.size ns dt r m' hsize hok ⟨_, m, hfind, rfl, hk.ne_cstr _⟩
    · have hsome : (s.namespaces.find? fun e =>
          cstr maxKeyLength k.text = cstr maxKeyLength e.name).isSome := by
        rw [List.find?_isSome]
        exact ⟨e, he, decide_eq_true hname.symm⟩
      obtain ⟨e', he'⟩ := Option.isSome_iff_exists.1 hsome
      have hrun : run wordFlash (s.createOrOpenNamespace k false) m =
          some ((.ok, s, some e'.index), m) := by
        unfold Storage.createOrOpenNamespace
        rw [if_neg (by simp [hactive])]
        simp only [he']
        rfl
      obtain ⟨e'', -, hchars, -⟩ := h.open_ false _ m e'.index hrun rfl rfl
      exact hk.ne_cstr _ hchars

def longKey : Key := ⟨1, List.replicate 16 97⟩

/-- A store of three sectors with a namespace and, in it, a number, a blob and an erased number
under a key that the long one begins with. -/
def otherKeys : WordProg Storage := do
  let (_, s) ← Storage.init .adjacent Storage.new 0 3
  let (_, s, _) ← s.createOrOpenNamespace ⟨6, [110]⟩ true
  let (_, s) ← s.writeItem 1 .U8 ⟨0, List.replicate 15 97⟩ [7]
  let (_, s) ← s.writeItem 1 .BLOB ⟨5, [107]⟩ (List.replicate 40 9)
  let (_, s) ← s.eraseItem 1 .U8 ⟨0, List.replicate 15 97⟩
  let (_, s) ← s.writeItem 1 .U8 ⟨2, List.replicate 14 97⟩ [8]
  return s

theorem long_key_own_data_otherKeys : ∃ s m, run wordFlash otherKeys Bytes.blank = some (s, m) ∧
    longKey.Long ∧ s.NothingUnder m longKey ∧ s.OwnDataOnly m longKey := by
  have heval : (run wordFlash otherKeys Bytes.blank).any (fun r =>
      r.1.state = .active ∧
      (∀ j ∈ r.1.pageManager.pageList, (r.1.page j).baseAddress % sectorSize = 0) ∧
      (∀ j ∈ r.1.pageManager.pageList, ∀ i < entryCount,
        ¬ (r.1.page j).Holds r.2 longKey.short.text i) ∧
      ∀ e ∈ r.1.namespaces, cstr maxKeyLength e.name ≠ longKey.short.text) = true := by
    decide +kernel
  have hk : longKey.Long := by
    unfold Key.Long
    decide
  obtain ⟨⟨s, m⟩, hs, heval⟩ := (Option.any_eq_true _ _).1 heval
  obtain ⟨hactive, hsectors, hitems, hnames⟩ := of_decide_eq_true heval
  have hnone : s.NothingUnder m longKey := ⟨hitems, hnames⟩
  exact ⟨s, m, hs, hk, hnone, (long_key_own_data hactive m hk hsectors).1 hnone⟩

/-- A store of three sectors, initialised on erased flash, in which a value is then written under a
key of fifteen times `a`. -/
def oneValue : WordProg Storage := do
  let (_, s) ← Storage.init .adjacent Storage.new 0 3
  let (_, s) ← s.writeItem 1 .U8 ⟨0, List.replicate 15 97⟩ [7]
  return s

theorem long_key_reads_other : ∃ s m, run wordFlash oneValue Bytes.blank = some (s, m) ∧
    longKey.Long ∧ ¬ s.OwnDataOnly m longKey := by
  have hrun : (run wordFlash oneValue Bytes.blank).any (fun r =>
      decide (r.1.state = .active) && (run wordFlash (r.1.readItem 1 .U8 longKey [0]) r.2).any
        (fun r => r.1.1 = .ok ∧ r.1.2.2 = [7])) = true := by
    decide +kernel
  have hk : longKey.Long := by unfold Key.Long; decide
  obtain ⟨⟨s, m⟩, hs, hread⟩ := (Option.any_eq_true _ _).1 hrun
  refine ⟨s, m, hs, hk, fun hown => ?_⟩
  simp only [Bool.and_eq_true, decide_eq_true_eq] at hread
  obtain ⟨⟨r, m'⟩, hr, hok⟩ := (Option.any_eq_true _ _).1 hread.2
  simp only [decide_eq_true_eq] at hok
  obtain ⟨r', m'', hfind, hok'⟩ := find_of_readItem hr hok.1
  exact hown.read 1 .U8 [0] r m' hr hok.1 ⟨r', m'', hfind, hok', hk.ne_cstr _⟩

end EspIdf.Nvs
