import EspIdf.SpiFlash.Bounds

/-! The flash cache.  For a mapped page it can return any contents that the page has had since the
last `Cache_Flush`; `written_pages` tells which pages may have had others.  Erasing does not enter
pages there, so the erased ones are tracked separately. -/

namespace EspIdf.SpiFlash

open EspIdf.Device

/-! ### Written pages -/

namespace Mmu

theorem addPage (h : q < 256) : add32 (mmuPageSize * q) mmuPageSize = mmuPageSize * (q + 1) := by
  have hps : mmuPageSize = 65536 := rfl
  rw [add32, hps]
  omega

theorem mul_lt_mul_page : mmuPageSize * q < mmuPageSize * e ↔ q < e := Nat.mul_lt_mul_left (by decide)

theorem updateLoop_mark (t : Mmu) (hr : 256 < rounds + q) :
    (updateLoop true (mmuPageSize * e) rounds t (mmuPageSize * q)).1 =
      t.withWritten fun p => t.writtenPages p || decide (q ≤ p ∧ p < e ∧ p < 256) := by
  induction rounds generalizing t q with
  | zero =>
    have h : ∀ p, ¬ (q ≤ p ∧ p < e ∧ p < 256) := by omega
    simp only [updateLoop, h, decide_false, Bool.or_false]
    rfl
  | succ rounds ih =>
    simp only [updateLoop, mul_lt_mul_page, Nat.mul_div_cancel_left q (show 0 < mmuPageSize by decide),
      if_true]
    by_cases hlt : q < e
    · rw [if_neg (not_not.mpr hlt)]
      by_cases hq : q ≥ 256
      · rw [if_pos hq]
        have h : ∀ p, ¬ (q ≤ p ∧ p < e ∧ p < 256) := by omega
        simp only [h, decide_false, Bool.or_false]
        rfl
      · rw [if_neg hq, addPage (by omega), ih _ (by omega)]
        simp only [withWritten, Mmu.mk.injEq, true_and]
        funext p
        by_cases hp : p = q
        · simp [hp, hlt, show q < 256 by omega]
        · simp only [Function.update_of_ne hp]
          congr 1
          exact decide_eq_decide.mpr (by omega)
    · rw [if_pos hlt]
      have h : ∀ p, ¬ (q ≤ p ∧ p < e ∧ p < 256) := by omega
      simp only [h, decide_false, Bool.or_false]
      rfl

theorem updateLoop_check (t : Mmu) (hr : 256 < rounds + q) :
    ((updateLoop false (mmuPageSize * e) rounds t (mmuPageSize * q)).2 = true ∧
      (updateLoop false (mmuPageSize * e) rounds t (mmuPageSize * q)).1 = t.withWritten fun _ => false) ∨
    (updateLoop false (mmuPageSize * e) rounds t (mmuPageSize * q)) = (t, false) ∧
      ∀ p, q ≤ p → p < e → p < 256 → t.writtenPages p = false := by
  induction rounds generalizing q with
  | zero => exact .inr ⟨rfl, by omega⟩
  | succ rounds ih =>
    simp only [updateLoop, mul_lt_mul_page, Nat.mul_div_cancel_left q (show 0 < mmuPageSize by decide),
      Bool.false_eq_true, if_false]
    by_cases hlt : q < e
    · rw [if_neg (not_not.mpr hlt)]
      by_cases hq : q ≥ 256
      · rw [if_pos hq]
        exact .inr ⟨rfl, by omega⟩
      · rw [if_neg hq]
        by_cases hw : t.writtenPages q = true
        · rw [if_pos hw]
          exact .inl ⟨rfl, rfl⟩
        · rw [if_neg hw, addPage (by omega)]
          refine (ih (q := q + 1) (by omega)).imp id fun h => ⟨h.1, fun p h1 h2 h3 => ?_⟩
          by_cases hp : p = q
          · exact hp ▸ eq_false_of_ne_true hw
          · exact h.2 p (by omega) h2 h3
    · rw [if_pos hlt]
      exact .inr ⟨rfl, by omega⟩

theorem updateWrittenPages_eq (t : Mmu) (mark : Bool) (h : startAddr + length ≤ 2 ^ 24) :
    t.updateWrittenPages startAddr length mark =
      updateLoop mark (mmuPageSize * ((startAddr + length + 65535) / 65536)) 257 t
        (mmuPageSize * (startAddr / mmuPageSize)) := by
  have hps : mmuPageSize = 65536 := rfl
  have hstop : add32 (startAddr / mmuPageSize * mmuPageSize)
      (add32 (add32 length (startAddr - startAddr / mmuPageSize * mmuPageSize)) (mmuPageSize - 1)
        / mmuPageSize * mmuPageSize) = mmuPageSize * ((startAddr + length + 65535) / 65536) := by
    unfold add32
    rw [hps]
    omega
  simp only [updateWrittenPages]
  rw [hstop, Nat.mul_comm (startAddr / mmuPageSize)]

theorem markModifiedRegion_eq (t : Mmu) (h : startAddr + length ≤ 2 ^ 24) :
    t.markModifiedRegion startAddr length = t.withWritten fun p => t.writtenPages p ||
      decide (startAddr / 65536 ≤ p ∧ p < (startAddr + length + 65535) / 65536 ∧ p < 256) := by
  have hps : mmuPageSize = 65536 := rfl
  rw [markModifiedRegion, updateWrittenPages_eq t true h,
    updateLoop_mark t (Nat.le_add_right 257 _), hps]

theorem ensureUnmodifiedRegion_cases (t : Mmu) (h : startAddr + length ≤ 2 ^ 24) :
    ((t.ensureUnmodifiedRegion startAddr length).2 = true ∧
      (t.ensureUnmodifiedRegion startAddr length).1 = t.withWritten fun _ => false) ∨
    t.ensureUnmodifiedRegion startAddr length = (t, false) ∧
      ∀ p, startAddr / 65536 ≤ p → p < (startAddr + length + 65535) / 65536 → p < 256 →
        t.writtenPages p = false := by
  rw [ensureUnmodifiedRegion, updateWrittenPages_eq t false h]
  exact (updateLoop_check t (Nat.le_add_right 257 _)).imp id fun hclean =>
    ⟨hclean.1, fun p hp => hclean.2 p hp⟩

end Mmu

/-! ### The cache -/

/-- Flash and its cache: the contents of flash, the contents it has had since the last
`Cache_Flush`, the pages that were erased since then, and the number of calls that modified
flash. -/
structure Dev where
  flash : Bytes
  past : List Bytes
  erased : Nat → Prop
  changes : Nat

namespace Dev

structure Changes (d d' : Dev) (addr len : Nat) : Prop where
  flash : ∀ x, ¬ (addr ≤ x ∧ x < addr + len) → d'.flash x = d.flash x
  past : ∀ c ∈ d'.past, c ∈ d.past ∨ ∀ x, ¬ (addr ≤ x ∧ x < addr + len) → c x = d.flash x
  changes : d'.changes = d.changes + 1

/-- The byte that the cache returns at `va` is one that its flash address has had since the last
flush, by the table of one of the CPUs. -/
def Visible (d : Dev) (t : Mmu) (va : Nat) (b : UInt8) : Prop :=
  ∃ c, (c = d.flash ∨ c ∈ d.past) ∧
    (b = c (t.proTable (mmuEntry va) * mmuPageSize + va % mmuPageSize) ∨
      b = c (t.appTable (mmuEntry va) * mmuPageSize + va % mmuPageSize))

end Dev

/-- What a call can answer, and what it does.  A call that fails can have changed any byte of its
range. -/
def FlashOp.Effect : (o : FlashOp) → Dev → o.Ret → Dev → Prop
  | unlock, d, _, d' => d' = d
  | malloc, d, _, d' => d' = d
  | cacheFlush, d, _, d' => d' = { d with past := [], erased := fun _ => False }
  | read _ _, d, _, d' => d' = d
  | write addr data, d, rc, d' => d.Changes d' addr data.length ∧ d'.erased = d.erased ∧
      (rc = .ok → d'.flash = d.flash.program addr data)
  | writeEncrypted addr _, d, _, d' => d.Changes d' addr 32 ∧ d'.erased = d.erased
  | eraseSector sector, d, rc, d' => d.Changes d' (secSize * sector) secSize ∧
      (d'.erased = fun q => d.erased q ∨ q = sector / sectorsPerBlock) ∧
      (rc = .ok → d'.flash = d.flash.erase (secSize * sector) secSize)
  | eraseBlock block, d, rc, d' => d.Changes d' (65536 * block) 65536 ∧
      (d'.erased = fun q => d.erased q ∨ q = block) ∧
      (rc = .ok → d'.flash = d.flash.erase (65536 * block) 65536)
  | cached t va size, d, bs, d' => d' = d ∧ bs.length = size ∧
      ∀ i < size, d.Visible t (va + i) (bs.getD i 0xff)

/-- Pages that are neither in `written_pages` nor erased nor `busy` have had no other contents since
the last flush. -/
def Coherent (t : Mmu) (d : Dev) (busy : Nat → Prop) : Prop :=
  ∀ q < 256, t.writtenPages q = false → ¬ d.erased q → ¬ busy q →
    ∀ c ∈ d.past, ∀ x, x / 65536 = q → c x = d.flash x

def FlashOp.WritesOnly (busy : Nat → Prop) : FlashOp → Prop
  | .write addr data => ∀ x, addr ≤ x → x < addr + data.length → busy (x / 65536)
  | .writeEncrypted addr _ => ∀ x, addr ≤ x → x < addr + 32 → busy (x / 65536)
  | _ => True

namespace Coherent

variable {t : Mmu} {d d' : Dev} {busy : Nat → Prop} {α : Type}

theorem mono (h : Coherent t d busy) (hb : ∀ q, busy q → busy' q) :
    Coherent t d busy' := fun q hq hw he hn => h q hq hw he fun hbq => hn (hb q hbq)

theorem of_changes {addr : Nat} (h : Coherent t d busy) (hc : d.Changes d' addr len)
    (he : ∀ q, d.erased q → d'.erased q)
    (hin : ∀ x, addr ≤ x → x < addr + len → busy (x / 65536) ∨ d'.erased (x / 65536)) :
    Coherent t d' busy := by
  intro q hq hw hne hnb c hmem x hx
  have hout : ¬ (addr ≤ x ∧ x < addr + len) := by
    intro hx'
    rcases hin x hx'.1 hx'.2 with hb | hb
    · exact hnb (hx ▸ hb)
    · exact hne (hx ▸ hb)
  rw [hc.flash x hout]
  rcases hc.past c hmem with hold | hmid
  · exact h q hq hw (fun h => hne (he q h)) hnb c hold x hx
  · exact hmid x hout

theorem step {o : FlashOp} {r : o.Ret} (h : Coherent t d busy) (ho : o.WritesOnly busy)
    (he : o.Effect d r d') : Coherent t d' busy := by
  cases o with
  | unlock | malloc | read _ _ =>
    obtain rfl : d' = d := he
    exact h
  | cacheFlush =>
    obtain rfl : d' = { d with past := [], erased := fun _ => False } := he
    intro q _ _ _ _ c hc
    simp at hc
  | write addr data =>
    obtain ⟨hc, herased, -⟩ := he
    exact h.of_changes hc (fun q hq => herased ▸ hq) fun x h1 h2 => .inl (ho x h1 h2)
  | writeEncrypted addr row =>
    obtain ⟨hc, herased⟩ := he
    exact h.of_changes hc (fun q hq => herased ▸ hq) fun x h1 h2 => .inl (ho x h1 h2)
  | eraseSector sector =>
    obtain ⟨hc, herased, -⟩ := he
    refine h.of_changes hc (fun q hq => by rw [herased]; exact .inl hq) fun x h1 h2 => .inr ?_
    rw [herased]
    rw [show secSize = 4096 from rfl] at h1 h2
    rw [show sectorsPerBlock = 16 from rfl]
    omega
  | eraseBlock block =>
    obtain ⟨hc, herased, -⟩ := he
    refine h.of_changes hc (fun q hq => by rw [herased]; exact .inl hq) fun x h1 h2 => .inr ?_
    rw [herased]
    omega
  | cached u va size =>
    obtain ⟨rfl, -⟩ := he
    exact h

theorem mark (hle : startAddr + length ≤ 2 ^ 24)
    (h : Coherent t d fun q => startAddr / 65536 ≤ q ∧ q < (startAddr + length + 65535) / 65536) :
    Coherent (t.markModifiedRegion startAddr length) d fun _ => False := by
  rw [Mmu.markModifiedRegion_eq t hle]
  intro q hq hw he _
  simp only [Mmu.withWritten_writtenPages, Bool.or_eq_false_iff, decide_eq_false_iff_not] at hw
  exact h q hq hw.1 he (by omega)

end Coherent

section Modify

variable {t : Mmu} {d : Dev} {chipSize : Nat}

def pagesOf (dst size q : Nat) : Prop := dst / 65536 ≤ q ∧ q < (dst + size + 65535) / 65536

theorem writesOnly_of_inside {o : FlashOp} {dst size : Nat}
    (h : o.Inside (65536 * (dst / 65536)) (65536 * ((dst + size + 65535) / 65536))) :
    o.WritesOnly (pagesOf dst size) := by
  cases o with
  | write addr data =>
    intro x h1 h2
    have := h.1
    have := h.2
    unfold pagesOf
    omega
  | writeEncrypted addr row =>
    intro x h1 h2
    have := h.1
    have := h.2
    unfold pagesOf
    omega
  | _ => trivial

theorem writeParts_writesOnly {size : Nat} (hle : dst + size ≤ 2 ^ 24) (hsize : 0 < size) :
    (writeParts direct dst srcv size).Within (FlashOp.WritesOnly (pagesOf dst size)) fun _ => True := by
  have hstays : Stays (65536 * (dst / 65536)) (65536 * ((dst + size + 65535) / 65536))
      (writeParts direct dst srcv size) :=
    (writeParts_iff (by omega) (by omega) (by omega) hsize).mpr (by unfold up4 align4; omega)
  exact hstays.imp fun o => writesOnly_of_inside

theorem spiFlashWrite_coherent {size : Nat} (hchip : chipSize ≤ 2 ^ 24) (hwrap : dst + size < 2 ^ 32)
    (h : Coherent t d fun _ => False) :
    (spiFlashWrite chipSize direct t dst srcv size).Post FlashOp.Effect
      (fun r d' => (∃ w, r.2 = t.withWritten w) ∧ Coherent r.2 d' fun _ => False) d := by
  unfold spiFlashWrite
  split
  · exact ⟨⟨_, rfl⟩, h⟩
  rename_i hle
  rw [add32_eq (Nat.le_refl _) hwrap] at hle
  split
  · exact ⟨⟨_, rfl⟩, h⟩
  refine Prog.Post.bind ((writeParts_writesOnly (by omega) (by omega)).post
    (I := fun d => Coherent t d (pagesOf dst size)) (h.mono (by simp)) fun o d r d' ho h he =>
      h.step ho he) ?_
  rintro rc d' ⟨-, hd'⟩
  exact Prog.Post.ret_snd (Q := fun u d => (∃ w, u = t.withWritten w) ∧ Coherent u d fun _ => False)
    ⟨⟨_, t.markModifiedRegion_eq (by omega)⟩, hd'.mark (by omega)⟩

theorem eraseLoop_writesOnly : (eraseLoop stop n sector).Within (FlashOp.WritesOnly busy) fun _ =>
    True := by
  induction n generalizing sector with
  | zero => trivial
  | succ n ih =>
    unfold eraseLoop
    split
    · trivial
    split
    · refine Prog.Within.op_bind trivial fun rc => ?_
      split
      · exact ih
      · trivial
    · refine Prog.Within.op_bind trivial fun rc => ?_
      split
      · exact ih
      · trivial

theorem spiFlashEraseRange_coherent {size : Nat} (h : Coherent t d fun _ => False) :
    (spiFlashEraseRange chipSize startAddr size).Post FlashOp.Effect
      (fun _ d' => Coherent t d' fun _ => False) d := by
  have hwithin : (spiFlashEraseRange chipSize startAddr size).Within
      (FlashOp.WritesOnly fun _ => False) fun _ => True := by
    unfold spiFlashEraseRange
    split
    · trivial
    split
    · trivial
    split
    · trivial
    refine Prog.Within.op_bind trivial fun rc => ?_
    split
    · exact Prog.Within.bind eraseLoop_writesOnly fun _ _ => trivial
    · trivial
  exact (hwithin.post (I := fun d => Coherent t d fun _ => False) h
    fun o d r d' ho h he => h.step ho he).mono fun _ _ h => h.2

end Modify

/-! ### Mapping -/

section Map

variable {t : Mmu} {d d' : Dev} {chipSize srcAddr size : Nat} {memory : Memory} {busy : Nat → Prop}

structure Mapped (chipSize : Nat) (t : Mmu) (srcAddr size : Nat) (memory : Memory) (d : Dev)
    (out : MmapOut) (d' : Dev) : Prop where
  call : ∃ mallocOk, spiFlashMmap chipSize mallocOk t srcAddr size memory = some out
  flash : d'.flash = d.flash
  changes : d'.changes = d.changes
  cache : d'.past = [] ∨ out.flushed = false ∧ d' = d

theorem mmapCall_post : (mmapCall chipSize t srcAddr size memory).Post FlashOp.Effect
    (fun out d' => Mapped chipSize t srcAddr size memory d out d') d := by
  unfold mmapCall
  split
  · rename_i hcheck
    exact ⟨⟨true, spiFlashMmap_refused hcheck⟩, rfl, rfl, .inr ⟨rfl, rfl⟩⟩
  · refine Prog.Post.op_bind fun mallocOk d' hd' => ?_
    obtain rfl : d' = d := hd'
    cases hmmap : spiFlashMmap chipSize mallocOk t srcAddr size memory with
    | none => trivial
    | some out =>
      simp only
      split
      · refine Prog.Post.op_bind fun _ d'' hd'' => ?_
        obtain rfl : d'' = { d' with past := [], erased := fun _ => False } := hd''
        exact ⟨⟨mallocOk, hmmap⟩, rfl, rfl, .inl rfl⟩
      · rename_i hflushed
        exact ⟨⟨mallocOk, hmmap⟩, rfl, rfl, .inr ⟨eq_false_of_ne_true hflushed, rfl⟩⟩

theorem withPages_writtenPages (u : Mmu) (i val n : Nat) (es : List MmapEntry) (handle : Nat) :
    Mmu.writtenPages { u.withPages i val n with entries := es, lastHandle := handle } =
      u.writtenPages := rfl

theorem writtenPages_of_not_flushed (hle : srcAddr + size ≤ 2 ^ 24)
    (h : spiFlashMmap chipSize mallocOk t srcAddr size memory = some out)
    (hflushed : out.flushed = false) : out.mmu.writtenPages = t.writtenPages := by
  have hprep : ((t.ensureUnmodifiedRegion srcAddr size).2 = true → out.flushed = true) →
      (t.prepared srcAddr size).writtenPages = t.writtenPages := by
    intro hf
    rcases t.ensureUnmodifiedRegion_cases hle with ⟨h2, -⟩ | ⟨heq, -⟩
    · rw [hf h2] at hflushed
      cases hflushed
    · rw [Mmu.prepared, Mmu.withWritten_writtenPages, heq]
  rcases spiFlashMmap_some h with ⟨-, -, hmmu | ⟨hmmu, hf⟩⟩ | ⟨-, -, start, hmade⟩
  · rw [hmmu]
  · rw [hmmu, hprep hf]
  · rw [hmade.mmu, withPages_writtenPages, hprep hmade.flushed]

theorem mmu_of_refused (hbig : chipSize < add32 srcAddr size)
    (h : spiFlashMmap chipSize mallocOk t srcAddr size memory = some out) : out.mmu = t := by
  unfold spiFlashMmap at h
  split at h <;> cases h <;> rfl

theorem Coherent.mmap (h : Coherent t d busy)
    (hle : srcAddr + size ≤ 2 ^ 24 ∨ chipSize < add32 srcAddr size)
    (hm : Mapped chipSize t srcAddr size memory d out d') : Coherent out.mmu d' busy := by
  rcases hm.cache with hnil | ⟨hflushed, rfl⟩
  · intro q _ _ _ _ c hc
    rw [hnil] at hc
    simp at hc
  · obtain ⟨mallocOk, hcall⟩ := hm.call
    have hsame : out.mmu.writtenPages = t.writtenPages := by
      rcases hle with hle | hbig
      · exact writtenPages_of_not_flushed hle hcall hflushed
      · rw [mmu_of_refused hbig hcall]
    intro q hq hw
    exact h q hq (hsame ▸ hw)

theorem Coherent.current {start : Nat} (h : Coherent t d fun _ => False) (hle : srcAddr + size ≤ 2 ^ 24)
    (hm : Mapped chipSize t srcAddr size memory d out d')
    (hmade : MadeAt t srcAddr size memory out start)
    (hcond : (∀ q, pagesOf srcAddr size q → ¬ d.erased q) ∨ ∃ q < 256, pagesOf srcAddr size q ∧
    t.writtenPages q = true) :
    ∀ q, pagesOf srcAddr size q → ∀ c ∈ d'.past, ∀ x, x / 65536 = q → c x = d'.flash x := by
  intro q hq c hc
  rcases hm.cache with hnil | ⟨hflushed, rfl⟩
  · rw [hnil] at hc
    simp at hc
  · rcases t.ensureUnmodifiedRegion_cases hle with ⟨h2, -⟩ | ⟨-, hclean⟩
    · rw [hmade.flushed h2] at hflushed
      cases hflushed
    · have hlt : q < 256 := by
        unfold pagesOf at hq
        omega
      rcases hcond with hne | ⟨p, hp, hpages, hmark⟩
      · exact h q hlt (hclean q hq.1 hq.2 hlt) (hne q hq) id c hc
      · rw [hclean p hpages.1 hpages.2 hp] at hmark
        cases hmark

end Map

/-! ### Live mappings -/

structure Kept (boot : Nat → Bool) (t : Mmu) (live : List Mapping) : Prop where
  run : RunInv boot t live
  rest : t.mmapInit = t ∨ ∀ i, t.refcnt i = 0
  handles : ∀ e ∈ t.entries, e.handle ≤ t.lastHandle

def Few (live : List Mapping) : Prop := ∀ i < mmuPageCount, live.countP (·.covers i) < 254

section Kept

variable {boot : Nat → Bool} {t t' : Mmu} {live : List Mapping} {chipSize srcAddr size : Nat}
  {memory : Memory} {mallocOk : Bool} {out : MmapOut}

theorem Kept.roomy (h : Kept boot t live) (hfew : Few live) (hlast : t.lastHandle + 1 < 2 ^ 32)
    (hcount : pageCountOf size ≤ memory.regionSize) : Roomy t size memory where
  count := hcount
  few i hi := by
    rcases h.rest with hinit | hzero
    · have hr := h.run.inStep.refcnt i hi
      have := hfew i hi
      rw [hinit] at hr
      split at hr <;> omega
    · rw [hzero i]
      omega
  handle e he := by
    have := h.handles e he
    rw [add32_eq (Nat.le_refl _) hlast]
    omega

theorem Kept.withWritten (h : Kept boot t live) (w : Nat → Bool) : Kept boot (t.withWritten w) live where
  run := by
    refine ⟨?_, ?_⟩
    · rw [mmapInit_withWritten]
      exact h.run.inStep.withWritten w
    · exact h.run.init.imp_left fun hinit => by rw [mmapInit_withWritten, hinit]
  rest := h.rest.imp_left fun hinit => by rw [mmapInit_withWritten, hinit]
  handles := h.handles

theorem Kept.mmap (h : Kept boot t live) (hroom : Roomy t size memory)
    (hlast : t.lastHandle + 1 < 2 ^ 32)
    (hout : spiFlashMmap chipSize mallocOk t srcAddr size memory = some out) :
    Kept boot out.mmu (out.live srcAddr memory live) ∧ out.mmu.lastHandle ≤ t.lastHandle + 1 := by
  have hrun := h.run.mmap hroom hout
  rcases spiFlashMmap_some hout with ⟨-, -, hmmu | ⟨hmmu, -⟩⟩ | ⟨-, -, start, hmade⟩
  · refine ⟨⟨hrun, by rw [hmmu]; exact h.rest, by rw [hmmu]; exact h.handles⟩, by rw [hmmu]; omega⟩
  · refine ⟨⟨hrun, .inl ?_, ?_⟩, ?_⟩
    · rw [hmmu]
      exact (h.run.inStep.prepared srcAddr size).init_eq
    · rw [hmmu, prepared_entries, prepared_lastHandle]
      exact h.handles
    · rw [hmmu, prepared_lastHandle]
      omega
  · have hlive : out.live srcAddr memory live ≠ [] := by
      rw [hmade.live_eq]
      simp
    have hlasteq : out.mmu.lastHandle = t.lastHandle + 1 := by
      rw [hmade.mmu, add32_eq (Nat.le_refl _) hlast]
    have hentries : out.mmu.entries = ⟨t.lastHandle + 1, start, pageCountOf size⟩ :: t.entries := by
      rw [hmade.mmu, add32_eq (Nat.le_refl _) hlast]
    refine ⟨⟨hrun, .inl (hrun.init.resolve_right hlive), ?_⟩, by omega⟩
    rw [hentries, hlasteq]
    intro e he
    rcases List.mem_cons.mp he with rfl | he
    · exact Nat.le_refl _
    · have := h.handles e he
      omega

theorem releasePages_fields (h : t.releasePages i n = some t') :
    t'.entries = t.entries ∧ t'.lastHandle = t.lastHandle ∧ t'.writtenPages = t.writtenPages := by
  induction n generalizing t i with
  | zero =>
    cases h
    exact ⟨rfl, rfl, rfl⟩
  | succ n ih =>
    unfold Mmu.releasePages at h
    split at h
    · cases h
    · obtain ⟨h1, h2, h3⟩ := ih h
      rw [h1, h2, h3]
      unfold Mmu.releasePage
      split <;> exact ⟨rfl, rfl, rfl⟩

theorem spiFlashMunmap_fields {handle : Nat} (h : spiFlashMunmap t handle = some t') :
    t'.entries.Sublist t.entries ∧ t'.lastHandle = t.lastHandle ∧
      t'.writtenPages = t.writtenPages := by
  unfold spiFlashMunmap at h
  split at h
  · cases h
  · obtain ⟨u, hu, rfl⟩ := Option.map_eq_some_iff.mp h
    obtain ⟨h1, h2, h3⟩ := releasePages_fields hu
    exact ⟨h1 ▸ List.eraseP_sublist, h2, h3⟩

theorem Kept.munmap (h : Kept boot t live) (hg : g ∈ live)
    (ht' : spiFlashMunmap t g.entry.handle = some t') :
    Kept boot t' (live.eraseP (·.entry.handle = g.entry.handle)) := by
  obtain ⟨hsub, hlast, -⟩ := spiFlashMunmap_fields ht'
  have hinit : t.mmapInit = t := h.run.init.resolve_right (List.ne_nil_of_mem hg)
  obtain ⟨u, hu, hinit', hstep⟩ := h.run.inStep.munmap hg hinit
  rw [ht'] at hu
  cases hu
  exact ⟨⟨hinit'.symm ▸ hstep, .inl hinit'⟩, .inl hinit', fun e he =>
    hlast ▸ h.handles e (hsub.mem he)⟩

end Kept

end EspIdf.SpiFlash
