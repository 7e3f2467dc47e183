import EspIdf.FreeRtos.RingCalls
import EspIdf.FreeRtos.RingRun

/-! What an empty ring buffer accepts, wherever its pointers stopped. -/

namespace EspIdf.FreeRtos

open EspIdf.Device

/-! ### Where the pointers are -/

structure Emptied (w : World) : Prop where
  returned : w.out = []
  received : xRingbufferReceiveFromISR w.rb = some (none, w.rb)

section Run

variable {size : Nat} {type : RingbufType} {data : Bytes} {w : World}

theorem RunInv.clear_send {bytes : List UInt8} {done : Bool} (h : RunInv size type w)
    (hok : SendOk w.rb bytes.length) (hres : xRingbufferSendFromISR w.rb bytes = some (done, rb)) :
    rb.freePtr = w.rb.freePtr ∧ rb.readPtr = w.rb.readPtr := by
  obtain ⟨F, R, W, blocks, todo, parts, hring, -⟩ := h
  rcases hring.send_sent hok with heq | ⟨rb', W', es, heq, -, -, hring', -⟩
  · rw [hres] at heq
    cases heq
    exact ⟨rfl, rfl⟩
  · rw [hres] at heq
    cases heq
    exact ⟨hring'.free.trans hring.free.symm, hring'.read.trans hring.read.symm⟩

theorem RunInv.clear_giveBack {item : Nat × List UInt8} (h : RunInv size type w)
    (hitem : item ∈ w.out)
    (hres : vRingbufferReturnItem w.rb item.1 = some rb) (hnil : w.out.eraseP (·.1 = item.1) = []) :
    rb.freePtr = rb.readPtr := by
  obtain ⟨F, R, W, blocks, todo, parts, hring, hsize, htype, hout, -⟩ := h
  rw [hout, ← hsize] at hitem hnil
  obtain ⟨rb', F', blocks', heq, -, -, hring', houts, hclear⟩ := hring.return_some hitem
  rw [hres] at heq
  cases heq
  have hold := hring'.old
  rw [hclear (houts.trans hnil)] at hold
  have hFR : F' = R := hold
  rw [hring'.free, hring'.read, hFR]

theorem Run.clear (hsize : size < 2 ^ 31) (hpos : 0 < size) (h : Run size type data SendOk w)
    (hout : w.out = []) : w.rb.freePtr = w.rb.readPtr := by
  induction h with
  | create => rfl
  | send hrun hok hres ih =>
    obtain ⟨hfree, hread⟩ := (hrun.inv hsize hpos).clear_send hok hres
    exact (hfree.trans (ih hout)).trans hread.symm
  | receiveNone hrun hres ih =>
    rw [((hrun.inv hsize hpos).receiveNone_eq hres).1]
    exact ih hout
  | receive hrun hres ih => exact absurd hout (by simp)
  | giveBack hrun hitem hres ih => exact (hrun.inv hsize hpos).clear_giveBack hitem hres hout

theorem Run.emptied (hsize : size < 2 ^ 31) (hpos : 0 < size) (h : Run size type data SendOk w)
    (he : Emptied w) :
    w.rb.size = size ∧ w.rb.type = type ∧ ∃ P, Ring w.rb P P P [] [] := by
  have hclear := h.clear hsize hpos he.returned
  have hempty := ((h.inv hsize hpos).receiveNone_eq he.received).2
  obtain ⟨F, R, W, blocks, todo, parts, hring, hsz, htype, -⟩ := h.inv hsize hpos
  obtain rfl := hring.read_eq_write_iff.mp hempty
  have hblocks : blocks = [] := by
    cases blocks with
    | nil => rfl
    | cons b bs => exact absurd hclear hring.free_ne.1
  subst hblocks
  have hRW : R = W := hring.new
  have hFR : F = R := hring.old
  subst hRW hFR
  exact ⟨hsz, htype, F, hring⟩

end Run

/-! ### Items -/

/-- The length from which on `xRingbufferGetMaxItemSize` does not wrap around. -/
def leastSize : RingbufType → Nat
  | .allowsplit => 20
  | .nosplit => 24

theorem maxItemSize_eq (hsize : rb.size < 2 ^ 31) (hbig : leastSize rb.type ≤ rb.size) :
    xRingbufferGetMaxItemSize rb =
      match rb.type with
      | .allowsplit => rb.size - 20
      | .nosplit => rb.size / 2 - 12 := by
  unfold xRingbufferGetMaxItemSize toSize hdrSize
  unfold leastSize at hbig
  cases htype : rb.type with
  | allowsplit =>
    rw [htype] at hbig
    dsimp only at hbig ⊢
    omega
  | nosplit =>
    rw [htype] at hbig
    dsimp only at hbig ⊢
    omega

theorem size_le_maxItemSize {rb : Ringbuf} (hshort : rb.size < leastSize rb.type) :
    rb.size ≤ xRingbufferGetMaxItemSize rb := by
  unfold xRingbufferGetMaxItemSize toSize hdrSize
  unfold leastSize at hshort
  cases htype : rb.type with
  | allowsplit =>
    rw [htype] at hshort
    dsimp only at hshort ⊢
    omega
  | nosplit =>
    rw [htype] at hshort
    dsimp only at hshort ⊢
    omega

namespace Ring

variable {rb : Ringbuf} {P : Place} {n : Nat}

theorem freeMem_empty (h : Ring rb P P P [] []) : toSize (ringbufferFreeMem rb) = rb.size - 1 := by
  have hmem := h.freeMem_eq
  omega

theorem place_empty (h : Ring rb P P P [] []) (hbig : leastSize rb.type ≤ rb.size)
    (hn : n ≤ xRingbufferGetMaxItemSize rb) : ¬rb.NoPlace n := by
  have hsize := h.size
  have halign := h.aligned
  have hrem := h.remLen_eq
  have hhdr : hdrSize = 8 := rfl
  have hpad : pad n ≤ n + 3 := by unfold pad; omega
  have hpad4 := pad_mod n
  rw [maxItemSize_eq hsize hbig] at hn
  unfold Place.Aligned at halign
  unfold leastSize at hbig
  unfold Ringbuf.NoPlace
  rw [h.freeMem_empty, hrem, h.free, h.write]
  cases htype : rb.type with
  | nosplit =>
    rw [htype] at hn hbig
    dsimp only at hn hbig ⊢
    rw [round4_eq (by omega)]
    -- a free pointer too close to the end is far enough from the start
    unfold toSize
    split <;> omega
  | allowsplit =>
    rw [htype] at hn hbig
    dsimp only at hn hbig ⊢
    rw [round4_eq (by omega)]
    unfold toSize
    split <;> omega

theorem noSplit_ne_none (h : Ring rb F R W done todo) (data : List UInt8) :
    copyItemToRingbufNoSplit rb data ≠ none := by
  unfold copyItemToRingbufNoSplit
  simp only [configAssert_bind h.copy_asserts.1, configAssert_bind h.copy_asserts.2]
  split
  · split
    · exact Option.some_ne_none _
    · split <;> exact Option.some_ne_none _
  · split <;> exact Option.some_ne_none _

theorem allowSplit_ne_none (h : Ring rb F R W done todo) (hhdr : hdrSize ≤ rb.size)
    (data : List UInt8) : copyItemToRingbufAllowSplit rb data ≠ none := by
  have hrem : toSize (rb.size - rb.writePtr) ≥ hdrSize := by
    have halign := h.aligned.2
    rw [h.remLen_eq]
    omega
  unfold copyItemToRingbufAllowSplit
  simp only [configAssert_bind h.copy_asserts.1, configAssert_bind h.copy_asserts.2,
    configAssert_bind hrem]
  split
  · split
    · exact Option.some_ne_none _
    · split <;> exact Option.some_ne_none _
  · split <;> exact Option.some_ne_none _

theorem send_empty (h : Ring rb P P P [] []) (hbig : leastSize rb.type ≤ rb.size)
    {data : List UInt8}
    (hmax : data.length ≤ xRingbufferGetMaxItemSize rb) :
    ∃ rb', xRingbufferSendFromISR rb data = some (true, rb') := by
  have hplace := h.place_empty hbig hmax
  have hsize := h.size
  have hcopied : rb.Copied data.length (copyItemToRingbuf rb data) ∧
      copyItemToRingbuf rb data ≠ none ∧ data.length + hdrSize ≤ rb.size - 1 := by
    have hmax' := maxItemSize_eq hsize hbig
    have hhdr : hdrSize = 8 := rfl
    unfold leastSize at hbig
    unfold copyItemToRingbuf
    cases htype : rb.type with
    | nosplit =>
      rw [htype] at hmax' hbig
      dsimp only at hmax' hbig ⊢
      exact ⟨rb.noSplit_copied data htype, h.noSplit_ne_none data, by omega⟩
    | allowsplit =>
      rw [htype] at hmax' hbig
      dsimp only at hmax' hbig ⊢
      exact ⟨rb.allowSplit_copied data htype, h.allowSplit_ne_none (by omega) data, by omega⟩
  obtain ⟨hcopied, hne, hroom⟩ := hcopied
  unfold xRingbufferSendFromISR
  rw [h.freeMem_empty]
  rw [if_neg (by unfold toSize; omega)]
  rcases hcopied with hnone | ⟨hno, -⟩ | ⟨-, hdone⟩
  · exact absurd hnone hne
  · exact absurd hno hplace
  · exact hdone

end Ring

/-! ### Every buffer -/

/-- In every state in which all items were received and given back, every item up to the maximum is
accepted. -/
def AcceptsItems (size : Nat) (type : RingbufType) (data : Bytes) : Prop :=
  ∀ w, Run size type data SendOk w → Emptied w →
    ∀ bytes : List UInt8, bytes.length ≤ xRingbufferGetMaxItemSize w.rb →
      ∃ rb, xRingbufferSendFromISR w.rb bytes = some (true, rb)

section Accepts

variable {size : Nat} {type : RingbufType} {data : Bytes}

theorem acceptsItems_iff (hpos : 0 < size) (hsize : size < 2 ^ 31) :
    AcceptsItems size type data ↔ leastSize type ≤ size := by
  constructor
  · intro haccepts
    by_contra hshort
    -- a fresh buffer refuses an item of its own length
    have hring : Ring (xRingbufferCreate size type data) _ _ _ [] [] := .fresh hsize hpos
    have hmax : (List.replicate size (0 : UInt8)).length ≤
        xRingbufferGetMaxItemSize (xRingbufferCreate size type data) := by
      rw [List.length_replicate]
      exact @size_le_maxItemSize (xRingbufferCreate size type data) (Nat.lt_of_not_le hshort)
    obtain ⟨rb, hsend⟩ := haccepts _ .create ⟨rfl, hring.receive_none⟩ _ hmax
    unfold xRingbufferSendFromISR at hsend
    rw [hring.freeMem_empty, List.length_replicate] at hsend
    rw [if_pos] at hsend
    · cases hsend
    · unfold toSize hdrSize xRingbufferCreate
      dsimp only
      omega
  · intro hbig w hrun hempty bytes hmax
    obtain ⟨hsz, htype, P, hring⟩ := hrun.emptied hsize hpos hempty
    exact hring.send_empty (by rw [hsz, htype]; exact hbig) hmax

theorem acceptsBytes_iff (hpos : 0 < size) (hsize : size < 2 ^ 31) (hrun : ByteRun size data w)
    (hheld : w.held = none) (hgot : w.got = w.sent) {bytes : List UInt8}
    (hmax : bytes.length ≤ w.rb.maxItemSize) :
    (w.rb.sendFromISR bytes).1 = true ↔ bytes.length + hdrSize + 1 ≤ size := by
  obtain ⟨⟨todo, hring, hsent⟩, -⟩ := hrun.inv hpos hsize
  have hpart : w.part = [] := by rw [ByteWorld.part, hheld]; rfl
  have htodo : todo = [] := by
    rw [hgot] at hsent
    exact List.self_eq_append_right.mp hsent
  subst htodo
  rw [hpart] at hring
  rw [hring.maxItemSize] at hmax
  have hsz := hrun.size_eq
  have hhdr : hdrSize = 8 := rfl
  have hfree : toSize w.rb.freeMem = size - 1 := by
    rw [hring.freeMem, toSize_eq (by simp; omega) (by omega)]
    simp
    omega
  have hneeded : toSize (bytes.length + hdrSize) = bytes.length + hdrSize := by
    rw [toSize_eq (by omega) (by omega)]
    omega
  unfold ByteRing.sendFromISR
  split
  · exact iff_of_false Bool.false_ne_true (by omega)
  · exact iff_of_true rfl (by omega)

end Accepts

end EspIdf.FreeRtos
