import EspIdf.FreeRtos.Ringbuf

/-! The ring buffers of `ringbuf.c` for bytes, `RINGBUF_TYPE_BYTEBUF`, with the calls that do not
block.  Pointers are offsets from `rb->data`.  One reader that returns each part before the next
receive sees the messages as one stream. -/

namespace EspIdf.FreeRtos

open EspIdf.Device

/-- `ringbuf_t` with `flag_bytebuf`. -/
structure ByteRing where
  size : Nat
  writePtr : Nat
  readPtr : Nat
  freePtr : Nat
  data : Bytes

namespace ByteRing

/-- `xRingbufferCreate(bufLength, RINGBUF_TYPE_BYTEBUF)`, where `malloc` gives memory with the
contents `data`. -/
def create (bufLength : Nat) (data : Bytes) : ByteRing := ⟨bufLength, 0, 0, 0, data⟩

def maxItemSize (rb : ByteRing) : Nat := toSize (rb.size - 1)

def freeMem (rb : ByteRing) : Int :=
  let freeSize : Int := rb.freePtr - rb.writePtr
  (if freeSize ≤ 0 then freeSize + rb.size else freeSize) - 1

def wrap (rb : ByteRing) (p : Nat) : Nat := if rb.size = p then 0 else p

def copyItem (rb : ByteRing) (buffer : List UInt8) : ByteRing :=
  let remLen := toSize (rb.size - rb.writePtr)
  if remLen < buffer.length then
    let rest := buffer.drop remLen
    { rb with
      data := (rb.data.store rb.writePtr (buffer.take remLen)).store 0 rest
      writePtr := rb.wrap rest.length }
  else
    { rb with
      data := rb.data.store rb.writePtr buffer
      writePtr := rb.wrap (rb.writePtr + buffer.length) }

def sendFromISR (rb : ByteRing) (data : List UInt8) : Bool × ByteRing :=
  if toSize (data.length + hdrSize) > toSize rb.freeMem then (false, rb)
  else (true, rb.copyItem data)

/-- The two ends of `getItemFromRingbufByteBuf`: a part of `length` bytes, after which the read
pointer is `rest`, or the bytes of it that are wanted. -/
def takePart (rb : ByteRing) (length rest wantedLength : Nat) : Option (Nat × Nat) × ByteRing :=
  if wantedLength ≠ 0 ∧ length > wantedLength then
    (some (rb.readPtr, wantedLength), { rb with readPtr := rb.readPtr + wantedLength })
  else (some (rb.readPtr, length), { rb with readPtr := rest })

/-- `getItemFromRingbufByteBuf`: the offset and the length of a part.  In the comparison with
`*length` the `int` `wanted_length` is converted back to the `size_t` that was passed. -/
def getItem (rb : ByteRing) (wantedLength : Nat) : Option (Nat × Nat) × ByteRing :=
  if rb.readPtr ≠ rb.freePtr then (none, rb)
  else if rb.readPtr = rb.writePtr then (none, rb)
  else if rb.readPtr > rb.writePtr then rb.takePart (rb.size - rb.readPtr) 0 wantedLength
  else rb.takePart (rb.writePtr - rb.readPtr) rb.writePtr wantedLength

def receiveUpToFromISR (rb : ByteRing) (wantedSize : Nat) : Option (Nat × Nat) × ByteRing :=
  if wantedSize = 0 then (none, rb) else rb.getItem wantedSize

theorem size_copyItem (rb : ByteRing) (bs : List UInt8) : (rb.copyItem bs).size = rb.size := by
  unfold copyItem
  dsimp only
  split <;> rfl

theorem size_sendFromISR (rb : ByteRing) (bs : List UInt8) : (rb.sendFromISR bs).2.size =
    rb.size := by
  unfold sendFromISR
  split
  · rfl
  · exact rb.size_copyItem bs

theorem size_getItem (rb : ByteRing) (wanted : Nat) : (rb.getItem wanted).2.size = rb.size := by
  unfold getItem takePart
  split_ifs <;> rfl

theorem size_receiveUpTo (rb : ByteRing) (wanted : Nat) :
    (rb.receiveUpToFromISR wanted).2.size = rb.size := by
  unfold receiveUpToFromISR
  split
  · rfl
  · exact rb.size_getItem wanted

theorem takePart_le {rb rb' : ByteRing} {length rest wanted p n : Nat} (hwanted : wanted ≠ 0)
    (h : rb.takePart length rest wanted = (some (p, n), rb')) : n ≤ wanted := by
  unfold takePart at h
  split at h <;> cases h <;> omega

theorem receiveUpTo_le {rb rb' : ByteRing} {wanted p n : Nat}
    (h : rb.receiveUpToFromISR wanted = (some (p, n), rb')) : n ≤ wanted := by
  unfold receiveUpToFromISR getItem at h
  split_ifs at h with hwanted
  · cases h
  · cases h
  · cases h
  · exact takePart_le hwanted h
  · exact takePart_le hwanted h

/-- `vRingbufferReturnItem`; `none` stands for a failed `configASSERT`. -/
def returnItem (rb : ByteRing) (item : Nat) : Option ByteRing :=
  if item < rb.size then some { rb with freePtr := rb.readPtr } else none

end ByteRing

/-! ### The ring and the bytes in it -/

/-- From the free pointer on, the ring holds `held`, the part that was received and not returned,
and then `todo`.  The part does not wrap around. -/
structure ByteInv (rb : ByteRing) (held todo : List UInt8) : Prop where
  size_lt : rb.size < 2 ^ 31
  free_lt : rb.freePtr < rb.size
  room : held.length + todo.length < rb.size
  flat : rb.freePtr + held.length ≤ rb.size
  read : rb.readPtr = (rb.freePtr + held.length) % rb.size
  write : rb.writePtr = (rb.freePtr + (held.length + todo.length)) % rb.size
  bytes : ∀ i < held.length + todo.length,
    rb.data ((rb.freePtr + i) % rb.size) = (held ++ todo).getD i 0

theorem mod_ring {size : Nat} (ha : a < size) (hi : i ≤ size) :
    (a + i) % size = if a + i < size then a + i else a + i - size := by
  split
  · exact Nat.mod_eq_of_lt ‹_›
  · rw [Nat.mod_eq_sub_mod (by omega), Nat.mod_eq_of_lt (by omega)]

theorem toSize_eq (h0 : 0 ≤ x) (h : x < 2 ^ 32) : toSize x = x.toNat := by
  unfold toSize
  rw [Int.emod_eq_of_lt h0 h]

namespace ByteInv

variable {rb : ByteRing} {held todo : List UInt8}

theorem fresh {size : Nat} (hpos : 0 < size) (hsize : size < 2 ^ 31) (data : Bytes) :
    ByteInv (.create size data) [] [] :=
  ⟨hsize, hpos, hpos, Nat.zero_le size, (Nat.zero_mod size).symm, (Nat.zero_mod size).symm,
    fun i hi => absurd hi (Nat.not_lt_zero i)⟩

theorem freeMem (h : ByteInv rb held todo) :
    rb.freeMem = (rb.size : Int) - 1 - (held.length + todo.length : Nat) := by
  have hfree := h.free_lt
  have hroom := h.room
  have hwrite := h.write
  rw [mod_ring hfree (by omega)] at hwrite
  unfold ByteRing.freeMem
  simp only
  split_ifs at hwrite ⊢ <;> omega

theorem maxItemSize (h : ByteInv rb held todo) : rb.maxItemSize = rb.size - 1 := by
  have hsize := h.size_lt
  have hfree := h.free_lt
  unfold ByteRing.maxItemSize
  rw [toSize_eq (by omega) (by omega)]
  omega

section

variable (hwrite : rb.writePtr < rb.size) (hsize : rb.size < 2 ^ 31)
include hwrite hsize

theorem remLen :
    toSize (rb.size - rb.writePtr) = rb.size - rb.writePtr := by
  rw [toSize_eq (by omega) (by omega)]
  omega

theorem copyItem_split (h : rb.size - rb.writePtr < bs.length) :
    rb.copyItem bs =
      { rb with
        data := (rb.data.store rb.writePtr (bs.take (rb.size - rb.writePtr))).store 0
          (bs.drop (rb.size - rb.writePtr))
        writePtr := rb.wrap (bs.length - (rb.size - rb.writePtr)) } := by
  unfold ByteRing.copyItem
  simp only [remLen hwrite hsize, if_pos h, List.length_drop]

theorem copyItem_whole (h : ¬rb.size - rb.writePtr < bs.length) :
    rb.copyItem bs =
      { rb with
        data := rb.data.store rb.writePtr bs
        writePtr := rb.wrap (rb.writePtr + bs.length) } := by
  unfold ByteRing.copyItem
  simp only [remLen hwrite hsize, if_neg h]

end

theorem getD_default {bs : List UInt8} {j : Nat} (hj : j < bs.length) (d d' : UInt8) :
    bs.getD j d = bs.getD j d' := by
  rw [List.getD_eq_getElem _ _ hj, List.getD_eq_getElem _ _ hj]

theorem copy_spec {bs : List UInt8} (hwrite : rb.writePtr < rb.size) (hsize : rb.size < 2 ^ 31)
    (hlen : bs.length ≤ rb.size) :
    (rb.copyItem bs).size = rb.size ∧ (rb.copyItem bs).readPtr = rb.readPtr ∧
      (rb.copyItem bs).freePtr = rb.freePtr ∧
      (rb.copyItem bs).writePtr = (rb.writePtr + bs.length) % rb.size ∧
      (∀ j < bs.length, (rb.copyItem bs).data ((rb.writePtr + j) % rb.size) = bs.getD j 0) ∧
      ∀ x < rb.size, (∀ j < bs.length, x ≠ (rb.writePtr + j) % rb.size) →
        (rb.copyItem bs).data x = rb.data x := by
  by_cases hsplit : rb.size - rb.writePtr < bs.length
  · rw [copyItem_split hwrite hsize hsplit]
    have htake : (bs.take (rb.size - rb.writePtr)).length = rb.size - rb.writePtr := by
      rw [List.length_take]
      omega
    have hdrop : (bs.drop (rb.size - rb.writePtr)).length = bs.length - (rb.size - rb.writePtr) :=
      List.length_drop
    refine ⟨rfl, rfl, rfl, ?_, ?_, ?_⟩
    · rw [mod_ring hwrite hlen]
      simp only [ByteRing.wrap]
      split <;> split <;> omega
    · intro j hj
      rw [mod_ring hwrite (by omega)]
      dsimp only
      split
      · rw [Bytes.store_out (by omega), Bytes.store_in (by omega) (by omega),
          Nat.add_sub_cancel_left]
        simp only [List.getD_eq_getElem?_getD]
        rw [List.getElem?_take_of_lt (by omega), List.getElem?_eq_getElem hj]
        rfl
      · rw [Bytes.store_in (Nat.zero_le _) (by omega)]
        simp only [List.getD_eq_getElem?_getD, List.getElem?_drop]
        rw [show rb.size - rb.writePtr + (rb.writePtr + j - rb.size - 0) = j by omega,
          List.getElem?_eq_getElem hj]
        rfl
    · intro x hx hother
      have h1 : x < rb.writePtr := by
        by_contra hge
        have := hother (x - rb.writePtr) (by omega)
        rw [mod_ring hwrite (by omega), if_pos (by omega)] at this
        omega
      have h2 : bs.length - (rb.size - rb.writePtr) ≤ x := by
        by_contra hlt
        have := hother (x + (rb.size - rb.writePtr)) (by omega)
        rw [mod_ring hwrite (by omega), if_neg (by omega)] at this
        omega
      dsimp only
      rw [Bytes.store_out (by omega), Bytes.store_out (by omega)]
  · rw [copyItem_whole hwrite hsize hsplit]
    refine ⟨rfl, rfl, rfl, ?_, ?_, ?_⟩
    · rw [mod_ring hwrite hlen]
      simp only [ByteRing.wrap]
      split <;> split <;> omega
    · intro j hj
      rw [mod_ring hwrite (by omega), if_pos (by omega)]
      dsimp only
      rw [Bytes.store_in (by omega) (by omega), Nat.add_sub_cancel_left]
      exact getD_default hj _ _
    · intro x hx hother
      refine Bytes.store_out ?_
      by_contra hin
      have := hother (x - rb.writePtr) (by omega)
      rw [mod_ring hwrite (by omega), if_pos (by omega)] at this
      omega

theorem copyItem (h : ByteInv rb held todo)
    (hfit : held.length + todo.length + bs.length < rb.size) :
    ByteInv (rb.copyItem bs) held (todo ++ bs) := by
  have hfree := h.free_lt
  have hpos : 0 < rb.size := by omega
  have hwrite : rb.writePtr < rb.size := h.write ▸ Nat.mod_lt _ hpos
  obtain ⟨hsize, hread, hfreePtr, hwritePtr, hnew, hold⟩ := copy_spec hwrite h.size_lt
    (show bs.length ≤ rb.size by omega)
  -- the places of the new bytes, counted from the free pointer
  have hplace : ∀ j, (rb.writePtr + j) % rb.size =
      (rb.freePtr + (held.length + todo.length + j)) % rb.size := by
    intro j
    rw [h.write, Nat.mod_add_mod, Nat.add_assoc]
  refine ⟨by rw [hsize]; exact h.size_lt, by rw [hsize, hfreePtr]; exact hfree, ?_, ?_, ?_, ?_,
    ?_⟩
  · rw [hsize, List.length_append]
    omega
  · rw [hsize, hfreePtr]
    exact h.flat
  · rw [hread, hfreePtr, hsize]
    exact h.read
  · rw [hwritePtr, hplace, hfreePtr, hsize, List.length_append, Nat.add_assoc held.length]
  · intro i hi
    rw [List.length_append] at hi
    rw [hfreePtr, hsize, ← List.append_assoc]
    by_cases hlt : i < held.length + todo.length
    · rw [List.getD_append (held ++ todo) _ _ _ (by simpa using hlt), ← h.bytes i hlt]
      refine hold _ (Nat.mod_lt _ hpos) fun j hj heq => ?_
      rw [hplace, mod_ring hfree (by omega), mod_ring hfree (by omega)] at heq
      split at heq <;> split at heq <;> omega
    · have hnew' := hnew (i - (held.length + todo.length)) (by omega)
      rw [hplace, show held.length + todo.length + (i - (held.length + todo.length)) = i by omega]
        at hnew'
      rw [hnew', List.getD_append_right _ _ _ _ (by simp; omega), List.length_append]

theorem read_held (h : ByteInv rb held todo) : rb.data.read rb.freePtr held.length = held := by
  rw [Bytes.read_eq_iff]
  refine ⟨rfl, fun k hk => ?_⟩
  have hflat := h.flat
  have hbyte := h.bytes k (by omega)
  rw [Nat.mod_eq_of_lt (by omega), List.getD_append _ _ _ _ hk] at hbyte
  rw [hbyte]
  exact getD_default hk _ _

def flatLen (rb : ByteRing) (todo : List UInt8) : Nat := min (rb.size - rb.freePtr) todo.length

theorem hold (h : ByteInv rb [] todo) (hn : n ≤ flatLen rb todo)
    (hread : readPtr = (rb.freePtr + n) % rb.size) :
    ByteInv { rb with readPtr := readPtr } (todo.take n) (todo.drop n) := by
  have hroom := h.room
  have hfree := h.free_lt
  unfold flatLen at hn
  have htake : (todo.take n).length = n := by
    rw [List.length_take]
    omega
  have hsum : (todo.take n).length + (todo.drop n).length = todo.length := by
    rw [htake, List.length_drop]
    omega
  rw [List.length_nil, Nat.zero_add] at hroom
  refine ⟨h.size_lt, hfree, by rw [hsum]; exact hroom, by dsimp only; omega,
    by rw [htake]; exact hread, ?_, fun i hi => ?_⟩
  · rw [hsum]
    simpa using h.write
  · rw [hsum] at hi
    simpa using h.bytes i (by simpa using hi)

theorem readPtr_free (h : ByteInv rb [] todo) : rb.readPtr = rb.freePtr := by
  rw [h.read]
  exact Nat.mod_eq_of_lt h.free_lt

theorem getItem_nil (h : ByteInv rb held []) (wanted : Nat) : rb.getItem wanted = (none, rb) := by
  have hsame : rb.readPtr = rb.writePtr := by rw [h.read, h.write]; rfl
  unfold ByteRing.getItem
  simp only [hsame, if_true, ite_self]

theorem todo_nil (h : ByteInv rb held todo) (hempty : rb.readPtr = rb.writePtr) : todo = [] := by
  have hroom := h.room
  have hread := h.read
  have hwrite := h.write
  rw [mod_ring h.free_lt (by omega)] at hread hwrite
  refine List.eq_nil_of_length_eq_zero ?_
  split at hread <;> split at hwrite <;> omega

def partLen (rb : ByteRing) (todo : List UInt8) (wanted : Nat) : Nat :=
  if wanted = 0 then flatLen rb todo else min (flatLen rb todo) wanted

theorem partLen_le (rb : ByteRing) (todo : List UInt8) (wanted : Nat) :
    partLen rb todo wanted ≤ flatLen rb todo := by
  unfold partLen
  split
  · exact Nat.le_refl _
  · exact Nat.min_le_left _ _

theorem length_take_partLen (rb : ByteRing) (todo : List UInt8) (wanted : Nat) :
    (todo.take (partLen rb todo wanted)).length = partLen rb todo wanted := by
  have hle : partLen rb todo wanted ≤ todo.length :=
    Nat.le_trans (partLen_le rb todo wanted) (Nat.min_le_right _ _)
  rw [List.length_take, Nat.min_eq_left hle]

theorem partLen_pos (h : ByteInv rb [] todo) (hne : todo ≠ []) (wanted : Nat) :
    0 < partLen rb todo wanted := by
  have hpos := List.length_pos_iff.mpr hne
  have hfree := h.free_lt
  unfold partLen flatLen
  split <;> omega

theorem takePart_hold (h : ByteInv rb [] todo)
    (hrest : rest = (rb.freePtr + flatLen rb todo) % rb.size)
    (wanted : Nat) :
    ∃ readPtr, rb.takePart (flatLen rb todo) rest wanted =
        (some (rb.freePtr, partLen rb todo wanted), { rb with readPtr := readPtr }) ∧
      readPtr = (rb.freePtr + partLen rb todo wanted) % rb.size := by
  have hflat : flatLen rb todo ≤ rb.size - rb.freePtr := Nat.min_le_left _ _
  unfold ByteRing.takePart partLen
  rw [h.readPtr_free]
  by_cases hcut : wanted ≠ 0 ∧ flatLen rb todo > wanted
  · rw [if_pos hcut, if_neg hcut.1, Nat.min_eq_right (Nat.le_of_lt hcut.2)]
    exact ⟨_, rfl, (Nat.mod_eq_of_lt (by omega)).symm⟩
  · have hall : (if wanted = 0 then flatLen rb todo else min (flatLen rb todo) wanted) =
        flatLen rb todo := by
      split <;> omega
    rw [if_neg hcut, hall]
    exact ⟨_, rfl, hrest⟩

theorem getItem_some (h : ByteInv rb [] todo) (hne : todo ≠ []) (wanted : Nat) :
    ∃ readPtr, rb.getItem wanted =
        (some (rb.freePtr, partLen rb todo wanted), { rb with readPtr := readPtr }) ∧
      ByteInv { rb with readPtr := readPtr } (todo.take (partLen rb todo wanted))
        (todo.drop (partLen rb todo wanted)) := by
  have hpos := List.length_pos_iff.mpr hne
  have hroom := h.room
  have hfree := h.free_lt
  have hread := h.readPtr_free
  have hwrite := h.write
  rw [List.length_nil, Nat.zero_add] at hroom hwrite
  rw [mod_ring hfree (Nat.le_of_lt hroom)] at hwrite
  suffices ∃ readPtr, rb.getItem wanted =
        (some (rb.freePtr, partLen rb todo wanted), { rb with readPtr := readPtr }) ∧
      readPtr = (rb.freePtr + partLen rb todo wanted) % rb.size by
    obtain ⟨readPtr, hget, hreadPtr⟩ := this
    exact ⟨readPtr, hget, h.hold (partLen_le rb todo wanted) hreadPtr⟩
  unfold ByteRing.getItem
  rw [if_neg (not_not_intro hread)]
  by_cases hwraps : rb.freePtr + todo.length < rb.size
  · rw [if_pos hwraps] at hwrite
    have hlen : rb.writePtr - rb.readPtr = flatLen rb todo := by
      unfold flatLen
      omega
    rw [if_neg (by omega), if_neg (by omega), hlen]
    exact h.takePart_hold (by rw [Nat.mod_eq_of_lt (by omega)]; omega) wanted
  · rw [if_neg hwraps] at hwrite
    have hlen : rb.size - rb.readPtr = flatLen rb todo := by
      unfold flatLen
      omega
    rw [if_neg (by omega), if_pos (by omega), hlen]
    refine h.takePart_hold ?_ wanted
    rw [← hlen, hread, Nat.add_sub_cancel' (Nat.le_of_lt hfree), Nat.mod_self]

theorem returnItem (h : ByteInv rb held todo) {item : Nat} (hitem : item < rb.size) :
    rb.returnItem item = some { rb with freePtr := rb.readPtr } ∧
      ByteInv { rb with freePtr := rb.readPtr } [] todo := by
  have hpos : 0 < rb.size := by omega
  have hread : rb.readPtr < rb.size := h.read ▸ Nat.mod_lt _ hpos
  have hroom := h.room
  refine ⟨if_pos hitem, h.size_lt, hread, ?_, Nat.le_of_lt hread, (Nat.mod_eq_of_lt hread).symm, ?_,
    fun i hi => ?_⟩
  · rw [List.length_nil]
    dsimp only
    omega
  · rw [h.write, h.read, Nat.mod_add_mod, List.length_nil, Nat.zero_add, Nat.add_assoc]
  · rw [List.length_nil] at hi
    rw [h.read, Nat.mod_add_mod, Nat.add_assoc, h.bytes _ (by omega), List.nil_append,
      List.getD_append_right _ _ _ _ (Nat.le_add_right _ _), Nat.add_sub_cancel_left]

theorem sendFromISR (h : ByteInv rb held todo) {bytes : List UInt8}
    (hlen : bytes.length + hdrSize < 2 ^ 32) :
    rb.sendFromISR bytes = (false, rb) ∨
      ∃ rb', rb.sendFromISR bytes = (true, rb') ∧ ByteInv rb' held (todo ++ bytes) ∧
        rb'.freePtr = rb.freePtr := by
  have hroom := h.room
  have hsize := h.size_lt
  unfold ByteRing.sendFromISR
  split
  · exact .inl rfl
  · rename_i hfits
    rw [h.freeMem, toSize_eq (by omega) (by omega), toSize_eq (by omega) (by omega)] at hfits
    have hfit : held.length + todo.length + bytes.length < rb.size := by omega
    have hwrite : rb.writePtr < rb.size := h.write ▸ Nat.mod_lt _ (by omega)
    exact .inr ⟨_, rfl, h.copyItem hfit, (copy_spec hwrite hsize (by omega)).2.2.1⟩

end ByteInv

end EspIdf.FreeRtos
