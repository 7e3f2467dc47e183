import EspIdf.FreeRtos.ByteBuf

/-! Runs of sends, receives and returns on a fresh byte buffer, with one reader that returns each
part before the next receive: what is received is the stream of what was sent. -/

namespace EspIdf.FreeRtos

open EspIdf.Device

/-- A byte buffer, the bytes of the messages that were sent, the bytes that were received, and the
part that the reader holds, as its offset and the bytes it had when it was received. -/
structure ByteWorld where
  rb : ByteRing
  sent : List UInt8
  got : List UInt8
  held : Option (Nat × List UInt8)

namespace ByteWorld

def send (w : ByteWorld) (bytes : List UInt8) : ByteWorld :=
  let (done, rb) := w.rb.sendFromISR bytes
  { w with rb := rb, sent := if done then w.sent ++ bytes else w.sent }

def receive (w : ByteWorld) (limit : Nat) : ByteWorld :=
  match w.rb.receiveUpToFromISR limit with
  | (none, rb) => { w with rb := rb }
  | (some (p, n), rb) =>
    { w with rb := rb, got := w.got ++ rb.data.read p n, held := some (p, rb.data.read p n) }

def part (w : ByteWorld) : List UInt8 := (w.held.map Prod.snd).getD []

end ByteWorld

/-- The states that calls lead to, where a message is no longer than the maximum, and where a part
is returned before the next is received. -/
inductive ByteRun (size : Nat) (data : Bytes) : ByteWorld → Prop
  | create : ByteRun size data ⟨.create size data, [], [], none⟩
  | send {w : ByteWorld} {bytes : List UInt8} (h : ByteRun size data w)
      (hmax : bytes.length ≤ w.rb.maxItemSize) : ByteRun size data (w.send bytes)
  | receive {w : ByteWorld} (limit : Nat) (h : ByteRun size data w) (hheld : w.held = none) :
      ByteRun size data (w.receive limit)
  | giveBack {w : ByteWorld} {p : Nat} {bytes : List UInt8} {rb : ByteRing}
      (h : ByteRun size data w)
      (hheld : w.held = some (p, bytes)) (hres : w.rb.returnItem p = some rb) :
      ByteRun size data ⟨rb, w.sent, w.got, none⟩

/-- The ring holds the bytes that are between what was sent and what was received, after the part
that is held. -/
structure ByteRunInv (w : ByteWorld) : Prop where
  ring : ∃ todo, ByteInv w.rb w.part todo ∧ w.sent = w.got ++ todo
  held : ∀ p bytes, w.held = some (p, bytes) → p = w.rb.freePtr ∧ bytes ≠ []

section Run

variable {size : Nat} {data : Bytes} {w : ByteWorld}

theorem ByteRunInv.send (h : ByteRunInv w) {bytes : List UInt8}
    (hmax : bytes.length ≤ w.rb.maxItemSize) : ByteRunInv (w.send bytes) := by
  obtain ⟨⟨todo, hring, hsent⟩, hheld⟩ := h
  rw [hring.maxItemSize] at hmax
  have hsize := hring.size_lt
  have hlen : bytes.length + hdrSize < 2 ^ 32 := by
    unfold hdrSize
    omega
  unfold ByteWorld.send
  rcases hring.sendFromISR hlen with heq | ⟨rb, heq, hring', hfree⟩ <;> rw [heq]
  · exact ⟨⟨todo, hring, hsent⟩, hheld⟩
  · refine ⟨⟨todo ++ bytes, hring', ?_⟩, fun p bs hp => ⟨?_, (hheld p bs hp).2⟩⟩
    · simp only [if_true, hsent, List.append_assoc]
    · rw [hfree]
      exact (hheld p bs hp).1

theorem ByteRunInv.receive (h : ByteRunInv w) (limit : Nat) (hnone : w.held = none) :
    ByteRunInv (w.receive limit) := by
  obtain ⟨⟨todo, hring, hsent⟩, hheld⟩ := h
  have hpart : w.part = [] := by rw [ByteWorld.part, hnone]; rfl
  unfold ByteWorld.receive ByteRing.receiveUpToFromISR
  split_ifs with hlimit
  · exact ⟨⟨todo, hring, hsent⟩, hheld⟩
  rw [hpart] at hring
  by_cases htodo : todo = []
  · subst htodo
    rw [hring.getItem_nil]
    exact ⟨⟨[], hpart ▸ hring, hsent⟩, hheld⟩
  · obtain ⟨readPtr, heq, hring'⟩ := hring.getItem_some htodo limit
    have hread := hring'.read_held
    rw [ByteInv.length_take_partLen] at hread
    rw [heq]
    dsimp only at hread ⊢
    rw [hread]
    refine ⟨⟨_, hring', ?_⟩, ?_⟩
    · rw [List.append_assoc, List.take_append_drop]
      exact hsent
    · rintro p bs hp
      cases hp
      refine ⟨rfl, List.ne_nil_of_length_pos ?_⟩
      rw [ByteInv.length_take_partLen]
      exact hring.partLen_pos htodo limit

theorem ByteRunInv.giveBack (h : ByteRunInv w) {bytes : List UInt8}
    (hheld : w.held = some (p, bytes))
    (hres : w.rb.returnItem p = some rb) :
    ByteRunInv ⟨rb, w.sent, w.got, none⟩ := by
  obtain ⟨⟨todo, hring, hsent⟩, hfree⟩ := h
  have hp : p < w.rb.size := (hfree p bytes hheld).1 ▸ hring.free_lt
  obtain ⟨heq, hring'⟩ := hring.returnItem hp
  rw [hres] at heq
  cases heq
  exact ⟨⟨todo, hring', hsent⟩, fun p bs hp => absurd hp (Option.some_ne_none _).symm⟩

theorem ByteRun.inv (hpos : 0 < size) (hsize : size < 2 ^ 31) (h : ByteRun size data w) :
    ByteRunInv w := by
  induction h with
  | create =>
    exact ⟨⟨[], .fresh hpos hsize data, rfl⟩, fun p bs hp => absurd hp (Option.some_ne_none _).symm⟩
  | send _ hmax ih => exact ih.send hmax
  | receive limit _ hheld ih => exact ih.receive limit hheld
  | giveBack _ hheld hres ih => exact ih.giveBack hheld hres

theorem ByteWorld.size_receive (w : ByteWorld) (limit : Nat) : (w.receive limit).rb.size =
    w.rb.size := by
  have hsize := w.rb.size_receiveUpTo limit
  unfold ByteWorld.receive
  split <;> rename_i heq <;> rw [heq] at hsize <;> exact hsize

theorem ByteRun.size_eq (h : ByteRun size data w) : w.rb.size = size := by
  induction h with
  | create => rfl
  | send _ _ ih => exact (ByteRing.size_sendFromISR _ _).trans ih
  | receive limit _ _ ih => exact (ByteWorld.size_receive _ limit).trans ih
  | giveBack _ _ hres ih =>
    unfold ByteRing.returnItem at hres
    split at hres <;> cases hres
    exact ih

end Run

/-- The buffer is a queue of bytes: what was received is the beginning of what was sent; a part is
no longer than the limit; nothing is received with nothing held only when nothing is left; and the
part that is held stays and can be returned. -/
structure ByteFifo (w : ByteWorld) : Prop where
  order : w.got <+: w.sent
  limit : ∀ limit p n rb, w.rb.receiveUpToFromISR limit = (some (p, n), rb) → n ≤ limit
  drained : ∀ limit rb, 1 ≤ limit → w.held = none → w.rb.receiveUpToFromISR limit = (none, rb) →
    w.got = w.sent
  kept : ∀ p bytes, w.held = some (p, bytes) → w.rb.data.read p bytes.length = bytes
  giveBack : ∀ p bytes, w.held = some (p, bytes) → w.rb.returnItem p ≠ none

theorem ByteRunInv.fifo (h : ByteRunInv w) : ByteFifo w := by
  obtain ⟨⟨todo, hring, hsent⟩, hheld⟩ := h
  have hpart : ∀ p bytes, w.held = some (p, bytes) → w.part = bytes := by
    intro p bytes hp
    rw [ByteWorld.part, hp]
    rfl
  refine ⟨⟨todo, hsent.symm⟩, ?_, ?_, ?_, ?_⟩
  · intro limit p n rb hres
    exact ByteRing.receiveUpTo_le hres
  · intro limit rb hlimit hnone hres
    have hnil : w.part = [] := by rw [ByteWorld.part, hnone]; rfl
    rw [hnil] at hring
    by_cases htodo : todo = []
    · rw [hsent, htodo, List.append_nil]
    · obtain ⟨readPtr, heq, -⟩ := hring.getItem_some htodo limit
      rw [ByteRing.receiveUpToFromISR, if_neg (by omega), heq] at hres
      cases hres
  · intro p bytes hp
    rw [(hheld p bytes hp).1, ← hpart p bytes hp]
    exact hring.read_held
  · intro p bytes hp
    rw [(hring.returnItem ((hheld p bytes hp).1 ▸ hring.free_lt)).1]
    exact Option.some_ne_none _

/-- A byte buffer with one reader is a queue of bytes. -/
theorem byte_fifo {size : Nat} {data : Bytes} {w : ByteWorld} (hpos : 0 < size)
    (hsize : size < 2 ^ 31) (h : ByteRun size data w) : ByteFifo w := (h.inv hpos hsize).fifo

/-- A buffer of 16 bytes after a message was sent and three bytes of it were received. -/
def receivedThree : ByteWorld :=
  ((⟨.create 16 fun _ => 0, [], [], none⟩ : ByteWorld).send [1, 2, 3, 4, 5]).receive 3

theorem byte_fifo_three : ByteRun 16 (fun _ => 0) receivedThree ∧ receivedThree.got = [1, 2, 3] ∧
    ByteFifo receivedThree := by
  have hrun : ByteRun 16 (fun _ => 0) receivedThree :=
    .receive 3 (.send .create (by decide)) (by decide)
  exact ⟨hrun, by decide, byte_fifo (by decide) (by decide) hrun⟩

theorem limit_zero_gives_nothing : ∃ w, ByteRun 16 (fun _ => 0) w ∧ w.held = none ∧
    (w.rb.receiveUpToFromISR 0).1 = none ∧ w.got = [] ∧ w.sent = [1, 2, 3] :=
  ⟨_, @ByteRun.send _ _ _ [1, 2, 3] .create (by decide), rfl, rfl, rfl, rfl⟩

end EspIdf.FreeRtos
