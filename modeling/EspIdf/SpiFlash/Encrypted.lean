import EspIdf.SpiFlash.Bounds

/-! `spi_flash_write_encrypted`.  The ROM encrypts rows of two blocks; the block of a row that is
not part of the data is read back and written again.  The result of that read is ignored: when it
fails, what `encrypt_buf` happens to hold is written over the neighbour. -/

namespace EspIdf.SpiFlash

open EspIdf.Device

/-- Flash encryption: blocks of 16 bytes, with a key that depends on the address. -/
structure Cipher where
  encrypt : Nat → List UInt8 → List UInt8
  decrypt : Nat → List UInt8 → List UInt8
  length_encrypt : ∀ {a bs}, bs.length = 16 → (encrypt a bs).length = 16
  length_decrypt : ∀ {a bs}, bs.length = 16 → (decrypt a bs).length = 16
  decrypt_encrypt : ∀ {a bs}, bs.length = 16 → decrypt a (encrypt a bs) = bs
  encrypt_decrypt : ∀ {a bs}, bs.length = 16 → encrypt a (decrypt a bs) = bs

variable {k : Cipher} {m m' : Bytes} {chipSize destAddr size : Nat} {ssrc : Bytes}
  {buf : List UInt8}
  {fails : Nat → Bool} {leaves : Nat → List UInt8 → List UInt8} {t t₁ : Mmu}
  {R : (o : FlashOp) → Bytes → o.Ret → Bytes → Prop}

/-- The decrypted contents of the block at `a`. -/
def plain (k : Cipher) (m : Bytes) (a : Nat) : List UInt8 := k.decrypt a (m.read a 16)

/-- The ROM encrypts rows and programs them.  It encrypts in the buffer, and leaves there what
`leaves` says. -/
structure EncryptedFlash (R : (o : FlashOp) → Bytes → o.Ret → Bytes → Prop) (k : Cipher)
    (leaves : Nat → List UInt8 → List UInt8) : Prop where
  unlock : ∀ {m rc m'}, R .unlock m rc m' → m' = m
  write : ∀ {addr row m r m'}, R (.writeEncrypted addr row) m r m' → r.1 = .ok →
    r.2 = leaves addr row ∧
    m' = (m.program addr (k.encrypt addr (row.take 16))).program (addr + 16)
      (k.encrypt (addr + 16) (row.drop 16))
  length : ∀ {addr row}, row.length = 32 → (leaves addr row).length = 32

/-- The decrypting reads of the neighbours of the data return their contents, or fail where `fails`
says so: that of the block before it in the state `t` of the MMU, which it leaves as `t₁`, and that
of the block behind it in this state. -/
structure NeighbourReads (R : (o : FlashOp) → Bytes → o.Ret → Bytes → Prop) (k : Cipher)
    (chipSize : Nat) (fails : Nat → Bool) (destAddr size : Nat) (t t₁ : Mmu) : Prop where
  before : destAddr % 32 = 16 → ∀ m, (spiFlashReadEncrypted chipSize t (destAddr - 16) 16).Post R
    (fun r m' => m' = m ∧ r.2.2 = t₁ ∧
      r.2.1 = if fails (destAddr - 16) then none else some (plain k m (destAddr - 16))) m
  without : destAddr % 32 ≠ 16 → t₁ = t
  behind : (destAddr + size) % 32 = 16 →
    ∀ m, (spiFlashReadEncrypted chipSize t₁ (destAddr + size) 16).Post R
      (fun r m' => m' = m ∧
        r.2.1 = if fails (destAddr + size) then none else some (plain k m (destAddr + size))) m

/-- What is written to the block before the data. -/
def blockBefore (k : Cipher) (m : Bytes) (destAddr : Nat) (buf : List UInt8) (fails : Nat → Bool) :
    List UInt8 :=
  if fails (destAddr - 16) then buf.take 16 else plain k m (destAddr - 16)

/-- What the second half of `encrypt_buf` holds when the last block is the first one of its row:
nothing was written to it yet, or it is what the ROM left of the row before. -/
def lastStale (k : Cipher) (leaves : Nat → List UInt8 → List UInt8) (m : Bytes) (destAddr : Nat)
    (ssrc : Bytes) (size : Nat) (buf : List UInt8) (fails : Nat → Bool) : List UInt8 :=
  if size = 16 then buf.drop 16
  else (leaves (destAddr + size - 48) ((if size = 32 then blockBefore k m destAddr buf fails
    else ssrc.read (size - 48) 16) ++ ssrc.read (size - 32) 16)).drop 16

/-- A failed read of a neighbour does no harm: programming what the buffer holds changes nothing. -/
structure Spared (k : Cipher) (leaves : Nat → List UInt8 → List UInt8) (m : Bytes) (destAddr : Nat)
    (ssrc : Bytes) (size : Nat) (buf : List UInt8) (fails : Nat → Bool) : Prop where
  before : size ≠ 0 → destAddr % 32 = 16 → fails (destAddr - 16) →
    m.program (destAddr - 16) (k.encrypt (destAddr - 16) (buf.take 16)) = m
  behind : size ≠ 0 → (destAddr + size) % 32 = 16 → fails (destAddr + size) →
    m.program (destAddr + size) (k.encrypt (destAddr + size)
      (lastStale k leaves m destAddr ssrc size buf fails)) = m

/-! ### Programming blocks -/

/-- Program `n` blocks from `a` on, with the contents that `f` gives for each. -/
def putBlocks (k : Cipher) (f : Nat → List UInt8) : Nat → Nat → Bytes → Bytes
  | _, 0, m => m
  | a, n + 1, m => putBlocks k f (a + 16) n (m.program a (k.encrypt a (f a)))

section Blocks

variable {f : Nat → List UInt8} {a b n : Nat}

theorem read_program_out (h : b + 16 ≤ a ∨ a + bs.length ≤ b) :
    (m.program a bs).read b 16 = m.read b 16 :=
  Bytes.read_congr fun x _ _ => Bytes.program_out (by omega)

theorem program_self : m.program a (m.read a n) = m := by
  funext x
  by_cases h : a ≤ x ∧ x < a + n
  · rw [Bytes.program_in h.1, Bytes.getD_read (by omega), Nat.add_sub_cancel' h.1, UInt8.and_self]
  · exact Bytes.program_out (by rw [Bytes.length_read]; omega)

section

variable (hf : ∀ x, a ≤ x → x < a + 16 * n → (f x).length = 16)
include hf

theorem read_putBlocks_out
    (h : b + 16 ≤ a ∨ a + 16 * n ≤ b) : (putBlocks k f a n m).read b 16 = m.read b 16 := by
  induction n generalizing a m with
  | zero => rfl
  | succ n ih =>
    rw [putBlocks, ih (fun x h1 h2 => hf x (by omega) (by omega)) (by omega)]
    exact read_program_out (by rw [k.length_encrypt (hf a (by omega) (by omega))]; omega)

theorem read_putBlocks_in (ha : a % 16 = 0)
    (hb : b % 16 = 0) (h1 : a ≤ b) (h2 : b < a + 16 * n) :
    (putBlocks k f a n m).read b 16 = (m.program b (k.encrypt b (f b))).read b 16 := by
  induction n generalizing a m with
  | zero => omega
  | succ n ih =>
    have hf' : ∀ x, a + 16 ≤ x → x < a + 16 + 16 * n → (f x).length = 16 := fun x h1 h2 =>
      hf x (by omega) (by omega)
    rw [putBlocks]
    by_cases hab : a = b
    · rw [read_putBlocks_out hf' (by omega), hab]
    · rw [ih hf' (by omega) (by omega) (by omega)]
      refine Bytes.read_congr fun x hx1 hx2 => ?_
      have hlen := @Cipher.length_encrypt k a _ (hf a (by omega) (by omega))
      rw [Bytes.program_in hx1, Bytes.program_in hx1, Bytes.program_out (by omega)]

end

theorem plain_program_iff (hbs : bs.length = 16)
    (hread : m'.read a 16 = (m.program a (k.encrypt a bs)).read a 16) :
    plain k m' a = plain k m a ↔ m.program a (k.encrypt a bs) = m := by
  constructor
  · intro h
    have hsame : (m.program a (k.encrypt a bs)).read a 16 = m.read a 16 := by
      rw [← hread, ← @Cipher.encrypt_decrypt k a (m'.read a 16) Bytes.length_read,
        ← @Cipher.encrypt_decrypt k a (m.read a 16) Bytes.length_read]
      exact congrArg _ h
    funext x
    by_cases hx : a ≤ x ∧ x < a + 16
    · have := (Bytes.read_eq_iff.mp hsame).2 (x - a) (by omega)
      rwa [Bytes.getD_read (by omega), Nat.add_sub_cancel' hx.1] at this
    · exact Bytes.program_out (by rw [k.length_encrypt hbs]; omega)
  · intro h
    rw [plain, plain, hread, h]

end Blocks

/-! ### The loop -/

/-- What is written to the block at `a`. -/
def blockData (k : Cipher) (leaves : Nat → List UInt8 → List UInt8) (m : Bytes) (destAddr : Nat)
    (ssrc : Bytes) (size : Nat) (buf : List UInt8) (fails : Nat → Bool) (a : Nat) : List UInt8 :=
  if a < destAddr then blockBefore k m destAddr buf fails
  else if a < destAddr + size then ssrc.read (a - destAddr) 16
  else if fails (destAddr + size) then lastStale k leaves m destAddr ssrc size buf fails
  else plain k m (destAddr + size)

theorem length_blockBefore (hbuf : buf.length = 32) :
    (blockBefore k m destAddr buf fails).length = 16 := by
  unfold blockBefore plain
  split_ifs <;> simp [hbuf, k.length_decrypt]

theorem length_blockData (hflash : EncryptedFlash R k leaves) (hbuf : buf.length = 32) (a : Nat) :
    (blockData k leaves m destAddr ssrc size buf fails a).length = 16 := by
  have hbefore := @length_blockBefore k m destAddr buf fails hbuf
  unfold blockData
  split_ifs
  · exact hbefore
  · exact Bytes.length_read
  · unfold lastStale
    split_ifs
    · simp [hbuf]
    · rw [List.length_drop, hflash.length (by simp [hbefore])]
    · rw [List.length_drop, hflash.length (by simp)]
  · exact k.length_decrypt Bytes.length_read

theorem encryptedLoop_done (h : size ≤ i) :
    encryptedLoop chipSize destAddr ssrc size n t i buf = .ret (.ok, t) := by
  cases n with
  | zero => rfl
  | succ n =>
    unfold encryptedLoop
    rw [if_pos (by omega)]
    rfl

theorem EncryptedFlash.row {row : List UInt8} {addr : Nat}
    {p : List UInt8 → FlashProg (RomResult × Mmu)}
    {Q : Bytes → Prop} (hflash : EncryptedFlash R k leaves)
    (hp : (p (leaves addr row)).Post R (fun r m' => r.1 = .ok → Q m')
      ((m.program addr (k.encrypt addr (row.take 16))).program
        (addr + 16) (k.encrypt (addr + 16) (row.drop 16)))) :
    ((romWriteEncrypted addr row).bind fun written => if written.1 ≠ .ok then .ret (written.1, t)
      else p written.2).Post R (fun r m' => r.1 = .ok → Q m') m := by
  refine Prog.Post.op_bind fun (written : RomResult × List UInt8) m₁ hw => ?_
  by_cases hrc : written.1 = .ok
  · obtain ⟨hbuf, rfl⟩ := hflash.write hw hrc
    rw [if_neg (not_not.mpr hrc), hbuf]
    exact hp
  · rw [if_pos hrc]
    exact fun h => absurd h hrc

section Rows

variable {i : Nat}

theorem encryptedRow_full (hend : destAddr + size < 2 ^ 32 - 32) (hi : i < size)
    (hrow : (destAddr + i) % 32 = 0) (hfull : size - i ≠ 16) :
    encryptedRow chipSize t destAddr ssrc size i buf =
      .ret (32, destAddr + i, ssrc.read i 32, t) := by
  unfold encryptedRow
  rw [@add32_eq destAddr i (destAddr + i) (Nat.le_refl _) (by omega)]
  simp only [hrow, ne_eq, not_true_eq_false, and_false, if_false, hfull]
  rfl

theorem NeighbourReads.lastRow (hreads : NeighbourReads R k chipSize fails destAddr size t t₁)
    (hend : destAddr + size < 2 ^ 32 - 32) (hi : i < size) (hrow : (destAddr + i) % 32 = 0)
    (hlast : size - i = 16) : (encryptedRow chipSize t₁ destAddr ssrc size i buf).Post R
      (fun r m' => m' = m ∧ r.1 = 16 ∧ r.2.1 = destAddr + i ∧ r.2.2.1 = ssrc.read i 16 ++
        if fails (destAddr + size) then buf.drop 16 else plain k m (destAddr + size)) m := by
  unfold encryptedRow
  rw [@add32_eq destAddr i (destAddr + i) (Nat.le_refl _) (by omega)]
  simp only [hrow, ne_eq, not_true_eq_false, and_false, if_false, hlast, if_true, Prog.bind_eq]
  rw [@add32_eq _ 16 (destAddr + size) (by omega) (by omega), show destAddr + i + 16 =
    destAddr + size by
    omega]
  refine Prog.Post.bind (hreads.behind (by omega) m) ?_
  rintro ⟨err, bs, u⟩ m' ⟨rfl, hbs⟩
  refine ⟨rfl, rfl, rfl, ?_⟩
  rw [hbs]
  split_ifs <;> rfl

theorem NeighbourReads.firstRow (hreads : NeighbourReads R k chipSize fails destAddr size t t₁)
    (hend : destAddr + size < 2 ^ 32 - 32) (hrow : destAddr % 32 = 16) :
    (encryptedRow chipSize t destAddr ssrc size 0 buf).Post R
      (fun r m' => m' = m ∧ r.1 = 16 ∧ r.2.1 = destAddr - 16 ∧
        r.2.2.1 = blockBefore k m destAddr buf fails ++ ssrc.read 0 16 ∧ r.2.2.2 = t₁) m := by
  unfold encryptedRow
  rw [@add32_eq destAddr 0 destAddr (Nat.le_refl _) (by omega)]
  simp only [Nat.add_zero, hrow, ne_eq, true_and, (by decide : ¬ (16 : Nat) = 0), not_false_eq_true,
    if_true, Prog.bind_eq]
  rw [sub32_eq (by omega) (by omega)]
  refine Prog.Post.bind (hreads.before hrow m) ?_
  rintro ⟨err, bs, u⟩ m' ⟨rfl, hu, hbs⟩
  refine ⟨rfl, rfl, rfl, ?_, hu⟩
  rw [hbs, blockBefore]
  split_ifs <;> rfl

end Rows

section

variable (hflash : EncryptedFlash R k leaves)
include hflash

theorem encryptedLoop_puts {m₁ : Bytes} {rounds n i : Nat} {buf₁ : List UInt8}
    (hreads : NeighbourReads R k chipSize fails destAddr size t t₁)
    (hend : destAddr + size < 2 ^ 32 - 32) (hsize : size % 16 = 0)
    (hdest : destAddr % 16 = 0) (hrow : (destAddr + i) % 32 = 0)
    (hn : destAddr + i + 16 * n = up32 (destAddr + size))
    (hi : i ≤ size) (hrounds : size ≤ rounds + i)
    (hstale : i + 16 = size → buf₁.drop 16 = lastStale k leaves m destAddr ssrc size buf fails)
    (hsame : m₁.read (destAddr + size) 16 = m.read (destAddr + size) 16) :
    (encryptedLoop chipSize destAddr ssrc size rounds t₁ i buf₁).Post R (fun r m' => r.1 = .ok →
      m' = putBlocks k (blockData k leaves m destAddr ssrc size buf fails) (destAddr + i) n m₁)
        m₁ := by
  have hup : up32 (destAddr + size) = (destAddr + size + 31) / 32 * 32 := rfl
  have hdone : size ≤ i → n = 0 := fun h => by omega
  induction rounds generalizing i n m₁ buf₁ with
  | zero =>
    rw [hdone (by omega)]
    exact fun _ => rfl
  | succ rounds ih =>
    by_cases hlt : i < size
    · have hdata : blockData k leaves m destAddr ssrc size buf fails (destAddr + i) =
          ssrc.read i 16 := by
        rw [blockData, if_neg (by omega), if_pos (by omega), Nat.add_sub_cancel_left]
      obtain ⟨n, rfl⟩ : ∃ n', n = n' + 2 := ⟨n - 2, by omega⟩
      rw [putBlocks, putBlocks, hdata]
      unfold encryptedLoop
      rw [if_neg (not_not.mpr hlt)]
      by_cases hlast : size - i = 16
      · refine Prog.Post.bind (hreads.lastRow hend hlt hrow hlast) ?_
        rintro ⟨_, _, row, u⟩ m₂ ⟨hm₂, rfl, rfl, rfl⟩
        subst hm₂
        refine hflash.row ?_
        have hbehind : blockData k leaves m destAddr ssrc size buf fails (destAddr + i + 16) =
            if fails (destAddr + size) then buf₁.drop 16 else plain k m₂ (destAddr + size) := by
          rw [hstale (by omega), plain, hsame, blockData, if_neg (by omega),
            if_neg (by omega), plain]
        obtain rfl : n = 0 := by omega
        rw [@add32_eq i 16 size (by omega) (by omega), encryptedLoop_done (by omega), hbehind,
          List.take_left' Bytes.length_read, List.drop_left' Bytes.length_read]
        exact fun _ => rfl
      · rw [encryptedRow_full hend hlt hrow hlast]
        refine hflash.row ?_
        have hnext : blockData k leaves m destAddr ssrc size buf fails (destAddr + i + 16) =
            ssrc.read (i + 16) 16 := by
          rw [blockData, if_neg (by omega), if_pos (by omega)]
          congr 1
          omega
        rw [@add32_eq i 32 (i + 32) (Nat.le_refl _) (by omega), hnext,
          show destAddr + i + 16 + 16 = destAddr + (i + 32) by omega]
        refine ih (by omega) (by omega) (by omega) (by omega) (fun h => ?_) ?_ (fun h => by omega)
        · obtain rfl : size = i + 48 := by omega
          rw [lastStale, if_neg (by omega), if_neg (by omega), show destAddr + (i + 48) - 48 =
            destAddr + i by
            omega, show i + 48 - 48 = i by omega, show i + 48 - 32 = i + 16 by omega, ← Bytes.read_add]
        · rw [read_program_out (by rw [k.length_encrypt Bytes.length_read]; omega),
            read_program_out (by rw [k.length_encrypt Bytes.length_read]; omega), hsame]
    · rw [encryptedLoop_done (by omega), hdone (by omega)]
      exact fun _ => rfl

theorem encryptedLoop_rows {rounds : Nat}
    (hreads : NeighbourReads R k chipSize fails destAddr size t t₁)
    (hend : destAddr + size < 2 ^ 32 - 32) (hdest : destAddr % 16 = 0) (hsize : size % 16 = 0)
    (hpos : size ≠ 0) (hbuf : buf.length = 32) (hrounds : size ≤ rounds) :
    (encryptedLoop chipSize destAddr ssrc size rounds t 0 buf).Post R (fun r m' => r.1 = .ok →
      m' = putBlocks k (blockData k leaves m destAddr ssrc size buf fails) (down32 destAddr)
        ((up32 (destAddr + size) - down32 destAddr) / 16) m) m := by
  have hup : up32 (destAddr + size) = (destAddr + size + 31) / 32 * 32 := rfl
  have hdown : down32 destAddr = destAddr / 32 * 32 := rfl
  by_cases hrow : destAddr % 32 = 0
  · rw [show down32 destAddr = destAddr + 0 by omega, ← hreads.without (by omega)]
    exact encryptedLoop_puts hflash hreads hend hsize hdest (by omega) (by omega) (by omega)
      (by omega)
      (fun h => by rw [lastStale, if_pos (by omega)]) rfl
  · have hbefore : blockData k leaves m destAddr ssrc size buf fails (destAddr - 16) =
        blockBefore k m destAddr buf fails := if_pos (by omega)
    have hfirst : blockData k leaves m destAddr ssrc size buf fails destAddr = ssrc.read 0 16 := by
      rw [blockData, if_neg (by omega), if_pos (by omega), Nat.sub_self]
    have hlen := @length_blockBefore k m destAddr buf fails hbuf
    obtain ⟨n, hn⟩ : ∃ n, (up32 (destAddr + size) - down32 destAddr) / 16 = n + 2 :=
      ⟨(up32 (destAddr + size) - down32 destAddr) / 16 - 2, by omega⟩
    obtain ⟨rounds, rfl⟩ : ∃ n, rounds = n + 1 := ⟨rounds - 1, by omega⟩
    rw [hn, putBlocks, putBlocks, show down32 destAddr = destAddr - 16 by omega,
      show destAddr - 16 + 16 = destAddr by omega, hfirst]
    unfold encryptedLoop
    rw [if_neg (by omega)]
    refine Prog.Post.bind (hreads.firstRow hend (by omega)) ?_
    rintro ⟨_, _, row, u⟩ m₂ ⟨hm₂, rfl, rfl, rfl, rfl⟩
    subst hm₂
    refine hflash.row ?_
    rw [hbefore, List.take_left' hlen, List.drop_left' hlen, show destAddr - 16 + 16 =
      destAddr by omega]
    refine encryptedLoop_puts hflash hreads hend hsize hdest (by omega) (by omega) (by omega)
      (by omega)
      (fun h => ?_) ?_
    · obtain rfl : size = 32 := by omega
      rw [lastStale, if_neg (by omega), if_pos rfl, show destAddr + 32 - 48 =
        destAddr - 16 by omega]
    · rw [read_program_out (by rw [k.length_encrypt Bytes.length_read]; omega),
        read_program_out (by rw [k.length_encrypt hlen]; omega)]

theorem EncryptedFlash.ends_ok {t' : Mmu} {Q : Bytes → Prop}
    (hdest : destAddr % 16 = 0) (hsize : size % 16 = 0)
    (hloop : (encryptedLoop chipSize destAddr ssrc size size t 0 buf).Post R
      (fun r m' => r.1 = .ok → Q m') m)
    (h : (spiFlashWriteEncrypted chipSize t destAddr ssrc size buf).Ends R m (.ok, t') m') :
    Q m' := by
  refine (?_ : (spiFlashWriteEncrypted chipSize t destAddr ssrc size buf).Post R
    (fun r m' => r.1 = .ok → Q m') m).ends h rfl
  unfold spiFlashWriteEncrypted
  rw [if_neg (by omega), if_neg (by omega)]
  refine Prog.Post.op_bind fun (rc : RomResult) m₁ hunlock => ?_
  obtain rfl := hflash.unlock hunlock
  have hok : ∀ {rc : RomResult}, translateRc rc = .ok → rc = .ok := fun {rc} h => by
    cases rc <;> first | rfl | cases h
  by_cases hrc : rc = .ok
  · rw [if_pos hrc]
    exact Prog.Post.bind hloop fun r m' hm' hret => hm' (hok hret)
  · rw [if_neg hrc]
    exact fun hret => absurd (hok hret) hrc

end

theorem program_plain : m.program a (k.encrypt a (plain k m a)) = m := by
  rw [plain, k.encrypt_decrypt Bytes.length_read, program_self]

def inverting : Cipher where
  encrypt _ bs := bs.map (~~~ ·)
  decrypt _ bs := bs.map (~~~ ·)
  length_encrypt h := by simpa using h
  length_decrypt h := by simpa using h
  decrypt_encrypt _ := by simp [Function.comp_def]
  encrypt_decrypt _ := by simp [Function.comp_def]

def inPlace (k : Cipher) (addr : Nat) (row : List UInt8) : List UInt8 :=
  k.encrypt addr (row.take 16) ++ k.encrypt (addr + 16) (row.drop 16)

/-- The ROM works, the cache shows flash decrypted, and `malloc` answers `mallocOk` for each
mapping. -/
def exec (k : Cipher) (mallocOk : Bool) : (o : FlashOp) → Bytes → o.Ret × Bytes
  | .unlock, m => (.ok, m)
  | .malloc, m => (mallocOk, m)
  | .cacheFlush, m => ((), m)
  | .read a len, m => ((.ok, m.read a len), m)
  | .write a bs, m => (.ok, m.program a bs)
  | .writeEncrypted addr row, m => ((.ok, inPlace k addr row),
      (m.program addr (k.encrypt addr (row.take 16))).program (addr + 16)
        (k.encrypt (addr + 16) (row.drop 16)))
  | .eraseSector n, m => (.ok, m.erase (secSize * n) secSize)
  | .eraseBlock n, m => (.ok, m.erase (65536 * n) 65536)
  | .cached t va _, m => (plain k m (t.proTable (mmuEntry va) * mmuPageSize + va % mmuPageSize), m)

def working (k : Cipher) (mallocOk : Bool) (o : FlashOp) (m : Bytes) (r : o.Ret) (m' : Bytes) :
    Prop :=
  exec k mallocOk o m = (r, m')

theorem working_encryptedFlash (mallocOk : Bool) :
    EncryptedFlash (working k mallocOk) k (inPlace k) where
  unlock h := (congrArg Prod.snd h).symm
  write h _ := ⟨(congrArg (·.1.2) h).symm, (congrArg Prod.snd h).symm⟩
  length h := by
    rw [inPlace, List.length_append, k.length_encrypt (by simp [h]), k.length_encrypt (by simp [h])]

theorem mmapCall_no_memory :
    (mmapCall chipSize t srcAddr len memory).Post (working k false)
      (fun out m' => out.mapped = none ∧ m' = m) m := by
  unfold mmapCall
  by_cases h : srcAddr % mmuPageSize ≠ 0 ∨ add32 srcAddr len > chipSize
  · rw [if_pos h]
    exact ⟨rfl, rfl⟩
  · rw [if_neg h]
    refine Prog.Post.op_bind fun (ok : Bool) m' hm => ?_
    cases hm
    obtain ⟨h1, h2⟩ := not_or.mp h
    rw [spiFlashMmap, if_neg h1, if_neg h2]
    exact ⟨rfl, rfl⟩

theorem readEncrypted_no_memory (t : Mmu) (a : Nat) (m : Bytes) :
    (spiFlashReadEncrypted chipSize t a 16).Post (working k false)
      (fun r m' => m' = m ∧ r.2.1 = none) m := by
  unfold spiFlashReadEncrypted
  by_cases h : add32 a 16 > chipSize
  · rw [if_pos h]
    exact ⟨rfl, rfl⟩
  · rw [if_neg h]
    refine Prog.Post.bind mmapCall_no_memory fun out m' hout => ?_
    rw [hout.1]
    exact ⟨hout.2, rfl⟩

def freshMmu : Mmu := ⟨fun _ => 0x100, fun _ => 0x100, fun _ => 0, [], 0, fun _ => false⟩

theorem readEncrypted_fresh (m : Bytes) :
    (spiFlashReadEncrypted 0x400000 freshMmu 16 16).Post (working k true)
      (fun r m' => m' = m ∧ r.2.1 = some (plain k m 16)) m := by
  have hmmap : (spiFlashMmap 0x400000 true freshMmu 0 32 .data).any (fun out =>
      out.mapped = some (0x3f400000, 1) ∧ out.mmu.proTable (mmuEntry 0x3f400010) = 0) = true := by
    decide +kernel
  cases hout : spiFlashMmap 0x400000 true freshMmu 0 32 .data with
  | none =>
    rw [hout] at hmmap
    cases hmmap
  | some out =>
    rw [hout] at hmmap
    obtain ⟨hmapped, htable⟩ := of_decide_eq_true hmmap
    have hcall : (mmapCall 0x400000 freshMmu 0 32 .data).Post (working k true)
        (fun out' m' => out' = out ∧ m' = m) m := by
      refine Prog.Post.op_bind fun (ok : Bool) m' hm => ?_
      cases hm
      rw [hout]
      dsimp only
      split_ifs
      · refine Prog.Post.op_bind fun _ m'' hm' => ?_
        cases hm'
        exact ⟨rfl, rfl⟩
      · exact ⟨rfl, rfl⟩
    refine Prog.Post.bind hcall ?_
    rintro _ m₁ ⟨rfl, rfl⟩
    rw [hmapped]
    refine Prog.Post.op_bind fun (bs : List UInt8) m₂ hbs => ?_
    cases hbs
    unfold munmapCall
    split
    · trivial
    · refine ⟨rfl, congrArg some (congrArg (plain k _) ?_)⟩
      exact (congrArg (· * mmuPageSize + 16) htable).trans (by decide)

theorem first_block_ends (mallocOk : Bool) : ∃ t' m', (spiFlashWriteEncrypted 0x400000 freshMmu 0
    (fun _ => 0) 16 (List.replicate 32 0xff)).Ends (working inverting mallocOk) Bytes.blank
      (.ok, t') m' ∧
      (mallocOk = false → plain inverting m' 16 = List.replicate 16 0xff) := by
  have hrun : (Prog.run (exec inverting mallocOk) (spiFlashWriteEncrypted 0x400000 freshMmu 0
      (fun _ => 0) 16 (List.replicate 32 0xff)) Bytes.blank).any (fun r => r.1.1 = .ok ∧
        (mallocOk = false → plain inverting r.2 16 = List.replicate 16 0xff)) = true := by
    cases mallocOk <;> decide +kernel
  cases h : Prog.run (exec inverting mallocOk) (spiFlashWriteEncrypted 0x400000 freshMmu 0
      (fun _ => 0) 16 (List.replicate 32 0xff)) Bytes.blank with
  | none =>
    rw [h] at hrun
    cases hrun
  | some r =>
    rw [h] at hrun
    obtain ⟨⟨err, t'⟩, m'⟩ := r
    obtain ⟨rfl, hdamaged⟩ := of_decide_eq_true hrun
    exact ⟨t', m', Prog.Ends.of_run _ (fun _ _ => rfl) h, hdamaged⟩

end EspIdf.SpiFlash
