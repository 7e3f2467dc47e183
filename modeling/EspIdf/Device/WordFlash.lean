import EspIdf.Device.Prog
import EspIdf.Device.Ram

/-! Flash programmed in words of four bytes and erased in sectors of 4096.  A word that would set a
bit is refused, and power can be lost between any two words.  `SecSat` are the rules for programs
that work in one sector: they speak of its bytes alone, and the rest of the flash is unchanged. -/

namespace EspIdf.Device

def sectorSize : Nat := 4096

inductive WordOp where
  | read (addr size : Nat)
  | program (addr : Nat) (word : List UInt8)
  | erase (sector : Nat)

def WordOp.Ret : WordOp → Type
  | read _ _ => List UInt8
  | program _ _ => Bool
  | erase _ => Unit

abbrev WordProg := Prog WordOp WordOp.Ret

namespace Bytes

def clears (m : Bytes) (a : Nat) : List UInt8 → Bool
  | [] => true
  | b :: bs => m a &&& b == b && clears m (a + 1) bs

def blank : Bytes := fun _ => 0xff

variable {m : Bytes} {a b n x s t : Nat} {bs cs : List UInt8}

theorem clears_iff : m.clears a bs = true ↔
    ∀ k < bs.length, m (a + k) &&& bs.getD k 0xff = bs.getD k 0xff := by
  induction bs generalizing a with
  | nil => simp [clears]
  | cons b bs ih =>
    simp only [clears, Bool.and_eq_true, beq_iff_eq, ih, List.length_cons]
    constructor
    · rintro ⟨h0, h⟩ k hk
      cases k with
      | zero => exact h0
      | succ k =>
        rw [show a + (k + 1) = a + 1 + k by omega]
        exact h k (by omega)
    · intro h
      refine ⟨h 0 (by omega), fun k hk => ?_⟩
      have := h (k + 1) (by omega)
      rwa [show a + (k + 1) = a + 1 + k by omega] at this

theorem clears_append :
    m.clears a (bs ++ cs) = (m.clears a bs && m.clears (a + bs.length) cs) := by
  induction bs generalizing a with
  | nil => simp [clears]
  | cons b bs ih =>
    simp only [List.cons_append, clears, ih, List.length_cons, Bool.and_assoc]
    rw [show a + 1 + bs.length = a + (bs.length + 1) by omega]

theorem clears_store_out (h : b + cs.length ≤ a ∨ a + bs.length ≤ b) :
    (m.store a bs).clears b cs = m.clears b cs := by
  induction cs generalizing b with
  | nil => rfl
  | cons c cs ih =>
    rw [List.length_cons] at h
    rw [clears, clears, ih (by omega), store_out (by omega)]

end Bytes

def wordFlash : (o : WordOp) → Bytes → o.Ret × Bytes
  | .read addr size, m => (m.read addr size, m)
  | .program addr word, m => if m.clears addr word then (true, m.store addr word) else (false, m)
  | .erase sector, m => ((), m.erase (sector * sectorSize) sectorSize)

def readBytes (addr size : Nat) : WordProg (List UInt8) := Prog.op (WordOp.read addr size)

def programWord (addr : Nat) (word : List UInt8) : WordProg Bool :=
  Prog.op (WordOp.program addr word)

def eraseSector (sector : Nat) : WordProg Unit := Prog.op (WordOp.erase sector)

def programWords (addr : Nat) : List UInt8 → WordProg Bool
  | b0 :: b1 :: b2 :: b3 :: bs => do
    let accepted ← programWord addr [b0, b1, b2, b3]
    if accepted then programWords (addr + 4) bs else return false
  | _ => return true

end EspIdf.Device
