import EspIdf.Nvs.Table
import Mathlib.Data.List.TakeWhile

/-! The items of a page: their keys as they are compared, and the width of their fields. -/

namespace EspIdf.Nvs

open EspIdf.Device

/-! ### Keys -/

theorem cstr_length_le (n : Nat) (bs : List UInt8) : (cstr n bs).length ≤ n :=
  ((List.takeWhile_sublist _).length_le).trans (List.length_take_le _ _)

theorem cstr_ne_zero (h : b ∈ cstr n bs) : b ≠ 0 := by
  simpa using List.mem_takeWhile_imp h

@[simp] theorem length_strncpy (n : Nat) (bs : List UInt8) : (strncpy n bs).length = n := by
  have := cstr_length_le n bs
  simp [strncpy]
  omega

theorem cstr_of_short (h : bs.length ≤ n) (h0 : 0 ∉ bs) : cstr n bs = bs := by
  rw [cstr, List.take_of_length_le h, List.takeWhile_eq_self_iff]
  intro b hb
  simpa using fun heq : b = 0 => h0 (heq ▸ hb)

namespace Item

def name (it : Item) : List UInt8 := cstr maxKeyLength it.key

structure Sized (it : Item) : Prop where
  crc32_lt : it.crc32 < 2 ^ 32
  key : it.key.length = 16
  data : it.data.length = 8

theorem Sized.length_bytes {it : Item} (h : it.Sized) : it.bytes.length = entrySize := by
  simp [bytes, h.key, h.data, entrySize]

end Item

def Page.Open (p : Page) : Prop := p.state = .active ∨ p.state = .full ∨ p.state = .freeing

/-! ### The items that are written -/

section Written

namespace Page

theorem primitiveItem_sized (hlen : data.length ≤ 8) : (primitiveItem ns dt key data).Sized where
  crc32_lt := by
    apply crc32Le_lt
    apply crc32Le_lt
    apply crc32Le_lt
    decide
  key := by simp [primitiveItem, Item.make, maxKeyLength]
  data := by
    simp only [primitiveItem, Item.make, List.length_append, List.length_drop,
      List.length_replicate]
    omega

theorem varLengthItem_sized : (varLengthItem ns dt key data).Sized where
  crc32_lt := by
    apply crc32Le_lt
    apply crc32Le_lt
    apply crc32Le_lt
    decide
  key := by simp [varLengthItem, Item.make, maxKeyLength]
  data := rfl

end Page

end Written

end EspIdf.Nvs
