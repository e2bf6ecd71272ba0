import MachineCode.Packed.Basic

/-!
# The fields of a byte

The packed bytes are put together with shifts and masks and taken apart by a processor with
divisions. This module joins the two views. A field that was written reads back as what was
written and the other fields as what they were (`Slot.read_write`), so the byte that
`Packed.ofFields` makes is the number `64 * high + 8 * middle + low` (`Packed.ofFields_eq_join`),
and division gives the fields back (`Packed.fields_join`). Nothing else has to look at the bits of
these bytes.
-/
namespace MachineCode

namespace Slot

theorem and_max_of_le {s : Slot} {value : UInt8} (h : value ≤ s.max) :
    value &&& s.max = value := by
  have hlt : value.toNat < s.max.toNat + 1 := Nat.lt_succ_of_le h
  rw [← UInt8.toNat_inj, UInt8.toNat_and]
  cases s with
  | high => exact (Nat.and_two_pow_sub_one_eq_mod _ 2).trans (Nat.mod_eq_of_lt hlt)
  | middle | low => exact (Nat.and_two_pow_sub_one_eq_mod _ 3).trans (Nat.mod_eq_of_lt hlt)

/-- **Fields are independent**: a field that was written holds the value, and any other field
what it held before. -/
theorem read_write {s : Slot} {value : UInt8} (h : value ≤ s.max) (t : Slot) (byte : UInt8) :
    t.read (s.write byte value) = if t = s then value else t.read byte := by
  -- Cut to the width of its field the value has no stray bits, and the equation holds bit by bit.
  rw [← and_max_of_le h, ← UInt8.toBitVec_inj]
  ext i hi
  match i, hi with
  | 0, _ | 1, _ | 2, _ | 3, _ | 4, _ | 5, _ | 6, _ | 7, _ =>
    cases s <;> cases t <;> simp [read, write, mask, shift, max]

theorem toNat_read (s : Slot) (byte : UInt8) :
    (s.read byte).toNat = (byte.toNat >>> s.shift.toNat) % (s.max.toNat + 1) := by
  rw [read, UInt8.toNat_and, UInt8.toNat_shiftRight]
  cases s with
  | high => exact Nat.and_two_pow_sub_one_eq_mod _ 2
  | middle | low => exact Nat.and_two_pow_sub_one_eq_mod _ 3

end Slot

namespace Packed

variable {l : Layout}

theorem byte_injective (l : Layout) : Function.Injective (Packed.byte (l := l)) := by
  rintro ⟨byte⟩ ⟨byte'⟩ h
  exact congrArg Packed.mk h

/-! ### Taking a byte apart -/

theorem toNat_get_high (p : Packed l) : (p.get .high).toNat = p.byte.toNat / 64 := by
  have hlt := p.byte.toNat_lt
  have h : (p.get .high).toNat = (p.byte.toNat >>> 6) % 4 := Slot.toNat_read .high p.byte
  rw [h, Nat.shiftRight_eq_div_pow]
  omega

theorem toNat_get_middle (p : Packed l) : (p.get .middle).toNat = p.byte.toNat / 8 % 8 := by
  have h : (p.get .middle).toNat = (p.byte.toNat >>> 3) % 8 := Slot.toNat_read .middle p.byte
  rw [h, Nat.shiftRight_eq_div_pow]

theorem toNat_get_low (p : Packed l) : (p.get .low).toNat = p.byte.toNat % 8 := by
  have h : (p.get .low).toNat = (p.byte.toNat >>> 0) % 8 := Slot.toNat_read .low p.byte
  rw [h, Nat.shiftRight_zero]

/-- A byte is **determined by its three fields**. -/
theorem toNat_byte (p : Packed l) :
    p.byte.toNat =
      64 * (p.get .high).toNat + 8 * (p.get .middle).toNat + (p.get .low).toNat := by
  rw [toNat_get_high, toNat_get_middle, toNat_get_low]
  omega

/-! ### Putting a byte together -/

/-- The byte with the given fields, as a number. The values have to fit. -/
def join (high middle low : UInt8) : Packed l :=
  ⟨UInt8.ofNat (64 * high.toNat + 8 * middle.toNat + low.toNat)⟩

theorem get_set {p q : Packed l} {s : Slot} {value : UInt8} (h : p.set s value = .ok q)
    (t : Slot) : q.get t = if t = s then value else p.get t := by
  rw [set] at h
  split at h
  · next hle =>
    cases h
    exact Slot.read_write hle t p.byte
  · cases h

variable {high middle low : UInt8}

/-- Fields that fit are accepted, and give the byte that is **worth their weighted sum**. -/
theorem ofFields_eq_join (hh : high ≤ 3) (hm : middle ≤ 7) (hl : low ≤ 7) :
    ofFields high middle low = .ok (join high middle low : Packed l) := by
  obtain ⟨p, hp⟩ : ∃ p : Packed l, zero.set .high high = .ok p := ⟨_, set_of_le _ hh⟩
  obtain ⟨q, hq⟩ : ∃ q, p.set .middle middle = .ok q := ⟨_, set_of_le _ hm⟩
  obtain ⟨r, hr⟩ : ∃ r, q.set .low low = .ok r := ⟨_, set_of_le _ hl⟩
  have hmade : ofFields high middle low = .ok r := by
    rw [ofFields, hp]
    show (p.set .middle middle >>= fun p => p.set .low low) = _
    rw [hq]
    exact hr
  have hhigh : r.get .high = high := by rw [get_set hr, get_set hq, get_set hp]; rfl
  have hmiddle : r.get .middle = middle := by rw [get_set hr, get_set hq]; rfl
  have hlow : r.get .low = low := by rw [get_set hr]; rfl
  have hbyte : r.byte = UInt8.ofNat (64 * high.toNat + 8 * middle.toNat + low.toNat) := by
    rw [← hhigh, ← hmiddle, ← hlow, ← toNat_byte, UInt8.ofNat_toNat]
  rw [hmade, join, ← hbyte]

/-- A processor takes out of a byte **the fields it was joined from**. -/
theorem fields_join (l : Layout) (hh : high ≤ 3) (hm : middle ≤ 7) (hl : low ≤ 7) :
    (join high middle low : Packed l).byte.toNat / 64 = high.toNat ∧
    (join high middle low : Packed l).byte.toNat / 8 % 8 = middle.toNat ∧
    (join high middle low : Packed l).byte.toNat % 8 = low.toNat := by
  have hh : high.toNat ≤ 3 := hh
  have hm : middle.toNat ≤ 7 := hm
  have hl : low.toNat ≤ 7 := hl
  rw [join, UInt8.toNat_ofNat']
  omega

end Packed

end MachineCode
