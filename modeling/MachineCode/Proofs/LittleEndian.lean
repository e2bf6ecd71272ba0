import MachineCode.Bytes

/-!
# What little-endian words are worth

Both writers take the lowest bytes of a number, four of them or eight, so the two are settled by
one induction on the number of bytes (`value_lowBytes`). A word is worth the number it was made
from, and so no two displacements of four bytes are written alike (`word32_inj`). As many bytes
that are worth the same are the same bytes (`value_inj`), so a word is the only way to write its
number.
-/
namespace MachineCode.LittleEndian

/-- The `n` lowest bytes of a number, least significant first. -/
def lowBytes : Nat → Nat → List UInt8
  | 0, _ => []
  | n + 1, v => UInt8.ofNat v :: lowBytes n (v / 256)

/-- The lowest bytes of a number are **worth the number**, as far as they reach. -/
theorem value_lowBytes (n v : Nat) : value (lowBytes n v) = v % Nat.pow 256 n := by
  induction n generalizing v with
  | zero => exact (Nat.mod_one v).symm
  | succ n ih =>
    have hpow : Nat.pow 256 (n + 1) = 256 * Nat.pow 256 n := Nat.mul_comm _ _
    rw [lowBytes, value_cons, ih, UInt8.toNat_ofNat', hpow, Nat.mod_mul]

/-- Bytes are known from their number and what they are worth. -/
theorem value_inj {bs cs : List UInt8} (hlength : bs.length = cs.length) :
    value bs = value cs ↔ bs = cs := by
  refine ⟨fun h => ?_, congrArg value⟩
  induction bs generalizing cs with
  | nil => exact (List.eq_nil_of_length_eq_zero hlength.symm).symm
  | cons b bs ih =>
    cases cs with
    | nil => cases hlength
    | cons d ds =>
      have hb := b.toNat_lt
      have hd := d.toNat_lt
      rw [value_cons, value_cons] at h
      have hhead : b = d := UInt8.toNat_inj.mp (by omega)
      have htail : bs = ds := ih (Nat.succ.inj hlength) (by omega)
      rw [hhead, htail]

theorem word32_eq_lowBytes (v : UInt32) : word32 v = lowBytes 4 v.toNat := by
  simp [word32, lowBytes, ← UInt8.toNat_inj, Nat.shiftRight_eq_div_pow, Nat.div_div_eq_div_mul]

theorem word64_eq_lowBytes (v : UInt64) : word64 v = lowBytes 8 v.toNat := by
  simp [word64, lowBytes, ← UInt8.toNat_inj, Nat.shiftRight_eq_div_pow, Nat.div_div_eq_div_mul]

theorem value_word32 (v : UInt32) : value (word32 v) = v.toNat := by
  rw [word32_eq_lowBytes, value_lowBytes]
  exact Nat.mod_eq_of_lt v.toNat_lt

theorem value_word64 (v : UInt64) : value (word64 v) = v.toNat := by
  rw [word64_eq_lowBytes, value_lowBytes]
  exact Nat.mod_eq_of_lt v.toNat_lt

theorem word32_inj {v w : UInt32} : word32 v = word32 w ↔ v = w := by
  refine ⟨fun h => ?_, congrArg word32⟩
  rw [← UInt32.toNat_inj, ← value_word32, ← value_word32, h]

end MachineCode.LittleEndian
