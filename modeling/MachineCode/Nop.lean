/-!
# Padding with instructions that do nothing

For every length from one to nine bytes there is a recommended instruction of that length that
does nothing. Padding takes the longest one as often as it fits and one shorter one for what is
left, so it needs as few instructions as possible.
-/
namespace MachineCode.Nop

/-- The recommended instructions, the one of length `k` at position `k - 1`. -/
def forms : List (List UInt8) :=
  [ [0x90],
    [0x66, 0x90],
    [0x0f, 0x1f, 0x00],
    [0x0f, 0x1f, 0x40, 0x00],
    [0x0f, 0x1f, 0x44, 0x00, 0x00],
    [0x66, 0x0f, 0x1f, 0x44, 0x00, 0x00],
    [0x0f, 0x1f, 0x80, 0x00, 0x00, 0x00, 0x00],
    [0x0f, 0x1f, 0x84, 0x00, 0x00, 0x00, 0x00, 0x00],
    [0x66, 0x0f, 0x1f, 0x84, 0x00, 0x00, 0x00, 0x00, 0x00] ]

/-- The length of the longest recommended instruction. -/
def longest : Nat := forms.length

/-- The recommended instruction of a given length from one to `longest`. -/
def form (length : Nat) : List UInt8 := forms.getD (length - 1) []

/-- The lengths of the instructions that fill `n` bytes. -/
def lengths (n : Nat) : List Nat :=
  if n = 0 then [] else min n longest :: lengths (n - min n longest)
termination_by n
decreasing_by
  have : 0 < longest := by decide
  omega

/-- Instructions that do nothing, `n` bytes of them. -/
def padding (n : Nat) : List UInt8 := (lengths n).flatMap form

theorem length_form {k : Nat} (hpos : 0 < k) (hle : k ≤ longest) : (form k).length = k := by
  have hle : k ≤ 9 := hle
  match k, hpos, hle with
  | 1, _, _ | 2, _, _ | 3, _, _ | 4, _, _ | 5, _, _ | 6, _, _ | 7, _, _ | 8, _, _ | 9, _, _ => rfl

/-- Padding has **exactly the length asked for**. -/
@[simp] theorem length_padding (n : Nat) : (padding n).length = n := by
  induction n using Nat.strongRecOn with
  | ind n ih =>
    rw [padding, lengths]
    split
    · next h => simp [h]
    · next h =>
      have hlong : 0 < longest := by decide
      have htail := ih (n - min n longest) (by omega)
      rw [padding] at htail
      rw [List.flatMap_cons, List.length_append, length_form (by omega) (by omega), htail]
      omega

end MachineCode.Nop
