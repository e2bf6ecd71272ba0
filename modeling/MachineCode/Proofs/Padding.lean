import Mathlib.Algebra.Ring.Nat
import MachineCode.Buffer.Lemmas
import MachineCode.Proofs.LinearSweep

/-!
# Padding is exact and as short as it can be

Padding takes the longest instruction that does nothing as long as more is missing, and then the one
that fits what is left. Along this recursion (`Nop.lengths_of_lt`, `Nop.lengths_of_le`) the lengths
add up to what was asked for, all but the last are the longest one, and their number is a ninth of
what was asked for, rounded up. No choice of instructions of at most nine bytes does with fewer
(`Nop.length_lengths_le`). That a processor finds just these instructions in the bytes is
`Decode.sweepFrom_padding`.
-/
namespace MachineCode

namespace Nop

/-! ### The lengths of the instructions -/

/-- While more is missing than the longest instruction has, it is taken. -/
theorem lengths_of_lt {n : Nat} (h : longest < n) :
    lengths n = longest :: lengths (n - longest) := by
  rw [lengths, if_neg (by omega), Nat.min_eq_right (Nat.le_of_lt h)]

/-- What is left is filled by one instruction. -/
theorem lengths_of_le {n : Nat} (hpos : 0 < n) (hle : n ≤ longest) : lengths n = [n] := by
  rw [lengths, if_neg (by omega), Nat.min_eq_left hle, Nat.sub_self, lengths, if_pos rfl]

theorem lengths_zero : lengths 0 = [] := by
  rw [lengths, if_pos rfl]

/-- The three ways in which padding goes on. -/
theorem lengths_induction {P : Nat → Prop} (zero : P 0) (last : ∀ n, 0 < n → n ≤ longest → P n)
    (more : ∀ n, longest < n → P (n - longest) → P n) (n : Nat) : P n := by
  induction n using Nat.strongRecOn with
  | ind n ih =>
    have hlong : 0 < longest := by decide
    rcases Nat.eq_zero_or_pos n with rfl | hpos
    · exact zero
    · rcases Nat.lt_or_ge longest n with hlt | hle
      · exact more n hlt (ih _ (by omega))
      · exact last n hpos hle

theorem sum_lengths (n : Nat) : (lengths n).sum = n := by
  induction n using lengths_induction with
  | zero => rw [lengths_zero, List.sum_nil]
  | last n hpos hle => rw [lengths_of_le hpos hle, List.sum_singleton]
  | more n hlt ih =>
    rw [lengths_of_lt hlt, List.sum_cons, ih]
    omega

/-- The number of instructions is a ninth of the length, rounded up. -/
theorem length_lengths (n : Nat) : (lengths n).length = (n + 8) / 9 := by
  have hlong : longest = 9 := rfl
  induction n using lengths_induction with
  | zero => rw [lengths_zero, List.length_nil]
  | last n hpos hle =>
    rw [lengths_of_le hpos hle, List.length_singleton]
    omega
  | more n hlt ih =>
    rw [lengths_of_lt hlt, List.length_cons, ih]
    omega

/-- All instructions but the last are the longest one. -/
theorem eq_longest_of_mem_dropLast {n k : Nat} (h : k ∈ (lengths n).dropLast) : k = longest := by
  induction n using lengths_induction with
  | zero =>
    rw [lengths_zero] at h
    exact absurd h List.not_mem_nil
  | last n hpos hle =>
    rw [lengths_of_le hpos hle] at h
    exact absurd h List.not_mem_nil
  | more n hlt ih =>
    have hne : lengths (n - longest) ≠ [] := by
      rw [ne_eq, ← List.length_eq_zero_iff, length_lengths]
      omega
    rw [lengths_of_lt hlt, List.dropLast_cons_of_ne_nil hne] at h
    rcases List.mem_cons.mp h with rfl | htail
    · rfl
    · exact ih htail

/-! ### Other ways to fill the same bytes -/

theorem length_le_of_mem_forms : ∀ form ∈ forms, form.length ≤ longest := by
  decide

theorem length_flatten_le {chosen : List (List UInt8)} (h : ∀ form ∈ chosen, form ∈ forms) :
    chosen.flatten.length ≤ longest * chosen.length := by
  induction chosen with
  | nil => exact Nat.le_refl _
  | cons form chosen ih =>
    obtain ⟨hform, htail⟩ := List.forall_mem_cons.mp h
    have hhead := length_le_of_mem_forms form hform
    have hrest := ih htail
    rw [List.flatten_cons, List.length_append, List.length_cons, Nat.mul_succ]
    omega

/-- **No other choice takes fewer instructions.** -/
theorem length_lengths_le {chosen : List (List UInt8)} (h : ∀ form ∈ chosen, form ∈ forms) :
    (lengths chosen.flatten.length).length ≤ chosen.length := by
  have hbound : chosen.flatten.length ≤ 9 * chosen.length := length_flatten_le h
  rw [length_lengths]
  omega

end Nop

/-- **Padding is exact and minimal.** Padding a buffer by `n` bytes keeps the bytes that are there
and adds exactly as many, none if `n` is negative. A processor reads what was added, from its start
and with nothing left over, as instructions that do nothing; there are a ninth of `n` of them,
rounded up, and all but the last have nine bytes. No other choice of the recommended instructions
fills as many bytes with fewer of them. -/
theorem Buffer.pad_exact (b : Buffer) (n : Int) :
    ∃ (added : List UInt8) (sizes : List Nat),
      (b.pad n).bytes = b.bytes ++ added ∧ (added.length : Int) = max n 0 ∧
      Decode.sweep added = some (Decode.nops 0 sizes) ∧ sizes.length = (n.toNat + 8) / 9 ∧
      sizes.sum = added.length ∧ (∀ k ∈ sizes.dropLast, k = 9) ∧
      ∀ chosen : List (List UInt8), (∀ form ∈ chosen, form ∈ Nop.forms) →
        chosen.flatten.length = added.length → sizes.length ≤ chosen.length := by
  refine ⟨Nop.padding n.toNat, Nop.lengths n.toNat, b.bytes_pad n, ?_,
    Decode.sweepFrom_padding 0 n.toNat, Nop.length_lengths _, ?_, ?_, ?_⟩
  · rw [Nop.length_padding, Int.toNat_eq_max]
  · rw [Nop.sum_lengths, Nop.length_padding]
  · intro k hk
    exact Nop.eq_longest_of_mem_dropLast hk
  · intro chosen hchosen hlength
    rw [Nop.length_padding] at hlength
    rw [← hlength]
    exact Nop.length_lengths_le hchosen

end MachineCode
