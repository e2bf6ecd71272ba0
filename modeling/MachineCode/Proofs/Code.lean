import MachineCode.Proofs.Screening

/-!
# The code of an instruction

A `Checked` instruction is one whose operands have been accepted: its registers are registers and
its memory operands are addresses. The check is `Instruction.checked?`, and it succeeds exactly on
the valid instructions (`Instruction.isSome_checked?_iff`). A move into a register or memory
becomes one of the two, so no two checked instructions are the same instruction.

The code of a checked instruction is a plain list of bytes, `Checked.code`. Encoding succeeds
exactly if the check does, and then it serializes to that code (`Instruction.bytes_of_checked?`,
`Instruction.checked?_of_encode`). Statements about encoders become statements about lists.
-/
namespace MachineCode

/-! ### Checked instructions -/

/-- An instruction whose operands were accepted. -/
inductive Checked where
  /-- Puts the address `src` into `dst`. -/
  | lea (dst : Gpr) (src : Address)
  /-- Copies the memory at `src` into `dst`. -/
  | load (dst : Gpr) (src : Address)
  /-- Copies `src` into the memory at `dst`. -/
  | store (dst : Address) (src : Gpr)
  /-- Copies `src` into `dst`. -/
  | copy (dst src : Gpr)
  /-- Puts a 64-bit constant into `dst`. -/
  | constant (dst : Gpr) (value : UInt64)
  deriving DecidableEq, Repr

theorem Memory.isSome_address?_iff (m : Memory) : m.address?.isSome ↔ m ≠ .unset := by
  cases m <;> simp [address?]

theorem Memory.eq_place_of_address? {m : Memory} {a : Address} (h : m.address? = some a) :
    m = .place a := by
  cases m with
  | unset => cases h
  | place b => exact congrArg place (Option.some.inj h)

namespace Instruction

/-- The instruction with its operands accepted, unless one of them is refused. -/
def checked? : Instruction → Option Checked
  | lea dst src => do return .lea (← dst.gpr?) (← src.address?)
  | load dst src => do return .load (← dst.gpr?) (← src.address?)
  | store dst src => do return .store (← dst.address?) (← src.gpr?)
  | copy dst src => do return .copy (← dst.gpr?) (← src.gpr?)
  | move (.register dst) src => do return .copy (← dst.gpr?) (← src.gpr?)
  | move (.memory dst) src => do return .store (← dst.address?) (← src.gpr?)
  | constant dst value => dst.gpr?.map (.constant · value)

theorem isSome_pair {α β γ : Type} (f : α → β → γ) (x : Option α) (y : Option β) :
    (do return f (← x) (← y) : Option γ).isSome ↔ x.isSome ∧ y.isSome := by
  cases x <;> cases y <;> simp

/-- The check accepts **exactly the valid instructions**. -/
theorem isSome_checked?_iff (i : Instruction) : i.checked?.isSome ↔ i.Valid := by
  match i with
  | lea dst src | load dst src =>
    rw [checked?, isSome_pair, valid_iff_of_rm? rfl]
    exact and_congr dst.isSome_gpr?_iff src.isSome_address?_iff
  | store dst src | move (.memory dst) src =>
    rw [checked?, isSome_pair, valid_iff_of_rm? rfl, and_comm]
    exact and_congr src.isSome_gpr?_iff dst.isSome_address?_iff
  | copy dst src | move (.register dst) src =>
    rw [checked?, isSome_pair, valid_iff_of_rm? rfl, and_comm]
    exact and_congr src.isSome_gpr?_iff dst.isSome_gpr?_iff
  | constant dst value =>
    simp [checked?, Valid, reg, rm?, Reg.isSome_gpr?_iff]

end Instruction

/-! ### Code -/

def Checked.code : Checked → List UInt8
  | lea dst src => src.pieces.code Instruction.opcodeLea dst
  | load dst src => src.pieces.code Instruction.opcodeFromRm dst
  | store dst src => dst.pieces.code Instruction.opcodeToRm src
  | copy dst src => dst.pieces.code Instruction.opcodeToRm src
  | constant dst value =>
    (Rex.ofFlags true false false dst.extended).byte :: (Instruction.opcodeConstant + dst.low3) ::
      LittleEndian.word64 value

namespace Instruction

/-- From two accepted operands to the operands themselves. -/
theorem eq_some_pair {α β γ : Type} {f : α → β → γ} {x : Option α} {y : Option β} {c : γ}
    (h : (do return f (← x) (← y) : Option γ) = some c) :
    ∃ a b, x = some a ∧ y = some b ∧ f a b = c := by
  cases x <;> cases y <;> simp_all

/-- **A checked instruction is encoded**: nothing in its encoding can fail. -/
theorem exists_encode_eq_ok {i : Instruction} {c : Checked} (h : i.checked? = some c) :
    ∃ e, i.encode = .ok e ∧ e.length ≤ maxInstructionLength ∧ e.parts = c.code := by
  match i with
  | lea dst src | load dst src =>
    obtain ⟨g, a, hg, ha, rfl⟩ := eq_some_pair h
    rw [Reg.eq_toReg_of_gpr? hg, Memory.eq_place_of_address? ha]
    exact exists_encodeRegRm_eq_ok _ g (Operand.resolves_memory a)
  | store dst src | move (.memory dst) src =>
    obtain ⟨a, g, ha, hg, rfl⟩ := eq_some_pair h
    rw [Reg.eq_toReg_of_gpr? hg, Memory.eq_place_of_address? ha]
    exact exists_encodeRegRm_eq_ok _ g (Operand.resolves_memory a)
  | copy dst src | move (.register dst) src =>
    obtain ⟨d, g, hd, hg, rfl⟩ := eq_some_pair h
    rw [Reg.eq_toReg_of_gpr? hg, Reg.eq_toReg_of_gpr? hd]
    exact exists_encodeRegRm_eq_ok _ g (Operand.resolves_register d)
  | constant dst value =>
    obtain ⟨g, hg, rfl⟩ := Option.map_eq_some_iff.mp h
    obtain ⟨s, hs, hb⟩ := ShortBytes.exists_ofUInt64_eq_ok (c := .immediate) (Nat.le_refl 8) value
    rw [Reg.eq_toReg_of_gpr? hg]
    refine ⟨constantEncoding g s, encodeConstant_eq_ok g hs,
      Nat.le_trans (length_constantEncoding_le g s) (by decide), ?_⟩
    simp [constantEncoding, Encoding.parts, Checked.code, hb]

/-- A checked instruction is encoded, and its encoding serializes to its code. -/
theorem bytes_of_checked? {i : Instruction} {c : Checked} (h : i.checked? = some c) :
    ∃ e, i.encode = .ok e ∧ e.bytes = .ok c.code ∧ e.length = c.code.length := by
  obtain ⟨e, he, hlen, hparts⟩ := exists_encode_eq_ok h
  exact ⟨e, he, hparts ▸ Encoding.bytes_eq_parts hlen, hparts ▸ e.length_parts.symm⟩

/-- An instruction that was encoded is a checked one. -/
theorem checked?_of_encode {i : Instruction} {e : Encoding} (h : i.encode = .ok e) :
    ∃ c, i.checked? = some c ∧ e.bytes = .ok c.code := by
  have hvalid : i.Valid := i.screens.succeeds_iff.mp ⟨e, h⟩
  obtain ⟨c, hc⟩ := Option.isSome_iff_exists.mp ((isSome_checked?_iff i).mpr hvalid)
  obtain ⟨e', he, hbytes, _⟩ := bytes_of_checked? hc
  rw [h] at he
  cases he
  exact ⟨c, hc, hbytes⟩

end Instruction

end MachineCode
