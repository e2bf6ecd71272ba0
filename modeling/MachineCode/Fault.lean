import MachineCode.Packed.Layout
import MachineCode.Register

/-!
# Faults

Why an operation was refused. A `Fault` holds the cause and the values that show it; the wording
is in one place, `Fault.message`, and so is the sorting into kinds, `Fault.kind`.

A caller can provoke every cause but `internal`. That one marks a step that cannot fail on
operands that were checked before; it is kept so that the absence of such failures is something
to prove and not something to assume.
-/
namespace MachineCode

/-- The largest number of bytes one instruction may have. -/
def maxInstructionLength : Nat := 15

/-- The kinds of faults. -/
inductive Fault.Kind where
  /-- A length does not fit in a fixed capacity. -/
  | capacityExceeded
  /-- A value does not fit in a field, or names no register, scale or memory operand. -/
  | fieldOutOfRange
  /-- A byte is no REX prefix. -/
  | invalidRex
  /-- The caller broke a rule that is stated for the operation. -/
  | misuse
  /-- A position or a size lies outside of the memory that there is. -/
  | outOfBounds
  deriving DecidableEq, Repr

/-- The causes for which operations are refused. -/
inductive Fault where
  /-- A byte string of this length was asked for where at most `limit` bytes fit. -/
  | byteLength (length : Int) (limit : Nat)
  /-- The instruction would grow to this length. -/
  | instructionLength (length : Int)
  /-- The value does not fit in the field. -/
  | field (layout : Layout) (slot : Slot) (value : UInt8)
  /-- The number names no register. -/
  | registerNumber (encoding : UInt8)
  /-- An operand names no register. -/
  | register (r : Reg)
  /-- The factor of an index is not 1, 2, 4 or 8. -/
  | scale (factor : UInt8)
  /-- An instruction was given a memory operand that was never built. -/
  | memoryUnset
  /-- The byte does not have the fixed high half of a REX prefix. -/
  | rexByte (raw : UInt8)
  /-- A memory operand that was never built was asked how it is encoded. -/
  | memoryForm
  /-- More bytes, or fewer than none, were to be kept than the buffer has. -/
  | truncation
  /-- The alignment is not a positive power of two. -/
  | alignment (n : Int64)
  /-- A position lies outside of the bytes it refers to. -/
  | bounds
  /-- A store of more bytes was asked for than can be addressed. -/
  | storeSize
  /-- A step failed that cannot fail on checked operands. -/
  | internal (cause : Fault)
  deriving DecidableEq, Repr

namespace Fault

def kind : Fault → Kind
  | byteLength _ _ => .capacityExceeded
  | instructionLength _ => .capacityExceeded
  | field _ _ _ => .fieldOutOfRange
  | registerNumber _ => .fieldOutOfRange
  | register _ => .fieldOutOfRange
  | scale _ => .fieldOutOfRange
  | memoryUnset => .fieldOutOfRange
  | rexByte _ => .invalidRex
  | memoryForm => .misuse
  | truncation => .misuse
  | alignment _ => .misuse
  | bounds => .outOfBounds
  | storeSize => .outOfBounds
  | internal _ => .misuse

/-- The words with which the message of a kind of fault begins. -/
def Kind.heading : Kind → String
  | capacityExceeded => "capacity exceeded: "
  | fieldOutOfRange => "field out of range: "
  | invalidRex => "invalid REX prefix: "
  | misuse => ""
  | outOfBounds => "out of bounds: "

/-- What is wrong, without the heading of the kind. -/
def detail : Fault → String
  | byteLength length limit =>
    "length " ++ Numeral.integer length ++ " must be within [0, " ++ Numeral.decimal limit ++ "]"
  | instructionLength length =>
    "instruction length " ++ Numeral.integer length ++ " exceeds " ++
      Numeral.decimal maxInstructionLength
  | field layout slot value =>
    layout.label slot ++ " must be at most " ++ Numeral.binary slot.max.toNat ++
      " but got " ++ Numeral.binary value.toNat
  | registerNumber encoding =>
    "register encoding " ++ Numeral.decimal encoding.toNat ++ " must be within [0, 15]"
  | register r => "invalid register " ++ r.name
  | scale factor =>
    "scale in SIB must be one of 1, 2, 4, 8 but got " ++ Numeral.decimal factor.toNat
  | memoryUnset => "memory operand must be built with RegOffset, RipOffset or ScaledIndex"
  | rexByte raw => Numeral.hex raw.toNat
  | memoryForm => "BUG: invalid memory operand kind"
  | truncation => "BUG: truncation out of range"
  | alignment n => "alignment must be a positive power of two but was " ++ Numeral.integer n.toInt
  | bounds => "position past the end"
  | storeSize => "store too large"
  | internal cause => "BUG: " ++ cause.kind.heading ++ cause.detail

def message (f : Fault) : String := f.kind.heading ++ f.detail

end Fault

/-- A step that cannot fail on checked operands: should it fail all the same, the fault says so. -/
def assured {α : Type} (x : Except Fault α) : Except Fault α := x.mapError .internal

@[simp] theorem assured_ok {α : Type} (a : α) : assured (.ok a) = .ok a := rfl

@[simp] theorem assured_error {α : Type} (f : Fault) :
    (assured (.error f) : Except Fault α) = .error (.internal f) := rfl

@[simp] theorem ok_bind {α β : Type} (a : α) (next : α → Except Fault β) :
    (Except.ok a >>= next) = next a := rfl

@[simp] theorem error_bind {α β : Type} (f : Fault) (next : α → Except Fault β) :
    (Except.error f >>= next) = .error f := rfl

/-- A sequence of two steps succeeds if both do. -/
theorem bind_eq_ok {α β : Type} {x : Except Fault α} {next : α → Except Fault β} {b : β} :
    (x >>= next) = .ok b ↔ ∃ a, x = .ok a ∧ next a = .ok b := by
  cases x with
  | error f => simp
  | ok a => simp

@[simp] theorem map_ok {α β : Type} (g : α → β) (a : α) :
    (g <$> (Except.ok a : Except Fault α)) = .ok (g a) := rfl

@[simp] theorem discard_ok {α : Type} (a : α) :
    discard (Except.ok a : Except Fault α) = .ok () := rfl

@[simp] theorem discard_error {α : Type} (f : Fault) :
    discard (Except.error f : Except Fault α) = .error f := rfl

end MachineCode
