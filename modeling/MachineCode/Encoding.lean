import MachineCode.Operand
import MachineCode.Rex
import MachineCode.Text

/-!
# Encoded instructions

An `Encoding` is one instruction by its parts: an optional legacy prefix, REX prefix, ModR/M and
SIB byte, and the opcode, displacement and immediate, which may be empty. A part is set by
`Encoding.set`, which refuses whatever would make the instruction longer than the architecture
allows, and then leaves the encoding as it was.

`Encoding.serialize` writes the parts in the architectural order

    legacy prefix, REX, opcode, ModR/M, SIB, displacement, immediate

one after the other into zeroed storage of the right length, with a `Cursor` that knows where the
next part goes.
-/
namespace MachineCode

/-- One instruction by its parts. -/
structure Encoding where
  /-- The legacy prefix, such as the one for 16-bit operands. -/
  legacy : Option UInt8
  rex : Option Rex
  opcode : ShortBytes .opcode
  modRM : Option ModRM
  sib : Option Sib
  displacement : ShortBytes .displacement
  immediate : ShortBytes .immediate
  deriving DecidableEq, Repr

namespace Encoding

/-- A part of an instruction together with what it is set to. -/
inductive Part where
  | legacy (byte : UInt8)
  | rex (p : Rex)
  | opcode (s : ShortBytes .opcode)
  | modRM (m : ModRM)
  | sib (s : Sib)
  | displacement (s : ShortBytes .displacement)
  | immediate (s : ShortBytes .immediate)
  deriving DecidableEq, Repr

/-- The encoding without any part. -/
def empty : Encoding where
  legacy := none
  rex := none
  opcode := .empty
  modRM := none
  sib := none
  displacement := .empty
  immediate := .empty

/-- The encoding whose only part is the opcode zero. -/
def start : Encoding := { empty with opcode := .ofByte 0 }

/-- The number of bytes of an optional one-byte part. -/
def optionLength {α : Type} (o : Option α) : Nat := if o.isSome then 1 else 0

def length (e : Encoding) : Nat :=
  optionLength e.legacy + optionLength e.rex + e.opcode.length + optionLength e.modRM +
    optionLength e.sib + e.displacement.length + e.immediate.length

/-! ### Setting parts -/

/-- By how many bytes the instruction grows when an optional one-byte part is set. -/
def optionGrowth {α : Type} (o : Option α) : Int := if o.isSome then 0 else 1

/-- By how many bytes the instruction grows when a part is set. It may be negative. -/
def growth (e : Encoding) : Part → Int
  | .legacy _ => optionGrowth e.legacy
  | .rex _ => optionGrowth e.rex
  | .opcode s => s.length - e.opcode.length
  | .modRM _ => optionGrowth e.modRM
  | .sib _ => optionGrowth e.sib
  | .displacement s => s.length - e.displacement.length
  | .immediate s => s.length - e.immediate.length

/-- The encoding with one part replaced, whatever its length. -/
def replace (e : Encoding) : Part → Encoding
  | .legacy b => { e with legacy := some b }
  | .rex p => { e with rex := some p }
  | .opcode s => { e with opcode := s }
  | .modRM m => { e with modRM := some m }
  | .sib s => { e with sib := some s }
  | .displacement s => { e with displacement := s }
  | .immediate s => { e with immediate := s }

/-- Whether a part is one byte that takes the place of another one. -/
def occupied (e : Encoding) : Part → Bool
  | .legacy _ => e.legacy.isSome
  | .rex _ => e.rex.isSome
  | .modRM _ => e.modRM.isSome
  | .sib _ => e.sib.isSome
  | .opcode _ | .displacement _ | .immediate _ => false

/-- The encoding with one part set, unless the instruction would become too long. A byte that
takes the place of another one is not checked. -/
def set (e : Encoding) (p : Part) : Except Fault Encoding :=
  if e.occupied p ∨ e.length + e.growth p ≤ maxInstructionLength then .ok (e.replace p)
  else .error (.instructionLength (e.length + e.growth p))

/-! ### Writing the bytes -/

/-- A place in an instruction that is being written. -/
structure Cursor where
  target : ShortBytes .instruction
  position : Nat
  deriving DecidableEq, Repr

namespace Cursor

/-- Writes one byte. There has to be room for it. -/
def put (c : Cursor) (b : UInt8) : Except Fault Cursor := do
  let t ← c.target.set c.position b
  return { target := t, position := c.position + 1 }

/-- Writes the byte of an optional part, if it is there. -/
def putOption (c : Cursor) : Option UInt8 → Except Fault Cursor
  | some b => c.put b
  | none => .ok c

/-- Copies bytes, as many as there is room for. The cursor may not have left its target. -/
def copy (c : Cursor) (bs : List UInt8) : Except Fault Cursor :=
  let fitting := bs.take (c.target.length - c.position)
  if c.position ≤ c.target.length then
    .ok { target := { c.target with storage := writeFrom c.target.storage c.position fitting }
          position := c.position + fitting.length }
  else .error .bounds

end Cursor

/-- The bytes of the instruction, in a string of exactly its length. -/
def serialize (e : Encoding) : Except Fault (ShortBytes .instruction) := do
  let target ← assured (ShortBytes.zeros e.length)
  let c ← Cursor.putOption { target := target, position := 0 } e.legacy
  let c ← c.putOption (e.rex.map Rex.byte)
  let c ← c.copy e.opcode.bytes
  let c ← c.putOption (e.modRM.map Packed.byte)
  let c ← c.putOption (e.sib.map Packed.byte)
  let c ← c.copy e.displacement.bytes
  let c ← c.copy e.immediate.bytes
  return c.target

def bytes (e : Encoding) : Except Fault (List UInt8) := ShortBytes.bytes <$> e.serialize

def text (e : Encoding) : Except Fault String := Hex.text <$> e.bytes

end Encoding

end MachineCode
