/-!
# The layout of ModR/M and SIB bytes

Both bytes hold three fields: two bits on top, three in the middle, three at the bottom. A
`Layout` says which of the two bytes is meant, and with it how the fields are called; a `Slot`
says which field. Reading and writing a field depends on the slot alone.
-/
namespace MachineCode

/-- The two kinds of byte that are made of three fields. -/
inductive Layout where
  /-- The ModR/M byte: mode, reg, rm. -/
  | modRM
  /-- The SIB byte: scale, index, base. -/
  | sib
  deriving DecidableEq, Repr

/-- The three fields of such a byte. -/
inductive Slot where
  /-- The two highest bits. -/
  | high
  /-- The three bits in the middle. -/
  | middle
  /-- The three lowest bits. -/
  | low
  deriving DecidableEq, Repr

namespace Slot

/-- The position of the lowest bit of a field. -/
def shift : Slot → UInt8
  | high => 6
  | middle => 3
  | low => 0

/-- The largest value a field can hold. -/
def max : Slot → UInt8
  | high => 0b11
  | middle => 0b111
  | low => 0b111

/-- The bits of a byte that belong to a field. -/
def mask (s : Slot) : UInt8 := s.max <<< s.shift

/-- The value of a field of a byte. -/
def read (s : Slot) (byte : UInt8) : UInt8 := (byte >>> s.shift) &&& s.max

/-- The byte with one field replaced. The value has to fit in the field. -/
def write (s : Slot) (byte value : UInt8) : UInt8 :=
  (byte &&& ~~~s.mask) ||| (value <<< s.shift)

end Slot

namespace Layout

/-- The name of the byte in messages. -/
def title : Layout → String
  | modRM => "ModR/M"
  | sib => "SIB"

/-- The name of the byte in its rendered form. -/
def tag : Layout → String
  | modRM => "ModRM"
  | sib => "SIB"

def fieldName : Layout → Slot → String
  | modRM, .high => "mode"
  | modRM, .middle => "reg"
  | modRM, .low => "rm"
  | sib, .high => "scale"
  | sib, .middle => "index"
  | sib, .low => "base"

/-- The name of a field together with the byte it belongs to. -/
def label (l : Layout) (s : Slot) : String := l.title ++ " " ++ l.fieldName s

end Layout

end MachineCode
