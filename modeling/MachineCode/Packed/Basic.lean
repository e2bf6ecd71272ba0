import MachineCode.Fault

/-!
# ModR/M and SIB bytes

A `Packed l` is a byte of layout `l`: a ModR/M byte (`ModRM`) or a SIB byte (`Sib`). Every byte
is one, so nothing is checked when a byte is taken as it is; a value is checked when it is put
into a field, and a refused value leaves the byte as it was.
-/
namespace MachineCode

/-- A byte made of three fields. -/
structure Packed (l : Layout) where
  /-- The encoded byte. -/
  byte : UInt8
  deriving DecidableEq, Repr

/-- A ModR/M byte: mode, reg, rm. -/
abbrev ModRM := Packed .modRM

/-- A SIB byte: scale, index, base. -/
abbrev Sib := Packed .sib

namespace Packed

variable {l : Layout}

/-- The byte whose fields are all zero. -/
def zero : Packed l := ⟨0⟩

def get (p : Packed l) (s : Slot) : UInt8 := s.read p.byte

/-- The byte with one field replaced, if the value fits in it. -/
def set (p : Packed l) (s : Slot) (value : UInt8) : Except Fault (Packed l) :=
  if value ≤ s.max then .ok ⟨s.write p.byte value⟩ else .error (.field l s value)

/-- The byte with the given fields. They are checked from the highest to the lowest. -/
def ofFields (high middle low : UInt8) : Except Fault (Packed l) := do
  let p ← zero.set .high high
  let p ← p.set .middle middle
  p.set .low low

/-- The text of the byte: its fields in binary. -/
def text (p : Packed l) : String :=
  l.tag ++ "(" ++
    l.fieldName .high ++ "=" ++ Numeral.paddedBinary 2 (p.get .high).toNat ++ " " ++
    l.fieldName .middle ++ "=" ++ Numeral.paddedBinary 3 (p.get .middle).toNat ++ " " ++
    l.fieldName .low ++ "=" ++ Numeral.paddedBinary 3 (p.get .low).toNat ++ ")"

theorem set_of_le {s : Slot} {value : UInt8} (p : Packed l) (h : value ≤ s.max) :
    p.set s value = .ok ⟨s.write p.byte value⟩ := if_pos h

theorem set_of_not_le {s : Slot} {value : UInt8} (p : Packed l) (h : ¬ value ≤ s.max) :
    p.set s value = .error (.field l s value) := if_neg h

end Packed

end MachineCode
