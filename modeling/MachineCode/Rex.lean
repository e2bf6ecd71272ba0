import MachineCode.Fault

/-!
# The REX prefix

A REX prefix is the bits `0100` followed by four flags: `W` asks for 64-bit operands, `R` extends
the reg field of the ModR/M byte, `X` the index of the SIB byte, and `B` the rm field, the base of
the SIB byte or the register in the opcode.

A `Rex` holds any byte. `Rex.ofByte` is the checked way in and `Rex.ofFlags` the constructive one;
setting a flag keeps the other seven bits, so a prefix stays a prefix.
-/
namespace MachineCode

/-- A REX prefix byte. -/
structure Rex where
  /-- The encoded byte. -/
  byte : UInt8
  deriving DecidableEq, Repr

namespace Rex

/-- The four flags of a REX prefix. -/
inductive Flag where
  | w | r | x | b
  deriving DecidableEq, Repr

/-- The bit of a flag. -/
def Flag.mask : Flag → UInt8
  | w => 0b1000
  | r => 0b0100
  | x => 0b0010
  | b => 0b0001

/-- The prefix with no flag set. -/
def bare : Rex := ⟨0b0100_0000⟩

/-- Whether a flag is set. -/
def get (p : Rex) (f : Flag) : Bool := p.byte &&& f.mask != 0

/-- The prefix with one flag set or cleared. -/
def set (p : Rex) (f : Flag) (on : Bool) : Rex :=
  if on then ⟨p.byte ||| f.mask⟩ else ⟨p.byte &&& ~~~f.mask⟩

/-- The prefix with the given flags. -/
def ofFlags (w r x b : Bool) : Rex :=
  (((bare.set .w w).set .r r).set .x x).set .b b

/-- The prefix with the given byte, whose high half has to be `0100`. -/
def ofByte (raw : UInt8) : Except Fault Rex :=
  if raw &&& 0xf0 = bare.byte then .ok ⟨raw⟩ else .error (.rexByte raw)

/-- The digit for a flag. -/
def digit (on : Bool) : String := if on then "1" else "0"

/-- The text of the prefix: its flags. -/
def text (p : Rex) : String :=
  "REX(W=" ++ digit (p.get .w) ++ " R=" ++ digit (p.get .r) ++ " X=" ++ digit (p.get .x) ++
    " B=" ++ digit (p.get .b) ++ ")"

end Rex

end MachineCode
