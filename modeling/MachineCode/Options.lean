import MachineCode.Fault

/-!
# Options of an assembler

Options are values: a change gives new options and leaves the old ones as they are. Options are
derived in a tree that is rooted at the defaults, each entry from one that was there before
(`Options.derive`).

The alignment has to be a positive power of two, which is decided on the bits of a 64-bit word:
exactly one of them is set, and it is not the sign.
-/
namespace MachineCode

structure Options where
  /-- The number of bytes for which there is room at first. -/
  room : Nat := 1024
  /-- The boundary to which padding goes. -/
  alignment : Nat := 1
  /-- Whether padding is made of instructions that do nothing, or of zero bytes. -/
  nopPadding : Bool := true
  deriving DecidableEq, Repr

namespace Options

/-- The number of bytes that are missing from a position to the next boundary. -/
def gap (o : Options) (position : Nat) : Nat :=
  (o.alignment - position % o.alignment) % o.alignment

inductive Change where
  /-- Room for so many bytes; fewer than none count as none. -/
  | room (n : Int64)
  /-- The boundary for padding. -/
  | alignment (n : Int64)
  /-- Whether padding is made of instructions. -/
  | nopPadding (on : Bool)
  deriving DecidableEq, Repr

/-- The number of ones among the binary digits of `n`. -/
def countOnes (n : Nat) : Nat := if n = 0 then 0 else n % 2 + countOnes (n / 2)

def change (o : Options) : Change → Except Fault Options
  | .room n => .ok { o with room := n.toInt.toNat }
  | .alignment n =>
    if n ≤ 0 ∨ countOnes n.toUInt64.toNat ≠ 1 then .error (.alignment n)
    else .ok { o with alignment := n.toInt.toNat }
  | .nopPadding on => .ok { o with nopPadding := on }

/-- One entry of a derivation: the position of the options to start from, and a change. -/
structure Derivation where
  parent : Nat
  change : Change
  deriving DecidableEq, Repr

/-- The options at a position; outside of the list there are the defaults. -/
def pick (os : List Options) (i : Nat) : Options := os.getD i {}

/-- All options that were derived so far, and one more. -/
def deriveNext (os : List Options) (d : Derivation) : Except Fault (List Options) := do
  let o ← (pick os d.parent).change d.change
  return os ++ [o]

/-- The defaults and all options that are derived from them, in the order of the entries. -/
def derive (ds : List Derivation) : Except Fault (List Options) := ds.foldlM deriveNext [{}]

end Options

end MachineCode
