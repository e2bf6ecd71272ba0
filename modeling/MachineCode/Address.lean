import MachineCode.Bytes
import MachineCode.Packed.Basic

/-!
# Memory addresses

An `Address` names a place in memory in one of three forms: a base register and a displacement,
a displacement from the next instruction, or a scaled index with a displacement and perhaps a
base register. The builders take registers as callers name them and refuse those that name none
(`Reg.check`).

An address resolves into the pieces that every instruction with a memory operand needs: the mode
and rm fields of the ModR/M byte, the SIB byte, the displacement bytes, and two bits of the REX
prefix. Four register numbers collide with special meanings of these fields:

* rm `100` announces a SIB byte, so a base `RSP` or `R12` is encoded through one without index;
* rm or base `101` in mode `00` means the next instruction or no base, so a base `RBP` or `R13`
  always has a displacement, if need be a zero byte;
* index `100` means no index, so `RSP` as an index counts for nothing (`R12` is told apart by the
  REX prefix).

A displacement from 1 to 256 takes one byte. The processor extends that byte by its sign, so the
displacements from 128 to 256 are not reached as written: 256 becomes 0, the others turn negative.
-/
namespace MachineCode

/-! ### Checked registers -/

namespace Reg

/-- The register with a given number, which has to be below sixteen. -/
def ofEncoding (e : UInt8) : Except Fault Reg :=
  if e < 16 then .ok ⟨e⟩ else .error (.registerNumber e)

/-- The general purpose register that an operand names. -/
def check (r : Reg) : Except Fault Gpr :=
  match r.gpr? with
  | some g => .ok g
  | none => .error (.register r)

@[simp] theorem check_toReg (g : Gpr) : g.toReg.check = .ok g := by
  simp [check]

theorem check_eq_ok_iff {r : Reg} {g : Gpr} : r.check = .ok g ↔ r = g.toReg := by
  constructor
  · intro h
    rw [check] at h
    split at h
    · next heq =>
      cases h
      exact eq_toReg_of_gpr? heq
    · cases h
  · rintro rfl
    exact check_toReg g

/-- A register operand is refused **exactly when it names none of the sixteen registers**. -/
theorem check_eq_error_iff {r : Reg} {f : Fault} :
    r.check = .error f ↔ ¬ r.Valid ∧ f = .register r := by
  rw [check, ← isSome_gpr?_iff]
  cases h : r.gpr? <;> simp [eq_comm]

end Reg

/-! ### Modes and scales -/

/-- The modes of a ModR/M byte. -/
inductive Mode where
  /-- Memory without displacement, but for the special cases of rm and base `101`. -/
  | plain
  /-- Memory with a displacement of one byte. -/
  | short
  /-- Memory with a displacement of four bytes. -/
  | long
  /-- The register itself. -/
  | direct
  deriving DecidableEq, Repr

def Mode.bits : Mode → UInt8
  | plain => 0b00
  | short => 0b01
  | long => 0b10
  | direct => 0b11

/-- The factors by which an index can be multiplied. -/
inductive Scale where
  | one | two | four | eight
  deriving DecidableEq, Repr

namespace Scale

/-- The scale field: the binary logarithm of the factor. -/
def bits : Scale → UInt8
  | one => 0
  | two => 1
  | four => 2
  | eight => 3

def factor (s : Scale) : UInt8 := 1 <<< s.bits

/-- The scale with a given factor. -/
def ofFactor (factor : UInt8) : Except Fault Scale :=
  if factor = 1 then .ok one
  else if factor = 2 then .ok two
  else if factor = 4 then .ok four
  else if factor = 8 then .ok eight
  else .error (.scale factor)

end Scale

/-- A place in memory. -/
inductive Address where
  /-- The base register plus the displacement. -/
  | based (base : Gpr) (disp : UInt32)
  /-- The address of the next instruction plus the displacement. -/
  | ripRelative (disp : UInt32)
  /-- The base register, if any, plus the displacement plus the scaled index. -/
  | indexed (base : Option Gpr) (index : Gpr) (scale : Scale) (disp : UInt32)
  deriving DecidableEq, Repr

namespace Address

/-! ### Building addresses -/

/-- A base register and a displacement. -/
def ofBase (base : Reg) (disp : UInt32) : Except Fault Address := do
  let b ← base.check
  return based b disp

/-- A scaled index and a displacement. The index is checked before the factor. -/
def ofIndex (index : Reg) (factor : UInt8) (disp : UInt32) : Except Fault Address := do
  let i ← index.check
  let s ← Scale.ofFactor factor
  return indexed none i s disp

/-- A base register, a scaled index and a displacement, checked in the order base, index,
factor. -/
def ofBaseIndex (base index : Reg) (factor : UInt8) (disp : UInt32) : Except Fault Address := do
  let b ← base.check
  let i ← index.check
  let s ← Scale.ofFactor factor
  return indexed (some b) i s disp

/-! ### The parts of an address -/

def base? : Address → Option Gpr
  | based b _ => some b
  | ripRelative _ => none
  | indexed b _ _ _ => b

def index? : Address → Option Gpr
  | indexed _ i _ _ => some i
  | _ => none

/-- The factor of the index; without an index it is one. -/
def scale : Address → Scale
  | indexed _ _ s _ => s
  | _ => .one

def disp : Address → UInt32
  | based _ d => d
  | ripRelative d => d
  | indexed _ _ _ d => d

/-! ### How an address is encoded -/

/-- The mode that a displacement asks for when there is a base register. -/
def dispMode (disp : UInt32) : Mode :=
  if disp = 0 then .plain else if disp ≤ 256 then .short else .long

/-- The mode for a base register and a displacement. `RBP` and `R13` cannot do without a
displacement. -/
def baseMode (base : Gpr) (disp : UInt32) : Mode :=
  if dispMode disp = .plain ∧ (base = .rbp ∨ base = .r13) then .short else dispMode disp

def mode : Address → Mode
  | based b d => baseMode b d
  | ripRelative _ => .plain
  | indexed (some b) _ _ d => baseMode b d
  | indexed none _ _ _ => .plain

/-- The rm value that announces a SIB byte. -/
def rmSib : UInt8 := 0b100

/-- The rm value that, in the plain mode, stands for the next instruction. -/
def rmRip : UInt8 := 0b101

/-- The index value for no index. -/
def noIndex : UInt8 := 0b100

/-- The base value that, in the plain mode, stands for no base. -/
def noBase : UInt8 := 0b101

def rm : Address → UInt8
  | based b _ => b.low3
  | ripRelative _ => rmRip
  | indexed _ _ _ _ => rmSib

/-- The SIB byte, if the address needs one. -/
def sib : Address → Except Fault (Option Sib)
  | based b _ =>
    if b.low3 = rmSib then some <$> assured (Packed.ofFields 0 noIndex b.low3) else .ok none
  | ripRelative _ => .ok none
  | indexed b i s _ =>
    some <$> assured (Packed.ofFields s.bits i.low3 (b.elim noBase Gpr.low3))

/-- The displacement bytes: none, one, or four with the least significant first. In the plain mode
there are none if the address has a base register, and four otherwise. -/
def displacement (a : Address) : Except Fault (ShortBytes .displacement) :=
  match a.mode with
  | .plain =>
    if a.base?.isSome then .ok .empty else assured (ShortBytes.ofUInt32 a.disp)
  | .short => .ok (ShortBytes.ofByte a.disp.toUInt8)
  | _ => assured (ShortBytes.ofUInt32 a.disp)

/-- Whether the index needs the `X` bit of the REX prefix. -/
def rexX (a : Address) : Bool := a.index?.any Gpr.extended

/-- Whether the base register needs the `B` bit of the REX prefix. -/
def rexB (a : Address) : Bool := a.base?.any Gpr.extended

/-! ### The text of an address -/

def indexText (index : Gpr) (scale : Scale) : String :=
  index.name ++ "*" ++ Numeral.hex scale.factor.toNat

/-- The sum that gives the address, in brackets. -/
def text : Address → String
  | based b d => "[" ++ b.name ++ " + " ++ Numeral.hex d.toNat ++ "]"
  | ripRelative d => "[RIP + " ++ Numeral.hex d.toNat ++ "]"
  | indexed none i s d => "[" ++ Numeral.hex d.toNat ++ " + " ++ indexText i s ++ "]"
  | indexed (some b) i s d =>
    "[" ++ b.name ++ " + " ++ Numeral.hex d.toNat ++ " + " ++ indexText i s ++ "]"

end Address

end MachineCode
