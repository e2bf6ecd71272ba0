import MachineCode.Address

/-!
# Operands

A memory operand is an address, or was never built: a caller may hold a place for an operand that
it has not filled, and an encoder has to refuse it. What goes into the rm field of an instruction
is an `Operand`, a register or a memory operand, and encoders ask it for its pieces without
looking which of the two it is.
-/
namespace MachineCode

inductive Form where
  | based
  | ripRelative
  | indexed
  deriving DecidableEq, Repr

namespace Form

/-- The number of a form. Zero is no form: it stands for an operand that was never built. -/
def code : Form → UInt8
  | based => 1
  | ripRelative => 2
  | indexed => 3

def ofCode? (v : UInt8) : Option Form :=
  if v = 1 then some based
  else if v = 2 then some ripRelative
  else if v = 3 then some indexed
  else none

def label : Form → String
  | based => "reg_offset"
  | ripRelative => "rip_offset"
  | indexed => "sib"

/-- The name of the form, if there is one. -/
def labelOf (f : Option Form) : String := f.elim "invalid" label

end Form

def Address.form : Address → Form
  | based _ _ => .based
  | ripRelative _ => .ripRelative
  | indexed _ _ _ _ => .indexed

/-- A memory operand. -/
inductive Memory where
  /-- An operand that was never built. -/
  | unset
  /-- The memory at an address. -/
  | place (a : Address)
  deriving DecidableEq, Repr

namespace Memory

/-- The address of the operand, if it was built. -/
def address? : Memory → Option Address
  | unset => none
  | place a => some a

/-- The address of the operand, which has to be there. -/
def resolve : Memory → Except Fault Address
  | unset => .error .memoryForm
  | place a => .ok a

/-- The form of the operand, if it was built. -/
def form? (m : Memory) : Option Form := m.address?.map Address.form

def formCode (m : Memory) : UInt8 := m.form?.elim 0 Form.code

def base? (m : Memory) : Option Gpr := m.address?.bind Address.base?

def index? (m : Memory) : Option Gpr := m.address?.bind Address.index?

/-- The factor of the index; without an index it is one. -/
def scale (m : Memory) : Scale := m.address?.elim .one Address.scale

/-- The displacement; zero if the operand was never built. -/
def disp (m : Memory) : UInt32 := m.address?.elim 0 Address.disp

def mode (m : Memory) : Except Fault Mode := Address.mode <$> m.resolve

def rm (m : Memory) : Except Fault UInt8 := Address.rm <$> m.resolve

def sib (m : Memory) : Except Fault (Option Sib) := m.resolve >>= Address.sib

def displacement (m : Memory) : Except Fault (ShortBytes .displacement) :=
  m.resolve >>= Address.displacement

def rexX (m : Memory) : Bool := m.address?.any Address.rexX

def rexB (m : Memory) : Bool := m.address?.any Address.rexB

def text (m : Memory) : String := m.address?.elim "[invalid]" Address.text

end Memory

/-- What goes into the rm field of an instruction. -/
inductive Operand where
  /-- A register, as a caller names it. -/
  | register (r : Reg)
  /-- A memory operand. -/
  | memory (m : Memory)
  deriving DecidableEq, Repr

namespace Operand

/-- Accepts an operand that an encoder can use: a register that names one, or a memory operand
that was built. -/
def check : Operand → Except Fault Unit
  | register r => discard r.check
  | memory .unset => .error .memoryUnset
  | memory (.place _) => .ok ()

def mode : Operand → Except Fault Mode
  | register _ => .ok .direct
  | memory m => m.mode

def rm : Operand → Except Fault UInt8
  | register r => .ok r.low3
  | memory m => m.rm

def sib : Operand → Except Fault (Option Sib)
  | register _ => .ok none
  | memory m => m.sib

def displacement : Operand → Except Fault (ShortBytes .displacement)
  | register _ => .ok .empty
  | memory m => m.displacement

def rexX : Operand → Bool
  | register _ => false
  | memory m => m.rexX

def rexB : Operand → Bool
  | register r => r.extended
  | memory m => m.rexB

def text : Operand → String
  | register r => r.name
  | memory m => m.text

end Operand

end MachineCode
