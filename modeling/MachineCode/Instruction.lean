import MachineCode.Encoding

/-!
# Instructions

The instructions that can be encoded: loading an address, and moves between registers, memory and
64-bit constants. All of them work on 64 bits, so all have a REX prefix with `W` set.

`Instruction.encode` checks the operand that goes into the reg field first and the one that goes
into the rm field second. Once both are accepted nothing can fail any more, and the steps that
build the encoding are `assured`.
-/
namespace MachineCode

inductive Instruction where
  /-- Puts the address of `src` into `dst`. -/
  | lea (dst : Reg) (src : Memory)
  /-- Copies memory into a register. -/
  | load (dst : Reg) (src : Memory)
  /-- Copies a register into memory. -/
  | store (dst : Memory) (src : Reg)
  /-- Copies a register into another. -/
  | copy (dst src : Reg)
  /-- Copies a register into a register or memory. -/
  | move (dst : Operand) (src : Reg)
  /-- Puts a 64-bit constant into a register. -/
  | constant (dst : Reg) (value : UInt64)
  deriving DecidableEq, Repr

namespace Instruction

/-- The opcode that loads an address. -/
def opcodeLea : UInt8 := 0x8d

/-- The opcode that moves from the reg to the rm operand. -/
def opcodeToRm : UInt8 := 0x89

/-- The opcode that moves from the rm to the reg operand. -/
def opcodeFromRm : UInt8 := 0x8b

/-- The opcode that moves a constant into the first register; the three low bits of the register
number are added to it. -/
def opcodeConstant : UInt8 := 0xb8

/-- Sets a part where there is room for it. -/
def place (e : Encoding) (p : Encoding.Part) : Except Fault Encoding := assured (e.set p)

/-- Sets the SIB byte, if there is one. -/
def placeSib (e : Encoding) : Option Sib → Except Fault Encoding
  | some s => place e (.sib s)
  | none => .ok e

/-- The encoding of an instruction with a reg and an rm operand. -/
def encodeRegRm (opcode : UInt8) (reg : Reg) (rm : Operand) : Except Fault Encoding := do
  discard reg.check
  rm.check
  let e ← place .start (.rex (.ofFlags true reg.extended rm.rexX rm.rexB))
  let e ← place e (.opcode (.ofByte opcode))
  let m ← assured (Packed.ofFields (← rm.mode).bits reg.low3 (← rm.rm))
  let e ← place e (.modRM m)
  let e ← placeSib e (← rm.sib)
  place e (.displacement (← rm.displacement))

/-- The encoding of a move of a constant. The register stands in the opcode. -/
def encodeConstant (dst : Reg) (value : UInt64) : Except Fault Encoding := do
  discard dst.check
  let e ← place .start (.rex (.ofFlags true false false dst.extended))
  let e ← place e (.opcode (.ofByte (opcodeConstant + dst.low3)))
  place e (.immediate (← assured (ShortBytes.ofUInt64 value)))

/-- The encoding of an instruction, unless an operand is refused. -/
def encode : Instruction → Except Fault Encoding
  | lea dst src => encodeRegRm opcodeLea dst (.memory src)
  | load dst src => encodeRegRm opcodeFromRm dst (.memory src)
  | store dst src => encodeRegRm opcodeToRm src (.memory dst)
  | copy dst src => encodeRegRm opcodeToRm src (.register dst)
  | move dst src => encodeRegRm opcodeToRm src dst
  | constant dst value => encodeConstant dst value

end Instruction

end MachineCode
