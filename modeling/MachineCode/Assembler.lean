import MachineCode.Buffer.Basic
import MachineCode.Instruction
import MachineCode.Options

/-!
# Assemblers

An `Assembler` collects instructions, data words and padding in one buffer, and records at which
offset each instruction starts. Data words and padding are no instructions and are not recorded,
and whatever is refused leaves no trace.
-/
namespace MachineCode

/-- Code under construction. -/
structure Assembler where
  options : Options
  buffer : Buffer
  /-- Where the instructions start, in the order in which they were added. -/
  offsets : List Nat

namespace Assembler

/-- An assembler without code, if there can be as much room as its options ask for. -/
def new (allocator : Allocator) (options : Options) : Except Fault Assembler := do
  let buffer ← Buffer.withRoom allocator options.room
  return { options := options, buffer := buffer, offsets := [] }

/-- An assembler without code for options that may be left out. -/
def create (allocator : Allocator) (options? : Option Options) : Except Fault Assembler :=
  new allocator (options?.getD {})

def length (a : Assembler) : Nat := a.buffer.length

def bytes (a : Assembler) : List UInt8 := a.buffer.bytes

/-- Adds an encoded instruction. -/
def emit (a : Assembler) (e : Encoding) : Except Fault Assembler := do
  let code ← e.serialize
  let buffer ← a.buffer.place code.bytes
  return { a with buffer := buffer, offsets := a.offsets ++ [a.length] }

/-- Adds an instruction, unless one of its operands is refused. -/
def instruction (a : Assembler) (i : Instruction) : Except Fault Assembler := do
  a.emit (← i.encode)

/-- Adds a 32-bit word, least significant byte first. -/
def word (a : Assembler) (v : UInt32) : Except Fault Assembler := do
  let buffer ← a.buffer.appendWord v
  return { a with buffer := buffer }

/-- The number of bytes that are missing to the next boundary. -/
def gap (a : Assembler) : Nat := a.options.gap a.length

/-- Pads the code up to the next boundary. -/
def align (a : Assembler) : Except Fault Assembler :=
  if a.gap = 0 then .ok a
  else if a.options.nopPadding then .ok { a with buffer := a.buffer.pad a.gap }
  else do
    let buffer ← a.buffer.extend a.gap
    return { a with buffer := buffer }

def reset (a : Assembler) : Assembler := { a with buffer := a.buffer.reset, offsets := [] }

/-! ### Runs -/

inductive Step where
  | instruction (i : Instruction)
  | emit (e : Encoding)
  | word (v : UInt32)
  | align
  | reset
  deriving DecidableEq, Repr

/-- What an operation answers. -/
inductive Outcome where
  /-- What was added starts here. -/
  | offset (n : Nat)
  /-- So many bytes of padding were added. -/
  | padded (n : Nat)
  /-- The code was discarded. -/
  | cleared
  /-- The operation was refused. -/
  | refused (fault : Fault)
  deriving DecidableEq, Repr

/-- The assembler and the answer for an addition that may have been refused, and then has changed
nothing. -/
def settle (a : Assembler) (done : Outcome) : Except Fault Assembler → Assembler × Outcome
  | .ok next => (next, done)
  | .error f => (a, .refused f)

/-- The assembler after an operation, and what the operation answers. -/
def step (a : Assembler) : Step → Assembler × Outcome
  | .instruction i => a.settle (.offset a.length) (a.instruction i)
  | .emit e => a.settle (.offset a.length) (a.emit e)
  | .word v => a.settle (.offset a.length) (a.word v)
  | .align => a.settle (.padded a.gap) a.align
  | .reset => (a.reset, .cleared)

def run (a : Assembler) (steps : List Step) : Assembler :=
  steps.foldl (fun a s => (a.step s).1) a

/-- What the operations of a run answer, in order. -/
def outcomes (a : Assembler) : List Step → List Outcome
  | [] => []
  | s :: steps => (a.step s).2 :: outcomes (a.step s).1 steps

end Assembler

end MachineCode
