import MachineCode.Address

/-!
# Reading instructions back

What a processor makes of a list of bytes, by the rules of the architecture alone. Nothing here
knows how the bytes were made: fields are taken out of bytes by division, and the special cases
are those that the architecture lists.

* The low bits of a register number stand in the reg, rm, index or base field or in the opcode,
  and a bit of the REX prefix is put in front of them.
* Unless the mode is `11`, rm `100` means that a SIB byte follows.
* In mode `00`, rm `101` means the next instruction plus four bytes, and SIB base `101` means no
  base plus four bytes. Modes `01` and `10` have one and four displacement bytes.
* SIB index `100` without the `X` bit means that there is no index.

The instructions read are the 64-bit moves and address loads, moves of 64-bit constants, and the
instructions that do nothing, short and long. A linear sweep (`Decode.sweep`) reads one after the
other from the start of the code, and succeeds if nothing is left over.

The address that an operand is meant to name (`Address.intended`) and the one that a processor
computes from what it reads (`Decode.Location.address`) are sums of 64-bit words over the contents
of the registers. They treat the displacement differently: an `Address` counts it as a positive
number, and a processor extends the bytes in the code by their sign.
-/
namespace MachineCode

namespace Decode

/-- What the displacement and the index are added to. -/
inductive Origin where
  /-- Zero. -/
  | absent
  /-- The address of the next instruction. -/
  | next
  /-- A register. -/
  | register (g : Gpr)
  deriving DecidableEq, Repr

/-- A place in memory as a processor reads it. -/
structure Location where
  origin : Origin
  index : Option (Gpr × Scale)
  /-- The displacement bytes, as they stand in the code. -/
  displacement : List UInt8
  deriving DecidableEq, Repr

/-- What the rm field stands for. -/
inductive Place where
  | register (g : Gpr)
  | memory (l : Location)
  deriving DecidableEq, Repr

/-- An instruction as a processor reads it. -/
inductive Decoded where
  /-- A move or address load between the reg and the rm operand. -/
  | operands (opcode : UInt8) (reg : Gpr) (rm : Place)
  /-- A move of a constant into a register. -/
  | constant (dst : Gpr) (value : UInt64)
  /-- An instruction that does nothing. -/
  | nop
  deriving DecidableEq, Repr

/-- The register with three low bits `low` behind the bit `extended`. -/
def gpr (extended : Bool) (low : Nat) : Gpr :=
  Gpr.all.getD (low + if extended then 8 else 0) .rax

def scale : Nat → Scale
  | 0 => .one
  | 1 => .two
  | 2 => .four
  | _ => .eight

/-- The first `n` bytes and the rest, if there are as many. -/
def split? (n : Nat) (bs : List UInt8) : Option (List UInt8 × List UInt8) :=
  if n ≤ bs.length then some (bs.take n, bs.drop n) else none

/-- The number of displacement bytes of a memory mode, the special cases apart. -/
def width : Nat → Nat
  | 1 => 1
  | 2 => 4
  | _ => 0

/-- The index that a SIB byte asks for. -/
def index? (x : Bool) (sib : UInt8) : Option (Gpr × Scale) :=
  let field := sib.toNat / 8 % 8
  if field = 4 ∧ x = false then none else some (gpr x field, scale (sib.toNat / 64))

/-- The place in memory for the mode and rm fields and the bytes behind the ModR/M byte, and what
is left of these bytes. -/
def location (x b : Bool) (mode rm : Nat) (bs : List UInt8) :
    Option (Location × List UInt8) :=
  if rm = 4 then
    match bs with
    | [] => none
    | sib :: rest =>
      let base := sib.toNat % 8
      if mode = 0 ∧ base = 5 then do
        let (disp, rest) ← split? 4 rest
        return ({ origin := .absent, index := index? x sib, displacement := disp }, rest)
      else do
        let (disp, rest) ← split? (width mode) rest
        return ({ origin := .register (gpr b base), index := index? x sib, displacement := disp },
          rest)
  else if mode = 0 ∧ rm = 5 then do
    let (disp, rest) ← split? 4 bs
    return ({ origin := .next, index := none, displacement := disp }, rest)
  else do
    let (disp, rest) ← split? (width mode) bs
    return ({ origin := .register (gpr b rm), index := none, displacement := disp }, rest)

/-- The reg operand and the rm operand that follow an opcode, and what is left of the bytes. -/
def operands? (r x b : Bool) : List UInt8 → Option (Gpr × Place × List UInt8)
  | [] => none
  | byte :: rest =>
    let mode := byte.toNat / 64
    let reg := gpr r (byte.toNat / 8 % 8)
    let rm := byte.toNat % 8
    if mode = 3 then some (reg, .register (gpr b rm), rest)
    else do
      let (l, rest) ← location x b mode rm rest
      return (reg, .memory l, rest)

/-- The instruction behind a REX prefix whose `W` bit is set, and what is left of the bytes. An
address can be loaded of memory only. -/
def wide? (r x b : Bool) : List UInt8 → Option (Decoded × List UInt8)
  | [] => none
  | opcode :: rest =>
    if opcode = 0x89 ∨ opcode = 0x8b ∨ opcode = 0x8d then do
      let (reg, rm, rest) ← operands? r x b rest
      match rm with
      | .register _ => if opcode = 0x8d then none else return (.operands opcode reg rm, rest)
      | .memory _ => return (.operands opcode reg rm, rest)
    else if 0xb8 ≤ opcode ∧ opcode ≤ 0xbf then do
      let (value, rest) ← split? 8 rest
      return (.constant (gpr b (opcode.toNat - 0xb8)) (UInt64.ofNat (LittleEndian.value value)),
        rest)
    else none

/-- What follows a long instruction that does nothing, behind its two opcode bytes. -/
def longNop? (bs : List UInt8) : Option (List UInt8) :=
  match operands? false false false bs with
  | some (_, .memory _, rest) => some rest
  | _ => none

/-- What follows an instruction that does nothing. -/
def nop? : List UInt8 → Option (List UInt8)
  | 0x90 :: rest => some rest
  | 0x66 :: 0x90 :: rest => some rest
  | 0x0f :: 0x1f :: rest => longNop? rest
  | 0x66 :: 0x0f :: 0x1f :: rest => longNop? rest
  | _ => none

/-- The instruction at the start of the bytes, and what is left of them. -/
def decode : List UInt8 → Option (Decoded × List UInt8)
  | [] => none
  | first :: rest =>
    if 0x48 ≤ first ∧ first ≤ 0x4f then
      wide? (first.toNat / 4 % 2 = 1) (first.toNat / 2 % 2 = 1) (first.toNat % 2 = 1) rest
    else do
      let rest ← nop? (first :: rest)
      return (.nop, rest)

/-! ### Sweeps -/

/-- The instructions of the code `bs`, whose first byte is at `position`. -/
def sweepFrom (position : Nat) (bs : List UInt8) : Option (List (Nat × Decoded)) :=
  if bs = [] then some []
  else
    match decode bs with
    | none => none
    | some (d, rest) =>
      if rest.length < bs.length then
        (sweepFrom (position + (bs.length - rest.length)) rest).map ((position, d) :: ·)
      else none
termination_by bs.length

/-- The instructions of a piece of code with the positions at which they start. -/
def sweep (bs : List UInt8) : Option (List (Nat × Decoded)) := sweepFrom 0 bs

/-- The positions of the instructions that do something. -/
def starts (found : List (Nat × Decoded)) : List Nat :=
  (found.filter (·.2 ≠ .nop)).map (·.1)

end Decode

/-! ### Effective addresses -/

abbrev RegisterFile := Gpr → UInt64

/-- The address that is meant. `RSP` as an index counts for nothing. -/
def Address.intended (regs : RegisterFile) (next : UInt64) : Address → UInt64
  | based b d => regs b + d.toUInt64
  | ripRelative d => next + d.toUInt64
  | indexed b i s d =>
    b.elim 0 regs + (if i = .rsp then 0 else regs i * s.factor.toUInt64) + d.toUInt64

namespace Decode

/-- The number that displacement bytes stand for, extended by its sign: in the upper half of the
range it is negative. -/
def signed (bs : List UInt8) : Int :=
  let range := Nat.pow 256 bs.length
  let value := LittleEndian.value bs
  if 2 * value < range then value else value - range

/-- What a displacement and an index are added to. -/
def Origin.value (regs : RegisterFile) (next : UInt64) : Origin → UInt64
  | absent => 0
  | .next => next
  | register g => regs g

/-- The address that a processor computes. -/
def Location.address (regs : RegisterFile) (next : UInt64) (l : Location) : UInt64 :=
  l.origin.value regs next +
    l.index.elim 0 (fun i => regs i.1 * i.2.factor.toUInt64) +
    UInt64.ofInt (signed l.displacement)

end Decode

end MachineCode
