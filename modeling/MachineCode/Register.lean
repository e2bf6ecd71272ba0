import MachineCode.Text

/-!
# Registers

A `Reg` is what a caller names: one byte, taken as a register number without a check. A `Gpr` is
one of the sixteen 64-bit general purpose registers. Only the numbers below sixteen name one
(`Reg.gpr?`); the others still have a low part, an extension bit and a text, because an operand
may hold them until an encoder looks at it.

A register number splits into its three low bits, which go into a field of the ModR/M or SIB byte
or into the opcode, and bit 3, which goes into the REX prefix.
-/
namespace MachineCode

/-- The sixteen 64-bit general purpose registers, in the order of their hardware numbers. -/
inductive Gpr where
  | rax | rcx | rdx | rbx | rsp | rbp | rsi | rdi
  | r8 | r9 | r10 | r11 | r12 | r13 | r14 | r15
  deriving DecidableEq, Repr

/-- A register as a caller names it: any byte. -/
structure Reg where
  /-- The register number. -/
  encoding : UInt8
  deriving DecidableEq, Repr

namespace Gpr

/-- All registers, each at the position of its hardware number. -/
def all : List Gpr :=
  [rax, rcx, rdx, rbx, rsp, rbp, rsi, rdi, r8, r9, r10, r11, r12, r13, r14, r15]

def encoding : Gpr → UInt8
  | rax => 0 | rcx => 1 | rdx => 2 | rbx => 3 | rsp => 4 | rbp => 5 | rsi => 6 | rdi => 7
  | r8 => 8 | r9 => 9 | r10 => 10 | r11 => 11 | r12 => 12 | r13 => 13 | r14 => 14 | r15 => 15

def name : Gpr → String
  | rax => "RAX" | rcx => "RCX" | rdx => "RDX" | rbx => "RBX"
  | rsp => "RSP" | rbp => "RBP" | rsi => "RSI" | rdi => "RDI"
  | r8 => "R8" | r9 => "R9" | r10 => "R10" | r11 => "R11"
  | r12 => "R12" | r13 => "R13" | r14 => "R14" | r15 => "R15"

/-- A register named by its number. -/
def toReg (g : Gpr) : Reg := ⟨g.encoding⟩

/-- The register with a given number, or none from sixteen on. -/
def ofEncoding? (e : UInt8) : Option Gpr := all[e.toNat]?

theorem ofEncoding?_encoding (g : Gpr) : ofEncoding? g.encoding = some g := by
  cases g <;> rfl

end Gpr

namespace Reg

/-- The numbers that name a register are those below sixteen. -/
def Valid (r : Reg) : Prop := r.encoding < 16

instance (r : Reg) : Decidable r.Valid := inferInstanceAs (Decidable (r.encoding < 16))

/-- The register that `r` names, if it names one. -/
def gpr? (r : Reg) : Option Gpr := Gpr.ofEncoding? r.encoding

/-- The three low bits of the register number. -/
def low3 (r : Reg) : UInt8 := r.encoding &&& 0b111

/-- Bit 3 of the register number: the register needs an extension bit in the REX prefix. -/
def extended (r : Reg) : Bool := r.encoding &&& 0b1000 != 0

/-- The name of the register, or for a number that names none, the number itself. -/
def name (r : Reg) : String :=
  match r.gpr? with
  | some g => g.name
  | none => "Reg64(" ++ Numeral.decimal r.encoding.toNat ++ ")"

/-- A number names a register **exactly when it is below sixteen**. -/
theorem isSome_gpr?_iff (r : Reg) : r.gpr?.isSome ↔ r.Valid := by
  simp [gpr?, Gpr.ofEncoding?, Valid, Gpr.all, UInt8.lt_iff_toNat_lt]

theorem eq_toReg_of_gpr? {r : Reg} {g : Gpr} (h : r.gpr? = some g) : r = g.toReg := by
  obtain ⟨e⟩ := r
  simp only [gpr?, Gpr.ofEncoding?, Gpr.all] at h
  have hlt : e.toNat < 16 := (List.getElem?_eq_some_iff.mp h).1
  have he : e = UInt8.ofNat e.toNat := (UInt8.ofNat_toNat).symm
  generalize e.toNat = n at h hlt he
  subst he
  match n, hlt, h with
  | 0, _, h | 1, _, h | 2, _, h | 3, _, h | 4, _, h | 5, _, h | 6, _, h | 7, _, h
  | 8, _, h | 9, _, h | 10, _, h | 11, _, h | 12, _, h | 13, _, h | 14, _, h | 15, _, h =>
    cases Option.some.inj h
    rfl

@[simp] theorem gpr?_toReg (g : Gpr) : g.toReg.gpr? = some g := g.ofEncoding?_encoding

end Reg

namespace Gpr

def low3 (g : Gpr) : UInt8 := g.toReg.low3

/-- Whether the register is one of the upper eight, which need an extension bit. -/
def extended (g : Gpr) : Bool := g.toReg.extended

end Gpr

end MachineCode
