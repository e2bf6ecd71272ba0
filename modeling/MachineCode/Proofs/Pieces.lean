import MachineCode.Instruction
import MachineCode.Proofs.Fields
import MachineCode.Proofs.Serialization

/-!
# What an operand contributes to an instruction

An instruction with a reg and an rm operand is made of the `Pieces` that the rm operand
contributes: the mode and rm fields, perhaps a SIB byte, the displacement bytes and two bits of
the REX prefix. The encoder asks for each of them in a step of its own that might fail. Here they
are plain data: what the pieces of an address are is said once, without failures, by
`Address.sib?` and `Address.displacementBytes`, and the encoder is shown to ask for nothing else
(`Operand.Resolves`) and to put them together without ever failing
(`Instruction.encodeRegRm_eq_ok`). The move of a constant has no rm operand and is treated beside
it (`Instruction.encodeConstant_eq_ok`).
-/
namespace MachineCode

/-! ### Registers -/

namespace Gpr

theorem low3_le (g : Gpr) : g.low3 ≤ 7 := by
  cases g <;> decide

/-- Two registers share their low bits with the code for a SIB byte. -/
theorem low3_eq_rmSib_iff (g : Gpr) : g.low3 = Address.rmSib ↔ g = .rsp ∨ g = .r12 := by
  cases g <;> decide

/-- Two registers share their low bits with the code for no base. -/
theorem low3_eq_noBase_iff (g : Gpr) : g.low3 = Address.noBase ↔ g = .rbp ∨ g = .r13 := by
  cases g <;> decide

end Gpr

/-! ### What an operand contributes -/

namespace Address

theorem bits_le (s : Scale) : s.bits ≤ 3 := by
  cases s <;> decide

def sib? : Address → Option Sib
  | based b _ => if b.low3 = rmSib then some (.join 0 noIndex b.low3) else none
  | ripRelative _ => none
  | indexed b i s _ => some (.join s.bits i.low3 (b.elim noBase Gpr.low3))

theorem sib_eq_ok (a : Address) : a.sib = .ok a.sib? := by
  cases a with
  | based b d =>
    rw [sib, sib?]
    split
    · rw [Packed.ofFields_eq_join (by decide) (by decide) b.low3_le]
      rfl
    · rfl
  | ripRelative d => rfl
  | indexed b i s d =>
    have hbase : b.elim noBase Gpr.low3 ≤ 7 := by
      cases b with
      | none => decide
      | some b => exact b.low3_le
    rw [sib, sib?, Packed.ofFields_eq_join (bits_le s) i.low3_le hbase]
    rfl

/-- The displacement bytes behind a base register: none for zero, unless the base cannot do
without; one up to 256; otherwise four. -/
def baseDisplacement (base : Gpr) (disp : UInt32) : List UInt8 :=
  if disp = 0 then if base = .rbp ∨ base = .r13 then [0] else []
  else if disp ≤ 256 then [disp.toUInt8]
  else LittleEndian.word32 disp

/-- The displacement bytes. Without a base register there are always four. -/
def displacementBytes : Address → List UInt8
  | based b d => baseDisplacement b d
  | ripRelative d => LittleEndian.word32 d
  | indexed (some b) _ _ d => baseDisplacement b d
  | indexed none _ _ d => LittleEndian.word32 d

/-- The mode for a base register and the number of its displacement bytes are chosen alike. -/
theorem baseMode_cases (b : Gpr) (d : UInt32) :
    (baseMode b d = .plain ∧ baseDisplacement b d = [] ∧ d = 0 ∧ ¬ (b = .rbp ∨ b = .r13)) ∨
    (baseMode b d = .short ∧ baseDisplacement b d = [d.toUInt8] ∧ d ≤ 256 ∧
      (d = 0 → b = .rbp ∨ b = .r13)) ∨
    (baseMode b d = .long ∧ baseDisplacement b d = LittleEndian.word32 d ∧ 256 < d) := by
  by_cases hzero : d = 0
  · subst hzero
    by_cases hb : b = .rbp ∨ b = .r13
    · exact .inr (.inl (by simp [baseMode, dispMode, baseDisplacement, hb]))
    · exact .inl (by simp [baseMode, dispMode, baseDisplacement, hb])
  · by_cases hshort : d ≤ 256
    · exact .inr (.inl (by simp [baseMode, dispMode, baseDisplacement, hzero, hshort]))
    · exact .inr (.inr (by
        simp [baseMode, dispMode, baseDisplacement, hzero, hshort, UInt32.not_le.mp hshort]))

theorem exists_displacement_eq_ok (a : Address) :
    ∃ s, a.displacement = .ok s ∧ s.bytes = a.displacementBytes := by
  have hbased : ∀ b, a.base? = some b → a.mode = baseMode b a.disp →
      ∃ s, a.displacement = .ok s ∧ s.bytes = baseDisplacement b a.disp := by
    intro b hbase hmode
    rw [displacement, hmode, hbase]
    rcases baseMode_cases b a.disp with ⟨hm, hd, _⟩ | ⟨hm, hd, _⟩ | ⟨hm, hd, _⟩
    · rw [hm, hd]
      exact ⟨.empty, rfl, rfl⟩
    · rw [hm, hd]
      exact ⟨.ofByte a.disp.toUInt8, rfl, rfl⟩
    · obtain ⟨s, hs, hb⟩ :=
        ShortBytes.exists_ofUInt32_eq_ok (c := .displacement) (Nat.le_refl 4) a.disp
      rw [hm, hd]
      exact ⟨s, congrArg assured hs, hb⟩
  have hbaseless : a.base? = none → a.mode = .plain →
      ∃ s, a.displacement = .ok s ∧ s.bytes = LittleEndian.word32 a.disp := by
    intro hbase hmode
    obtain ⟨s, hs, hb⟩ :=
      ShortBytes.exists_ofUInt32_eq_ok (c := .displacement) (Nat.le_refl 4) a.disp
    rw [displacement, hmode, hbase]
    exact ⟨s, congrArg assured hs, hb⟩
  match a, hbased, hbaseless with
  | based b d, hbased, _ => exact hbased b rfl rfl
  | ripRelative d, _, hbaseless => exact hbaseless rfl rfl
  | indexed (some b) i s d, hbased, _ => exact hbased b rfl rfl
  | indexed none i s d, _, hbaseless => exact hbaseless rfl rfl

theorem rm_le (a : Address) : a.rm ≤ 7 := by
  cases a with
  | based b d => exact b.low3_le
  | ripRelative d => exact (by decide : rmRip ≤ 7)
  | indexed b i s d => exact (by decide : rmSib ≤ 7)

end Address

/-- What an operand contributes to an instruction. -/
structure Pieces where
  mode : Mode
  rm : UInt8
  sib : Option Sib
  displacement : List UInt8
  rexX : Bool
  rexB : Bool

/-- A register contributes its number and nothing else. -/
def Gpr.pieces (g : Gpr) : Pieces where
  mode := .direct
  rm := g.low3
  sib := none
  displacement := []
  rexX := false
  rexB := g.extended

/-- What an address contributes. -/
def Address.pieces (a : Address) : Pieces where
  mode := a.mode
  rm := a.rm
  sib := a.sib?
  displacement := a.displacementBytes
  rexX := a.rexX
  rexB := a.rexB

/-- The code of an instruction with a reg and an rm operand. -/
def Pieces.code (opcode : UInt8) (reg : Gpr) (p : Pieces) : List UInt8 :=
  (Rex.ofFlags true reg.extended p.rexX p.rexB).byte :: opcode ::
    (Packed.join p.mode.bits reg.low3 p.rm : ModRM).byte ::
      ((p.sib.map Packed.byte).toList ++ p.displacement)

/-- The operand is accepted and contributes these pieces. -/
structure Operand.Resolves (o : Operand) (p : Pieces) : Prop where
  check : o.check = .ok ()
  mode : o.mode = .ok p.mode
  rm : o.rm = .ok p.rm
  sib : o.sib = .ok p.sib
  displacement : ∃ s, o.displacement = .ok s ∧ s.bytes = p.displacement
  rexX : o.rexX = p.rexX
  rexB : o.rexB = p.rexB
  rm_le : p.rm ≤ 7

theorem Operand.resolves_register (g : Gpr) : (Operand.register g.toReg).Resolves g.pieces where
  check := by rw [Operand.check, Reg.check_toReg]; rfl
  mode := rfl
  rm := rfl
  sib := rfl
  displacement := ⟨.empty, rfl, rfl⟩
  rexX := rfl
  rexB := rfl
  rm_le := g.low3_le

theorem Operand.resolves_memory (a : Address) : (Operand.memory (.place a)).Resolves a.pieces where
  check := rfl
  mode := rfl
  rm := rfl
  sib := a.sib_eq_ok
  displacement := a.exists_displacement_eq_ok
  rexX := rfl
  rexB := rfl
  rm_le := a.rm_le

/-! ### Encoding -/

namespace Pieces

/-- The encoding that is made of these pieces, with the displacement in `s`. -/
def encoding (opcode : UInt8) (reg : Gpr) (p : Pieces) (s : ShortBytes .displacement) :
    Encoding where
  legacy := none
  rex := some (.ofFlags true reg.extended p.rexX p.rexB)
  opcode := .ofByte opcode
  modRM := some (.join p.mode.bits reg.low3 p.rm)
  sib := p.sib
  displacement := s
  immediate := .empty

variable {opcode : UInt8} {reg : Gpr} {p : Pieces} {s : ShortBytes .displacement}

theorem parts_encoding (h : s.bytes = p.displacement) :
    (p.encoding opcode reg s).parts = p.code opcode reg := by
  simp [encoding, Encoding.parts, code, h]

theorem length_encoding_le : (p.encoding opcode reg s).length ≤ 8 := by
  have hsib : Encoding.optionLength p.sib ≤ 1 := by
    rw [Encoding.optionLength]
    split <;> decide
  have hdisp : s.length ≤ 4 := s.length_le
  show 0 + 1 + 1 + 1 + Encoding.optionLength p.sib + s.length + 0 ≤ 8
  omega

end Pieces

namespace Instruction

theorem place_eq_ok {e : Encoding} {p : Encoding.Part}
    (h : (e.replace p).length ≤ maxInstructionLength) : place e p = .ok (e.replace p) := by
  rw [place, Encoding.set_eq_ok h, assured_ok]

/-- Encoding an accepted operand **cannot fail**, and puts its pieces together. -/
theorem encodeRegRm_eq_ok (opcode : UInt8) (reg : Gpr) {o : Operand} {p : Pieces}
    (h : o.Resolves p) {s : ShortBytes .displacement} (hs : o.displacement = .ok s) :
    encodeRegRm opcode reg.toReg o = .ok (p.encoding opcode reg s) := by
  have hmode : p.mode.bits ≤ 3 := by cases p.mode <;> decide
  have hmodRM : Packed.ofFields p.mode.bits reg.low3 p.rm =
      .ok (.join p.mode.bits reg.low3 p.rm : ModRM) :=
    Packed.ofFields_eq_join hmode reg.low3_le h.rm_le
  have hbits : reg.toReg.low3 = reg.low3 := rfl
  have hext : reg.toReg.extended = reg.extended := rfl
  have hlen : (p.encoding opcode reg s).length ≤ maxInstructionLength :=
    Nat.le_trans Pieces.length_encoding_le (by decide)
  simp only [encodeRegRm, Reg.check_toReg, h.check, h.mode, h.rm, h.sib, hs, h.rexX, h.rexB,
    hmodRM, assured_ok, discard_ok, ok_bind, hbits, hext]
  -- Until the displacement is placed the lengths are plain numbers.
  rw [place_eq_ok (Nat.le_of_ble_eq_true rfl), ok_bind,
    place_eq_ok (Nat.le_of_ble_eq_true rfl), ok_bind,
    place_eq_ok (Nat.le_of_ble_eq_true rfl), ok_bind]
  obtain ⟨mode, rm, sib, displacement, rexX, rexB⟩ := p
  cases sib with
  | none => exact place_eq_ok hlen
  | some t =>
    rw [placeSib, place_eq_ok (Nat.le_of_ble_eq_true rfl), ok_bind]
    exact place_eq_ok hlen

theorem exists_encodeRegRm_eq_ok (opcode : UInt8) (reg : Gpr) {o : Operand} {p : Pieces}
    (h : o.Resolves p) :
    ∃ e, encodeRegRm opcode reg.toReg o = .ok e ∧ e.length ≤ maxInstructionLength ∧
      e.parts = p.code opcode reg := by
  obtain ⟨s, hs, hb⟩ := h.displacement
  exact ⟨p.encoding opcode reg s, encodeRegRm_eq_ok opcode reg h hs,
    Nat.le_trans Pieces.length_encoding_le (by decide), Pieces.parts_encoding hb⟩

/-- The encoding of a move of a constant, with the constant in `s`. -/
def constantEncoding (dst : Gpr) (s : ShortBytes .immediate) : Encoding where
  legacy := none
  rex := some (.ofFlags true false false dst.extended)
  opcode := .ofByte (opcodeConstant + dst.low3)
  modRM := none
  sib := none
  displacement := .empty
  immediate := s

theorem length_constantEncoding_le (dst : Gpr) (s : ShortBytes .immediate) :
    (constantEncoding dst s).length ≤ 10 := by
  have hs : s.length ≤ 8 := s.length_le
  show 0 + 1 + 1 + 0 + 0 + 0 + s.length ≤ 10
  omega

theorem encodeConstant_eq_ok (dst : Gpr) {value : UInt64} {s : ShortBytes .immediate}
    (hs : ShortBytes.ofUInt64 value = .ok s) :
    encodeConstant dst.toReg value = .ok (constantEncoding dst s) := by
  have hlen : (constantEncoding dst s).length ≤ maxInstructionLength :=
    Nat.le_trans (length_constantEncoding_le dst s) (by decide)
  simp only [encodeConstant, Reg.check_toReg, hs, assured_ok, discard_ok, ok_bind]
  rw [place_eq_ok (Nat.le_of_ble_eq_true rfl), ok_bind,
    place_eq_ok (Nat.le_of_ble_eq_true rfl), ok_bind]
  exact place_eq_ok hlen

end Instruction

end MachineCode
