import MachineCode.Proofs.PartSetting

/-!
# Operands are checked exactly

A builder of addresses succeeds exactly if its registers are registers and its factor is 1, 2, 4 or
8 (`Address.Request.screens`), and then the address holds what the builder was given
(`Address.Request.build_eq_ok_iff`). An encoder succeeds exactly if its operands are valid
(`Instruction.screens`). What callers see besides is the memory operand or encoding that they hold
after a refusal, and the length of an encoding that was made (`Instruction.Measured`).
-/
namespace MachineCode

/-! ### Factors -/

/-- The factors by which an index can be multiplied. -/
def Scale.factors : List UInt8 := [1, 2, 4, 8]

theorem Scale.mem_factors {factor : UInt8} :
    factor ∈ factors ↔ factor = 1 ∨ factor = 2 ∨ factor = 4 ∨ factor = 8 := by
  simp [factors]

def Scale.faults (factor : UInt8) : List Fault := faultUnless (factor ∈ factors) (.scale factor)

theorem Scale.screens (factor : UInt8) :
    Screens (ofFactor factor) (factor ∈ factors) (faults factor) := by
  refine .single ?_ ?_ rfl
  · intro hmem
    rcases mem_factors.mp hmem with rfl | rfl | rfl | rfl
    · exact ⟨one, rfl⟩
    · exact ⟨two, rfl⟩
    · exact ⟨four, rfl⟩
    · exact ⟨eight, rfl⟩
  · intro hmem
    rw [mem_factors, not_or, not_or, not_or] at hmem
    obtain ⟨h1, h2, h4, h8⟩ := hmem
    rw [ofFactor, if_neg h1, if_neg h2, if_neg h4, if_neg h8]

theorem Scale.ofFactor_eq_ok_iff {factor : UInt8} {s : Scale} :
    ofFactor factor = .ok s ↔ factor = s.factor := by
  constructor
  · intro h
    have hmem : factor ∈ factors := (screens factor).succeeds_iff.mp ⟨s, h⟩
    rcases mem_factors.mp hmem with rfl | rfl | rfl | rfl
    all_goals
      cases h
      rfl
  · rintro rfl
    cases s <;> rfl

/-! ### Building addresses -/

namespace Address

/-- A call of one of the builders of addresses. -/
inductive Request where
  | ofBase (base : Reg) (disp : UInt32)
  | ofNext (disp : UInt32)
  | ofIndex (index : Reg) (factor : UInt8) (disp : UInt32)
  | ofBaseIndex (base index : Reg) (factor : UInt8) (disp : UInt32)
  deriving DecidableEq, Repr

namespace Request

/-- What the builder answers. -/
def build : Request → Except Fault Address
  | ofBase base disp => Address.ofBase base disp
  | ofNext disp => .ok (ripRelative disp)
  | ofIndex index factor disp => Address.ofIndex index factor disp
  | ofBaseIndex base index factor disp => Address.ofBaseIndex base index factor disp

/-- The memory operand that a caller gets: one that was never built, if the builder refuses. -/
def memory (r : Request) : Memory :=
  match r.build with
  | .ok a => .place a
  | .error _ => .unset

/-- Registers have to be registers and the factor has to be 1, 2, 4 or 8. -/
def Valid : Request → Prop
  | ofBase base _ => base.Valid
  | ofNext _ => True
  | ofIndex index factor _ => index.Valid ∧ factor ∈ Scale.factors
  | ofBaseIndex base index factor _ => base.Valid ∧ index.Valid ∧ factor ∈ Scale.factors

/-- What is wrong with the request: base before index before factor. -/
def faults : Request → List Fault
  | ofBase base _ => base.faults
  | ofNext _ => []
  | ofIndex index factor _ => index.faults ++ Scale.faults factor
  | ofBaseIndex base index factor _ => base.faults ++ (index.faults ++ Scale.faults factor)

theorem screens (r : Request) : Screens r.build r.Valid r.faults := by
  -- Both builders with an index end in the same two checks.
  have hindexed : ∀ (index : Reg) (factor : UInt8) (made : Gpr → Scale → Address),
      Screens (do return made (← index.check) (← Scale.ofFactor factor))
        (index.Valid ∧ factor ∈ Scale.factors) (index.faults ++ Scale.faults factor) := by
    intro index factor made
    refine (index.screens.bind fun i _ => (Scale.screens factor).bind fun s _ => ?_).congr
      (by rw [and_true]) (by rw [List.append_nil])
    exact .of_ok rfl
  cases r with
  | ofBase base disp =>
    exact (base.screens.bind fun b _ => .of_ok rfl).congr (and_iff_left trivial) (List.append_nil _)
  | ofNext disp => exact .of_ok rfl
  | ofIndex index factor disp => exact hindexed index factor fun i s => indexed none i s disp
  | ofBaseIndex base index factor disp =>
    exact base.screens.bind fun b _ => hindexed index factor fun i s => indexed (some b) i s disp

/-- The request for an address, by the numbers of its registers and its factor. -/
def ofAddress : Address → Request
  | based b d => ofBase b.toReg d
  | ripRelative d => ofNext d
  | indexed none i s d => ofIndex i.toReg s.factor d
  | indexed (some b) i s d => ofBaseIndex b.toReg i.toReg s.factor d

/-- **An address holds what its builder was given**, and every address comes out of a builder. -/
theorem build_eq_ok_iff {r : Request} {a : Address} : r.build = .ok a ↔ r = ofAddress a := by
  constructor
  · intro h
    cases r with
    | ofBase base disp =>
      obtain ⟨b, hb, h⟩ := bind_eq_ok.mp h
      cases h
      rw [Reg.check_eq_ok_iff.mp hb, ofAddress]
    | ofNext disp =>
      cases h
      rfl
    | ofIndex index factor disp =>
      obtain ⟨i, hi, h⟩ := bind_eq_ok.mp h
      obtain ⟨s, hs, h⟩ := bind_eq_ok.mp h
      cases h
      rw [Reg.check_eq_ok_iff.mp hi, Scale.ofFactor_eq_ok_iff.mp hs, ofAddress]
    | ofBaseIndex base index factor disp =>
      obtain ⟨b, hb, h⟩ := bind_eq_ok.mp h
      obtain ⟨i, hi, h⟩ := bind_eq_ok.mp h
      obtain ⟨s, hs, h⟩ := bind_eq_ok.mp h
      cases h
      rw [Reg.check_eq_ok_iff.mp hb, Reg.check_eq_ok_iff.mp hi, Scale.ofFactor_eq_ok_iff.mp hs,
        ofAddress]
  · rintro rfl
    match a with
    | based b d =>
      rw [ofAddress, build, Address.ofBase, Reg.check_toReg]
      rfl
    | .ripRelative d => rfl
    | indexed none i s d =>
      rw [ofAddress, build, Address.ofIndex, Reg.check_toReg, ok_bind,
        Scale.ofFactor_eq_ok_iff.mpr rfl]
      rfl
    | indexed (some b) i s d =>
      rw [ofAddress, build, Address.ofBaseIndex, Reg.check_toReg, ok_bind, Reg.check_toReg, ok_bind,
        Scale.ofFactor_eq_ok_iff.mpr rfl]
      rfl

theorem memory_eq_unset_iff (r : Request) : r.memory = .unset ↔ ¬ r.Valid := by
  rw [← r.screens.succeeds_iff, memory]
  cases hr : r.build with
  | ok a => simp
  | error f => simp

end Request

end Address

/-! ### Encoding -/

namespace Instruction

/-- How long the encoding of an instruction is. -/
structure Measured (i : Instruction) (e : Encoding) : Prop where
  /-- With an rm operand, three bytes and what the operand asks for. -/
  rm : ∀ o ∈ i.rm?, o.sib = .ok e.sib ∧ o.displacement = .ok e.displacement ∧
    e.length = 3 + Encoding.optionLength e.sib + e.displacement.length ∧
    3 ≤ e.length ∧ e.length ≤ 8
  /-- The move of a constant has none. -/
  constant : i.rm? = none → e.length = 10
  /-- So many bytes are written. -/
  serialize : ∃ s, e.serialize = .ok s ∧ s.length = e.length

theorem measured_of_encode {i : Instruction} {e : Encoding} (h : i.encode = .ok e) :
    i.Measured e := by
  have hvalid : i.Valid := i.screens.succeeds_iff.mp ⟨e, h⟩
  refine ⟨?_, ?_, ?_⟩
  · intro o ho
    obtain ⟨opcode, hencode⟩ := encode_of_rm? ho
    obtain ⟨hreg, hoperand⟩ := (valid_iff_of_rm? ho).mp hvalid
    obtain ⟨t, ht, hsib, hdisplacement, hlength, hle⟩ :=
      exists_encodeRegRm_of_valid opcode hreg hoperand
    rw [hencode, ht] at h
    cases h
    exact ⟨hsib, hdisplacement, hlength, by omega, hle⟩
  · intro hnone
    obtain ⟨value, hencode⟩ := encode_of_rm?_eq_none hnone
    obtain ⟨t, ht, hlength⟩ := exists_encodeConstant_of_valid hvalid.1 value
    rw [hencode, ht] at h
    cases h
    exact hlength
  · obtain ⟨s, hs, hbytes⟩ := Encoding.serialize_eq_ok (length_le_of_encode h)
    exact ⟨s, hs, by rw [← s.length_bytes, hbytes, Encoding.length_parts]⟩

/-- A caller gets an encoding without parts exactly if an operand is refused. -/
theorem encodeOrEmpty_eq_empty_iff (i : Instruction) : i.encodeOrEmpty = .empty ↔ ¬ i.Valid := by
  rw [← i.screens.succeeds_iff, encodeOrEmpty]
  cases he : i.encode with
  | error f => simp
  | ok e =>
    have hmeasured := measured_of_encode he
    have hpos : 0 < e.length := by
      cases hrm : i.rm? with
      | some o =>
        obtain ⟨_, _, _, hle, _⟩ := hmeasured.rm o hrm
        omega
      | none =>
        have := hmeasured.constant hrm
        omega
    refine ⟨?_, fun hnot => absurd ⟨e, rfl⟩ hnot⟩
    rintro rfl
    exact absurd hpos (Nat.lt_irrefl 0)

/-- **Operands are checked exactly, and nothing else fails.** A builder of addresses succeeds
exactly if its registers are registers and its factor is 1, 2, 4 or 8, and gives the address with
just these; every address comes out of a builder. An encoder succeeds exactly if its registers are
registers and its memory operand was built. Whatever is refused is refused for the range of an
operand, for the first that is out of range, and leaves a caller with a memory operand that was
never built or an encoding without parts. Whatever is encoded has the length of its pieces and can
be written out. -/
theorem operands_checked_exactly :
    (∀ r : Address.Request, Screens r.build r.Valid r.faults ∧ (r.memory = .unset ↔ ¬ r.Valid)) ∧
    (∀ (r : Address.Request) (a : Address), r.build = .ok a ↔ r = .ofAddress a) ∧
    (∀ i : Instruction,
      Screens i.encode i.Valid i.faults ∧ (i.encodeOrEmpty = .empty ↔ ¬ i.Valid)) ∧
    ∀ (i : Instruction) (e : Encoding), i.encode = .ok e → i.Measured e := by
  refine ⟨?_, fun r a => Address.Request.build_eq_ok_iff, ?_, ?_⟩
  · intro r
    exact ⟨r.screens, r.memory_eq_unset_iff⟩
  · intro i
    exact ⟨i.screens, i.encodeOrEmpty_eq_empty_iff⟩
  · intro i e h
    exact measured_of_encode h

end Instruction

end MachineCode
