import MachineCode.Proofs.Pieces

/-!
# Which operands are refused, and why

The encoders look at their operands one after the other and stop at the first one that is wrong, and
so do the builders of addresses. `Screens x valid faults` is all there is to know about such an
operation `x`: it succeeds exactly on valid operands, and otherwise it reports the first of the
faults that the operands have, which is a fault of range. Checks that are made in sequence have
their faults in sequence (`Screens.bind`), so the order of the faults is the order of the checks.

Behind its checks an encoder takes steps that are `assured`. That none of them fails is no matter of
the checks alone. It rests on what the pieces of an operand are, and on the limit of an instruction
being out of their reach (`Instruction.encodeRegRm_eq_ok`). Here it appears as a check that has no
faults to report, and the encoders are described like any other check (`Instruction.screens`).
-/
namespace MachineCode

/-- An operation succeeds exactly on valid operands, and otherwise reports the first of their
faults, a fault of range. -/
structure Screens {α : Type} (x : Except Fault α) (valid : Prop) (faults : List Fault) : Prop where
  succeeds_iff : (∃ a, x = .ok a) ↔ valid
  reports_iff : ∀ f, x = .error f ↔ faults.head? = some f
  kind : ∀ f, x = .error f → f.kind = .fieldOutOfRange

/-- The fault `f`, unless `valid` holds. -/
def faultUnless (valid : Prop) [Decidable valid] (f : Fault) : List Fault :=
  if valid then [] else [f]

/-! ### Checks in sequence -/

namespace Screens

variable {α β : Type} {x : Except Fault α} {valid valid' : Prop} {faults faults' : List Fault}

/-- What has succeeded was valid. -/
theorem of_ok {a : α} (h : x = .ok a) : Screens x True [] where
  succeeds_iff := ⟨fun _ => trivial, fun _ => ⟨a, h⟩⟩
  reports_iff := by
    intro f
    rw [h]
    exact ⟨fun he => (by cases he), fun he => (by cases he)⟩
  kind := by
    intro f he
    rw [h] at he
    cases he

/-- A single check. -/
theorem single [Decidable valid] {f : Fault} (hok : valid → ∃ a, x = .ok a)
    (herror : ¬ valid → x = .error f) (hkind : f.kind = .fieldOutOfRange) :
    Screens x valid (faultUnless valid f) := by
  by_cases hvalid : valid
  · obtain ⟨a, ha⟩ := hok hvalid
    rw [faultUnless, if_pos hvalid]
    obtain ⟨_, hreports, hkind⟩ := of_ok ha
    exact ⟨⟨fun _ => hvalid, hok⟩, hreports, hkind⟩
  · have hx := herror hvalid
    subst hx
    rw [faultUnless, if_neg hvalid]
    refine ⟨⟨?_, fun h => absurd h hvalid⟩, ?_, ?_⟩
    · rintro ⟨a, ha⟩
      cases ha
    · intro g
      rw [List.head?_cons, Except.error.injEq, Option.some.injEq]
    · rintro g ⟨⟩
      exact hkind

/-- **Checks compose**: the faults of the first come before those of the second. -/
theorem bind {next : α → Except Fault β} (hx : Screens x valid faults)
    (hnext : ∀ a, x = .ok a → Screens (next a) valid' faults') :
    Screens (x >>= next) (valid ∧ valid') (faults ++ faults') := by
  cases x with
  | error f =>
    have hinvalid : ¬ valid := by
      intro h
      obtain ⟨a, ha⟩ := hx.succeeds_iff.mpr h
      cases ha
    -- The second check is not made, and the first fault of both is the first of this one.
    have hfirst : faults.head? = some f := (hx.reports_iff f).mp rfl
    refine ⟨⟨?_, fun h => absurd h.1 hinvalid⟩, ?_, ?_⟩
    · rintro ⟨b, hb⟩
      cases hb
    · intro g
      rw [error_bind, List.head?_append, hfirst, Option.some_or, Except.error.injEq,
        Option.some.injEq]
    · rintro g ⟨⟩
      exact hx.kind f rfl
  | ok a =>
    have hvalid : valid := hx.succeeds_iff.mp ⟨a, rfl⟩
    -- Nothing was wrong so far, so the first fault of both is the first of the second check.
    have hnone : faults.head? = none := by
      cases hhead : faults.head? with
      | none => rfl
      | some f => cases (hx.reports_iff f).mpr hhead
    obtain ⟨hsucceeds, hreports, hkind⟩ := hnext a rfl
    refine ⟨?_, ?_, hkind⟩
    · rw [ok_bind, hsucceeds]
      exact ⟨fun h => ⟨hvalid, h⟩, And.right⟩
    · intro g
      rw [ok_bind, hreports, List.head?_append, hnone, Option.none_or]

theorem congr (h : Screens x valid faults) (hvalid : valid ↔ valid') (hfaults : faults = faults') :
    Screens x valid' faults' :=
  hfaults ▸ ⟨h.succeeds_iff.trans hvalid, h.reports_iff, h.kind⟩

/-- Only success and failure count, not the value. -/
theorem discard (h : Screens x valid faults) : Screens (Functor.discard x) valid faults := by
  have hbind : Functor.discard x = (x >>= fun _ => .ok ()) := by cases x <;> rfl
  rw [hbind]
  exact (h.bind fun _ _ => of_ok rfl).congr (and_iff_left trivial) (List.append_nil _)

end Screens

/-! ### Operands -/

def Reg.faults (r : Reg) : List Fault := faultUnless r.Valid (.register r)

theorem Reg.screens (r : Reg) : Screens r.check r.Valid r.faults := by
  refine .single ?_ (fun hinvalid => check_eq_error_iff.mpr ⟨hinvalid, rfl⟩) rfl
  intro hvalid
  obtain ⟨g, hg⟩ := Option.isSome_iff_exists.mp ((isSome_gpr?_iff r).mpr hvalid)
  exact ⟨g, check_eq_ok_iff.mpr (eq_toReg_of_gpr? hg)⟩

/-- An operand is valid if it names one of the sixteen registers or was built. -/
def Operand.Valid : Operand → Prop
  | register r => r.Valid
  | memory m => m ≠ .unset

instance (o : Operand) : Decidable o.Valid :=
  match o with
  | .register r => inferInstanceAs (Decidable r.Valid)
  | .memory m => inferInstanceAs (Decidable (m ≠ .unset))

/-- What is wrong with an operand that goes into the rm field. -/
def Operand.faults : Operand → List Fault
  | register r => r.faults
  | memory m => faultUnless (m ≠ .unset) .memoryUnset

theorem Operand.screens (o : Operand) : Screens o.check o.Valid o.faults := by
  match o with
  | register r => exact r.screens.discard
  | memory .unset => exact .single (fun h => absurd rfl h) (fun _ => rfl) rfl
  | memory (.place a) =>
    exact .single (fun _ => ⟨(), rfl⟩) (fun h => absurd Memory.noConfusion h) rfl

theorem Operand.exists_resolves {o : Operand} (h : o.Valid) : ∃ p, o.Resolves p := by
  match o, h with
  | register r, h =>
    obtain ⟨g, hg⟩ := r.screens.succeeds_iff.mpr h
    rw [Reg.check_eq_ok_iff.mp hg]
    exact ⟨g.pieces, resolves_register g⟩
  | memory .unset, h => exact absurd rfl h
  | memory (.place a), _ => exact ⟨a.pieces, resolves_memory a⟩

/-! ### Encoders -/

namespace Instruction

/-- The operand that goes into the reg field, or into the opcode. -/
def reg : Instruction → Reg
  | lea dst _ => dst
  | load dst _ => dst
  | store _ src => src
  | copy _ src => src
  | move _ src => src
  | constant dst _ => dst

/-- The operand that goes into the rm field, if there is one. -/
def rm? : Instruction → Option Operand
  | lea _ src => some (.memory src)
  | load _ src => some (.memory src)
  | store dst _ => some (.memory dst)
  | copy dst _ => some (.register dst)
  | move dst _ => some dst
  | constant _ _ => none

/-- An instruction is valid if all its operands are. -/
def Valid (i : Instruction) : Prop := i.reg.Valid ∧ ∀ o ∈ i.rm?, o.Valid

instance (i : Instruction) : Decidable i.Valid := inferInstanceAs (Decidable (_ ∧ _))

theorem valid_iff_of_rm? {i : Instruction} {o : Operand} (h : i.rm? = some o) :
    i.Valid ↔ i.reg.Valid ∧ o.Valid := by
  simp [Valid, h]

/-- What is wrong with the operands of an instruction: the reg operand before the rm operand. -/
def faults (i : Instruction) : List Fault := i.reg.faults ++ i.rm?.toList.flatMap Operand.faults

/-- An encoder puts the pieces of its rm operand behind three bytes of its own. -/
theorem exists_encodeRegRm_of_valid (opcode : UInt8) {reg : Reg} {o : Operand} (hreg : reg.Valid)
    (ho : o.Valid) :
    ∃ e, encodeRegRm opcode reg o = .ok e ∧ o.sib = .ok e.sib ∧
      o.displacement = .ok e.displacement ∧
      e.length = 3 + Encoding.optionLength e.sib + e.displacement.length ∧ e.length ≤ 8 := by
  obtain ⟨g, hg⟩ := reg.screens.succeeds_iff.mpr hreg
  obtain ⟨p, hp⟩ := Operand.exists_resolves ho
  obtain ⟨s, hs, _⟩ := hp.displacement
  rw [Reg.check_eq_ok_iff.mp hg]
  exact ⟨p.encoding opcode g s, encodeRegRm_eq_ok opcode g hp hs, hp.sib, hs, rfl,
    Pieces.length_encoding_le⟩

theorem screens_encodeRegRm (opcode : UInt8) (reg : Reg) (o : Operand) :
    Screens (encodeRegRm opcode reg o) (reg.Valid ∧ o.Valid) (reg.faults ++ o.faults) := by
  refine (reg.screens.discard.bind fun _ hreg => o.screens.bind fun _ ho => ?_).congr
    (by rw [and_true]) (by rw [List.append_nil])
  -- What follows the two checks is the whole encoder on operands that pass them.
  have hregValid : reg.Valid := reg.screens.discard.succeeds_iff.mp ⟨_, hreg⟩
  have hoValid : o.Valid := o.screens.succeeds_iff.mp ⟨_, ho⟩
  obtain ⟨e, he, _⟩ := exists_encodeRegRm_of_valid opcode hregValid hoValid
  obtain ⟨_, _, he⟩ := bind_eq_ok.mp he
  obtain ⟨_, _, he⟩ := bind_eq_ok.mp he
  exact .of_ok he

/-- The move of a constant is a prefix, an opcode and the eight bytes of the constant. -/
theorem exists_encodeConstant_of_valid {dst : Reg} (hdst : dst.Valid) (value : UInt64) :
    ∃ e, encodeConstant dst value = .ok e ∧ e.length = 10 := by
  obtain ⟨g, hg⟩ := dst.screens.succeeds_iff.mpr hdst
  obtain ⟨s, hs, hbytes⟩ := ShortBytes.exists_ofUInt64_eq_ok (c := .immediate) (Nat.le_refl 8) value
  have hlength : s.length = 8 := by rw [← s.length_bytes, hbytes, LittleEndian.length_word64]
  rw [Reg.check_eq_ok_iff.mp hg]
  refine ⟨constantEncoding g s, encodeConstant_eq_ok g hs, ?_⟩
  show 0 + 1 + 1 + 0 + 0 + 0 + s.length = 10
  rw [hlength]

theorem screens_encodeConstant (dst : Reg) (value : UInt64) :
    Screens (encodeConstant dst value) dst.Valid dst.faults := by
  refine (dst.screens.discard.bind fun _ hdst => ?_).congr (and_iff_left trivial)
    (List.append_nil _)
  have hvalid : dst.Valid := dst.screens.discard.succeeds_iff.mp ⟨_, hdst⟩
  obtain ⟨e, he, _⟩ := exists_encodeConstant_of_valid hvalid value
  obtain ⟨_, _, he⟩ := bind_eq_ok.mp he
  exact .of_ok he

/-- All encoders of instructions with an rm operand are one, for different opcodes. -/
theorem encode_of_rm? {i : Instruction} {o : Operand} (h : i.rm? = some o) :
    ∃ opcode, i.encode = encodeRegRm opcode i.reg o := by
  cases i with
  | lea dst src | load dst src | store dst src | copy dst src | move dst src =>
    cases h
    exact ⟨_, rfl⟩
  | constant dst value => cases h

theorem encode_of_rm?_eq_none {i : Instruction} (h : i.rm? = none) :
    ∃ value, i.encode = encodeConstant i.reg value := by
  cases i with
  | lea dst src | load dst src | store dst src | copy dst src | move dst src => cases h
  | constant dst value => exact ⟨value, rfl⟩

/-- **An encoder refuses exactly the invalid operands**, the reg operand before the rm operand. -/
theorem screens (i : Instruction) : Screens i.encode i.Valid i.faults := by
  cases hrm : i.rm? with
  | some o =>
    obtain ⟨opcode, hencode⟩ := encode_of_rm? hrm
    rw [hencode, faults, hrm, Option.toList_some, List.flatMap_singleton]
    exact (screens_encodeRegRm opcode i.reg o).congr (valid_iff_of_rm? hrm).symm rfl
  | none =>
    obtain ⟨value, hencode⟩ := encode_of_rm?_eq_none hrm
    rw [hencode, faults, hrm, Option.toList_none, List.flatMap_nil, List.append_nil]
    refine (screens_encodeConstant i.reg value).congr ?_ rfl
    rw [Valid, hrm]
    simp

/-- The source of a copy stands in the reg field, so it is reported before the destination. -/
example : (copy ⟨16⟩ ⟨17⟩).encode = .error (.register ⟨17⟩) := rfl

end Instruction

end MachineCode
