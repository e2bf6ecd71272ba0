import MachineCode.Proofs.Code
import MachineCode.Run

/-!
# Setting the parts of an instruction

Setting a part is all or nothing. Either the part is set and every other part stays as it was, or
the instruction would become longer than the architecture allows and nothing is changed
(`Encoding.set_of_reachable`).

This is no property of a single call. A byte that takes the place of another one is set without a
check, so an instruction that is too long would remain too long. It is a property of the encodings
that can be reached, by any calls from any encoding that a caller can start with
(`Encoding.Reachable`): they are within the limit, because every call keeps them there
(`Encoding.length_le_of_set`), and within the limit the check that is left out could not have
failed (`Encoding.set_eq`).

Encodings are compared part by part, through `Encoding.part?`.
-/
namespace MachineCode

namespace Encoding

/-! ### Looking at the parts -/

/-- The parts that an instruction can have. -/
inductive Kind where
  | legacy
  | rex
  | opcode
  | modRM
  | sib
  | displacement
  | immediate
  deriving DecidableEq, Repr

def Part.kind : Part → Kind
  | .legacy _ => .legacy
  | .rex _ => .rex
  | .opcode _ => .opcode
  | .modRM _ => .modRM
  | .sib _ => .sib
  | .displacement _ => .displacement
  | .immediate _ => .immediate

/-- One part of an instruction, if it is there. The opcode, displacement and immediate always
are, if only as empty strings. -/
def part? (e : Encoding) : Kind → Option Part
  | .legacy => e.legacy.map .legacy
  | .rex => e.rex.map .rex
  | .opcode => some (.opcode e.opcode)
  | .modRM => e.modRM.map .modRM
  | .sib => e.sib.map .sib
  | .displacement => some (.displacement e.displacement)
  | .immediate => some (.immediate e.immediate)

/-- `t` is `e` with the part `p`; every other part is in `t` what it is in `e`. -/
structure Updated (e : Encoding) (p : Part) (t : Encoding) : Prop where
  part : t.part? p.kind = some p
  others : ∀ k, k ≠ p.kind → t.part? k = e.part? k

/-- An encoding is known from its parts. -/
theorem eq_of_part?_eq {e t : Encoding} (h : ∀ k, e.part? k = t.part? k) : e = t := by
  have hlegacy := Option.map_injective (fun _ _ => Part.legacy.inj) (h .legacy)
  have hrex := Option.map_injective (fun _ _ => Part.rex.inj) (h .rex)
  have hopcode := Part.opcode.inj (Option.some.inj (h .opcode))
  have hmodRM := Option.map_injective (fun _ _ => Part.modRM.inj) (h .modRM)
  have hsib := Option.map_injective (fun _ _ => Part.sib.inj) (h .sib)
  have hdisplacement := Part.displacement.inj (Option.some.inj (h .displacement))
  have himmediate := Part.immediate.inj (Option.some.inj (h .immediate))
  obtain ⟨_, _, _, _, _, _, _⟩ := e
  obtain ⟨_, _, _, _, _, _, _⟩ := t
  simp only at hlegacy hrex hopcode hmodRM hsib hdisplacement himmediate
  simp only [hlegacy, hrex, hopcode, hmodRM, hsib, hdisplacement, himmediate]

theorem part?_replace (e : Encoding) (p : Part) (k : Kind) :
    (e.replace p).part? k = if k = p.kind then some p else e.part? k := by
  cases p <;> cases k <;> rfl

theorem updated_replace (e : Encoding) (p : Part) : e.Updated p (e.replace p) where
  part := by rw [part?_replace, if_pos rfl]
  others := by
    intro k hk
    rw [part?_replace, if_neg hk]

/-- There is only one encoding with the part set and the others kept. -/
theorem Updated.eq_replace {e t : Encoding} {p : Part} (h : e.Updated p t) : t = e.replace p := by
  apply eq_of_part?_eq
  intro k
  by_cases hk : k = p.kind
  · rw [hk, h.part, (e.updated_replace p).part]
  · rw [h.others k hk, (e.updated_replace p).others k hk]

/-! ### One call -/

theorem growth_of_occupied {e : Encoding} {p : Part} (h : e.occupied p = true) :
    e.growth p = 0 := by
  cases p with
  | legacy b | rex p | modRM m | sib s => exact if_pos h
  | opcode s | displacement s | immediate s => cases h

/-- **The check that is left out could not have failed**: from an instruction within the limit,
a part is set if and only if the instruction that results is within the limit too. -/
theorem set_eq {e : Encoding} (he : e.length ≤ maxInstructionLength) (p : Part) :
    e.set p =
      if (e.replace p).length ≤ maxInstructionLength then .ok (e.replace p)
      else .error (.instructionLength (e.replace p).length) := by
  have hlength := e.length_replace p
  by_cases hfit : (e.replace p).length ≤ maxInstructionLength
  · rw [if_pos hfit, set_eq_ok hfit]
  · have hfree : ¬ e.occupied p = true := by
      intro hoccupied
      have hgrowth := growth_of_occupied hoccupied
      omega
    rw [if_neg hfit, set, if_neg (not_or.mpr ⟨hfree, by omega⟩), hlength]

/-- A call keeps an instruction within the limit. -/
theorem length_le_of_set {e t : Encoding} {p : Part} (he : e.length ≤ maxInstructionLength)
    (h : e.set p = .ok t) : t.length ≤ maxInstructionLength := by
  rw [set_eq he] at h
  by_cases hfit : (e.replace p).length ≤ maxInstructionLength
  · rw [if_pos hfit] at h
    cases h
    exact hfit
  · rw [if_neg hfit] at h
    cases h

end Encoding

/-! ### Runs of calls -/

theorem Instruction.length_le_of_encode {i : Instruction} {e : Encoding} (h : i.encode = .ok e) :
    e.length ≤ maxInstructionLength := by
  obtain ⟨c, hc, _⟩ := checked?_of_encode h
  obtain ⟨t, ht, hlength, _⟩ := exists_encode_eq_ok hc
  rw [h] at ht
  cases ht
  exact hlength

/-- What an encoder hands back: the encoding of the instruction, or the encoding without parts if
an operand is refused. -/
def Instruction.encodeOrEmpty (i : Instruction) : Encoding :=
  match i.encode with
  | .ok e => e
  | .error _ => .empty

theorem Instruction.length_encodeOrEmpty_le (i : Instruction) :
    i.encodeOrEmpty.length ≤ maxInstructionLength := by
  rw [encodeOrEmpty]
  split
  · next e he => exact length_le_of_encode he
  · exact Nat.zero_le _

namespace Encoding

/-- The encodings that a caller can start with. -/
inductive Initial : Encoding → Prop where
  | empty : Initial .empty
  | start : Initial .start
  | encoded (i : Instruction) : Initial i.encodeOrEmpty

/-- The encodings that can be reached by setting parts, in calls that succeed or fail. -/
def Reachable (e : Encoding) : Prop := ∃ first parts, Initial first ∧ e = attempts set first parts

theorem Initial.length_le {e : Encoding} (h : Initial e) : e.length ≤ maxInstructionLength := by
  cases h with
  | empty => exact Nat.zero_le _
  | start => decide
  | encoded i => exact i.length_encodeOrEmpty_le

/-- **No run of calls makes an instruction too long.** -/
theorem Reachable.length_le {e : Encoding} (h : e.Reachable) :
    e.length ≤ maxInstructionLength := by
  obtain ⟨first, parts, hfirst, rfl⟩ := h
  exact attempts_invariant (fun _ _ _ => length_le_of_set) hfirst.length_le parts

/-- **Setting a part is all or nothing.** An encoding that can be reached is within the limit of
the architecture. For every part there is an encoding `t` with that part set and all others kept.
The call succeeds exactly if `t` is within the limit, and gives `t`; otherwise it reports the
length of `t` and leaves the encoding as it was. -/
theorem set_of_reachable {e : Encoding} (he : e.Reachable) :
    e.length ≤ maxInstructionLength ∧
    ∀ p : Part, (∃ t, e.Updated p t) ∧
      ∀ t, e.Updated p t →
        ((∃ u, e.set p = .ok u) ↔ t.length ≤ maxInstructionLength) ∧
        (∀ u, e.set p = .ok u → u = t) ∧
        (∀ f, e.set p = .error f →
          f = .instructionLength t.length ∧ f.kind = .capacityExceeded) ∧
        attempt set e p = if t.length ≤ maxInstructionLength then t else e := by
  refine ⟨he.length_le, ?_⟩
  intro p
  refine ⟨⟨_, e.updated_replace p⟩, ?_⟩
  intro t ht
  rw [ht.eq_replace]
  have hset := set_eq he.length_le p
  by_cases hfit : (e.replace p).length ≤ maxInstructionLength
  · rw [if_pos hfit] at hset
    refine ⟨⟨fun _ => hfit, fun _ => ⟨_, hset⟩⟩, ?_, ?_, ?_⟩
    · intro u hu
      rw [hset] at hu
      exact (Except.ok.inj hu).symm
    · intro f hf
      rw [hset] at hf
      cases hf
    · rw [attempt_of_ok hset, if_pos hfit]
  · rw [if_neg hfit] at hset
    refine ⟨⟨?_, fun h => absurd h hfit⟩, ?_, ?_, ?_⟩
    · rintro ⟨u, hu⟩
      rw [hset] at hu
      cases hu
    · intro u hu
      rw [hset] at hu
      cases hu
    · intro f hf
      rw [hset] at hf
      cases hf
      exact ⟨rfl, rfl⟩
    · rw [attempt_of_error hset, if_neg hfit]

/-- An instruction of fifteen bytes that was reached by three calls takes no prefix any more. -/
theorem set_of_reachable_full :
    ∃ e : Encoding, e.Reachable ∧ e.length = maxInstructionLength ∧
      (¬ ∃ u, e.set (.legacy 0x66) = .ok u) ∧ attempt set e (.legacy 0x66) = e := by
  refine ⟨attempts set .start
    [.opcode ⟨.replicate _ 0, 3, Nat.le_refl 3⟩, .displacement ⟨.replicate _ 0, 4, Nat.le_refl 4⟩,
      .immediate ⟨.replicate _ 0, 8, Nat.le_refl 8⟩], ⟨_, _, .start, rfl⟩, by decide, ?_⟩
  obtain ⟨hset, _, _, hattempt⟩ :=
    ((set_of_reachable ⟨_, _, .start, rfl⟩).2 (.legacy 0x66)).2 _ (updated_replace _ _)
  exact ⟨fun h => absurd (hset.mp h) (by decide), hattempt.trans (if_neg (by decide))⟩

end Encoding

end MachineCode
