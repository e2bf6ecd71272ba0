import Mathlib.Data.List.Nodup
import MachineCode.Proofs.PartSetting

/-!
# The order in which parts are set

Parts of different kinds do not get in each other's way: the encoding in which all of them are set
does not depend on their order (`Encoding.Assembled`). Whether a call succeeds does depend on what
was set before. But from an encoding that no part can shorten, the length only grows along the way
(`Encoding.length_le_replaceAll`). So if there is room for all parts in the end, there was room for
each of them on the way, in every order; and if all calls succeed, there was room in the end.

The opcode of the encoding to start with is one zero byte. Setting an empty opcode would shorten it,
and then the order does matter.
-/
namespace MachineCode.Encoding

/-! ### Setting parts regardless of the length -/

/-- `whole` is `e` with all of `parts`; every other part is in `whole` what it is in `e`. -/
structure Assembled (e : Encoding) (parts : List Part) (whole : Encoding) : Prop where
  given : ∀ p ∈ parts, whole.part? p.kind = some p
  others : ∀ k, k ∉ parts.map Part.kind → whole.part? k = e.part? k

/-- The encoding with several parts replaced one after the other, whatever its length. -/
def replaceAll (e : Encoding) (parts : List Part) : Encoding := parts.foldl replace e

theorem replaceAll_cons (e : Encoding) (p : Part) (parts : List Part) :
    e.replaceAll (p :: parts) = (e.replace p).replaceAll parts := rfl

/-- Of several parts of different kinds, none replaces another. -/
theorem assembled_replaceAll (e : Encoding) {parts : List Part}
    (h : (parts.map Part.kind).Nodup) : e.Assembled parts (e.replaceAll parts) := by
  induction parts generalizing e with
  | nil => exact ⟨fun p hp => absurd hp List.not_mem_nil, fun k _ => rfl⟩
  | cons p parts ih =>
    obtain ⟨hp, htail⟩ := List.nodup_cons.mp h
    obtain ⟨hgiven, hothers⟩ := ih (e.replace p) htail
    refine ⟨?_, ?_⟩
    · intro q hq
      rcases List.mem_cons.mp hq with rfl | hq
      · -- None of the parts behind the first one has its kind, so it stays.
        rw [replaceAll_cons, hothers q.kind hp, (e.updated_replace q).part]
      · exact hgiven q hq
    · intro k hk
      obtain ⟨hne, hk⟩ := not_or.mp (fun hmem => hk (List.mem_cons.mpr hmem))
      rw [replaceAll_cons, hothers k hk, (e.updated_replace p).others k hne]

/-- There is only one encoding with these parts. -/
theorem Assembled.unique {e whole whole' : Encoding} {parts : List Part}
    (h : e.Assembled parts whole) (h' : e.Assembled parts whole') : whole = whole' := by
  apply eq_of_part?_eq
  intro k
  by_cases hk : k ∈ parts.map Part.kind
  · obtain ⟨p, hp, rfl⟩ := List.mem_map.mp hk
    rw [h.given p hp, h'.given p hp]
  · rw [h.others k hk, h'.others k hk]

theorem Assembled.perm {e whole : Encoding} {parts order : List Part}
    (h : e.Assembled parts whole) (horder : order.Perm parts) : e.Assembled order whole where
  given := fun p hp => h.given p (horder.mem_iff.mp hp)
  others := fun k hk => h.others k (fun hmem => hk ((horder.map Part.kind).mem_iff.mpr hmem))

/-- **The order of the parts does not show** in the encoding that has all of them. -/
theorem Assembled.replaceAll_eq {e whole : Encoding} {parts order : List Part}
    (h : e.Assembled parts whole) (hdistinct : (parts.map Part.kind).Nodup)
    (horder : order.Perm parts) : e.replaceAll order = whole :=
  (e.assembled_replaceAll ((horder.map Part.kind).nodup_iff.mpr hdistinct)).unique (h.perm horder)

/-! ### Room on the way -/

/-- How much a part adds depends on the part of its own kind only. -/
theorem growth_eq_of_part?_eq {e t : Encoding} {p : Part} (h : t.part? p.kind = e.part? p.kind) :
    t.growth p = e.growth p := by
  have hoption : ∀ {α : Type} {wrap : α → Part} {o o' : Option α}, o.map wrap = o'.map wrap →
      optionGrowth o = optionGrowth o' := by
    intro α wrap o o' ho
    have hsome := congrArg Option.isSome ho
    rw [Option.isSome_map, Option.isSome_map] at hsome
    rw [optionGrowth, optionGrowth, hsome]
  cases p with
  | legacy b | rex p | modRM m | sib s => exact hoption h
  | opcode s =>
    have hsame : t.opcode = e.opcode := Part.opcode.inj (Option.some.inj h)
    rw [growth, growth, hsame]
  | displacement s =>
    have hsame : t.displacement = e.displacement := Part.displacement.inj (Option.some.inj h)
    rw [growth, growth, hsame]
  | immediate s =>
    have hsame : t.immediate = e.immediate := Part.immediate.inj (Option.some.inj h)
    rw [growth, growth, hsame]

/-- None of the parts shortens the encoding when it is set. -/
def NoneShortens (e : Encoding) (parts : List Part) : Prop := ∀ p ∈ parts, 0 ≤ e.growth p

/-- Setting one part changes nothing for parts of other kinds. -/
theorem NoneShortens.replace {e : Encoding} {p : Part} {parts : List Part}
    (h : e.NoneShortens (p :: parts)) (hp : p.kind ∉ parts.map Part.kind) :
    (e.replace p).NoneShortens parts := by
  intro q hq
  have hne : q.kind ≠ p.kind := fun heq => hp (List.mem_map.mpr ⟨q, hq, heq⟩)
  rw [growth_eq_of_part?_eq ((e.updated_replace p).others q.kind hne)]
  exact h q (List.mem_cons_of_mem p hq)

/-- The length only grows. -/
theorem length_le_replaceAll {e : Encoding} {parts : List Part}
    (hdistinct : (parts.map Part.kind).Nodup) (h : e.NoneShortens parts) :
    e.length ≤ (e.replaceAll parts).length := by
  induction parts generalizing e with
  | nil => exact Nat.le_refl _
  | cons p parts ih =>
    obtain ⟨hp, htail⟩ := List.nodup_cons.mp hdistinct
    have hgrowth : 0 ≤ e.growth p := h p List.mem_cons_self
    have hlength := e.length_replace p
    have hrest := ih htail (h.replace hp)
    rw [replaceAll_cons]
    omega

/-! ### Whole runs -/

/-- If there is room for all parts in the end, every call succeeds. -/
theorem verdicts_set {e : Encoding} {parts : List Part}
    (hdistinct : (parts.map Part.kind).Nodup) (h : e.NoneShortens parts)
    (hfit : (e.replaceAll parts).length ≤ maxInstructionLength) :
    ∀ v ∈ verdicts set e parts, v = true := by
  induction parts generalizing e with
  | nil => exact fun v hv => absurd hv List.not_mem_nil
  | cons p parts ih =>
    obtain ⟨hp, htail⟩ := List.nodup_cons.mp hdistinct
    -- There is room for this part because there is room for it together with all the others.
    have hgrows := length_le_replaceAll htail (h.replace hp)
    have hset : e.set p = .ok (e.replace p) := set_eq_ok (Nat.le_trans hgrows hfit)
    intro v hv
    rw [verdicts, attempt_of_ok hset, hset] at hv
    rcases List.mem_cons.mp hv with rfl | hv
    · rfl
    · exact ih htail (h.replace hp) hfit v hv

theorem eq_replace_of_set {e t : Encoding} {p : Part} (h : e.set p = .ok t) :
    t = e.replace p := by
  rw [set] at h
  split at h
  · exact (Except.ok.inj h).symm
  · cases h

/-- If every call succeeds, all parts are set. -/
theorem attempts_set_eq {e : Encoding} {parts : List Part}
    (h : ∀ v ∈ verdicts set e parts, v = true) : attempts set e parts = e.replaceAll parts := by
  induction parts generalizing e with
  | nil => rfl
  | cons p parts ih =>
    obtain ⟨hhead, htail⟩ := List.forall_mem_cons.mp h
    cases hset : e.set p with
    | error f =>
      rw [hset] at hhead
      cases hhead
    | ok t =>
      have hattempt : attempt set e p = e.replace p :=
        (attempt_of_ok hset).trans (eq_replace_of_set hset)
      rw [attempts_cons, replaceAll_cons, hattempt]
      rw [hattempt] at htail
      exact ih htail

/-- Every call succeeds **exactly if there is room for all parts in the end**. -/
theorem verdicts_set_iff {e : Encoding} {parts : List Part}
    (he : e.length ≤ maxInstructionLength) (hdistinct : (parts.map Part.kind).Nodup)
    (h : e.NoneShortens parts) :
    (∀ v ∈ verdicts set e parts, v = true) ↔
      (e.replaceAll parts).length ≤ maxInstructionLength := by
  constructor
  · intro hall
    rw [← attempts_set_eq hall]
    exact attempts_invariant (fun _ _ _ => length_le_of_set) he parts
  · exact verdicts_set hdistinct h

theorem noneShortens_empty (parts : List Part) : empty.NoneShortens parts := by
  intro p _
  cases p with
  | legacy b | rex p | modRM m | sib s => exact Int.one_nonneg
  | opcode s | displacement s | immediate s => exact Int.sub_nonneg.mpr (Int.natCast_nonneg _)

theorem noneShortens_start {parts : List Part}
    (h : ∀ s, Part.opcode s ∈ parts → 0 < s.length) : start.NoneShortens parts := by
  intro p hp
  cases p with
  | opcode s => exact Int.sub_nonneg.mpr (Int.ofNat_le.mpr (h s hp))
  | legacy b | rex p | modRM m | sib s | displacement s | immediate s =>
    exact noneShortens_empty parts _ hp

/-- **The order in which parts are set does not matter.** Take any parts of different kinds, and
from the encoding with the zero opcode no empty opcode among them. There is one encoding with all of
them. If it is within the limit of the architecture, then in every order all calls succeed, they end
in this encoding, and it can be written. If it is not, then in every order some call fails. -/
theorem attempts_set_of_perm {first : Encoding} {parts : List Part}
    (hfirst : first = .empty ∨ first = .start) (hdistinct : (parts.map Part.kind).Nodup)
    (hopcode : first = .start → ∀ s, Part.opcode s ∈ parts → 0 < s.length) :
    ∃ whole, first.Assembled parts whole ∧ ∀ order : List Part, order.Perm parts →
      ((∀ v ∈ verdicts set first order, v = true) ↔ whole.length ≤ maxInstructionLength) ∧
      (whole.length ≤ maxInstructionLength →
        attempts set first order = whole ∧
        (attempts set first order).bytes = .ok whole.parts) ∧
      (maxInstructionLength < whole.length → false ∈ verdicts set first order) := by
  have hgrows : first.NoneShortens parts := by
    rcases hfirst with rfl | rfl
    · exact noneShortens_empty parts
    · exact noneShortens_start (hopcode rfl)
  have hlength : first.length ≤ maxInstructionLength := by
    rcases hfirst with rfl | rfl
    · exact Initial.empty.length_le
    · exact Initial.start.length_le
  have hwhole := first.assembled_replaceAll hdistinct
  refine ⟨first.replaceAll parts, hwhole, ?_⟩
  intro order horder
  have hiff := verdicts_set_iff hlength ((horder.map Part.kind).nodup_iff.mpr hdistinct)
    (fun p hp => hgrows p (horder.mem_iff.mp hp))
  rw [hwhole.replaceAll_eq hdistinct horder] at hiff
  refine ⟨hiff, ?_, ?_⟩
  · intro hfit
    have hend := attempts_set_eq (hiff.mpr hfit)
    rw [hwhole.replaceAll_eq hdistinct horder] at hend
    rw [hend]
    exact ⟨rfl, bytes_eq_parts hfit⟩
  · intro hlong
    by_contra hnone
    have hall : ∀ v ∈ verdicts set first order, v = true := by
      intro v hv
      cases v with
      | true => rfl
      | false => exact absurd hv hnone
    exact absurd (hiff.mp hall) (Nat.not_le.mpr hlong)

/-- Three parts that fill an instruction to the last byte, in any order. -/
theorem attempts_set_of_perm_full :
    let parts : List Part := [.immediate ⟨.replicate _ 1, 8, Nat.le_refl 8⟩,
      .opcode ⟨.replicate _ 2, 3, Nat.le_refl 3⟩, .displacement ⟨.replicate _ 3, 4, Nat.le_refl 4⟩]
    ∃ whole : Encoding, whole.length = maxInstructionLength ∧
      ∀ order, order.Perm parts → attempts set .start order = whole := by
  intro parts
  have hdistinct : (parts.map Part.kind).Nodup := by decide
  have hopcode : ∀ s, Part.opcode s ∈ parts → 0 < s.length := by
    intro s hs
    simp only [parts, List.mem_cons, reduceCtorEq, Part.opcode.injEq, List.not_mem_nil, or_false,
      false_or] at hs
    subst hs
    decide
  obtain ⟨whole, hwhole, horders⟩ :=
    attempts_set_of_perm (Or.inr rfl) hdistinct (fun _ => hopcode)
  have hlength : whole.length = maxInstructionLength := by
    rw [← hwhole.replaceAll_eq hdistinct (List.Perm.refl parts)]
    decide
  refine ⟨whole, hlength, ?_⟩
  intro order horder
  obtain ⟨_, hend, _⟩ := horders order horder
  exact (hend (Nat.le_of_eq hlength)).1

/-- With an empty opcode the order matters: here fifteen bytes are left in the end, but only if the
opcode goes first. -/
example :
    let others : List Part := [.immediate ⟨.replicate _ 0, 8, Nat.le_refl 8⟩,
      .displacement ⟨.replicate _ 0, 4, Nat.le_refl 4⟩, .legacy 0x66, .rex .bare, .modRM .zero]
    verdicts set .start (.opcode .empty :: others) = [true, true, true, true, true, true] ∧
      verdicts set .start (others ++ [.opcode .empty]) = [true, true, true, true, false, true] := by
  decide

end MachineCode.Encoding
