import MachineCode.Decode
import MachineCode.Proofs.Emission
import MachineCode.Proofs.RoundTrip

/-!
# A sweep finds the instructions that were added

Reading an assembler's code from its start, one instruction after the other, finds the
instructions that were added at the offsets that were recorded, and otherwise only padding. It
would be enough for one instruction or one piece of padding to have a wrong length, and everything
behind it would be read out of step.

Sweeps compose: code that is swept without a remainder is swept in the same way when more code
follows (`Decode.sweepFrom_append`), because reading does not look ahead. So it is enough to sweep
each piece that an operation adds on its own. An instruction is one entry
(`Checked.sweepFrom_code`), and padding is a row of entries that do nothing
(`Decode.sweepFrom_padding`). What a step keeps is `Assembler.Swept`.
-/
namespace MachineCode

/-! ### Sweeps of pieces of code -/

namespace Decode

@[simp] theorem sweepFrom_nil (position : Nat) : sweepFrom position [] = some [] := by
  rw [sweepFrom, if_pos rfl]

theorem sweepFrom_of_decode {bs rest : List UInt8} {d : Decoded} (position : Nat)
    (h : decode bs = some (d, rest)) (hlt : rest.length < bs.length) :
    sweepFrom position bs =
      (sweepFrom (position + (bs.length - rest.length)) rest).map ((position, d) :: ·) := by
  have hne : bs ≠ [] := by
    rintro rfl
    exact absurd hlt (Nat.not_lt_zero _)
  rw [sweepFrom, if_neg hne, h]
  exact if_pos hlt

/-- A sweep reads one instruction and goes on behind it. -/
theorem sweepFrom_eq_some {bs : List UInt8} {position : Nat} {found : List (Nat × Decoded)}
    (h : sweepFrom position bs = some found) (hne : bs ≠ []) :
    ∃ d rest tail, decode bs = some (d, rest) ∧ rest.length < bs.length ∧
      sweepFrom (position + (bs.length - rest.length)) rest = some tail ∧
      found = (position, d) :: tail := by
  rw [sweepFrom, if_neg hne] at h
  cases hd : decode bs with
  | none =>
    rw [hd] at h
    cases h
  | some p =>
    obtain ⟨d, rest⟩ := p
    simp only [hd] at h
    by_cases hlt : rest.length < bs.length
    · rw [if_pos hlt] at h
      obtain ⟨tail, htail, hfound⟩ := Option.map_eq_some_iff.mp h
      exact ⟨d, rest, tail, rfl, hlt, htail, hfound.symm⟩
    · rw [if_neg hlt] at h
      cases h

/-- **Sweeps compose.** Code that is swept is swept in the same way when more code follows. -/
theorem sweepFrom_append {bs : List UInt8} {position : Nat} {found : List (Nat × Decoded)}
    (h : sweepFrom position bs = some found) (more : List UInt8) :
    sweepFrom position (bs ++ more) =
      (sweepFrom (position + bs.length) more).map (found ++ ·) := by
  -- The induction is on the number of bytes that are left to sweep.
  induction hn : bs.length using Nat.strongRecOn generalizing bs position found with
  | ind n ih =>
    subst hn
    by_cases hne : bs = []
    · subst hne
      rw [sweepFrom_nil] at h
      cases h
      simp
    · obtain ⟨d, rest, tail, hd, hlt, htail, rfl⟩ := sweepFrom_eq_some h hne
      have hmore := decode_stable _ _ _ hd more
      have hlt' : (rest ++ more).length < (bs ++ more).length := by
        simp only [List.length_append]
        omega
      have hskip : (bs ++ more).length - (rest ++ more).length = bs.length - rest.length := by
        simp only [List.length_append]
        omega
      have hpos : position + (bs.length - rest.length) + rest.length = position + bs.length := by
        omega
      rw [sweepFrom_of_decode position hmore hlt', hskip, ih _ hlt htail rfl, hpos,
        Option.map_map]
      rfl

/-- Code that is one instruction is swept as that instruction. -/
theorem sweepFrom_of_decode_nil {code : List UInt8} {d : Decoded} (position : Nat)
    (h : decode code = some (d, [])) : sweepFrom position code = some [(position, d)] := by
  have hpos : 0 < code.length := by
    cases code with
    | nil => cases h
    | cons b bs => exact Nat.zero_lt_succ _
  rw [sweepFrom_of_decode position h hpos, sweepFrom_nil]
  rfl

/-- What does something is found at one of the starts. -/
theorem mem_starts {found : List (Nat × Decoded)} {p : Nat × Decoded} (hp : p ∈ found)
    (hne : p.2 ≠ .nop) : p.1 ∈ starts found :=
  List.mem_map.mpr ⟨p, List.mem_filter.mpr ⟨hp, decide_eq_true hne⟩, rfl⟩

end Decode

theorem Checked.reading_ne_nop (c : Checked) : c.reading ≠ .nop := by
  cases c <;> exact Decode.Decoded.noConfusion

theorem Checked.sweepFrom_code (c : Checked) (position : Nat) :
    Decode.sweepFrom position c.code = some [(position, c.reading)] :=
  Decode.sweepFrom_of_decode_nil position c.decode_code

/-! ### Sweeps of padding -/

theorem Nop.pos_and_le_of_mem_lengths {n k : Nat} (h : k ∈ Nop.lengths n) :
    0 < k ∧ k ≤ Nop.longest := by
  induction n using Nat.strongRecOn with
  | ind n ih =>
    have hlong : 0 < Nop.longest := by decide
    rw [Nop.lengths] at h
    by_cases hn : n = 0
    · rw [if_pos hn] at h
      cases h
    · rw [if_neg hn] at h
      rcases List.mem_cons.mp h with rfl | htail
      · omega
      · exact ih _ (by omega) htail

namespace Decode

/-- Every recommended instruction has **the length that a processor reads**. -/
theorem decode_form {k : Nat} (hpos : 0 < k) (hle : k ≤ Nop.longest) :
    decode (Nop.form k) = some (.nop, []) := by
  have hle : k ≤ 9 := hle
  match k, hpos, hle with
  | 1, _, _ | 2, _, _ | 3, _, _ | 4, _, _ | 5, _, _ | 6, _, _ | 7, _, _ | 8, _, _ | 9, _, _ => rfl

/-- Instructions that do nothing, of given lengths, one after the other from `position` on. -/
def nops (position : Nat) : List Nat → List (Nat × Decoded)
  | [] => []
  | k :: ks => (position, .nop) :: nops (position + k) ks

theorem starts_nops (position : Nat) (ks : List Nat) : starts (nops position ks) = [] := by
  induction ks generalizing position with
  | nil => rfl
  | cons k ks ih => exact ih (position + k)

theorem sweepFrom_flatMap_form {ks : List Nat} (h : ∀ k ∈ ks, 0 < k ∧ k ≤ Nop.longest)
    (position : Nat) : sweepFrom position (ks.flatMap Nop.form) = some (nops position ks) := by
  induction ks generalizing position with
  | nil => exact sweepFrom_nil position
  | cons k ks ih =>
    obtain ⟨⟨hpos, hle⟩, htail⟩ := List.forall_mem_cons.mp h
    have hhead := sweepFrom_of_decode_nil position (decode_form hpos hle)
    rw [List.flatMap_cons, sweepFrom_append hhead, Nop.length_form hpos hle, ih htail]
    rfl

/-- Padding is swept as instructions that do nothing, of the lengths it was made of. -/
theorem sweepFrom_padding (position n : Nat) :
    sweepFrom position (Nop.padding n) = some (nops position (Nop.lengths n)) :=
  sweepFrom_flatMap_form (fun _ => Nop.pos_and_le_of_mem_lengths) position

end Decode

/-! ### Sweeps of whole runs -/

namespace Assembler

/-- An operation that adds nothing but instructions and padding. -/
def Step.IsCode : Step → Prop
  | .instruction _ => True
  | .align => True
  | .reset => True
  | .emit _ => False
  | .word _ => False

instance (s : Step) : Decidable s.IsCode :=
  match s with
  | .instruction _ => .isTrue trivial
  | .align => .isTrue trivial
  | .reset => .isTrue trivial
  | .emit _ => .isFalse id
  | .word _ => .isFalse id

/-- The code is swept, and what does something is found at the recorded offsets. -/
structure Swept (a : Assembler) : Prop where
  nopPadding : a.options.nopPadding = true
  sweep : ∃ found, Decode.sweep a.bytes = some found ∧ Decode.starts found = a.offsets

/-- Code without bytes and offsets is swept. -/
theorem swept_of_bytes_eq_nil {a : Assembler} (hnop : a.options.nopPadding = true)
    (hbytes : a.bytes = []) (hoffsets : a.offsets = []) : Swept a where
  nopPadding := hnop
  sweep := ⟨[], by rw [hbytes, Decode.sweep, Decode.sweepFrom_nil], hoffsets.symm⟩

/-- A piece of code that is swept on its own, and finds the offsets that are recorded for it, may
be added. -/
theorem Swept.added {a b : Assembler} {code : List UInt8} {marks : List Nat}
    {found : List (Nat × Decode.Decoded)} (ha : Swept a) (hb : Added a code marks b)
    (hcode : Decode.sweepFrom a.length code = some found) (hmarks : Decode.starts found = marks) :
    Swept b := by
  obtain ⟨before, hsweep, hstarts⟩ := ha.sweep
  refine ⟨hb.options ▸ ha.nopPadding, before ++ found, ?_, ?_⟩
  · rw [hb.bytes, Decode.sweep, Decode.sweepFrom_append hsweep, length_bytes, Nat.zero_add, hcode]
    rfl
  · rw [hb.offsets, ← hstarts, ← hmarks]
    simp [Decode.starts]

/-- The code of an instruction is that of a checked one. -/
theorem Step.exists_checked_of_code {o : Options} {position : Nat} {i : Instruction}
    {code : List UInt8} (h : (Step.instruction i).code o position = .ok code) :
    ∃ c : Checked, code = c.code := by
  obtain ⟨e, he, hbytes⟩ := bind_eq_ok.mp h
  obtain ⟨c, -, hc⟩ := Instruction.checked?_of_encode he
  exact ⟨c, Except.ok.inj (hbytes.symm.trans hc)⟩

/-- **A step keeps the code in step with its offsets.** -/
theorem Swept.step {a : Assembler} {s : Step} (ha : Swept a) (hs : s.IsCode) :
    Swept (a.step s).1 := by
  have ht := a.transition s
  generalize a.step s = r at ht
  cases ht with
  -- What is refused leaves neither bytes nor an offset.
  | failed _ | noRoom _ => exact ha
  | added _ hcode _ hadded =>
    cases s with
    | instruction i =>
      obtain ⟨c, rfl⟩ := Step.exists_checked_of_code hcode
      refine ha.added hadded (c.sweepFrom_code a.length) ?_
      simp [Decode.starts, Checked.reading_ne_nop, Step.marks, Step.records]
    | align =>
      cases hcode
      have hfiller : a.options.filler a.length = Nop.padding a.gap := if_pos ha.nopPadding
      rw [hfiller] at hadded
      exact ha.added hadded (Decode.sweepFrom_padding a.length a.gap) (Decode.starts_nops _ _)
    | emit e | word v => exact absurd hs id
    | reset => contradiction
  | reset _ => exact swept_of_bytes_eq_nil ha.nopPadding a.bytes_reset a.offsets_reset

theorem Swept.run {a : Assembler} {steps : List Step} (ha : Swept a)
    (hsteps : ∀ s ∈ steps, s.IsCode) : Swept (a.run steps) :=
  run_invariant ha (fun _ s hs hb => hb.step (hsteps s hs))

theorem swept_of_new {allocator : Allocator} {options : Options} {a : Assembler}
    (h : new allocator options = .ok a) (hnop : options.nopPadding = true) : Swept a := by
  obtain ⟨rfl, hbytes, hoffsets⟩ := eq_empty_of_new h
  exact swept_of_bytes_eq_nil hnop hbytes hoffsets

/-- **A linear sweep finds the instructions.** Start with any options under which padding is made
of instructions, and add instructions, valid or not, pad and discard in any order. Reading the
code from its start succeeds and leaves nothing over; what does something starts exactly at the
recorded offsets, in their order, and everything else does nothing. -/
theorem sweep_run {allocator : Allocator} {options : Options} {a : Assembler}
    {steps : List Step} (hnew : new allocator options = .ok a) (hnop : options.nopPadding = true)
    (hsteps : ∀ s ∈ steps, s.IsCode) :
    ∃ found, Decode.sweep (a.run steps).bytes = some found ∧
      Decode.starts found = (a.run steps).offsets ∧
      ∀ p ∈ found, p.1 ∉ (a.run steps).offsets → p.2 = .nop := by
  obtain ⟨found, hsweep, hstarts⟩ := ((swept_of_new hnew hnop).run hsteps).sweep
  refine ⟨found, hsweep, hstarts, ?_⟩
  intro p hp hnot
  by_cases hne : p.2 = .nop
  · exact hne
  · exact absurd (hstarts ▸ Decode.mem_starts hp hne) hnot

/-- A move, padding up to sixteen, a move that is refused, and a constant. The sweep finds the move,
two instructions that do nothing and the constant. -/
theorem sweep_run_padded :
    ∃ a b, new .tight { alignment := 16 } = .ok a ∧
      b = a.run [.instruction (.copy ⟨0⟩ ⟨9⟩), .align, .instruction (.copy ⟨16⟩ ⟨0⟩),
        .instruction (.constant ⟨8⟩ 1)] ∧
      b.bytes = [0x4c, 0x89, 0xc8, 0x66, 0x0f, 0x1f, 0x84, 0, 0, 0, 0, 0, 0x0f, 0x1f, 0x40, 0,
        0x49, 0xb8, 1, 0, 0, 0, 0, 0, 0, 0] ∧
      b.offsets = [0, 16] ∧
      ∃ found, Decode.sweep b.bytes = some found ∧ found.map Prod.fst = [0, 3, 12, 16] ∧
        Decode.starts found = b.offsets ∧ ∀ p ∈ found, p.1 ∉ b.offsets → p.2 = .nop := by
  have hsteps : ∀ s ∈ [Step.instruction (.copy ⟨0⟩ ⟨9⟩), .align, .instruction (.copy ⟨16⟩ ⟨0⟩),
      .instruction (.constant ⟨8⟩ 1)], s.IsCode := by decide
  obtain ⟨found, hsweep, hrest⟩ := sweep_run (rfl : new .tight { alignment := 16 } = _) rfl hsteps
  have hpositions : (Decode.sweep (Assembler.run ⟨{ alignment := 16 }, .vacant .tight 1024, []⟩
      [.instruction (.copy ⟨0⟩ ⟨9⟩), .align, .instruction (.copy ⟨16⟩ ⟨0⟩),
        .instruction (.constant ⟨8⟩ 1)]).bytes).map (List.map Prod.fst) = some [0, 3, 12, 16] := by
    decide +kernel
  refine ⟨_, _, rfl, rfl, by decide +kernel, by decide +kernel, found, hsweep, ?_, hrest⟩
  have hfound := (congrArg (Option.map (List.map Prod.fst)) hsweep).symm.trans hpositions
  exact Option.some.inj hfound

end Assembler

end MachineCode
