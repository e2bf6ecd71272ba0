import MachineCode.Proofs.Chunks

/-!
# Fragments of code

Code can be assembled in fragments. If one fragment ends on a boundary, the next one is the same
code that it would have been at the start, only further on: padding goes to the same boundaries,
the same operands are refused, and all offsets are larger by the length of what lies before
(`Assembler.run_append_of_dvd`).

The two runs are compared one operation at a time. `Assembler.Behind` says that an assembler holds
the code of another one behind some code that ends on a boundary. An operation answers from the
length alone, and padding does not change when the length changes by whole steps of the alignment,
so every operation keeps that relation (`Assembler.Behind.step`), as long as it lacks room in both
places or in neither. With nothing in front it says that two assemblers look alike, whatever their
stores are and whatever they held before; then they may be reset as well.

The same operations lack room in both places, unless a very large store is asked for. If the first
fragment has no code, the second one finds the very buffer that it would find on its own
(`Assembler.buffer_run_of_length_eq_zero`). If it has, then the alignment is no larger than its
length, and no operation asks for much more than what is there already (`Assembler.Step.asks_le`).
-/
namespace MachineCode

/-! ### Positions further on -/

/-- Padding is the same under both options. -/
structure Options.PadsAlike (o o' : Options) : Prop where
  alignment : o'.alignment = o.alignment
  nopPadding : o'.nopPadding = o.nopPadding

theorem Options.PadsAlike.refl (o : Options) : o.PadsAlike o := ⟨rfl, rfl⟩

theorem Chunk.starts_add (d position : Nat) (cs : List Chunk) :
    starts (d + position) cs = (starts position cs).map (· + d) := by
  induction cs generalizing position with
  | nil => rfl
  | cons c cs ih =>
    rw [starts, starts, List.map_append, Nat.add_assoc, ih]
    cases c.recorded with
    | true => rw [if_pos rfl, if_pos rfl, List.map_singleton, Nat.add_comm d position]
    | false => rfl

section FurtherOn

variable {o o' : Options} {d : Nat}

theorem Options.gap_add (h : o.PadsAlike o') (hd : o.alignment ∣ d) (position : Nat) :
    o'.gap (d + position) = o.gap position := by
  obtain ⟨k, rfl⟩ := hd
  rw [gap, gap, h.alignment, Nat.mul_add_mod]

theorem Options.filler_add (h : o.PadsAlike o') (hd : o.alignment ∣ d) (position : Nat) :
    o'.filler (d + position) = o.filler position := by
  rw [filler, filler, gap_add h hd, h.nopPadding]

namespace Assembler

/-- An answer as it is given `d` bytes further on. -/
def Outcome.shift (d : Nat) : Outcome → Outcome
  | .offset n => .offset (n + d)
  | .padded n => .padded n
  | .cleared => .cleared
  | .refused f => .refused f

theorem Step.code_add (h : o.PadsAlike o') (hd : o.alignment ∣ d) (position : Nat) (s : Step) :
    s.code o' (d + position) = s.code o position := by
  cases s with
  | align => rw [Step.code, Step.code, Options.filler_add h hd]
  | instruction i | emit e | word v | reset => rfl

theorem Step.chunks_add (h : o.PadsAlike o') (hd : o.alignment ∣ d) (position : Nat) (s : Step) :
    s.chunks o' (d + position) = s.chunks o position := by
  rw [Step.chunks, Step.chunks, Step.code_add h hd]

theorem Step.asks_add (h : o.PadsAlike o') (hd : o.alignment ∣ d) (position : Nat) (s : Step) :
    s.asks o' (d + position) = s.asks o position := by
  cases s with
  | align => rw [Step.asks, Step.asks, Options.gap_add h hd, h.nopPadding]
  | instruction i | emit e | word v | reset => rfl

theorem Step.answer_add (h : o.PadsAlike o') (hd : o.alignment ∣ d) (position : Nat) (s : Step) :
    s.answer o' (d + position) = (s.answer o position).shift d := by
  rw [Step.answer, Step.answer, Step.code_add h hd]
  cases s.code o position with
  | error f => rfl
  | ok code =>
    cases s with
    | instruction i | emit e | word v => exact congrArg Outcome.offset (Nat.add_comm d position)
    | align => exact congrArg Outcome.padded (Options.gap_add h hd position)
    | reset => rfl

/-- The chunks of operations do not change when they are moved by whole steps of the alignment. -/
theorem chunks_add (h : o.PadsAlike o') (hd : o.alignment ∣ d) (position : Nat)
    (steps : List Step) : chunks o' (d + position) steps = chunks o position steps := by
  induction steps generalizing position with
  | nil => rfl
  | cons s steps ih => rw [chunks, chunks, Step.chunks_add h hd, Nat.add_assoc, ih]

end Assembler

end FurtherOn

namespace Assembler

/-! ### Runs in two parts -/

/-- Which operations of a run lack room, in order. -/
def lackings (a : Assembler) (steps : List Step) : List Bool :=
  (a.outcomes steps).map Outcome.lacksRoom

theorem lackings_cons (a : Assembler) (s : Step) (steps : List Step) :
    a.lackings (s :: steps) = a.outOfRoom s :: (a.step s).1.lackings steps := by
  rw [lackings, outcomes, List.map_cons, lacksRoom_step, lackings]

/-! ### One assembler behind another -/

/-- `b` holds the code of `a` behind `front`, which ends on a boundary, and has its offsets,
further on, behind `marks`. -/
structure Behind (front : List UInt8) (marks : List Nat) (a b : Assembler) : Prop where
  padsAlike : a.options.PadsAlike b.options
  boundary : a.options.alignment ∣ front.length
  bytes : b.bytes = front ++ a.bytes
  offsets : b.offsets = marks ++ a.offsets.map (· + front.length)

namespace Behind

variable {front : List UInt8} {marks : List Nat} {a b : Assembler}

theorem length (h : Behind front marks a b) : b.length = front.length + a.length := by
  rw [← length_bytes, h.bytes, List.length_append, length_bytes]

/-- An operation answers the same, further on. -/
theorem outcome (h : Behind front marks a b) {s : Step} (hroom : b.outOfRoom s = a.outOfRoom s) :
    (b.step s).2 = (a.step s).2.shift front.length := by
  cases ha : a.outOfRoom s with
  | true => rw [step_of_outOfRoom ha, step_of_outOfRoom (hroom.trans ha), Outcome.shift]
  | false =>
    rw [step_eq_answer ha, step_eq_answer (hroom.trans ha), h.length]
    exact Step.answer_add h.padsAlike h.boundary a.length s

/-- Two assemblers that look alike do so after a reset. -/
theorem reset (h : Behind [] [] a b) : Behind [] [] a.reset b.reset :=
  ⟨h.padsAlike, h.boundary, by simp, by simp⟩

/-- What does not lack room is added behind the code of both. -/
theorem step_of_granted (h : Behind front marks a b) {s : Step} (hs : s ≠ .reset)
    (ha : a.outOfRoom s = false) (hb : b.outOfRoom s = false) :
    Behind front marks (a.step s).1 (b.step s).1 := by
  have hadded := added_of_granted hs ha
  have hadded' := added_of_granted hs hb
  rw [h.length, Step.chunks_add h.padsAlike h.boundary] at hadded'
  refine ⟨?_, ?_, ?_, ?_⟩
  · rw [hadded.options, hadded'.options]
    exact h.padsAlike
  · rw [hadded.options]
    exact h.boundary
  · rw [hadded'.bytes, hadded.bytes, h.bytes, List.append_assoc]
  · rw [hadded'.offsets, hadded.offsets, h.offsets, Chunk.starts_add, List.map_append,
      List.append_assoc]

/-- **An operation keeps one assembler behind another**, if it lacks room in both places or in
neither. It may be a reset only if there is nothing in front, since a reset discards that as
well. -/
theorem step (h : Behind front marks a b) {s : Step}
    (hs : s = .reset → front = [] ∧ marks = []) (hroom : b.outOfRoom s = a.outOfRoom s) :
    Behind front marks (a.step s).1 (b.step s).1 := by
  by_cases hreset : s = .reset
  · obtain ⟨rfl, rfl⟩ := hs hreset
    subst hreset
    exact h.reset
  · cases ha : a.outOfRoom s with
    | true =>
      rw [step_of_outOfRoom ha, step_of_outOfRoom (hroom.trans ha)]
      exact h
    | false => exact h.step_of_granted hreset ha (hroom.trans ha)

/-- **A run keeps one assembler behind another**, and is answered the same, further on, if the same
operations lack room. -/
theorem run (h : Behind front marks a b) {steps : List Step}
    (hsteps : .reset ∈ steps → front = [] ∧ marks = [])
    (hroom : b.lackings steps = a.lackings steps) :
    Behind front marks (a.run steps) (b.run steps) ∧
      b.outcomes steps = (a.outcomes steps).map (Outcome.shift front.length) := by
  induction steps generalizing a b with
  | nil => exact ⟨h, rfl⟩
  | cons s steps ih =>
    rw [lackings_cons, lackings_cons] at hroom
    obtain ⟨hhead, htail⟩ := List.cons.inj hroom
    have hnext : Behind front marks (a.step s).1 (b.step s).1 :=
      h.step (fun hs => hsteps (hs ▸ List.mem_cons_self)) hhead
    obtain ⟨hrun, houtcomes⟩ := ih hnext (fun hmem => hsteps (List.mem_cons_of_mem s hmem)) htail
    refine ⟨hrun, ?_⟩
    rw [outcomes, outcomes, List.map_cons, h.outcome hhead, houtcomes]

end Behind

/-! ### First fragments without code -/

/-- Other than for padding, no operation asks for more than the length of an instruction. -/
theorem Step.asks_le {o : Options} {position n : Nat} {s : Step} (h : s.asks o position = some n) :
    n ≤ maxInstructionLength ∨ n = o.gap position := by
  obtain ⟨code, hcode, rfl⟩ := Step.code_of_asks h
  cases s with
  | instruction i =>
    obtain ⟨e, -, hbytes⟩ := bind_eq_ok.mp hcode
    exact .inl (Encoding.length_le_of_bytes hbytes)
  | emit e => exact .inl (Encoding.length_le_of_bytes hcode)
  | word v =>
    cases hcode
    rw [LittleEndian.length_word32]
    exact .inl (by decide)
  | align =>
    cases hcode
    exact .inr (o.length_filler position)
  | reset => cases h

end Assembler

end MachineCode
