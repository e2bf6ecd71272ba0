import MachineCode.Proofs.Emission
import MachineCode.Run

/-!
# The chunks of an assembler's code

What an operation adds to the code is known from its position alone (`Assembler.transition`). A list
of operations therefore has its chunks of code wherever it is run (`Assembler.chunks`), the code of
each behind that of the ones before it. An operation adds its chunk or lacks room
(`Assembler.added_of_granted`), so a run has the chunks of those that do not
(`Assembler.granted`).
-/
namespace MachineCode

/-! ### Chunks -/

/-- A piece of code, and whether it is an instruction, so that its start is recorded. -/
structure Chunk where
  code : List UInt8
  recorded : Bool
  deriving DecidableEq, Repr

namespace Chunk

/-- The code of chunks, one after the other. -/
def bytes (cs : List Chunk) : List UInt8 := cs.flatMap code

/-- Where the recorded chunks start, if the first of all chunks is at a position. -/
def starts (position : Nat) : List Chunk → List Nat
  | [] => []
  | c :: cs => (if c.recorded then [position] else []) ++ starts (position + c.code.length) cs

@[simp] theorem bytes_nil : bytes [] = [] := rfl

@[simp] theorem bytes_append (cs ds : List Chunk) : bytes (cs ++ ds) = bytes cs ++ bytes ds :=
  List.flatMap_append

@[simp] theorem bytes_cons (c : Chunk) (cs : List Chunk) : bytes (c :: cs) = c.code ++ bytes cs :=
  List.flatMap_cons

theorem starts_append (position : Nat) (cs ds : List Chunk) :
    starts position (cs ++ ds) =
      starts position cs ++ starts (position + (bytes cs).length) ds := by
  induction cs generalizing position with
  | nil => rfl
  | cons c cs ih =>
    rw [List.cons_append, starts, starts, ih, bytes_cons, List.length_append, Nat.add_assoc,
      List.append_assoc]

end Chunk

namespace Assembler

/-- The chunk that an operation adds at a position, if it adds one. -/
def Step.chunks (o : Options) (position : Nat) (s : Step) : List Chunk :=
  match s.code o position with
  | .ok code => [⟨code, s.records⟩]
  | .error _ => []

/-- The chunks that operations add, one behind the other from a position on. -/
def chunks (o : Options) (position : Nat) : List Step → List Chunk
  | [] => []
  | s :: steps =>
    s.chunks o position ++ chunks o (position + (Chunk.bytes (s.chunks o position)).length) steps

theorem chunks_append (o : Options) (position : Nat) (xs ys : List Step) :
    chunks o position (xs ++ ys) =
      chunks o position xs ++
        chunks o (position + (Chunk.bytes (chunks o position xs)).length) ys := by
  induction xs generalizing position with
  | nil => rfl
  | cons x xs ih =>
    rw [List.cons_append, chunks, chunks, ih, Chunk.bytes_append, List.length_append,
      Nat.add_assoc, List.append_assoc]

/-- **An operation that does not lack room adds its chunk**, if it has one. -/
theorem added_of_granted {a : Assembler} {s : Step} (hs : s ≠ .reset)
    (h : a.outOfRoom s = false) :
    Added a (Chunk.bytes (s.chunks a.options a.length))
      (Chunk.starts a.length (s.chunks a.options a.length)) (a.step s).1 := by
  have ht := a.transition s
  generalize a.step s = r at ht
  cases ht with
  | failed hcode =>
    rw [Step.chunks, hcode]
    exact .refl a
  | noRoom hroom =>
    rw [h] at hroom
    cases hroom
  | added _ hcode _ hadded =>
    rw [Step.chunks, hcode]
    simpa [Chunk.starts, Step.marks] using hadded
  | reset hreset => exact absurd hreset hs

/-- The operations of a run that do not lack room. -/
def granted (a : Assembler) (steps : List Step) : List Step :=
  accepted (fun a s => (a.step s).1) (fun a s => (a.step s).2.lacksRoom) a steps

theorem granted_cons_eq_self {a : Assembler} {s : Step} {steps : List Step}
    (hs : a.outOfRoom s = false) (hsteps : (a.step s).1.granted steps = steps) :
    a.granted (s :: steps) = s :: steps := by
  rw [granted, accepted, lacksRoom_step, hs, ← granted, hsteps]
  rfl

end Assembler

end MachineCode
