import MachineCode.Assembler
import MachineCode.Proofs.Code
import MachineCode.Proofs.Room

/-!
# All that an operation of an assembler can do

What an operation adds to the code of an assembler, and what it answers, is known from the options
and from the length of the code before it (`Assembler.Step.code`, `Assembler.Step.answer`). Neither
the bytes that are there already nor the store that holds them matter. There is one exception: an
operation that asks for a block for which there is no room (`Assembler.outOfRoom`) is refused and
has no effect.

So an operation fails on an operand, lacks room, adds its code or discards everything, and each of
these is known in advance. This is `Assembler.transition`, and whatever is said about runs is
derived from it and never looks into a buffer.
-/
namespace MachineCode

/-- What fills the gap from a position to the next boundary. -/
def Options.filler (o : Options) (position : Nat) : List UInt8 :=
  if o.nopPadding then Nop.padding (o.gap position) else List.replicate (o.gap position) 0

@[simp] theorem Options.length_filler (o : Options) (position : Nat) :
    (o.filler position).length = o.gap position := by
  rw [filler]
  split
  · exact Nop.length_padding _
  · exact List.length_replicate

namespace Assembler

@[simp] theorem length_bytes (a : Assembler) : a.bytes.length = a.length := a.buffer.length_bytes

/-- `b` is `a` with `code` at the end of its bytes and `marks` at the end of its offsets. -/
structure Added (a : Assembler) (code : List UInt8) (marks : List Nat) (b : Assembler) : Prop where
  options : b.options = a.options
  bytes : b.bytes = a.bytes ++ code
  offsets : b.offsets = a.offsets ++ marks
  /-- The capacity stays possible. -/
  addressable : a.buffer.Addressable → b.buffer.Addressable
  /-- Without padding that is handed over the code stays within the capacity. -/
  fits : a.options.nopPadding = false → a.length ≤ a.buffer.room → b.length ≤ b.buffer.room
  /-- A buffer without bytes to which none are added stays where it is. -/
  unmoved : a.length = 0 → code = [] → b.buffer = a.buffer

theorem Added.length {a b : Assembler} {code : List UInt8} {marks : List Nat}
    (h : Added a code marks b) : b.length = a.length + code.length := by
  rw [← length_bytes, h.bytes, List.length_append, length_bytes]

theorem Added.refl (a : Assembler) : Added a [] [] a :=
  ⟨rfl, (List.append_nil _).symm, (List.append_nil _).symm, id, fun _ => id, fun _ _ => rfl⟩

/-! ### What an operation adds and answers -/

/-- The code that an operation adds at a position, unless it has an operand that is refused. -/
def Step.code (o : Options) (position : Nat) : Step → Except Fault (List UInt8)
  | .instruction i => do (← i.encode).bytes
  | .emit e => e.bytes
  | .word v => .ok (LittleEndian.word32 v)
  | .align => .ok (o.filler position)
  | .reset => .ok []

/-- Whether an operation adds an instruction, so that its offset is recorded. -/
def Step.records : Step → Bool
  | .instruction _ | .emit _ => true
  | .word _ | .align | .reset => false

/-- The offsets that an operation records at a position. -/
def Step.marks (position : Nat) (s : Step) : List Nat := if s.records then [position] else []

/-- What an operation answers at a position when it is done. -/
def Step.done (o : Options) (position : Nat) : Step → Outcome
  | .instruction _ | .emit _ | .word _ => .offset position
  | .align => .padded (o.gap position)
  | .reset => .cleared

/-- What an operation answers at a position, if it does not lack room. -/
def Step.answer (o : Options) (position : Nat) (s : Step) : Outcome :=
  match s.code o position with
  | .ok _ => s.done o position
  | .error f => .refused f

/-- How large a block an operation asks for at a position, if it asks for one. Padding that is made
of instructions is handed over. -/
def Step.asks (o : Options) (position : Nat) (s : Step) : Option Nat :=
  match s with
  | .instruction _ | .emit _ | .word _ => (s.code o position).toOption.map List.length
  | .align => if o.gap position = 0 ∨ o.nopPadding = true then none else some (o.gap position)
  | .reset => none

/-- Whether an operation asks for a block for which there is no room. -/
def outOfRoom (a : Assembler) (s : Step) : Bool :=
  (s.asks a.options a.length).any a.buffer.lacks

section Asks

variable {o : Options} {position n : Nat} {s : Step}

/-- The block that is asked for is the code. -/
theorem Step.code_of_asks (h : s.asks o position = some n) :
    ∃ code, s.code o position = .ok code ∧ code.length = n := by
  have hcode : (s.code o position).toOption.map List.length = some n →
      ∃ code, s.code o position = .ok code ∧ code.length = n := by
    intro h
    obtain ⟨code, hcode, hlength⟩ := Option.map_eq_some_iff.mp h
    cases hs : s.code o position with
    | ok code' =>
      rw [hs] at hcode
      cases hcode
      exact ⟨_, rfl, hlength⟩
    | error f =>
      rw [hs] at hcode
      cases hcode
  cases s with
  | instruction i | emit e | word v => exact hcode h
  | align =>
    rw [Step.asks] at h
    split at h
    · cases h
    · cases h
      exact ⟨_, rfl, o.length_filler position⟩
  | reset => cases h

theorem Step.asks_of_code_eq_error {f : Fault} (h : s.code o position = .error f) :
    s.asks o position = none := by
  cases hasks : s.asks o position with
  | none => rfl
  | some n =>
    obtain ⟨code, hcode, -⟩ := code_of_asks hasks
    rw [hcode] at h
    cases h

end Asks

/-! ### Adding code -/

/-- What adding code can come to, if a block is asked for or not: the code is added, or there is no
room for it. -/
inductive Adds (a : Assembler) (asked : Option Nat) (code : List UInt8) (marks : List Nat) :
    Except Fault Assembler → Prop where
  | added {b : Assembler} (hroom : asked.any a.buffer.lacks = false) (h : Added a code marks b) :
      Adds a asked code marks (.ok b)
  | noRoom (hroom : asked.any a.buffer.lacks = true) : Adds a asked code marks (.error .storeSize)

theorem adds_place (a : Assembler) (code : List UInt8) {marks offsets : List Nat}
    (hoffsets : offsets = a.offsets ++ marks) :
    Adds a (some code.length) code marks (do
      let buffer ← a.buffer.place code
      return { a with buffer := buffer, offsets := offsets }) := by
  cases hlacks : a.buffer.lacks code.length with
  | true =>
    rw [Buffer.place_of_lacks hlacks]
    exact .noRoom hlacks
  | false =>
    obtain ⟨p, hp⟩ := Buffer.exists_place_eq_ok hlacks
    rw [hp]
    refine .added hlacks ⟨rfl, Buffer.bytes_place hp, hoffsets, ?_, ?_, ?_⟩
    · intro ha
      exact Buffer.addressable_place ha hp
    · intro _ _
      exact Buffer.length_le_room_of_place hp
    · rintro hlength rfl
      exact (Except.ok.inj ((Buffer.place_nil hlength).symm.trans hp)).symm

/-- Adding an instruction sees of it nothing but its bytes. -/
theorem emit_eq (a : Assembler) (e : Encoding) :
    a.emit e = do
      let code ← e.bytes
      let buffer ← a.buffer.place code
      return { a with buffer := buffer, offsets := a.offsets ++ [a.length] } := by
  rw [emit, Encoding.bytes]
  cases e.serialize <;> rfl

/-- An encoding is added with its offset. -/
theorem adds_emit (a : Assembler) {e : Encoding} {code : List UInt8} (h : e.bytes = .ok code) :
    Adds a (some code.length) code [a.length] (a.emit e) := by
  rw [emit_eq, h, ok_bind]
  exact a.adds_place code rfl

/-- A word is added without an offset. -/
theorem adds_word (a : Assembler) (v : UInt32) :
    Adds a (some 4) (LittleEndian.word32 v) [] (a.word v) :=
  a.adds_place (LittleEndian.word32 v) (List.append_nil _).symm

/-- Padding is added without an offset. -/
theorem adds_align (a : Assembler) :
    Adds a (Step.align.asks a.options a.length) (a.options.filler a.length) [] a.align := by
  rw [align, Step.asks]
  by_cases hgap : a.gap = 0
  · have hfiller : a.options.filler a.length = [] :=
      List.eq_nil_of_length_eq_zero ((a.options.length_filler _).trans hgap)
    rw [if_pos hgap, if_pos (.inl hgap), hfiller]
    exact .added rfl (.refl a)
  · have hsome : a.options.filler a.length ≠ [] := by
      intro hnil
      exact hgap ((a.options.length_filler _).symm.trans (congrArg List.length hnil))
    rw [if_neg hgap]
    by_cases hnop : a.options.nopPadding = true
    · rw [if_pos hnop, if_pos (.inr hnop)]
      refine .added rfl ⟨rfl, ?_, (List.append_nil _).symm, ?_, ?_, fun _ => (absurd · hsome)⟩
      · rw [Options.filler, if_pos hnop]
        exact a.buffer.bytes_pad a.gap
      · intro ha
        exact Buffer.addressable_appendPieces ha _
      · intro hzeros
        exact absurd hnop (hzeros ▸ Bool.false_ne_true)
    · have hasks : ¬ (a.options.gap a.length = 0 ∨ a.options.nopPadding = true) :=
        not_or.mpr ⟨hgap, hnop⟩
      rw [if_neg hnop, if_neg hasks]
      cases hlacks : a.buffer.lacks a.gap with
      | true =>
        rw [Buffer.extend_of_lacks hlacks]
        exact .noRoom hlacks
      | false =>
        obtain ⟨e, he, -⟩ := Buffer.exists_extend_eq_ok hlacks
        rw [he]
        refine .added hlacks
          ⟨rfl, ?_, (List.append_nil _).symm, ?_, ?_, fun _ => (absurd · hsome)⟩
        · rw [Options.filler, if_neg hnop]
          exact Buffer.bytes_extend he
        · intro ha
          exact Buffer.addressable_extend ha he
        · intro _ _
          exact Buffer.length_le_room_of_extend he

/-! ### Operations as steps -/

/-- What an operation can come to. -/
inductive Transition (a : Assembler) (s : Step) : Assembler × Outcome → Prop where
  /-- An operand is refused. -/
  | failed {f : Fault} (h : s.code a.options a.length = .error f) : Transition a s (a, .refused f)
  /-- There is no room for the code. -/
  | noRoom (hroom : a.outOfRoom s = true) : Transition a s (a, .refused .storeSize)
  /-- The code is added. -/
  | added {code : List UInt8} {b : Assembler} (hs : s ≠ .reset)
      (hcode : s.code a.options a.length = .ok code) (hroom : a.outOfRoom s = false)
      (h : Added a code (s.marks a.length) b) : Transition a s (b, s.done a.options a.length)
  /-- All code is discarded. -/
  | reset (hs : s = .reset) : Transition a s (a.reset, .cleared)

theorem transition_of_adds {a : Assembler} {s : Step} {code : List UInt8}
    {x : Except Fault Assembler} (hs : s ≠ .reset) (hcode : s.code a.options a.length = .ok code)
    (h : Adds a (s.asks a.options a.length) code (s.marks a.length) x) :
    Transition a s (a.settle (s.done a.options a.length) x) := by
  cases h with
  | added hroom h => exact .added hs hcode hroom h
  | noRoom hroom => exact .noRoom hroom

theorem transition_emit (a : Assembler) {s : Step} {e : Encoding}
    (hcode : s.code a.options a.length = e.bytes) (hrecords : s.records = true) :
    Transition a s (a.settle (.offset a.length) (a.emit e)) := by
  have hmarks : s.marks a.length = [a.length] := if_pos hrecords
  have hasks : s.asks a.options a.length = e.bytes.toOption.map List.length := by
    cases s with
    | instruction i | emit e =>
      rw [← hcode]
      rfl
    | word v | align | reset => cases hrecords
  have hdone : s.done a.options a.length = .offset a.length := by
    cases s with
    | instruction i | emit e => rfl
    | word v | align | reset => cases hrecords
  have hs : s ≠ .reset := by
    rintro rfl
    cases hrecords
  cases he : e.bytes with
  | ok code =>
    rw [← hdone]
    refine transition_of_adds hs (hcode.trans he) ?_
    rw [hmarks, hasks, he]
    exact a.adds_emit he
  | error f =>
    rw [emit_eq, he]
    exact .failed (hcode.trans he)

/-- **All that an operation can do.** -/
theorem transition (a : Assembler) (s : Step) : Transition a s (a.step s) := by
  cases s with
  | instruction i =>
    cases hi : i.encode with
    | ok e =>
      have hinstruction : a.instruction i = a.emit e := by
        rw [instruction, hi]
        rfl
      rw [step, hinstruction]
      exact a.transition_emit (by rw [Step.code, hi]; rfl) rfl
    | error f =>
      have hinstruction : a.instruction i = .error f := by
        rw [instruction, hi]
        rfl
      rw [step, hinstruction]
      exact .failed (by rw [Step.code, hi]; rfl)
  | emit e => exact a.transition_emit rfl rfl
  | word v => exact transition_of_adds Step.noConfusion rfl (a.adds_word v)
  | align => exact transition_of_adds Step.noConfusion rfl a.adds_align
  | reset => exact .reset rfl

/-! ### What follows for every step -/

/-- Whether an operation was refused because there was no room. -/
def Outcome.lacksRoom : Outcome → Bool
  | .refused .storeSize => true
  | .refused _ | .offset _ | .padded _ | .cleared => false

@[simp] theorem lacksRoom_done (o : Options) (position : Nat) (s : Step) :
    (s.done o position).lacksRoom = false := by
  cases s <;> rfl

theorem lacksRoom_refused {f : Fault} (h : f.kind ≠ .outOfBounds) :
    (Outcome.refused f).lacksRoom = false := by
  cases f with
  | storeSize => exact absurd rfl h
  | _ => rfl

/-- A bad operand is not mistaken for a lack of room. -/
theorem lacksRoom_of_code_eq_error {o : Options} {position : Nat} {s : Step} {f : Fault}
    (h : s.code o position = .error f) : (Outcome.refused f).lacksRoom = false := by
  have hbytes : ∀ {e : Encoding}, e.bytes = .error f → (Outcome.refused f).lacksRoom = false := by
    intro e he
    obtain ⟨cause, rfl⟩ := Encoding.eq_internal_of_bytes he
    rfl
  cases s with
  | instruction i =>
    cases hi : i.encode with
    | ok e =>
      rw [Step.code, hi] at h
      exact hbytes h
    | error g =>
      rw [Step.code, hi] at h
      cases h
      refine lacksRoom_refused ?_
      rw [i.screens.kind _ hi]
      exact Fault.Kind.noConfusion
  | emit e => exact hbytes h
  | word v | align | reset => cases h

section Steps

variable {a : Assembler} {s : Step}

/-- **An operation is refused for room exactly if it asks for a block that has no room.** -/
theorem lacksRoom_step (a : Assembler) (s : Step) : (a.step s).2.lacksRoom = a.outOfRoom s := by
  have ht := a.transition s
  generalize a.step s = r at ht
  cases ht with
  | failed hcode =>
    rw [lacksRoom_of_code_eq_error hcode, outOfRoom, Step.asks_of_code_eq_error hcode,
      Option.any_none]
  | noRoom hroom => exact hroom.symm
  | added _ _ hroom _ => rw [lacksRoom_done, hroom]
  | reset hs =>
    subst hs
    rfl

/-- **What is refused has no effect.** -/
theorem step_of_refused {f : Fault} (h : (a.step s).2 = .refused f) : (a.step s).1 = a := by
  have ht := a.transition s
  generalize a.step s = r at ht h
  cases ht with
  | failed _ => rfl
  | noRoom _ => rfl
  | added _ _ _ _ => cases s <;> cases h
  | reset _ => cases h

theorem step_of_outOfRoom (h : a.outOfRoom s = true) : a.step s = (a, .refused .storeSize) := by
  have hroom := a.lacksRoom_step s
  have ht := a.transition s
  rw [h] at hroom
  generalize a.step s = r at ht hroom
  cases ht with
  | failed hcode =>
    rw [lacksRoom_of_code_eq_error hcode] at hroom
    cases hroom
  | noRoom _ => rfl
  | added _ _ _ _ =>
    rw [lacksRoom_done] at hroom
    cases hroom
  | reset _ => cases hroom

/-- **An operation that does not lack room answers from the length alone.** -/
theorem step_eq_answer (h : a.outOfRoom s = false) :
    (a.step s).2 = s.answer a.options a.length := by
  have ht := a.transition s
  generalize a.step s = r at ht
  cases ht with
  | failed hcode => rw [Step.answer, hcode]
  | noRoom hroom =>
    rw [hroom] at h
    cases h
  | added _ hcode _ _ => rw [Step.answer, hcode]
  | reset hs =>
    rw [hs]
    rfl

/-- There is room whenever twice the new length is possible. -/
theorem outOfRoom_eq_false
    (h : ∀ n ∈ s.asks a.options a.length, 2 * (a.length + n) ≤ Buffer.maxCapacity) :
    a.outOfRoom s = false := by
  rw [outOfRoom]
  cases hasks : s.asks a.options a.length with
  | none => rfl
  | some n => exact Buffer.lacks_eq_false (h n hasks)

/-- There is none whenever the new length is not possible. -/
theorem outOfRoom_eq_true (ha : a.buffer.Addressable) {n : Nat}
    (hasks : s.asks a.options a.length = some n) (h : Buffer.maxCapacity < a.length + n) :
    a.outOfRoom s = true := by
  rw [outOfRoom, hasks]
  exact Buffer.lacks_eq_true ha h

theorem options_step (a : Assembler) (s : Step) : (a.step s).1.options = a.options := by
  have ht := a.transition s
  generalize a.step s = r at ht
  cases ht with
  | failed _ | noRoom _ => rfl
  | added _ _ _ hadded => exact hadded.options
  | reset _ => rfl

theorem addressable_step (ha : a.buffer.Addressable) (s : Step) :
    (a.step s).1.buffer.Addressable := by
  have ht := a.transition s
  generalize a.step s = r at ht
  cases ht with
  | failed _ | noRoom _ => exact ha
  | added _ _ _ hadded => exact hadded.addressable ha
  | reset _ => exact ha

end Steps

/-! ### Runs -/

@[simp] theorem bytes_reset (a : Assembler) : a.reset.bytes = [] := a.buffer.bytes_reset

@[simp] theorem offsets_reset (a : Assembler) : a.reset.offsets = [] := rfl

@[simp] theorem run_nil (a : Assembler) : a.run [] = a := rfl

/-- What every operation of a run keeps, the run keeps. -/
theorem run_invariant {P : Assembler → Prop} {steps : List Step} {a : Assembler} (ha : P a)
    (hstep : ∀ b, ∀ s ∈ steps, P b → P (b.step s).1) : P (a.run steps) :=
  List.foldlRecOn steps _ ha (fun b hb s hs => hstep b s hs hb)

@[simp] theorem options_run (a : Assembler) (steps : List Step) :
    (a.run steps).options = a.options :=
  run_invariant (P := fun b => b.options = a.options) rfl
    (fun b s _ hb => (options_step b s).trans hb)

theorem addressable_run {a : Assembler} (ha : a.buffer.Addressable) (steps : List Step) :
    (a.run steps).buffer.Addressable :=
  run_invariant (P := fun b => b.buffer.Addressable) ha (fun _ s _ hb => addressable_step hb s)

section New

variable {allocator : Allocator} {o : Options} {a : Assembler}

/-- An assembler is made with any room that a store can have. -/
theorem new_of_le (h : o.room ≤ Buffer.maxCapacity) :
    new allocator o = .ok ⟨o, .vacant allocator o.room, []⟩ := by
  have hroom : Buffer.withRoom allocator o.room = .ok (.vacant allocator o.room) := if_pos h
  rw [new, hroom]
  rfl

/-- It is made with no other. -/
theorem new_of_lt (h : Buffer.maxCapacity < o.room) : new allocator o = .error .storeSize := by
  have hroom : Buffer.withRoom allocator o.room = .error .storeSize := if_neg (Nat.not_le.mpr h)
  rw [new, hroom]
  rfl

/-- A new assembler has its options and nothing else. -/
theorem eq_of_new (h : new allocator o = .ok a) :
    o.room ≤ Buffer.maxCapacity ∧ a = ⟨o, .vacant allocator o.room, []⟩ := by
  rcases Nat.lt_or_ge Buffer.maxCapacity o.room with hlt | hle
  · rw [new_of_lt hlt] at h
    cases h
  · rw [new_of_le hle] at h
    cases h
    exact ⟨hle, rfl⟩

theorem eq_empty_of_new (h : new allocator o = .ok a) :
    a.options = o ∧ a.bytes = [] ∧ a.offsets = [] := by
  obtain ⟨-, rfl⟩ := eq_of_new h
  exact ⟨rfl, rfl, rfl⟩

theorem addressable_of_new (h : new allocator o = .ok a) : a.buffer.Addressable := by
  obtain ⟨hle, rfl⟩ := eq_of_new h
  exact hle

end New

end Assembler

end MachineCode
