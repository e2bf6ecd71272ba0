import Mathlib.Data.List.DropRight
import MachineCode.Proofs.Alignment
import MachineCode.Proofs.PartSetting

/-!
# The layout of assembled code

After any run the code is made of the chunks of the operations since the last reset, one behind the
other, and the recorded offsets are where the instructions among these chunks start
(`Assembler.LaidOut`). One operation keeps this (`Assembler.LaidOut.step`), so every run does. What
lies at an offset, and in which order the offsets stand, is a matter of chunks alone
(`Assembler.OffsetsLocate`).

Nothing of this depends on the room at the start, on the allocator or on what was assembled before a
reset (`Assembler.Cleared.run_eq`): the only thing that does is whether an operation lacks room. No
operation lacks room as long as twice the length is possible for a store
(`Assembler.LaidOut.granted_eq_self`), and the history can make a difference only for a length
between half the largest capacity and the largest one (`Assembler.Behind.lackings_of_decided`).
-/
namespace MachineCode

/-! ### Where chunks are -/

namespace Chunk

def recordedCodes (cs : List Chunk) : List (List UInt8) := (cs.filter recorded).map code

theorem bounds_of_mem_starts {position n : Nat} {cs : List Chunk} (h : n ∈ starts position cs) :
    position ≤ n ∧ n ≤ position + (bytes cs).length := by
  induction cs generalizing position with
  | nil => cases h
  | cons c cs ih =>
    rw [bytes_cons, List.length_append]
    rcases List.mem_append.mp h with hhead | htail
    · split at hhead
      · rw [List.mem_singleton.mp hhead]
        omega
      · cases hhead
    · have := ih htail
      omega

/-- Chunks start in their order. Two of them may start at the same position, if one is empty. -/
theorem pairwise_starts (position : Nat) (cs : List Chunk) :
    (starts position cs).Pairwise (· ≤ ·) := by
  induction cs generalizing position with
  | nil => exact .nil
  | cons c cs ih =>
    refine List.pairwise_append.mpr ⟨?_, ih _, ?_⟩
    · split
      · exact List.pairwise_singleton _ _
      · exact .nil
    · intro n hn m hm
      have hle := (bounds_of_mem_starts hm).1
      split at hn
      · rw [List.mem_singleton.mp hn]
        omega
      · cases hn

/-- At the start of each recorded chunk there is its code. -/
theorem code_at_starts (front : List UInt8) (cs : List Chunk) :
    List.Forall₂ (fun n code => ((front ++ bytes cs).drop n).take code.length = code)
      (starts front.length cs) (recordedCodes cs) := by
  induction cs generalizing front with
  | nil => exact .nil
  | cons c cs ih =>
    -- The code of the first chunk is in front of the others.
    have htail := ih (front ++ c.code)
    rw [List.append_assoc, ← bytes_cons, List.length_append] at htail
    rw [starts, recordedCodes]
    cases hc : c.recorded with
    | false =>
      rw [List.filter_cons_of_neg (by simp [hc])]
      exact htail
    | true =>
      rw [List.filter_cons_of_pos hc]
      refine .cons ?_ htail
      rw [List.drop_left, bytes_cons, List.take_left]

end Chunk

namespace Assembler

/-! ### The layout after a run -/

def sinceReset (steps : List Step) : List Step := steps.rtakeWhile (· ≠ .reset)

/-- The chunks of a run: those of the operations since the last reset. -/
def layout (o : Options) (steps : List Step) : List Chunk :=
  chunks o 0 (sinceReset steps)

theorem layout_reset (o : Options) (steps : List Step) :
    layout o (steps ++ [.reset]) = [] := by
  rw [layout, sinceReset, List.rtakeWhile_concat_neg _ _ _ (by simp)]
  rfl

theorem layout_concat (o : Options) (steps : List Step) {s : Step} (hs : s ≠ .reset) :
    layout o (steps ++ [s]) = layout o steps ++
      s.chunks o (Chunk.bytes (layout o steps)).length := by
  rw [layout, sinceReset, List.rtakeWhile_concat_pos _ _ _ (by simpa using hs), chunks_append,
    Nat.zero_add, chunks, chunks, List.append_nil]
  rfl

/-- `b` is what the operations `before` leave: the chunks since the last reset, and where the
recorded ones of them start. -/
structure LaidOut (o : Options) (before : List Step) (b : Assembler) : Prop where
  options : b.options = o
  bytes : b.bytes = Chunk.bytes (layout o before)
  offsets : b.offsets = Chunk.starts 0 (layout o before)

/-- The offsets of `b` are in order and within its code, and at each of them there is the code of
its instruction. -/
structure OffsetsLocate (b : Assembler) (codes : List (List UInt8)) : Prop where
  ordered : b.offsets.Pairwise (· ≤ ·)
  bounded : ∀ n ∈ b.offsets, n ≤ b.length
  located : List.Forall₂ (fun n code => (b.bytes.drop n).take code.length = code) b.offsets codes

namespace LaidOut

variable {o : Options} {before : List Step} {b : Assembler}

theorem length (h : LaidOut o before b) :
    b.length = (Chunk.bytes (layout o before)).length := by
  rw [← length_bytes, h.bytes]

theorem offsetsLocate (h : LaidOut o before b) :
    OffsetsLocate b (Chunk.recordedCodes (layout o before)) := by
  refine ⟨?_, ?_, ?_⟩
  · rw [h.offsets]
    exact Chunk.pairwise_starts _ _
  · intro n hn
    rw [h.offsets] at hn
    have hle := (Chunk.bounds_of_mem_starts hn).2
    rwa [Nat.zero_add, ← h.length] at hle
  · rw [h.offsets, h.bytes]
    exact Chunk.code_at_starts [] _

/-- **One operation keeps the layout.** -/
theorem step (h : LaidOut o before b) {s : Step} (hs : b.outOfRoom s = false) :
    LaidOut o (before ++ [s]) (b.step s).1 := by
  by_cases hreset : s = .reset
  · subst hreset
    refine ⟨h.options, ?_, ?_⟩
    · rw [layout_reset]
      exact b.bytes_reset
    · rw [layout_reset]
      rfl
  · have hadded := added_of_granted hreset hs
    rw [h.options, h.length] at hadded
    refine ⟨hadded.options.trans h.options, ?_, ?_⟩
    · rw [hadded.bytes, h.bytes, layout_concat _ _ hreset, Chunk.bytes_append]
    · rw [hadded.offsets, h.offsets, layout_concat _ _ hreset, Chunk.starts_append, Nat.zero_add]

/-- **A run keeps the layout**, counting the operations that did not lack room. -/
theorem run (h : LaidOut o before b) (steps : List Step) :
    LaidOut o (before ++ b.granted steps) (b.run steps) := by
  refine accepted_invariant (fun b before => LaidOut o before b) ?_ ?_ b before h steps
  · intro b s hs
    rw [lacksRoom_step] at hs
    rw [step_of_outOfRoom hs]
  · intro b before s h hs
    rw [lacksRoom_step] at hs
    exact h.step hs

/-- No operation lacks room, as long as twice the length is possible for a store. -/
theorem granted_eq_self (h : LaidOut o before b) {steps : List Step}
    (hsteps : ∀ n ≤ steps.length,
      2 * (Chunk.bytes (layout o (before ++ steps.take n))).length ≤ Buffer.maxCapacity) :
    b.granted steps = steps := by
  induction steps generalizing b before with
  | nil => rfl
  | cons s steps ih =>
    have hroom : b.outOfRoom s = false := by
      refine outOfRoom_eq_false ?_
      intro n hn
      have hreset : s ≠ .reset := by
        rintro rfl
        cases hn
      obtain ⟨code, hcode, rfl⟩ := Step.code_of_asks hn
      have hnext := hsteps 1 (Nat.succ_le_succ (Nat.zero_le _))
      rw [h.options, h.length] at hcode
      rwa [List.take_succ_cons, List.take_zero, layout_concat _ _ hreset, Chunk.bytes_append,
        Step.chunks, hcode, Chunk.bytes_cons, Chunk.bytes_nil, List.append_nil,
        List.length_append, ← h.length] at hnext
    refine granted_cons_eq_self hroom (ih (h.step hroom) ?_)
    intro n hn
    rw [List.append_assoc]
    exact hsteps (n + 1) (Nat.succ_le_succ hn)

end LaidOut

theorem laidOut_of_empty {b : Assembler} (hbytes : b.bytes = []) (hoffsets : b.offsets = []) :
    LaidOut b.options [] b := ⟨rfl, hbytes, hoffsets⟩

/-! ### What a single operation answers -/

/-- How `b` takes an operation: it answers from its length and what it adds starts at its end,
unless it lacks room. What is refused changes nothing. -/
structure Answers (b : Assembler) (s : Step) : Prop where
  answer : b.outOfRoom s = false → (b.step s).2 = s.answer b.options b.length
  position : ∀ n, (b.step s).2 = .offset n → n = b.length
  unchanged : ∀ f, (b.step s).2 = .refused f → (b.step s).1 = b
  noRoom : b.outOfRoom s = true → b.step s = (b, .refused .storeSize)
  /-- Whether there is room is decided by the capacity. -/
  room : ∀ n ∈ s.asks b.options b.length, b.buffer.DecidesRoom n (b.outOfRoom s)

theorem eq_length_of_offset {b : Assembler} {s : Step} {n : Nat} (h : (b.step s).2 = .offset n) :
    n = b.length := by
  have hroom : b.outOfRoom s = false := by
    rw [← lacksRoom_step, h]
    rfl
  rw [step_eq_answer hroom, Step.answer] at h
  split at h
  · cases s with
    | instruction i | emit e | word v => exact (Outcome.offset.inj h).symm
    | align | reset => cases h
  · cases h

/-- From any length that a store can have, no operation asks for more than 2⁶². -/
theorem Step.add_asks_le {o : Options} (ho : o.Sound) {position n : Nat} {s : Step}
    (hposition : position ≤ Buffer.maxCapacity) (h : s.asks o position = some n) :
    position + n ≤ 2 ^ 62 := by
  have hmax : Buffer.maxCapacity = 0x1000000000000 := rfl
  have hlimit : maxInstructionLength = 15 := rfl
  rcases Step.asks_le h with hle | rfl
  · omega
  · exact ho.add_gap_le hposition

theorem answers {b : Assembler} (ho : b.options.Sound) (hb : b.buffer.Addressable)
    (hlength : b.length ≤ Buffer.maxCapacity) (s : Step) : Answers b s where
  answer := step_eq_answer
  position := fun _ => eq_length_of_offset
  unchanged := fun _ => step_of_refused
  noRoom := step_of_outOfRoom
  room := by
    intro n hn
    rw [outOfRoom, hn]
    exact Buffer.decidesRoom hb (Step.add_asks_le ho hlength hn)

/-! ### Capacity and history do not matter -/

/-- An assembler without code that pads as `o` says: a new one with any room, or one that was reset
after any run. -/
inductive Cleared (o : Options) : Assembler → Prop where
  | new {allocator : Allocator} {o' : Options} {a : Assembler} (h : o.PadsAlike o')
      (hnew : new allocator o' = .ok a) : Cleared o a
  | reset {allocator : Allocator} {o' : Options} {a : Assembler} (h : o.PadsAlike o')
      (hnew : Assembler.new allocator o' = .ok a) (before : List Step) :
      Cleared o (a.run before).reset

namespace Cleared

variable {o : Options} {c : Assembler}

theorem empty (h : Cleared o c) : o.PadsAlike c.options ∧ c.bytes = [] ∧ c.offsets = [] := by
  cases h with
  | new h hnew =>
    obtain ⟨rfl, hempty⟩ := eq_empty_of_new hnew
    exact ⟨h, hempty⟩
  | @reset _ _ a h hnew before =>
    obtain ⟨rfl, -⟩ := eq_empty_of_new hnew
    rw [← options_run a before] at h
    exact ⟨h, bytes_reset _, offsets_reset _⟩

theorem addressable (h : Cleared o c) : c.buffer.Addressable := by
  cases h with
  | new h hnew => exact addressable_of_new hnew
  | reset h hnew before =>
    have hrun := addressable_run (addressable_of_new hnew) before
    exact hrun

theorem behind (h : Cleared o c) {allocator : Allocator} {a : Assembler}
    (hnew : Assembler.new allocator o = .ok a) : Behind [] [] a c := by
  obtain ⟨halike, hbytes, hoffsets⟩ := h.empty
  obtain ⟨rfl, hbytes', hoffsets'⟩ := eq_empty_of_new hnew
  refine ⟨halike, Nat.dvd_zero _, ?_, ?_⟩
  · rw [hbytes, hbytes', List.append_nil]
  · rw [hoffsets, hoffsets', List.map_nil, List.append_nil]

/-- Whether operations stay within half the largest capacity is seen from the padding alone. -/
theorem granted_eq_self (h : Cleared o c) {steps : List Step}
    (hsteps : ∀ n ≤ steps.length,
      2 * (Chunk.bytes (layout o (steps.take n))).length ≤ Buffer.maxCapacity) :
    c.granted steps = steps := by
  obtain ⟨halike, hbytes, hoffsets⟩ := h.empty
  refine (laidOut_of_empty hbytes hoffsets).granted_eq_self ?_
  intro n hn
  have hlayout : layout c.options (steps.take n) = layout o (steps.take n) :=
    chunks_add halike (Nat.dvd_zero _) 0 _
  rw [List.nil_append, hlayout]
  exact hsteps n hn

end Cleared

theorem Outcome.shift_zero : Outcome.shift 0 = id := by
  funext outcome
  cases outcome <;> rfl

/-- `a` and `c` answer a run in the same way, and have the same code and offsets after it. -/
structure LooksAlike (a c : Assembler) (steps : List Step) : Prop where
  outcomes : c.outcomes steps = a.outcomes steps
  bytes : (c.run steps).bytes = (a.run steps).bytes
  offsets : (c.run steps).offsets = (a.run steps).offsets

/-- **Cleared assemblers look alike**, as long as the same operations lack room. -/
theorem Cleared.run_eq {allocator : Allocator} {o : Options} {a c : Assembler}
    (hnew : Assembler.new allocator o = .ok a) (hc : Cleared o c) {steps : List Step}
    (hroom : c.lackings steps = a.lackings steps) : LooksAlike a c steps := by
  obtain ⟨hrun, houtcomes⟩ := (hc.behind hnew).run (fun _ => ⟨rfl, rfl⟩) hroom
  refine ⟨?_, hrun.bytes, ?_⟩
  · rw [houtcomes, List.length_nil, Outcome.shift_zero, List.map_id]
  · simpa using hrun.offsets

/-- The length decides by itself whether there is room for the operations of a run: none of them
asks for a length between half the largest capacity and the largest one. -/
def Decided (a : Assembler) : List Step → Prop
  | [] => True
  | s :: steps =>
    (∀ n ∈ s.asks a.options a.length,
      2 * (a.length + n) ≤ Buffer.maxCapacity ∨ Buffer.maxCapacity < a.length + n) ∧
    (a.step s).1.Decided steps

/-- Where the length decides, **the same operations lack room** whatever the capacities are. -/
theorem Behind.lackings_of_decided {a c : Assembler} (h : Behind [] [] a c)
    (ha : a.buffer.Addressable) (hc : c.buffer.Addressable) {steps : List Step}
    (hdecided : a.Decided steps) : c.lackings steps = a.lackings steps := by
  induction steps generalizing a c with
  | nil => rfl
  | cons s steps ih =>
    obtain ⟨hs, htail⟩ := hdecided
    have hlength : c.length = a.length := by rw [h.length, List.length_nil, Nat.zero_add]
    have hasks : s.asks c.options c.length = s.asks a.options a.length := by
      rw [h.length]
      exact Step.asks_add h.padsAlike h.boundary a.length s
    have hroom : c.outOfRoom s = a.outOfRoom s := by
      rw [outOfRoom, outOfRoom, hasks]
      cases hn : s.asks a.options a.length with
      | none => rfl
      | some n =>
        rw [Option.any_some, Option.any_some]
        rcases hs n hn with hle | hlt
        · have hlacks : a.buffer.lacks n = false := Buffer.lacks_eq_false hle
          rw [← hlength] at hle
          exact (Buffer.lacks_eq_false hle).trans hlacks.symm
        · have hlacks : a.buffer.lacks n = true := Buffer.lacks_eq_true ha hlt
          rw [← hlength] at hlt
          exact (Buffer.lacks_eq_true hc hlt).trans hlacks.symm
    have hnext := h.step (fun _ => ⟨rfl, rfl⟩) hroom
    rw [lackings_cons, lackings_cons, hroom,
      ih hnext (addressable_step ha s) (addressable_step hc s) htail]

/-! ### Runs -/

/-- The code never gets longer than a store can be, as only padding that is made of instructions
could make it. -/
def Storable (a : Assembler) (steps : List Step) : Prop :=
  ∀ n ≤ steps.length, (a.run (steps.take n)).length ≤ Buffer.maxCapacity

instance (a : Assembler) (steps : List Step) : Decidable (a.Storable steps) :=
  inferInstanceAs (Decidable (∀ n ≤ steps.length, _))

/-- Any encoding that was built part by part can be added. -/
theorem step_emit_of_reachable {b : Assembler} {e : Encoding} (he : e.Reachable)
    (hroom : b.outOfRoom (.emit e) = false) : (b.step (.emit e)).2 = .offset b.length := by
  have hcode : (Step.emit e).code b.options b.length = .ok e.parts :=
    Encoding.bytes_eq_parts he.length_le
  rw [step_eq_answer hroom, Step.answer, hcode]
  rfl

/-- **The layout of whole runs.** An assembler is made with any room that a store can have, and with
no other. After any run from there its code consists of the chunks since the last reset, less the
operations that lacked room, and there are none of these as long as twice the length is possible.
The recorded offsets are where the instructions start; they are in order, within the code, and lead
to the instructions. Every operation is answered from the length alone, a refused one changes
nothing, and encodings that were built part by part are accepted; only a block for which the
capacity gives no room is an exception.

Any other cleared assembler that pads alike gives the same answers, the same code and the same
offsets, whatever its room and its allocator are and whatever it held before, if the same operations
lack room. They do unless one of them asks for a length between half the largest capacity and the
largest one. -/
theorem run_laidOut (allocator : Allocator) {o : Options} (ho : o.Derivable) :
    (Buffer.maxCapacity < o.room → new allocator o = .error .storeSize) ∧
    (o.room ≤ Buffer.maxCapacity →
      ∃ a, new allocator o = .ok a ∧ ∀ steps : List Step, a.Storable steps →
        LaidOut o (a.granted steps) (a.run steps) ∧
        OffsetsLocate (a.run steps) (Chunk.recordedCodes (layout o (a.granted steps))) ∧
        (∀ s, a.Storable (steps ++ [s]) → Answers (a.run steps) s) ∧
        (∀ e : Encoding, e.Reachable → (a.run steps).outOfRoom (.emit e) = false →
          ((a.run steps).step (.emit e)).2 = .offset (a.run steps).length) ∧
        ((∀ n ≤ steps.length,
          2 * (Chunk.bytes (layout o (steps.take n))).length ≤ Buffer.maxCapacity) →
            ∀ c, Cleared o c → c.granted steps = steps) ∧
        (∀ c, Cleared o c → c.lackings steps = a.lackings steps → LooksAlike a c steps) ∧
        (a.Decided steps → ∀ c, Cleared o c → c.lackings steps = a.lackings steps)) := by
  refine ⟨new_of_lt, ?_⟩
  intro hroom
  have hnew : new allocator o = .ok ⟨o, .vacant allocator o.room, []⟩ := new_of_le hroom
  refine ⟨_, hnew, ?_⟩
  intro steps hsteps
  have haddressable := addressable_of_new hnew
  have hlaid := (laidOut_of_empty (b := ⟨o, .vacant allocator o.room, []⟩) rfl rfl).run steps
  refine ⟨hlaid, hlaid.offsetsLocate, ?_, fun e => step_emit_of_reachable, ?_, ?_, ?_⟩
  · -- What decides about the operation is the length before it.
    intro s _
    refine answers ?_ (addressable_run haddressable steps) ?_ s
    · rw [options_run]
      exact ho.sound
    · have hlength := hsteps steps.length (Nat.le_refl _)
      rwa [List.take_length] at hlength
  · intro hhalf c hc
    exact hc.granted_eq_self hhalf
  · intro c hc
    exact Cleared.run_eq hnew hc
  · intro hdecided c hc
    exact (hc.behind hnew).lackings_of_decided haddressable hc.addressable hdecided

/-- A run with a reset, an empty instruction and padding. -/
theorem run_laidOut_reset :
    ∃ a, new .tight { alignment := 4, nopPadding := false } = .ok a ∧
      (a.run [.word 7, .reset, .emit .empty, .emit .start, .align, .word 1]).bytes =
        [0, 0, 0, 0, 1, 0, 0, 0] ∧
      (a.run [.word 7, .reset, .emit .empty, .emit .start, .align, .word 1]).offsets = [0, 0] := by
  have hchange : Options.change {} (.alignment 4) = .ok { alignment := 4 } :=
    Options.change_eq_ok_iff.mpr ⟨⟨2, by decide, rfl⟩, rfl⟩
  have hderivable : Options.Derivable { alignment := 4, nopPadding := false } :=
    .change (.change .default hchange) (c := .nopPadding false) rfl
  obtain ⟨-, hmade⟩ := run_laidOut .tight hderivable
  obtain ⟨a, hnew, hrun⟩ := hmade (by decide)
  have hcleared : Cleared { alignment := 4, nopPadding := false } a := .new (.refl _) hnew
  cases hnew
  obtain ⟨hlaid, -, -, -, hgranted, -⟩ :=
    hrun [.word 7, .reset, .emit .empty, .emit .start, .align, .word 1] (by decide)
  rw [hgranted (by decide) _ hcleared] at hlaid
  exact ⟨_, rfl, hlaid.bytes, hlaid.offsets⟩

/-- With room for 2⁴⁹ bytes there is no assembler, where with the usual room there is one. -/
theorem new_excessive :
    (∃ o, Options.change {} (.room 0x2000000000000) = .ok o ∧ ¬ ∃ a, new .tight o = .ok a) ∧
      ∃ a, new .tight {} = .ok a ∧ a.outcomes [.word 1] = [.offset 0] := by
  refine ⟨⟨_, rfl, ?_⟩, _, rfl, rfl⟩
  rintro ⟨a, ha⟩
  cases ha

end Assembler

end MachineCode
