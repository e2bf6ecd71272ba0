import MachineCode.Proofs.Room
import MachineCode.Run

/-!
# Buffers are plain lists of bytes

Seen from outside a buffer is a list of bytes, and every operation does to it what the operation of
the same name does to a list (`Buffer.Step.onBytes`): it adds bytes at the end, or keeps the first
ones. The store behind the bytes does not show. It may hold bytes that were discarded or overwritten
before, and the buffer may move to another one at any time, but what is handed out as zero bytes is
zero, and no byte that is there already is touched.

The one thing a list does not have is an end of memory. An operation that asks for a block may find
no room for it, and then it is refused and has no effect (`Buffer.outOfRoom`). All other operations
of a run are as on lists, each of them (`Buffer.step_eq_onBytes`) and the run as a whole
(`Buffer.bytes_run`). This is said of operations that a machine can be asked for, `Buffer.Bounded`:
past a length of 2⁶² the loop that looks for room need not end, and no more bytes are handed over
than a store can have.
-/
namespace MachineCode.Buffer

/-! ### Operations on lists -/

/-- What an operation does to a list of bytes, and what it answers. -/
def Step.onBytes (bs : List UInt8) : Step → List UInt8 × Outcome
  | .append n fill =>
    if 0 ≤ n then
      (bs ++ (fill.take n.toNat ++ List.replicate (n.toNat - fill.length) 0),
        .granted (List.replicate n.toNat 0))
    else (if 0 ≤ bs.length + n then bs.take (bs.length + n).toNat else bs, .refused .bounds)
  | .appendByte v => (bs ++ [v], .done)
  | .appendBytes cs => (bs ++ cs, .done)
  | .appendWord v => (bs ++ LittleEndian.word32 v, .done)
  | .pad n => (bs ++ Nop.padding n.toNat, .done)
  | .truncate n =>
    if 0 ≤ n ∧ n ≤ bs.length then (bs.take n.toNat, .done) else (bs, .refused .truncation)
  | .reset => ([], .done)

/-- A list of bytes after a run of operations. -/
def runBytes (bs : List UInt8) (steps : List Step) : List UInt8 :=
  steps.foldl (fun bs s => (s.onBytes bs).1) bs

/-- Whether an operation can take bytes away. -/
def Step.shortens : Step → Bool
  | .append n _ => n < 0
  | .truncate _ => true
  | .reset => true
  | .appendByte _ | .appendBytes _ | .appendWord _ | .pad _ => false

/-- On lists, bytes are only ever added at the end or taken away from there. -/
theorem prefix_onBytes (bs : List UInt8) {s : Step} (hs : s.shortens = false) :
    bs <+: (s.onBytes bs).1 := by
  cases s with
  | append n fill =>
    have hn : 0 ≤ n := by simpa [Step.shortens] using hs
    rw [Step.onBytes, if_pos hn]
    exact List.prefix_append _ _
  | appendByte v | appendBytes cs | appendWord v | pad n => exact List.prefix_append _ _
  | truncate n | reset => cases hs

/-! ### Requests for room -/

/-- How large a block an operation asks for, if it asks for one. -/
def Step.asks : Step → Option Nat
  | .append n _ => if 0 ≤ n then some n.toNat else none
  | .appendWord _ => some 4
  | .appendByte _ | .appendBytes _ | .pad _ | .truncate _ | .reset => none

theorem Step.neg_of_asks_none {n : Int} {fill : List UInt8} (h : (append n fill).asks = none) :
    n < 0 := by
  by_contra hn
  rw [asks, if_pos (Int.not_lt.mp hn)] at h
  cases h

/-- What an operation writes to the start of the block. -/
def Step.fill : Step → List UInt8
  | .append _ fill => fill
  | .appendWord v => LittleEndian.word32 v
  | .appendByte _ | .appendBytes _ | .pad _ | .truncate _ | .reset => []

/-- How many bytes an operation hands over, if it hands over any. -/
def Step.hands : Step → Option Nat
  | .appendByte _ => some 1
  | .appendBytes bs => some bs.length
  | .pad n => some n.toNat
  | .append _ _ | .appendWord _ | .truncate _ | .reset => none

/-- Whether an operation asks for a block for which there is no room. -/
def outOfRoom (b : Buffer) (s : Step) : Bool := s.asks.any b.lacks

/-- The operations of a run that do not lack room. -/
def granted (b : Buffer) (steps : List Step) : List Step :=
  accepted (fun b s => (b.step s).1) outOfRoom b steps

/-- An operation stays within what a machine can be asked for: blocks up to a length of 2⁶², and
bytes that are handed over up to a length that a store can have. -/
structure Bounded (b : Buffer) (s : Step) : Prop where
  asked : ∀ n ∈ s.asks, b.length + n ≤ 2 ^ 62
  handed : ∀ n ∈ s.hands, b.length + n ≤ maxCapacity

/-- All operations of a run stay within that. -/
def BoundedRun (b : Buffer) : List Step → Prop
  | [] => True
  | s :: steps => b.Bounded s ∧ (b.step s).1.BoundedRun steps

/-! ### One operation at a time -/

/-- Writing replaces what lies under the bytes that are written, up to the mark. -/
theorem bytes_overwrite_of_le {b : Buffer} {i : Nat} (hi : i ≤ b.length) (bs : List UInt8) :
    (b.overwrite i bs).bytes =
      b.bytes.take i ++ (bs.take (b.length - i) ++ b.bytes.drop (i + bs.length)) := by
  have hstore := b.length_le
  have hfit : (bs.take (b.length - i)).length ≤ b.length - i := List.length_take_le _ _
  have hstart : (b.store.take i ++ bs.take (b.length - i)).length =
      i + (bs.take (b.length - i)).length := by
    rw [List.length_append, List.length_take_of_le (by omega)]
  have hbytes : b.bytes.take i = b.store.take i := by
    rw [bytes, List.take_take, Nat.min_eq_left hi]
  -- What is cut off at the mark would have replaced bytes past it.
  have hrest : b.bytes.drop (i + (bs.take (b.length - i)).length) =
      b.bytes.drop (i + bs.length) := by
    rw [List.length_take]
    by_cases hle : bs.length ≤ b.length - i
    · rw [Nat.min_eq_right hle]
    · rw [List.drop_of_length_le (by rw [length_bytes]; omega),
        List.drop_of_length_le (by rw [length_bytes]; omega)]
  rw [hbytes, ← List.append_assoc, ← hrest, bytes, bytes, overwrite, List.drop_take]
  simp only
  rw [List.take_append, List.take_of_length_le (by omega), hstart]

/-- Filling the start of zero bytes that were just added. -/
theorem bytes_overwrite_extend {b e : Buffer} {n : Nat} (h : b.extend n = .ok e)
    (fill : List UInt8) :
    (e.overwrite b.length fill).bytes =
      b.bytes ++ (fill.take n ++ List.replicate (n - fill.length) 0) := by
  have hlen := length_extend h
  have hdrop : (b.bytes ++ List.replicate n (0 : UInt8)).drop (b.length + fill.length) =
      List.replicate (n - fill.length) 0 := by
    rw [← b.length_bytes, List.drop_length_add_append, List.drop_replicate]
  rw [bytes_overwrite_of_le (by omega), bytes_extend h, hlen, Nat.add_sub_cancel_left, hdrop,
    ← b.length_bytes, List.take_left]

/-- A negative request is refused once the mark has moved back, if it could. -/
theorem append_of_neg (b : Buffer) {n : Int} (hn : n < 0) :
    b.append n =
      (if 0 ≤ b.length + n then b.cut (b.length + n).toNat else b, .error .bounds) := by
  simp only [append]
  rw [if_pos hn]
  by_cases hstop : 0 ≤ b.length + n
  · rw [if_pos hstop, if_neg (by omega)]
  · rw [if_neg hstop, if_pos (by omega)]

section OneOperation

variable {b : Buffer} {s : Step} {n : Nat}

/-- **A block for which there is no room is refused**, and nothing is changed. -/
theorem step_of_lacks (hs : s.asks = some n) (hn : b.length + n ≤ 2 ^ 62)
    (h : b.lacks n = true) : b.step s = (b, .refused .storeSize) := by
  cases s with
  | append m fill =>
    obtain ⟨hm, hm'⟩ := Option.ite_none_right_eq_some.mp hs
    cases hm'
    have hlimit : maxLength = 0x7fffffffffffffff := rfl
    have happend : b.append m = (b, .error .storeSize) := by
      simp only [append, extend_of_lacks h]
      rw [if_neg (by omega), if_neg (by omega)]
    rw [step, happend]
  | appendWord v =>
    cases hs
    have hplace : b.appendWord v = .error .storeSize := place_of_lacks h
    rw [step, hplace, settle]
  | appendByte v | appendBytes bs | pad m | truncate m | reset => cases hs

/-- **Any other block is added**, filled as far as asked for. -/
theorem step_of_extend (hs : s.asks = some n) (hn : b.length + n ≤ 2 ^ 62) {e : Buffer}
    (he : b.extend n = .ok e) :
    b.step s = (e.overwrite b.length s.fill, (s.onBytes b.bytes).2) := by
  cases s with
  | append m fill =>
    obtain ⟨hm, hm'⟩ := Option.ite_none_right_eq_some.mp hs
    cases hm'
    have hlimit : maxLength = 0x7fffffffffffffff := rfl
    have happend : b.append m = (e, .ok (List.replicate m.toNat 0)) := by
      simp only [append, he]
      rw [if_neg (by omega), if_neg (by omega), bytes_extend he, ← b.length_bytes, List.drop_left]
    rw [step, happend, Step.onBytes, if_pos hm]
    rfl
  | appendWord v =>
    cases hs
    have hplace : b.appendWord v = .ok (e.overwrite b.length (LittleEndian.word32 v)) := by
      rw [appendWord, place, LittleEndian.length_word32, he]
      rfl
    rw [step, hplace, settle, Step.onBytes, Step.fill]
  | appendByte v | appendBytes bs | pad m | truncate m | reset => cases hs

/-- What is added for a block, on lists: the filling and zero bytes behind it. -/
theorem onBytes_of_asks (hs : s.asks = some n) (bs : List UInt8) :
    (s.onBytes bs).1 = bs ++ (s.fill.take n ++ List.replicate (n - s.fill.length) 0) := by
  cases s with
  | append m fill =>
    obtain ⟨hm, hm'⟩ := Option.ite_none_right_eq_some.mp hs
    cases hm'
    rw [Step.onBytes, if_pos hm, Step.fill]
  | appendWord v =>
    cases hs
    rfl
  | appendByte v | appendBytes bs | pad m | truncate m | reset => cases hs

/-- An operation that does not ask for a block is as on lists. -/
theorem step_of_asks_none (b : Buffer) (hs : s.asks = none) :
    ((b.step s).1.bytes, (b.step s).2) = s.onBytes b.bytes := by
  cases s with
  | append m fill =>
    have hm : m < 0 := Step.neg_of_asks_none hs
    rw [step, append_of_neg b hm, Step.onBytes, if_neg (Int.not_le.mpr hm), length_bytes]
    by_cases hstop : 0 ≤ b.length + m
    · simp only [if_pos hstop, bytes_cut]
    · simp only [if_neg hstop]
  | appendByte v => rw [step, bytes_appendByte, Step.onBytes]
  | appendBytes bs => rw [step, bytes_appendBytes, Step.onBytes]
  | pad m => rw [step, bytes_pad, Step.onBytes]
  | truncate m =>
    rw [step, truncate, Step.onBytes, length_bytes]
    by_cases hm : 0 ≤ m ∧ m ≤ b.length
    · rw [if_neg (by omega), if_pos hm, settle, bytes_cut]
    · rw [if_pos (by omega), if_neg hm, settle]
  | reset => rw [step, bytes_reset, Step.onBytes]
  | appendWord v => cases hs

theorem outOfRoom_of_asks (hs : s.asks = some n) : b.outOfRoom s = b.lacks n := by
  rw [outOfRoom, hs, Option.any_some]

/-- **An operation is as on lists**, unless it lacks room. -/
theorem step_eq_onBytes (hb : b.Bounded s) (h : b.outOfRoom s = false) :
    ((b.step s).1.bytes, (b.step s).2) = s.onBytes b.bytes := by
  cases hs : s.asks with
  | none => exact step_of_asks_none b hs
  | some n =>
    rw [outOfRoom_of_asks hs] at h
    obtain ⟨e, he, -⟩ := exists_extend_eq_ok h
    rw [step_of_extend hs (hb.asked n hs) he, bytes_overwrite_extend he, ← onBytes_of_asks hs]

/-- An operation that lacks room has no effect. -/
theorem step_of_outOfRoom (hb : b.Bounded s) (h : b.outOfRoom s = true) :
    b.step s = (b, .refused .storeSize) := by
  cases hs : s.asks with
  | none =>
    rw [outOfRoom, hs] at h
    cases h
  | some n =>
    rw [outOfRoom_of_asks hs] at h
    exact step_of_lacks hs (hb.asked n hs) h

theorem bytes_step (hb : b.Bounded s) (h : b.outOfRoom s = false) :
    (b.step s).1.bytes = (s.onBytes b.bytes).1 :=
  congrArg Prod.fst (step_eq_onBytes hb h)

/-- An operation keeps the capacity possible. -/
theorem addressable_step (hb : b.Addressable) (hs : b.Bounded s) : (b.step s).1.Addressable := by
  cases hasks : s.asks with
  | some n =>
    cases hlacks : b.lacks n with
    | true =>
      rw [step_of_lacks hasks (hs.asked n hasks) hlacks]
      exact hb
    | false =>
      obtain ⟨e, he, -⟩ := exists_extend_eq_ok hlacks
      rw [step_of_extend hasks (hs.asked n hasks) he]
      have hroom : e.Addressable := addressable_extend hb he
      exact hroom
  | none =>
    cases s with
    | append m fill =>
      have hm : m < 0 := Step.neg_of_asks_none hasks
      rw [step, append_of_neg b hm]
      by_cases hstop : 0 ≤ b.length + m
      · rw [if_pos hstop]
        exact hb
      · rw [if_neg hstop]
        exact hb
    | truncate m =>
      rw [step, truncate]
      split
      · exact hb
      · exact hb
    | appendByte v => exact addressable_appendPieces hb [[v]]
    | appendBytes bs => exact addressable_appendPieces hb [bs]
    | pad m => exact addressable_appendPieces hb _
    | reset => exact hb
    | appendWord v => cases hasks

end OneOperation

/-! ### Whole runs -/

section Runs

variable {b : Buffer} {steps : List Step}

theorem addressable_run (hb : b.Addressable) (h : b.BoundedRun steps) :
    (b.run steps).Addressable := by
  induction steps generalizing b with
  | nil => exact hb
  | cons s steps ih => exact ih (addressable_step hb h.1) h.2

theorem granted_cons (s : Step) :
    b.granted (s :: steps) =
      if b.outOfRoom s then (b.step s).1.granted steps else s :: (b.step s).1.granted steps := rfl

/-- **A run is a run on lists** of those of its operations that do not lack room. -/
theorem bytes_run (h : b.BoundedRun steps) :
    (b.run steps).bytes = runBytes b.bytes (b.granted steps) := by
  induction steps generalizing b with
  | nil => rfl
  | cons s steps ih =>
    obtain ⟨hs, htail⟩ := h
    have hrun : ((b.step s).1.run steps).bytes =
        runBytes (b.step s).1.bytes ((b.step s).1.granted steps) := ih htail
    show ((b.step s).1.run steps).bytes = _
    rw [hrun, granted_cons]
    cases hout : b.outOfRoom s with
    | true =>
      rw [step_of_outOfRoom hs hout, if_pos rfl]
    | false =>
      rw [bytes_step hs hout, if_neg Bool.false_ne_true]
      rfl

/-- Whether every operation of a run on lists asks for a length of at most half the largest
capacity. -/
def affordable (bs : List UInt8) : List Step → Bool
  | [] => true
  | s :: steps =>
    s.asks.all (fun n => 2 * (bs.length + n) ≤ maxCapacity) && affordable (s.onBytes bs).1 steps

/-- A run that asks for no more than that never lacks room. -/
theorem granted_eq_self (hb : b.BoundedRun steps) (h : affordable b.bytes steps = true) :
    b.granted steps = steps := by
  induction steps generalizing b with
  | nil => rfl
  | cons s steps ih =>
    obtain ⟨hasks, htail⟩ := Bool.and_eq_true_iff.mp h
    have hroom : b.outOfRoom s = false := by
      cases hs : s.asks with
      | none => rw [outOfRoom, hs, Option.any_none]
      | some n =>
        rw [hs, Option.all_some, decide_eq_true_eq, length_bytes] at hasks
        rw [outOfRoom_of_asks hs, lacks_eq_false hasks]
    rw [← bytes_step hb.1 hroom] at htail
    rw [granted_cons, hroom, if_neg Bool.false_ne_true, ih hb.2 htail]

end Runs

/-! ### The refinement -/

/-- An operation on a buffer is the operation on its bytes, unless there is no room for it. -/
structure ActsAsList (b : Buffer) (s : Step) : Prop where
  /-- What the operation does and answers is what it does and answers on lists. -/
  plain : b.outOfRoom s = false → ((b.step s).1.bytes, (b.step s).2) = s.onBytes b.bytes
  /-- Without room it is refused and has no effect. -/
  unchanged : b.outOfRoom s = true → b.step s = (b, .refused .storeSize)
  /-- Whether there is room is decided by the capacity. -/
  room : ∀ n ∈ s.asks, b.DecidesRoom n (b.outOfRoom s)
  /-- Only an operation that shortens the buffer touches the bytes that are there. -/
  kept : s.shortens = false → b.bytes <+: (b.step s).1.bytes

theorem actsAsList {b : Buffer} {s : Step} (hb : b.Addressable) (hs : b.Bounded s) :
    b.ActsAsList s where
  plain := step_eq_onBytes hs
  unchanged := step_of_outOfRoom hs
  room := by
    intro n hn
    rw [outOfRoom_of_asks hn]
    exact decidesRoom hb (hs.asked n hn)
  kept := by
    intro hshort
    cases hout : b.outOfRoom s with
    | true => exact ⟨[], by rw [step_of_outOfRoom hs hout, List.append_nil]⟩
    | false =>
      rw [bytes_step hs hout]
      exact prefix_onBytes _ hshort

/-- A buffer without bytes, with room for so many if a number is given. -/
def fresh (allocator : Allocator) (room : Option Int) : Except Fault Buffer :=
  room.elim (.ok (.empty allocator)) (withRoom allocator)

/-- The room that a new buffer has. -/
def firstRoom (room : Option Int) : Nat := room.elim 0 Int.toNat

theorem fresh_eq_ok {allocator : Allocator} {room : Option Int} (h : ∀ c ∈ room, c ≤ maxCapacity) :
    fresh allocator room = .ok (vacant allocator (firstRoom room)) := by
  cases room with
  | none => rfl
  | some c => exact withRoom_of_le (h c rfl)

theorem fresh_eq_error {allocator : Allocator} {room : Option Int} {c : Int} (hc : c ∈ room)
    (h : (maxCapacity : Int) < c) : fresh allocator room = .error .storeSize := by
  cases hc
  exact withRoom_of_lt h

theorem addressable_vacant {allocator : Allocator} {room : Option Int}
    (h : ∀ c ∈ room, c ≤ maxCapacity) : (vacant allocator (firstRoom room)).Addressable := by
  cases room with
  | none => exact Nat.zero_le _
  | some c => exact Int.toNat_le.mpr (h c rfl)

/-- **A buffer is a list of bytes.** A buffer is made with any room that a store can have, and with
no other. After any run from there its bytes are those of the same run on lists, less the operations
that lacked room, whatever capacities an allocator chooses. Whatever is done next acts as on lists
as well: it lacks room exactly if it asks for a block that does not fit and that doubling finds no
store for, and then it is refused and has no effect. In a run whose requests stay within half the
largest capacity no operation lacks room. -/
theorem run_refines (allocator : Allocator) (room : Option Int) :
    (∀ c ∈ room, (maxCapacity : Int) < c → fresh allocator room = .error .storeSize) ∧
    ((∀ c ∈ room, c ≤ maxCapacity) →
      ∃ first, fresh allocator room = .ok first ∧ ∀ steps : List Step, first.BoundedRun steps →
        (first.run steps).bytes = runBytes [] (first.granted steps) ∧
        (affordable [] steps = true → first.granted steps = steps) ∧
        ∀ s, (first.run steps).Bounded s → (first.run steps).ActsAsList s) := by
  refine ⟨fun c hc => fresh_eq_error hc, ?_⟩
  intro hroom
  refine ⟨_, fresh_eq_ok hroom, ?_⟩
  intro steps hsteps
  refine ⟨bytes_run hsteps, granted_eq_self hsteps, ?_⟩
  intro s hs
  exact actsAsList (addressable_run (addressable_vacant hroom) hsteps) hs

/-- Zero bytes are zero where bytes were discarded before. -/
theorem run_refines_discarded :
    ∃ first, fresh .tight (some 4) = .ok first ∧
      (first.run [.appendBytes [1, 2, 3, 4], .truncate 1, .append 2 [9]]).bytes = [1, 9, 0] := by
  have hroom : ∀ c ∈ some (4 : Int), c ≤ maxCapacity := by
    intro c hc
    cases hc
    decide
  obtain ⟨-, hmade⟩ := run_refines .tight (some 4)
  obtain ⟨first, hfirst, hrun⟩ := hmade hroom
  cases hfirst
  have hsteps : (vacant .tight 4).BoundedRun
      [.appendBytes [1, 2, 3, 4], .truncate 1, .append 2 [9]] := by
    refine ⟨⟨nofun, ?_⟩, ⟨nofun, nofun⟩, ⟨?_, nofun⟩, trivial⟩
    · rintro n ⟨⟩
      decide
    · rintro n ⟨⟩
      decide
  obtain ⟨hbytes, hgranted, -⟩ := hrun _ hsteps
  refine ⟨_, rfl, ?_⟩
  rw [hbytes, hgranted (by decide)]
  rfl

/-- No buffer has room for 2⁴⁹ bytes from the start, and none can be extended by as many. -/
theorem fresh_excessive :
    (¬ ∃ b, fresh .tight (some 0x2000000000000) = .ok b) ∧
      (empty .tight).step (.append 0x2000000000000 []) = (empty .tight, .refused .storeSize) := by
  refine ⟨?_, ?_⟩
  · rintro ⟨b, hb⟩
    cases hb
  · have haddressable : (empty .tight).Addressable := Nat.zero_le maxCapacity
    exact step_of_lacks rfl (by decide) (lacks_eq_true haddressable (by decide))

end MachineCode.Buffer
