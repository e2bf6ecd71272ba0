import MachineCode.Proofs.PlainBytes

/-!
# How the capacity grows

An operation changes the capacity only if it asks for more room than there is
(`Buffer.HasCapacity.step`), so along a run the capacity never decreases, always holds the bytes,
and is the first one doubled some number of times. This is the case as long as all bytes that are
handed over fit: if they do not, the allocator chooses the capacity.

Doubling is a loop in machine words (`Buffer.LoopEnds`). It takes the least number of rounds that
lead to the wanted length, and no product on the way is too large for a word.
-/
namespace MachineCode.Buffer

variable {b : Buffer} {s : Step} {capacity n : Nat}

theorem capacity_eq_some : b.capacity = some capacity ↔ b.known = true ∧ b.room = capacity := by
  rw [Buffer.capacity]
  by_cases hknown : b.known = true
  · rw [if_pos hknown, Option.some_inj]
    exact (and_iff_right hknown).symm
  · rw [if_neg hknown]
    exact ⟨nofun, fun h => absurd h.1 hknown⟩

/-! ### One operation -/

def Outcome.isRefused : Outcome → Bool
  | .refused _ => true
  | .done | .granted _ => false

/-- An operation with known effect on the capacity: what it hands over fits, and it asks for a
length of at most 2⁶². -/
structure Admits (b : Buffer) (s : Step) : Prop where
  handed : ∀ n ∈ s.hands, b.fits n = true
  asked : ∀ n ∈ s.asks, b.length + n ≤ 2 ^ 62

/-- The capacity is known, holds the bytes, and is `start` or comes from it by doubling. -/
structure HasCapacity (start : Nat) (b : Buffer) (capacity : Nat) : Prop where
  known : b.capacity = some capacity
  length_le : b.length ≤ capacity
  doubled : capacity = start ∨ ∃ k, capacity = firstSize start * 2 ^ k

/-- What an operation makes of the capacity. -/
structure GrowsTo (b : Buffer) (s : Step) (capacity capacity' : Nat) : Prop where
  le : capacity ≤ capacity'
  /-- If no more room is asked for than there is, it stays. -/
  kept : (∀ n ∈ s.asks, b.length + n ≤ capacity) → capacity' = capacity
  /-- Otherwise it is doubled as often as needed, unless no store is as large; then the operation
  is refused and has no effect. -/
  grown : ∀ n ∈ s.asks, capacity < b.length + n →
    ∃ rounds, LoopEnds (firstSize capacity) (b.length + n) rounds ∧
      ((firstSize capacity * 2 ^ rounds ≤ maxCapacity ∧ (b.step s).2.isRefused = false ∧
          capacity' = firstSize capacity * 2 ^ rounds) ∨
        (maxCapacity < firstSize capacity * 2 ^ rounds ∧ b.step s = (b, .refused .storeSize)))

theorem GrowsTo.of_asks_none (hs : s.asks = none) : GrowsTo b s capacity capacity where
  le := Nat.le_refl _
  kept := fun _ => rfl
  grown := by
    intro n hn
    rw [hs] at hn
    cases hn

namespace HasCapacity

variable {start : Nat}

/-- Doubling goes on from where it was. -/
theorem doubled_firstSize (h : HasCapacity start b capacity) (rounds : Nat) :
    ∃ k, firstSize capacity * 2 ^ rounds = firstSize start * 2 ^ k := by
  rcases h.doubled with rfl | ⟨k, hk⟩
  · exact ⟨rounds, rfl⟩
  · have hpos : 0 < capacity := by
      rw [hk]
      exact Nat.mul_pos (firstSize_pos start) (Nat.two_pow_pos k)
    have hfirst : firstSize capacity = capacity := if_neg (Nat.pos_iff_ne_zero.mp hpos)
    exact ⟨k + rounds, by rw [hfirst, hk, pow_add, Nat.mul_assoc]⟩

/-- The capacity stays with the bytes that fit in it. -/
theorem of_length_le (h : HasCapacity start b capacity) {c : Buffer}
    (hcapacity : c.capacity = b.capacity) (hlength : c.length ≤ capacity) :
    HasCapacity start c capacity := ⟨hcapacity.trans h.known, hlength, h.doubled⟩

/-- Pieces that fit are added where the buffer is. -/
theorem appendPieces (h : HasCapacity start b capacity) {pieces : List (List UInt8)}
    (hfits : b.fits pieces.flatten.length = true) :
    HasCapacity start (b.appendPieces pieces) capacity := by
  have hstays : ∀ choice, b.reserveAny pieces.flatten.length choice = b := fun _ => if_pos hfits
  refine h.of_length_le ?_ ?_
  · show (b.reserveAny pieces.flatten.length _).capacity = b.capacity
    rw [hstays]
  · rw [length_appendPieces, ← (capacity_eq_some.mp h.known).2]
    exact of_decide_eq_true hfits

/-- Cutting bytes off leaves the capacity. -/
theorem cut (h : HasCapacity start b capacity) (n : Nat) : HasCapacity start (b.cut n) capacity :=
  h.of_length_le rfl (Nat.le_trans (Nat.min_le_right _ _) h.length_le)

/-- An operation that does not ask for room leaves the capacity. -/
theorem step_of_asks_none (h : HasCapacity start b capacity) (hs : s.asks = none)
    (hadmits : b.Admits s) : HasCapacity start (b.step s).1 capacity := by
  cases s with
  | append m fill =>
    have hm : m < 0 := Step.neg_of_asks_none hs
    rw [step, append_of_neg b hm]
    by_cases hstop : 0 ≤ b.length + m
    · rw [if_pos hstop]
      exact h.cut _
    · rw [if_neg hstop]
      exact h
  | appendByte v => exact h.appendPieces (hadmits.handed 1 rfl)
  | appendBytes bs =>
    refine h.appendPieces ?_
    rw [List.flatten_singleton]
    exact hadmits.handed _ rfl
  | pad m =>
    refine h.appendPieces ?_
    have hlength : (((Nop.lengths m.toNat).map Nop.form).flatten).length = m.toNat :=
      Nop.length_padding _
    rw [hlength]
    exact hadmits.handed _ rfl
  | truncate m =>
    rw [step, truncate]
    split
    · exact h
    · exact h.cut _
  | reset => exact h.cut 0
  | appendWord v => cases hs

/-- A block for which there is room takes the capacity where it is needed, and leaves it if that is
where it was. -/
theorem step_of_extend (h : HasCapacity start b capacity) (hs : s.asks = some n)
    (hn : b.length + n ≤ 2 ^ 62) {e : Buffer} (he : b.extend n = .ok e) {capacity' : Nat}
    (hcap : e.capacity = some capacity') (hle : b.length + n ≤ capacity')
    (hdoubled : capacity' = capacity ∨ ∃ rounds, capacity' = firstSize capacity * 2 ^ rounds) :
    HasCapacity start (b.step s).1 capacity' ∧ (b.step s).2.isRefused = false := by
  rw [Buffer.step_of_extend hs hn he]
  refine ⟨⟨hcap, ?_, ?_⟩, ?_⟩
  · rw [length_overwrite, length_extend he]
    exact hle
  · rcases hdoubled with rfl | ⟨rounds, rfl⟩
    · exact h.doubled
    · exact .inr (h.doubled_firstSize rounds)
  · cases s with
    | append m fill =>
      rw [Step.onBytes, if_pos (Option.ite_none_right_eq_some.mp hs).1]
      rfl
    | appendWord v => rfl
    | appendByte v | appendBytes bs | pad m | truncate m | reset => cases hs

/-- An operation that asks for room makes the capacity grow if it has to. -/
theorem step_of_asks (h : HasCapacity start b capacity) (hs : s.asks = some n)
    (hn : b.length + n ≤ 2 ^ 62) :
    ∃ capacity', HasCapacity start (b.step s).1 capacity' ∧ GrowsTo b s capacity capacity' := by
  obtain ⟨hknown, hroom⟩ := capacity_eq_some.mp h.known
  have hask : ∀ {P : Nat → Prop}, P n → ∀ m ∈ s.asks, P m := by
    intro P hP m hm
    rw [hs] at hm
    cases hm
    exact hP
  cases hlacks : b.lacks n with
  | true =>
    -- No store is as large.
    obtain ⟨hlt, hmax⟩ := lacks_iff.mp hlacks
    rw [hroom] at hlt hmax
    obtain ⟨rounds, hloop, hgrown⟩ := exists_loopEnds hlt hn
    rw [hgrown] at hmax
    have hstep := step_of_lacks hs hn hlacks
    refine ⟨capacity, ?_, Nat.le_refl _, fun _ => rfl, ?_⟩
    · rw [hstep]
      exact h
    · exact hask (fun _ => ⟨rounds, hloop, .inr ⟨hmax, hstep⟩⟩)
  | false =>
    obtain ⟨e, he, heknown, heroom⟩ := exists_extend_eq_ok hlacks
    rw [hroom] at heroom
    have hknown' : e.known = true := heknown.trans hknown
    by_cases hfits : b.fits n = true
    · -- There is room.
      rw [if_pos hfits] at heroom
      rw [fits, hroom, decide_eq_true_eq] at hfits
      have hcap : e.capacity = some capacity := capacity_eq_some.mpr ⟨hknown', heroom⟩
      obtain ⟨hnext, -⟩ := h.step_of_extend hs hn he hcap hfits (.inl rfl)
      refine ⟨capacity, hnext, Nat.le_refl _, fun _ => rfl, ?_⟩
      exact hask (fun hlt => absurd hfits (Nat.not_le.mpr hlt))
    · -- The buffer moves to a larger store.
      have hmax : grownCapacity capacity (b.length + n) ≤ maxCapacity := by
        simpa [lacks, hfits, hroom] using hlacks
      rw [if_neg hfits] at heroom
      rw [fits, hroom, decide_eq_true_eq, Nat.not_le] at hfits
      obtain ⟨rounds, hloop, hgrown⟩ := exists_loopEnds hfits hn
      rw [hgrown] at heroom hmax
      have hcap : e.capacity = some (firstSize capacity * 2 ^ rounds) :=
        capacity_eq_some.mpr ⟨hknown', heroom⟩
      have hwant := hloop.reached
      obtain ⟨hnext, hdone⟩ := h.step_of_extend hs hn he hcap hwant (.inr ⟨rounds, rfl⟩)
      refine ⟨firstSize capacity * 2 ^ rounds, hnext, by omega, ?_, ?_⟩
      · intro hkept
        exact absurd (hkept n hs) (Nat.not_le.mpr hfits)
      · exact hask (fun _ => ⟨rounds, hloop, .inl ⟨hmax, hdone, rfl⟩⟩)

/-- **What one operation makes of the capacity.** -/
theorem step (h : HasCapacity start b capacity) (hs : b.Admits s) :
    ∃ capacity', HasCapacity start (b.step s).1 capacity' ∧ GrowsTo b s capacity capacity' := by
  cases hasks : s.asks with
  | none => exact ⟨capacity, h.step_of_asks_none hasks hs, .of_asks_none hasks⟩
  | some n => exact h.step_of_asks hasks (hs.asked n hasks)

end HasCapacity

/-! ### Runs -/

/-- All operations of a run have a known effect on the capacity. -/
def Admitted (b : Buffer) : List Step → Prop
  | [] => True
  | s :: steps => b.Admits s ∧ (b.step s).1.Admitted steps

/-- **Along a run the capacity never decreases**, and stays one that comes from doubling. -/
theorem HasCapacity.run {start : Nat} {steps : List Step} (h : HasCapacity start b capacity)
    (hsteps : b.Admitted steps) :
    ∃ capacity', HasCapacity start (b.run steps) capacity' ∧ capacity ≤ capacity' := by
  induction steps generalizing b capacity with
  | nil => exact ⟨capacity, h, Nat.le_refl _⟩
  | cons s steps ih =>
    obtain ⟨hs, htail⟩ := hsteps
    obtain ⟨middle, hmiddle, hgrows⟩ := h.step hs
    obtain ⟨final, hfinal, hle⟩ := ih hmiddle htail
    exact ⟨final, hfinal, Nat.le_trans hgrows.le hle⟩

theorem hasCapacity_vacant (allocator : Allocator) (start : Nat) :
    HasCapacity start (vacant allocator start) start :=
  ⟨rfl, Nat.zero_le _, .inl rfl⟩

/-- **Growth is exact.** A buffer is made with any room that a store can have, or without room, and
with no other. In any run from there in which what is handed over fits and no length beyond 2⁶² is
asked for, the capacity is known, holds the bytes and never decreases. It is the first room doubled
some number of times, or without room at first, nothing or 64 doubled some number of times. Any
further operation leaves it, or doubles it just as often as it has to for the length asked for: that
takes a loop in signed 64-bit words to its end, with no product too large for them. The one
exception is a capacity that no store can have, which is refused without an effect. -/
theorem run_capacity (allocator : Allocator) {room : Option Int}
    (hroom : ∀ c ∈ room, c ≤ maxCapacity) :
    (∀ c : Int, maxCapacity < c → fresh allocator (some c) = .error .storeSize) ∧
    ∃ first, fresh allocator room = .ok first ∧ ∀ steps, first.Admitted steps →
      ∃ capacity, (first.run steps).capacity = some capacity ∧
        (first.run steps).length ≤ capacity ∧
        (∀ c ∈ room, 0 < c → ∃ k, (capacity : Int) = c * 2 ^ k) ∧
        ((∀ c ∈ room, c ≤ 0) → capacity = 0 ∨ ∃ k, capacity = 64 * 2 ^ k) ∧
        (∀ more, (first.run steps).Admitted more →
          ∃ later, ((first.run steps).run more).capacity = some later ∧ capacity ≤ later) ∧
        ∀ s, (first.run steps).Admits s →
          ∃ next, ((first.run steps).step s).1.capacity = some next ∧
            GrowsTo (first.run steps) s capacity next := by
  refine ⟨fun c hc => fresh_eq_error rfl hc, _, fresh_eq_ok hroom, ?_⟩
  intro steps hsteps
  obtain ⟨capacity, h, -⟩ := (hasCapacity_vacant allocator (firstRoom room)).run hsteps
  refine ⟨capacity, h.known, h.length_le, ?_, ?_, ?_, ?_⟩
  · intro c hc hpos
    cases hc
    have hstart : ((firstRoom (some c) : Nat) : Int) = c := Int.toNat_of_nonneg (Int.le_of_lt hpos)
    rcases h.doubled with rfl | ⟨k, hk⟩
    · exact ⟨0, by rw [pow_zero, Int.mul_one, hstart]⟩
    · have hfirst : firstSize (firstRoom (some c)) = firstRoom (some c) := if_neg (by omega)
      refine ⟨k, ?_⟩
      rw [hk, hfirst, Nat.cast_mul, Nat.cast_pow, Nat.cast_ofNat, hstart]
  · intro hnone
    have hstart : firstRoom room = 0 := by
      cases room with
      | none => rfl
      | some c => exact Int.toNat_of_nonpos (hnone c rfl)
    rw [hstart] at h
    exact h.doubled
  · intro more hmore
    obtain ⟨later, hlater, hle⟩ := h.run hmore
    exact ⟨later, hlater.known, hle⟩
  · intro s hs
    obtain ⟨next, hnext, hgrows⟩ := h.step hs
    exact ⟨next, hnext.known, hgrows⟩

/-- Room for three bytes is doubled twice to hold ten. -/
theorem run_capacity_doubled_twice :
    ∃ first, fresh .tight (some 3) = .ok first ∧
      (first.step (.append 10 [])).1.capacity = some 12 := by
  have hroom : ∀ c ∈ some (3 : Int), c ≤ maxCapacity := by
    intro c hc
    cases hc
    decide
  obtain ⟨-, first, hfirst, hrun⟩ := run_capacity .tight hroom
  cases hfirst
  obtain ⟨capacity, hcapacity, -, -, -, -, hstep⟩ := hrun [] trivial
  cases hcapacity
  have hadmits : (vacant .tight 3).Admits (.append 10 []) := by
    refine ⟨nofun, ?_⟩
    intro n hn
    cases hn
    decide
  obtain ⟨next, hnext, hgrows⟩ := hstep _ hadmits
  obtain ⟨rounds, hloop, hgrown⟩ := hgrows.grown 10 rfl (by decide)
  have hrounds : rounds = 2 :=
    hloop.toReachedAfter.unique (⟨by decide, by decide⟩ : ReachedAfter 3 10 2)
  subst hrounds
  rcases hgrown with ⟨-, -, hresult⟩ | ⟨hmax, -⟩
  · exact ⟨_, rfl, hnext.trans (congrArg some hresult)⟩
  · exact absurd hmax (by decide)

/-- A request for 2⁵² bytes leaves the capacity as it was. -/
theorem capacity_excessive :
    fresh .tight (some 16) = .ok (vacant .tight 16) ∧
      (vacant .tight 16).Admits (.append 0x10000000000000 []) ∧
      ((vacant .tight 16).step (.append 0x10000000000000 [])).1.capacity = some 16 := by
  have haddressable : (vacant .tight 16).Addressable := by
    show 16 ≤ maxCapacity
    decide
  have hstep := step_of_lacks (s := .append 0x10000000000000 []) rfl (by decide)
    (lacks_eq_true haddressable (by decide))
  refine ⟨rfl, ⟨nofun, ?_⟩, ?_⟩
  · intro n hn
    cases hn
    decide
  · rw [hstep]
    rfl

end MachineCode.Buffer
