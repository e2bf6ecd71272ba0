import Mathlib.Algebra.Order.Ring.Int
import Mathlib.Data.Nat.Cast.Basic
import Mathlib.Logic.Function.Iterate
import MachineCode.Buffer.Lemmas

/-!
# When there is room

A buffer that lacks room doubles its capacity until it suffices. `Buffer.doubledTo` is that loop on
numbers, and it stops after the least number of rounds (`Buffer.exists_reachedAfter`). A machine
runs the loop in signed 64-bit words, which wrap around when a product is too large, and nothing in
the loop looks out for that. As long as no length beyond 2⁶² is asked for it does not happen: the
last product is the first one or less than twice the length (`Buffer.exists_loopEnds`).

No store can have more than `Buffer.maxCapacity` bytes. So a block is refused **exactly if it does
not fit and doubling leads past that** (`Buffer.lacks`), and the capacity decides. What it decides
is known from the length alone outside of one octave: doubling passes the wanted length by less than
a factor of two, so there is room whenever twice that length is possible (`Buffer.lacks_eq_false`),
and there is none when the length itself is not (`Buffer.lacks_eq_true`). The second half needs that
the capacity is one that a store can have, `Buffer.Addressable`, which every operation keeps. All of
this together is `Buffer.DecidesRoom`.
-/
namespace MachineCode.Buffer

/-! ### Doubling -/

theorem le_doubledTo {size want : Nat} (hpos : 0 < size) : want ≤ doubledTo size want := by
  fun_induction doubledTo size want with
  | case1 size hgrow ih => exact ih (by omega)
  | case2 size hstop => omega

/-- Doubling passes the wanted length **by less than a factor of two**. -/
theorem doubledTo_lt {size want : Nat} (hpos : 0 < size) (hlt : size < want) :
    doubledTo size want < 2 * want := by
  fun_induction doubledTo size want with
  | case1 size hgrow ih =>
    by_cases hmore : 2 * size < want
    · exact ih (by omega) hmore
    · -- One doubling was enough.
      rw [doubledTo, if_neg (by omega)]
      omega
  | case2 size hstop => omega

theorem firstSize_pos (capacity : Nat) : 0 < firstSize capacity := by
  rw [firstSize]
  split <;> omega

theorem le_grownCapacity (capacity want : Nat) : want ≤ grownCapacity capacity want :=
  le_doubledTo (firstSize_pos capacity)

theorem grownCapacity_le {capacity want : Nat} (hlt : capacity < want)
    (hwant : 2 * want ≤ maxCapacity) : grownCapacity capacity want ≤ maxCapacity := by
  have hfirst : 64 ≤ maxCapacity := by decide
  rw [grownCapacity]
  by_cases hmore : firstSize capacity < want
  · have := doubledTo_lt (firstSize_pos capacity) hmore
    omega
  · rw [doubledTo, if_neg (fun h => hmore h.2), firstSize]
    split <;> omega

/-! ### The loop in machine words -/

/-- The size after some rounds of doubling in a signed 64-bit word, which wraps around. -/
def wordAfter (size rounds : Nat) : Int64 := (fun w : Int64 => w * 2)^[rounds] (Int64.ofNat size)

/-- A word that is doubled holds the product, as long as the product has a place in it. -/
theorem toInt_wordAfter {size rounds : Nat} (h : size * 2 ^ rounds ≤ 2 ^ 63 - 1) :
    (wordAfter size rounds).toInt = size * 2 ^ rounds := by
  induction rounds with
  | zero =>
    rw [pow_zero, Nat.mul_one] at h
    rw [pow_zero, Int.mul_one]
    exact Int64.toInt_ofNat_of_lt (by omega)
  | succ rounds ih =>
    rw [pow_succ, ← Nat.mul_assoc] at h
    have hword : wordAfter size (rounds + 1) = wordAfter size rounds * 2 :=
      Function.iterate_succ_apply' _ _ _
    have htwo : Int64.toInt 2 = 2 := rfl
    have hcast : ((size * 2 ^ rounds : Nat) : Int) = size * 2 ^ rounds := by
      rw [Nat.cast_mul, Nat.cast_pow, Nat.cast_ofNat]
    rw [hword, Int64.toInt_mul, ih (by omega), htwo, pow_succ (2 : Int), ← Int.mul_assoc, ← hcast]
    exact Int.bmod_eq_of_le (by omega) (by omega)

/-- Doubling `size` reaches `want` after `rounds` rounds and not before. -/
structure ReachedAfter (size want rounds : Nat) : Prop where
  before : ∀ i < rounds, size * 2 ^ i < want
  reached : want ≤ size * 2 ^ rounds

theorem ReachedAfter.unique {size want i j : Nat} (hi : ReachedAfter size want i)
    (hj : ReachedAfter size want j) : i = j := by
  rcases Nat.lt_trichotomy i j with hlt | heq | hlt
  · exact absurd hi.reached (Nat.not_le.mpr (hj.before i hlt))
  · exact heq
  · exact absurd hj.reached (Nat.not_le.mpr (hi.before j hlt))

/-- **The loop stops after the least number of rounds.** -/
theorem exists_reachedAfter {size : Nat} (hpos : 0 < size) (want : Nat) :
    ∃ rounds, ReachedAfter size want rounds ∧ doubledTo size want = size * 2 ^ rounds := by
  fun_induction doubledTo size want with
  | case1 size hgrow ih =>
    obtain ⟨rounds, hreached, hresult⟩ := ih (by omega)
    have hshift : ∀ i, 2 * size * 2 ^ i = size * 2 ^ (i + 1) := by
      intro i
      rw [pow_succ, Nat.mul_comm 2 size, Nat.mul_assoc, Nat.mul_comm 2]
    refine ⟨rounds + 1, ⟨?_, ?_⟩, ?_⟩
    · intro i hi
      rcases Nat.eq_zero_or_pos i with rfl | hi0
      · rw [pow_zero, Nat.mul_one]
        exact hgrow.2
      · obtain ⟨j, rfl⟩ := Nat.exists_eq_succ_of_ne_zero (Nat.pos_iff_ne_zero.mp hi0)
        rw [Nat.succ_eq_add_one, ← hshift]
        exact hreached.before j (by omega)
    · rw [← hshift]
      exact hreached.reached
    · rw [← hshift]
      exact hresult
  | case2 size hstop =>
    refine ⟨0, ⟨fun i hi => absurd hi (Nat.not_lt_zero i), ?_⟩, ?_⟩
    · rw [pow_zero]
      omega
    · rw [pow_zero, Nat.mul_one]

/-- The products on the way to a length of at most 2⁶² **fit in a signed word**. -/
theorem ReachedAfter.mul_pow_le {capacity want rounds : Nat}
    (h : ReachedAfter (firstSize capacity) want rounds) (hlt : capacity < want)
    (hwant : want ≤ 2 ^ 62) {i : Nat} (hi : i ≤ rounds) :
    firstSize capacity * 2 ^ i ≤ 2 ^ 63 - 1 := by
  rcases Nat.eq_zero_or_pos i with rfl | hpos
  · rw [pow_zero, Nat.mul_one, firstSize]
    split <;> omega
  · -- Before the last round the wanted length is not reached yet.
    obtain ⟨j, rfl⟩ := Nat.exists_eq_succ_of_ne_zero (Nat.pos_iff_ne_zero.mp hpos)
    have hbefore := h.before j (by omega)
    rw [Nat.succ_eq_add_one, pow_succ, ← Nat.mul_assoc]
    omega

/-- On the way to `want` a machine doubles as on numbers: it stops after the same rounds, and no
product on the way is too large for its words. -/
structure LoopEnds (size want rounds : Nat) : Prop extends ReachedAfter size want rounds where
  fits : ∀ i ≤ rounds, size * 2 ^ i ≤ 2 ^ 63 - 1
  words : ∀ i ≤ rounds, (wordAfter size i).toInt = size * 2 ^ i

theorem exists_loopEnds {capacity want : Nat} (hlt : capacity < want) (hwant : want ≤ 2 ^ 62) :
    ∃ rounds, LoopEnds (firstSize capacity) want rounds ∧
      grownCapacity capacity want = firstSize capacity * 2 ^ rounds := by
  obtain ⟨rounds, hreached, hresult⟩ := exists_reachedAfter (firstSize_pos capacity) want
  have hfits : ∀ i ≤ rounds, firstSize capacity * 2 ^ i ≤ 2 ^ 63 - 1 := by
    intro i hi
    exact hreached.mul_pow_le hlt hwant hi
  exact ⟨rounds, ⟨hreached, hfits, fun i hi => toInt_wordAfter (hfits i hi)⟩, hresult⟩

/-! ### Requests for room -/

/-- Whether there is no room for a block of `n` bytes: it does not fit, and no store has the
capacity to which doubling leads. -/
def lacks (b : Buffer) (n : Nat) : Bool :=
  !b.fits n && maxCapacity < grownCapacity b.room (b.length + n)

variable {b : Buffer} {n : Nat}

theorem lacks_iff :
    b.lacks n = true ↔
      b.room < b.length + n ∧ maxCapacity < grownCapacity b.room (b.length + n) := by
  simp [lacks, fits]

/-- A block that lacks room **takes more than half the largest capacity**. -/
theorem lt_of_lacks (h : b.lacks n = true) : maxCapacity < 2 * (b.length + n) := by
  obtain ⟨hlt, hgrown⟩ := lacks_iff.mp h
  by_contra hle
  exact absurd (grownCapacity_le hlt (Nat.not_lt.mp hle)) (Nat.not_le.mpr hgrown)

theorem lacks_eq_false (h : 2 * (b.length + n) ≤ maxCapacity) : b.lacks n = false := by
  rw [← Bool.not_eq_true]
  intro hlacks
  exact absurd (lt_of_lacks hlacks) (Nat.not_lt.mpr h)

/-- What becomes of the room when it suffices or can be found. -/
theorem exists_reserve_eq_ok (h : b.lacks n = false) :
    ∃ r, b.reserve n = .ok r ∧ r.known = b.known ∧
      r.room = if b.fits n then b.room else grownCapacity b.room (b.length + n) := by
  rw [reserve]
  by_cases hfits : b.fits n = true
  · rw [if_pos hfits, if_pos hfits]
    exact ⟨b, rfl, rfl, rfl⟩
  · have hgrown : grownCapacity b.room (b.length + n) ≤ maxCapacity := by
      simpa [lacks, hfits] using h
    rw [if_neg hfits, if_neg hfits, if_pos hgrown]
    exact ⟨_, rfl, rfl, rfl⟩

theorem reserve_of_lacks (h : b.lacks n = true) : b.reserve n = .error .storeSize := by
  obtain ⟨hfits, hgrown⟩ := Bool.and_eq_true_iff.mp h
  rw [reserve, if_neg (by simpa using hfits), if_neg (by simpa using hgrown)]

theorem exists_extend_eq_ok (h : b.lacks n = false) :
    ∃ e, b.extend n = .ok e ∧ e.known = b.known ∧
      e.room = if b.fits n then b.room else grownCapacity b.room (b.length + n) := by
  obtain ⟨r, hr, hknown, hroom⟩ := exists_reserve_eq_ok h
  rw [extend, hr]
  exact ⟨_, rfl, hknown, hroom⟩

theorem extend_of_lacks (h : b.lacks n = true) : b.extend n = .error .storeSize := by
  rw [extend, reserve_of_lacks h]
  rfl

/-- What has become of the room of a buffer that was extended. -/
theorem room_of_extend {e : Buffer} (h : b.extend n = .ok e) :
    e.room = b.room ∧ b.length + n ≤ b.room ∨
      e.room = grownCapacity b.room (b.length + n) ∧ e.room ≤ maxCapacity := by
  cases hlacks : b.lacks n with
  | true =>
    rw [extend_of_lacks hlacks] at h
    cases h
  | false =>
    obtain ⟨e', he', -, hroom⟩ := exists_extend_eq_ok hlacks
    rw [he'] at h
    cases h
    by_cases hfits : b.fits n = true
    · rw [if_pos hfits] at hroom
      exact .inl ⟨hroom, of_decide_eq_true hfits⟩
    · rw [if_neg hfits] at hroom
      refine .inr ⟨hroom, ?_⟩
      rw [hroom]
      simpa [lacks, hfits] using hlacks

theorem length_le_room_of_extend {e : Buffer} (h : b.extend n = .ok e) : e.length ≤ e.room := by
  rw [length_extend h]
  rcases room_of_extend h with ⟨hroom, hle⟩ | ⟨hroom, -⟩
  · rwa [hroom]
  · rw [hroom]
    exact le_grownCapacity _ _

theorem exists_place_eq_ok {code : List UInt8} (h : b.lacks code.length = false) :
    ∃ p, b.place code = .ok p := by
  obtain ⟨e, he, -⟩ := exists_extend_eq_ok h
  rw [place, he]
  exact ⟨_, rfl⟩

theorem length_le_room_of_place {p : Buffer} {code : List UInt8} (h : b.place code = .ok p) :
    p.length ≤ p.room := by
  obtain ⟨e, he, h⟩ := bind_eq_ok.mp h
  cases h
  have hle : e.length ≤ e.room := length_le_room_of_extend he
  exact hle

theorem place_of_lacks {code : List UInt8} (h : b.lacks code.length = true) :
    b.place code = .error .storeSize := by
  rw [place, extend_of_lacks h]
  rfl

/-! ### Capacities stay possible -/

/-- The capacity is one that a store can have. -/
def Addressable (b : Buffer) : Prop := b.room ≤ maxCapacity

/-- There is no room **whenever the new length is not possible**. -/
theorem lacks_eq_true (hb : b.Addressable) (h : maxCapacity < b.length + n) :
    b.lacks n = true :=
  lacks_iff.mpr ⟨Nat.lt_of_le_of_lt hb h, Nat.lt_of_lt_of_le h (le_grownCapacity _ _)⟩

/-- What decides whether a block of `n` bytes lacks room. -/
structure DecidesRoom (b : Buffer) (n : Nat) (lacking : Bool) : Prop where
  /-- There is room for a block that fits. -/
  fitting : b.length + n ≤ b.room → lacking = false
  /-- For any other block the capacity is doubled as often as needed, and there is no room exactly
  if no store has as much. -/
  doubled : b.room < b.length + n →
    ∃ rounds, LoopEnds (firstSize b.room) (b.length + n) rounds ∧
      (lacking = true ↔ maxCapacity < firstSize b.room * 2 ^ rounds)
  /-- So there is room whenever twice the new length is possible. -/
  affordable : 2 * (b.length + n) ≤ maxCapacity → lacking = false
  /-- There is none whenever the new length itself is not possible. -/
  excessive : maxCapacity < b.length + n → lacking = true

theorem decidesRoom (hb : b.Addressable) (hn : b.length + n ≤ 2 ^ 62) :
    b.DecidesRoom n (b.lacks n) where
  fitting := by
    intro hfits
    rw [← Bool.not_eq_true, lacks_iff]
    omega
  doubled := by
    intro hlt
    obtain ⟨rounds, hloop, hgrown⟩ := exists_loopEnds hlt hn
    refine ⟨rounds, hloop, ?_⟩
    rw [lacks_iff, hgrown]
    exact and_iff_right hlt
  affordable := lacks_eq_false
  excessive := lacks_eq_true hb

theorem addressable_extend {e : Buffer} (hb : b.Addressable) (h : b.extend n = .ok e) :
    e.Addressable := by
  rcases room_of_extend h with ⟨hroom, -⟩ | ⟨-, hle⟩
  · rw [Addressable, hroom]
    exact hb
  · exact hle

theorem addressable_place {p : Buffer} {code : List UInt8} (hb : b.Addressable)
    (h : b.place code = .ok p) : p.Addressable := by
  obtain ⟨e, he, h⟩ := bind_eq_ok.mp h
  cases h
  have hroom : e.Addressable := addressable_extend hb he
  exact hroom

/-- An allocator's choice is one that a store can have. -/
theorem addressable_appendPieces (hb : b.Addressable) (pieces : List (List UInt8)) :
    (b.appendPieces pieces).Addressable := by
  have hreserve : ∀ choice, (b.reserveAny pieces.flatten.length choice).Addressable := by
    intro choice
    rw [reserveAny]
    split
    · exact hb
    · exact Nat.min_le_right _ _
  exact hreserve _

end MachineCode.Buffer
