import MachineCode.Bytes
import MachineCode.Run

/-!
# The representation of short byte strings

A short byte string is stored in more bytes than it has, and the same storage serves every
capacity. That the bytes behind its length are zero is kept by all that can be done with a string
(`ShortBytes.Clean`), and it makes the representation unique: strings are **equal exactly if their
bytes are** (`ShortBytes.eq_iff_bytes_eq`).

A string is made by one of the calls `ShortBytes.Creation`, and its length is settled then. A write
into the string replaces one byte, and a write into the list of its bytes or into a second copy
shows there and nowhere else (`ShortBytes.write_of_lt`). So after any run of writes each position
holds the last byte that was written there into the string itself (`ShortBytes.getElem?_attempts`).
-/
namespace MachineCode.ShortBytes

variable {c : Capacity}

/-! ### Clean storage -/

/-- The storage past the length is zero. -/
def Clean (s : ShortBytes c) : Prop :=
  s.storage.toList.drop s.length = List.replicate (maxInstructionLength - s.length) 0

/-- Without stray bytes there is **one string for a list of bytes**. -/
theorem eq_iff_bytes_eq {s t : ShortBytes c} (hs : s.Clean) (ht : t.Clean) :
    s = t ↔ s.bytes = t.bytes := by
  refine ⟨congrArg bytes, fun h => ?_⟩
  have hlength : s.length = t.length := by rw [← length_bytes, h, length_bytes]
  have hstorage : s.storage.toList = t.storage.toList :=
    calc s.storage.toList = s.bytes ++ s.storage.toList.drop s.length :=
          (List.take_append_drop _ _).symm
      _ = t.bytes ++ t.storage.toList.drop t.length := by rw [h, hs, ht, hlength]
      _ = t.storage.toList := List.take_append_drop _ _
  obtain ⟨storage, length, hle⟩ := s
  obtain ⟨storage', length', hle'⟩ := t
  cases hlength
  cases Vector.toList_inj.mp hstorage
  rfl

/-! ### Making strings -/

/-- A call that makes a string. -/
inductive Creation where
  | empty
  | zeros (n : Int64)
  | bytes (bs : List UInt8)
  | byte (b : UInt8)
  | word32 (v : UInt32)
  | word64 (v : UInt64)
  deriving DecidableEq, Repr

namespace Creation

/-- The string that is made, unless it would be too long. -/
def make : Creation → Except Fault (ShortBytes c)
  | empty => .ok .empty
  | zeros n => ShortBytes.zeros n.toInt
  | bytes bs => ofBytes bs
  | byte b => .ok (ofByte b)
  | word32 v => ofUInt32 v
  | word64 v => ofUInt64 v

/-- The string that a caller gets: the empty one, if none was made. -/
def value (k : Creation) : ShortBytes c :=
  match k.make with
  | .ok s => s
  | .error _ => .empty

/-- The bytes that are asked for. -/
def contents : Creation → List UInt8
  | empty => []
  | zeros n => List.replicate n.toInt.toNat 0
  | bytes bs => bs
  | byte b => [b]
  | word32 v => LittleEndian.word32 v
  | word64 v => LittleEndian.word64 v

/-- The length that is asked for. It may be negative. -/
def size : Creation → Int
  | zeros n => n.toInt
  | k => k.contents.length

/-- The length that is asked for is neither negative nor above the limit. -/
def Fits (c : Capacity) (k : Creation) : Prop := 0 ≤ k.size ∧ k.size ≤ c.limit

/-- The string is clean and has the length and the bytes that were asked for. -/
structure Makes (k : Creation) (s : ShortBytes c) : Prop where
  length : s.length = k.size
  bytes : s.bytes = k.contents
  clean : s.Clean

theorem makes_ofBytes {bs : List UInt8} (h : bs.length ≤ c.limit) :
    ∃ s : ShortBytes c, ofBytes bs = .ok s ∧ s.length = bs.length ∧ s.bytes = bs ∧ s.Clean := by
  have hroom : bs.length ≤ maxInstructionLength := Nat.le_trans h c.limit_le
  have hstorage := toList_writeFrom (Vector.replicate maxInstructionLength 0) 0 bs (by omega)
  refine ⟨_, ofBytes_of_le h, rfl, ?_, ?_⟩
  · rw [ShortBytes.bytes, hstorage]
    simp
  · rw [Clean, hstorage]
    simp

/-- What fits is made. -/
theorem exists_make_eq_ok {k : Creation} (h : k.Fits c) :
    ∃ s : ShortBytes c, k.make = .ok s ∧ k.Makes s := by
  cases k with
  | empty => exact ⟨.empty, rfl, rfl, rfl, rfl⟩
  | zeros n =>
    have hle : n.toInt.toNat ≤ maxInstructionLength :=
      Nat.le_trans (Int.toNat_le.mpr h.2) c.limit_le
    refine ⟨_, dif_pos h, Int.toNat_of_nonneg h.1, ?_, ?_⟩
    · show (Vector.replicate maxInstructionLength 0).toList.take n.toInt.toNat = _
      rw [Vector.toList_replicate, List.take_replicate, Nat.min_eq_left hle, contents]
    · show (Vector.replicate maxInstructionLength 0).toList.drop n.toInt.toNat = _
      rw [Vector.toList_replicate, List.drop_replicate]
  | byte b => exact ⟨ofByte b, rfl, rfl, rfl, rfl⟩
  | bytes _ | word32 _ | word64 _ =>
    obtain ⟨s, hs, hlength, hbytes, hclean⟩ := makes_ofBytes (Int.ofNat_le.mp h.2)
    exact ⟨s, hs, congrArg Int.ofNat hlength, hbytes, hclean⟩

/-- What does not fit is refused for its length. -/
theorem make_eq_error {k : Creation} (h : ¬ k.Fits c) :
    (k.make : Except Fault (ShortBytes c)) = .error (.byteLength k.size c.limit) := by
  have hbytes : ∀ bs : List UInt8, ¬ (0 ≤ (bs.length : Int) ∧ (bs.length : Int) ≤ c.limit) →
      c.limit < bs.length := by
    intro bs hbs
    omega
  have hone := c.one_le_limit
  cases k with
  | empty => exact absurd ⟨Int.le_refl 0, Int.natCast_nonneg _⟩ h
  | zeros n => exact dif_neg h
  | bytes bs => exact ofBytes_of_lt (hbytes bs h)
  | byte b => exact absurd ⟨Int.zero_le_ofNat 1, Int.ofNat_le.mpr hone⟩ h
  | word32 v => exact ofBytes_of_lt (hbytes (LittleEndian.word32 v) h)
  | word64 v => exact ofBytes_of_lt (hbytes (LittleEndian.word64 v) h)

theorem makes_value {k : Creation} (h : k.Fits c) :
    k.make = .ok (k.value : ShortBytes c) ∧ k.Makes (k.value : ShortBytes c) := by
  obtain ⟨s, hs, hmakes⟩ := exists_make_eq_ok h
  have hvalue : k.value = s := by rw [value, hs]
  rw [hvalue]
  exact ⟨hs, hmakes⟩

theorem value_eq_empty {k : Creation} (h : ¬ k.Fits c) : (k.value : ShortBytes c) = .empty := by
  rw [value, make_eq_error h]

theorem make_eq_ok_iff {k : Creation} : k.make = .ok (k.value : ShortBytes c) ↔ k.Fits c := by
  by_cases h : k.Fits c
  · exact iff_of_true (makes_value h).1 h
  · rw [make_eq_error h]
    exact iff_of_false nofun h

/-- A caller always gets a clean string. -/
theorem clean_value (k : Creation) : (k.value : ShortBytes c).Clean := by
  by_cases h : k.Fits c
  · exact (makes_value h).2.clean
  · rw [value_eq_empty h]
    rfl

end Creation

/-! ### Writing into strings -/

/-- The string with one byte replaced. -/
def replaced (s : ShortBytes c) (i : Nat) (b : UInt8) : ShortBytes c :=
  { s with storage := s.storage.setIfInBounds i b }

theorem bytes_replaced (s : ShortBytes c) (i : Nat) (b : UInt8) :
    (s.replaced i b).bytes = s.bytes.set i b := by
  rw [bytes, bytes, replaced, Vector.toList_setIfInBounds, List.take_set]

/-- A byte within the length does not reach what is behind it. -/
theorem Clean.replaced {s : ShortBytes c} (hs : s.Clean) {i : Nat} (hi : i < s.length) (b : UInt8) :
    (s.replaced i b).Clean := by
  rw [Clean, ShortBytes.replaced, Vector.toList_setIfInBounds, List.drop_set_of_lt hi]
  exact hs

/-- **All that a write does**: it shows where it went, and the string changes only if it went
there. -/
theorem write_of_lt {s : ShortBytes c} {w : Write} (h : w.position < s.length) :
    s.write w = .ok (if w.target = .string then s.replaced w.position w.byte else s,
      s.bytes.set w.position w.byte) := by
  have hset : s.set w.position w.byte = .ok (s.replaced w.position w.byte) := if_pos h
  rw [write, hset, ok_bind, ← bytes_replaced]
  cases w.target with
  | string | copy => rfl
  | list => rw [bytes_replaced]; rfl

theorem write_of_not_lt {s : ShortBytes c} {w : Write} (h : ¬ w.position < s.length) :
    s.write w = .error .bounds := by
  have hset : s.set w.position w.byte = .error .bounds := if_neg h
  rw [write, hset, error_bind]

def after (s : ShortBytes c) (w : Write) : Except Fault (ShortBytes c) := Prod.fst <$> s.write w

theorem after_of_lt {s : ShortBytes c} {w : Write} (h : w.position < s.length) :
    s.after w = .ok (if w.target = .string then s.replaced w.position w.byte else s) := by
  rw [after, write_of_lt h, map_ok]

theorem after_of_not_lt {s : ShortBytes c} {w : Write} (h : ¬ w.position < s.length) :
    s.after w = .error .bounds := by
  rw [after, write_of_not_lt h]
  rfl

/-- Seen through its bytes a string is a plain list, and only writes into the string itself
count. -/
theorem bytes_attempt (s : ShortBytes c) (w : Write) :
    (attempt after s w).bytes =
      if w.target = .string then s.bytes.set w.position w.byte else s.bytes := by
  by_cases hlt : w.position < s.length
  · rw [attempt_of_ok (after_of_lt hlt), apply_ite bytes, bytes_replaced]
  · -- Past the end there is nothing to replace.
    have hpast : s.bytes.length ≤ w.position := s.length_bytes ▸ Nat.not_lt.mp hlt
    rw [attempt_of_error (after_of_not_lt hlt), List.set_eq_of_length_le hpast, ite_self]

/-- The byte that a write puts at a position of the string. -/
def Write.given? (i : Nat) (w : Write) : Option UInt8 :=
  if w.target = .string ∧ w.position = i then some w.byte else none

theorem getElem?_attempt (s : ShortBytes c) (w : Write) (i : Nat) :
    (attempt after s w).bytes[i]? = s.bytes[i]?.map fun b => (w.given? i).getD b := by
  rw [bytes_attempt, Write.given?]
  by_cases htarget : w.target = .string
  · rw [if_pos htarget, List.getElem?_set']
    by_cases hi : w.position = i
    · rw [if_pos hi, if_pos ⟨htarget, hi⟩]
      rfl
    · simp [hi]
  · simp [htarget]

/-- Each position holds **the last byte that was written there** into the string, or what it
held. -/
theorem getElem?_attempts (s : ShortBytes c) (ws : List Write) (i : Nat) :
    (attempts after s ws).bytes[i]? =
      s.bytes[i]?.map fun b => lastGiven (Write.given? i) b ws := by
  induction ws generalizing s with
  | nil => exact Option.map_id'.symm
  | cons w ws ih =>
    rw [attempts_cons, ih, getElem?_attempt, Option.map_map]
    simp only [lastGiven_cons]
    rfl

/-- `t` is clean and as long as `s`. -/
structure Kept (s t : ShortBytes c) : Prop where
  clean : t.Clean
  length : t.length = s.length

theorem Kept.after {s r t : ShortBytes c} {w : Write} (hr : s.Kept r) (h : r.after w = .ok t) :
    s.Kept t := by
  by_cases hlt : w.position < r.length
  · rw [after_of_lt hlt] at h
    cases h
    by_cases htarget : w.target = .string
    · rw [if_pos htarget]
      exact ⟨hr.clean.replaced hlt w.byte, hr.length⟩
    · rw [if_neg htarget]
      exact hr
  · rw [after_of_not_lt hlt] at h
    cases h

/-- Writes keep a string clean and leave its length alone. -/
theorem kept_attempts {s : ShortBytes c} (hs : s.Clean) (ws : List Write) :
    s.Kept (attempts after s ws) :=
  attempts_invariant (fun _ _ _ hr h => hr.after h) ⟨hs, rfl⟩ ws

/-- What is known of a string `t` that a run of writes leads to. -/
structure Holds (s : ShortBytes c) (ws : List Write) (t : ShortBytes c) : Prop where
  /-- The length is what it was. -/
  length : t.length = s.length
  length_le : t.length ≤ t.capacity
  length_bytes : t.bytes.length = t.length
  /-- Each position holds the last byte that was written there into the string, or what it held. -/
  byte : ∀ i, t.bytes[i]? = s.bytes[i]?.map fun b => lastGiven (Write.given? i) b ws
  /-- There is nothing behind the length. -/
  clean : t.Clean

theorem Clean.holds {s : ShortBytes c} (hs : s.Clean) (ws : List Write) :
    s.Holds ws (attempts ShortBytes.after s ws) where
  length := (kept_attempts hs ws).length
  length_le := (attempts ShortBytes.after s ws).length_le
  length_bytes := (attempts ShortBytes.after s ws).length_bytes
  byte := s.getElem?_attempts ws
  clean := (kept_attempts hs ws).clean

/-- **The representation of a short byte string is kept by every run.** A string is made exactly if
the length that is asked for is neither negative nor above the limit of its capacity, and then has
that length and the bytes that were asked for; otherwise the caller gets the empty one. A write
within the length shows where it went, and changes the string only if it went there. After any
run of writes the length is what it was, each position holds the last byte that was written there
into the string, or what it held at first, and the storage behind the length is zero. So two
strings are equal exactly if their bytes are. -/
theorem runs_hold (c : Capacity) :
    (∀ k : Creation, (k.make = .ok (k.value : ShortBytes c) ↔ k.Fits c) ∧
      (k.Fits c → k.Makes (k.value : ShortBytes c)) ∧
      (¬ k.Fits c → (k.make : Except Fault (ShortBytes c)) = .error (.byteLength k.size c.limit) ∧
        (k.value : ShortBytes c) = .empty)) ∧
    (∀ (s : ShortBytes c) (w : Write), w.position < s.length →
      s.write w = .ok (if w.target = .string then s.replaced w.position w.byte else s,
        s.bytes.set w.position w.byte)) ∧
    (∀ (k : Creation) (ws : List Write),
      (k.value : ShortBytes c).Holds ws (attempts after k.value ws)) ∧
    ∀ (k k' : Creation) (ws ws' : List Write),
      (attempts after k.value ws : ShortBytes c) = attempts after k'.value ws' ↔
        (attempts after k.value ws : ShortBytes c).bytes =
          (attempts after k'.value ws' : ShortBytes c).bytes := by
  refine ⟨?_, fun s w => write_of_lt, fun k ws => k.clean_value.holds ws, ?_⟩
  · intro k
    refine ⟨Creation.make_eq_ok_iff, fun h => (Creation.makes_value h).2, fun h => ?_⟩
    exact ⟨Creation.make_eq_error h, Creation.value_eq_empty h⟩
  · intro k k' ws ws'
    exact eq_iff_bytes_eq (k.clean_value.holds ws).clean (k'.clean_value.holds ws').clean

end MachineCode.ShortBytes
