import MachineCode.Fault

/-!
# Words as bytes, and short byte strings

A word is written least significant byte first. `LittleEndian.value` reads any number of bytes back
as a natural number, so the two writers are pinned down by what they are worth.

The parts of an instruction are byte strings of a few bytes. A `ShortBytes c` has a length that
is chosen when it is made, is at most the limit of the capacity `c`, and never changes; its bytes
live at the start of a storage that is as long as the longest instruction, whatever `c` is. What
the value stands for is the list `ShortBytes.bytes`; the rest of the storage is zero in every
value made here, and stays zero because writes are confined to the length.
-/
namespace MachineCode

namespace LittleEndian

/-- The four bytes of a 32-bit word, least significant first. -/
def word32 (v : UInt32) : List UInt8 :=
  [v.toUInt8, (v >>> 8).toUInt8, (v >>> 16).toUInt8, (v >>> 24).toUInt8]

/-- The eight bytes of a 64-bit word, least significant first. -/
def word64 (v : UInt64) : List UInt8 :=
  [v.toUInt8, (v >>> 8).toUInt8, (v >>> 16).toUInt8, (v >>> 24).toUInt8,
    (v >>> 32).toUInt8, (v >>> 40).toUInt8, (v >>> 48).toUInt8, (v >>> 56).toUInt8]

/-- The number that a list of bytes, least significant first, stands for. -/
def value : List UInt8 → Nat
  | [] => 0
  | b :: bs => b.toNat + 256 * value bs

@[simp] theorem length_word32 (v : UInt32) : (word32 v).length = 4 := rfl

@[simp] theorem length_word64 (v : UInt64) : (word64 v).length = 8 := rfl

@[simp] theorem value_nil : value [] = 0 := rfl

@[simp] theorem value_cons (b : UInt8) (bs : List UInt8) :
    value (b :: bs) = b.toNat + 256 * value bs := rfl

end LittleEndian

/-- What a byte string is for, which limits its length. -/
inductive Capacity where
  | opcode
  | displacement
  | immediate
  | instruction
  deriving DecidableEq, Repr

namespace Capacity

def limit : Capacity → Nat
  | opcode => 3
  | displacement => 4
  | immediate => 8
  | instruction => maxInstructionLength

theorem one_le_limit (c : Capacity) : 1 ≤ c.limit := by
  cases c <;> decide

theorem limit_le (c : Capacity) : c.limit ≤ maxInstructionLength := by
  cases c <;> decide

end Capacity

/-- The bytes of `v` with `bs` written from position `i` on; what lies past the end is dropped. -/
def writeFrom {n : Nat} (v : Vector UInt8 n) (i : Nat) : List UInt8 → Vector UInt8 n
  | [] => v
  | b :: bs => writeFrom (v.setIfInBounds i b) (i + 1) bs

theorem toList_writeFrom {n : Nat} (v : Vector UInt8 n) (i : Nat) (bs : List UInt8)
    (h : i + bs.length ≤ n) :
    (writeFrom v i bs).toList = v.toList.take i ++ bs ++ v.toList.drop (i + bs.length) := by
  induction bs generalizing v i with
  | nil => simp [writeFrom]
  | cons b bs ih =>
    simp only [List.length_cons] at h ⊢
    have hi : i < v.toList.length := by
      rw [Vector.length_toList]
      omega
    have hpast : i < i + 1 + bs.length := by omega
    have hlen : (v.toList.take i).length = i := List.length_take_of_le (Nat.le_of_lt hi)
    have hstart : (v.toList.set i b).take (i + 1) = v.toList.take i ++ [b] := by
      rw [List.take_set, List.take_succ_eq_append_getElem hi,
        List.set_append_right _ _ (Nat.le_of_eq hlen), hlen, Nat.sub_self]
      rfl
    rw [writeFrom, ih _ _ (by omega), Vector.toList_setIfInBounds, hstart,
      List.drop_set_of_lt hpast]
    simp [Nat.add_assoc, Nat.add_comm 1]

/-- A byte string of bounded length. -/
structure ShortBytes (c : Capacity) where
  /-- The storage, of which the first `length` bytes count. -/
  storage : Vector UInt8 maxInstructionLength
  /-- The number of bytes. It is at most fifteen, so it never comes near the end of the byte in
  which a machine keeps it. -/
  length : Nat
  length_le : length ≤ c.limit
  deriving DecidableEq, Repr

namespace ShortBytes

variable {c : Capacity}

def bytes (s : ShortBytes c) : List UInt8 := s.storage.toList.take s.length

/-- The largest length the string could have had. -/
def capacity (_ : ShortBytes c) : Nat := c.limit

def isEmpty (s : ShortBytes c) : Bool := s.length == 0

/-! ### Making byte strings -/

/-- The string without bytes. -/
def empty : ShortBytes c where
  storage := Vector.replicate _ 0
  length := 0
  length_le := Nat.zero_le _

def zeros (n : Int) : Except Fault (ShortBytes c) :=
  if h : 0 ≤ n ∧ n ≤ c.limit then
    .ok { storage := Vector.replicate _ 0, length := n.toNat, length_le := by omega }
  else
    .error (.byteLength n c.limit)

def ofBytes (bs : List UInt8) : Except Fault (ShortBytes c) := do
  let s ← zeros bs.length
  return { s with storage := writeFrom s.storage 0 bs }

/-- The string of one byte. Every capacity has room for it. -/
def ofByte (b : UInt8) : ShortBytes c where
  storage := (Vector.replicate _ 0).set 0 b (by decide)
  length := 1
  length_le := c.one_le_limit

def ofUInt32 (v : UInt32) : Except Fault (ShortBytes c) := do
  let s ← zeros 4
  return { s with storage := writeFrom s.storage 0 (LittleEndian.word32 v) }

def ofUInt64 (v : UInt64) : Except Fault (ShortBytes c) := do
  let s ← zeros 8
  return { s with storage := writeFrom s.storage 0 (LittleEndian.word64 v) }

/-! ### Writing bytes -/

def set (s : ShortBytes c) (i : Nat) (b : UInt8) : Except Fault (ShortBytes c) :=
  if i < s.length then .ok { s with storage := s.storage.setIfInBounds i b }
  else .error .bounds

/-- Where a write goes: into the string, into the list of its bytes, or into a second copy of
the string. The storage is part of the value, so the list and the copy have bytes of their own, and
no write into one of the three can reach another. -/
inductive Target where
  | string
  | list
  | copy
  deriving DecidableEq, Repr

/-- One byte written at a position. -/
structure Write where
  target : Target
  position : Nat
  byte : UInt8
  deriving DecidableEq, Repr

/-- The string after a write, and the bytes of what was written to. Only a write into the string
itself changes it. -/
def write (s : ShortBytes c) (w : Write) : Except Fault (ShortBytes c × List UInt8) := do
  let t ← s.set w.position w.byte
  match w.target with
  | .string => return (t, t.bytes)
  | .list => return (s, s.bytes.set w.position w.byte)
  | .copy => return (s, t.bytes)

@[simp] theorem length_bytes (s : ShortBytes c) : s.bytes.length = s.length := by
  have := Nat.le_trans s.length_le c.limit_le
  simp only [bytes, List.length_take, Vector.length_toList]
  omega

@[simp] theorem bytes_empty : (empty : ShortBytes c).bytes = [] := rfl

@[simp] theorem bytes_ofByte (b : UInt8) : (ofByte b : ShortBytes c).bytes = [b] := rfl

theorem ofUInt32_eq_ofBytes (v : UInt32) :
    (ofUInt32 v : Except Fault (ShortBytes c)) = ofBytes (LittleEndian.word32 v) := rfl

theorem ofUInt64_eq_ofBytes (v : UInt64) :
    (ofUInt64 v : Except Fault (ShortBytes c)) = ofBytes (LittleEndian.word64 v) := rfl

theorem ofBytes_of_le {bs : List UInt8} (h : bs.length ≤ c.limit) :
    (ofBytes bs : Except Fault (ShortBytes c)) =
      .ok ⟨writeFrom (Vector.replicate _ 0) 0 bs, bs.length, h⟩ := by
  have hz : (zeros bs.length : Except Fault (ShortBytes c)) =
      .ok { storage := Vector.replicate _ 0, length := bs.length, length_le := h } := by
    rw [zeros, dif_pos ⟨by omega, by omega⟩]
    rfl
  rw [ofBytes, hz]
  rfl

/-- Bytes that fit are kept as they are. -/
theorem exists_ofBytes_eq_ok {bs : List UInt8} (h : bs.length ≤ c.limit) :
    ∃ s : ShortBytes c, ofBytes bs = .ok s ∧ s.bytes = bs := by
  have hroom : bs.length ≤ maxInstructionLength := Nat.le_trans h c.limit_le
  refine ⟨_, ofBytes_of_le h, ?_⟩
  rw [bytes, toList_writeFrom _ _ _ (by omega)]
  simp

theorem exists_ofUInt32_eq_ok (h : 4 ≤ c.limit) (v : UInt32) :
    ∃ s : ShortBytes c, ofUInt32 v = .ok s ∧ s.bytes = LittleEndian.word32 v := by
  rw [ofUInt32_eq_ofBytes]
  exact exists_ofBytes_eq_ok h

theorem exists_ofUInt64_eq_ok (h : 8 ≤ c.limit) (v : UInt64) :
    ∃ s : ShortBytes c, ofUInt64 v = .ok s ∧ s.bytes = LittleEndian.word64 v := by
  rw [ofUInt64_eq_ofBytes]
  exact exists_ofBytes_eq_ok h

theorem ofBytes_of_lt {bs : List UInt8} (h : c.limit < bs.length) :
    (ofBytes bs : Except Fault (ShortBytes c)) = .error (.byteLength bs.length c.limit) := by
  rw [ofBytes, zeros, dif_neg (by omega)]
  rfl

end ShortBytes

end MachineCode
