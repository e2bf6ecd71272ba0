import MachineCode.Bytes
import MachineCode.Nop

/-!
# Code buffers

A `Buffer` is a growing sequence of bytes. It keeps its bytes at the start of a store and marks
where they end; what the buffer stands for is the list `Buffer.bytes` before the mark. Truncating
and resetting only move the mark back, so the store may hold bytes past it that were discarded.
They never come back: whoever moves the mark forward writes the bytes that it passes.

The capacity is the number of bytes that fit before the buffer has to move to a larger store. The
room for bytes that are asked for as a block (`Buffer.append`) is found by doubling the capacity.
Bytes that are handed over and do not fit (`Buffer.appendBytes`) leave the choice of the capacity
to an `Allocator`, of which nothing is assumed.

No store has more than `Buffer.maxCapacity` bytes, because there are no addresses for them. A block
for which a larger one would be needed is refused, and the buffer is left as it was. Bytes that are
handed over are always taken: that memory may end in the midst of them is left out, and a buffer
that has become longer than any store can be is no buffer that a machine could hold.
-/
namespace MachineCode

/-- Chooses the capacities of stores for bytes that are handed over and do not fit. -/
structure Allocator where
  /-- The choice for a buffer of this capacity and length, to which pieces of these sizes are added
  one after the other. -/
  choose (capacity length : Nat) (pieces : List Nat) : Nat

/-- The allocator that gives no more than what is needed. -/
def Allocator.tight : Allocator := ⟨fun _ _ _ => 0⟩

structure Buffer where
  /-- All the bytes that were written so far and not given up by moving to a larger store. -/
  store : List UInt8
  length : Nat
  /-- The number of bytes that fit without moving. -/
  room : Nat
  /-- Whether the room is known, because no allocator had a say in it. -/
  known : Bool
  allocator : Allocator
  length_le : length ≤ store.length

namespace Buffer

def bytes (b : Buffer) : List UInt8 := b.store.take b.length

/-- The number of bytes that fit without moving, if it is known. -/
def capacity (b : Buffer) : Option Nat := if b.known then some b.room else none

/-- The largest capacity of a store: addresses have 48 bits. -/
def maxCapacity : Nat := 0x1_0000_0000_0000

/-- The buffer without bytes in a store of a given capacity. -/
def vacant (allocator : Allocator) (capacity : Nat) : Buffer where
  store := []
  length := 0
  room := capacity
  known := true
  allocator := allocator
  length_le := Nat.zero_le _

/-- The empty buffer without room. -/
def empty (allocator : Allocator) : Buffer := vacant allocator 0

/-- The empty buffer that has room for `n` bytes, if a store can have as many. Fewer than none
count as none. -/
def withRoom (allocator : Allocator) (n : Int) : Except Fault Buffer :=
  if n.toNat ≤ maxCapacity then .ok (vacant allocator n.toNat) else .error .storeSize

@[simp] theorem length_bytes (b : Buffer) : b.bytes.length = b.length := by
  rw [bytes, List.length_take, Nat.min_eq_left b.length_le]

/-! ### Room -/

/-- The size from which doubling starts. -/
def firstSize (capacity : Nat) : Nat := if capacity = 0 then 64 else capacity

/-- The first of `size`, `2 * size`, `4 * size`, … that is at least `want`. -/
def doubledTo (size want : Nat) : Nat :=
  if 0 < size ∧ size < want then doubledTo (2 * size) want else size
termination_by want - size

/-- The capacity to which a buffer of a given capacity grows to hold `want` bytes. -/
def grownCapacity (capacity want : Nat) : Nat := doubledTo (firstSize capacity) want

def fits (b : Buffer) (n : Nat) : Bool := b.length + n ≤ b.room

/-- The buffer in a store with other room. Only its own bytes move along. -/
def moved (b : Buffer) (room : Nat) (known : Bool) : Buffer :=
  { b with
    store := b.bytes
    room := room
    known := known
    length_le := by simp }

/-- The buffer with room for `n` more bytes, found by doubling, if a store can have as much. -/
def reserve (b : Buffer) (n : Nat) : Except Fault Buffer :=
  let grown := grownCapacity b.room (b.length + n)
  if b.fits n then .ok b
  else if grown ≤ maxCapacity then .ok (b.moved grown b.known)
  else .error .storeSize

/-- The buffer with room for `n` more bytes, of a capacity that was chosen. It suffices and is one
that a store can have, whatever the choice was. -/
def reserveAny (b : Buffer) (n choice : Nat) : Buffer :=
  if b.fits n then b else b.moved (min (max (b.length + n) choice) maxCapacity) false

/-! ### Moving the mark -/

/-- The buffer with the mark moved forward by `n`, over whatever the store holds there. -/
def expose (b : Buffer) (n : Nat) : Buffer :=
  { b with
    store := b.store ++ List.replicate (b.length + n - b.store.length) 0
    length := b.length + n
    length_le := by
      simp only [List.length_append, List.length_replicate]
      omega }

/-- The buffer with the mark moved back to `n`, if it lies further on. -/
def cut (b : Buffer) (n : Nat) : Buffer :=
  { b with
    length := min n b.length
    length_le := Nat.le_trans (Nat.min_le_right _ _) b.length_le }

/-- The buffer with `bs` written from position `i` on. What lies past the mark is dropped. -/
def overwrite (b : Buffer) (i : Nat) (bs : List UInt8) : Buffer :=
  let fitting := bs.take (b.length - i)
  { b with
    store := b.store.take i ++ fitting ++ b.store.drop (i + fitting.length)
    length_le := by
      have := b.length_le
      simp only [fitting, List.length_append, List.length_take, List.length_drop]
      omega }

/-! ### Operations -/

/-- The buffer with `n` zero bytes more, if there can be room for them. -/
def extend (b : Buffer) (n : Nat) : Except Fault Buffer := do
  let r ← b.reserve n
  return (r.expose n).overwrite b.length (List.replicate n 0)

/-- The largest length a buffer can have: the largest signed 64-bit word. -/
def maxLength : Int := 0x7fff_ffff_ffff_ffff

/-- Extends the buffer by `n` zero bytes and hands them out. The new end has to be a possible
length. If `n` is negative, the mark has moved back by that much before it is noticed, unless there
are too few bytes. -/
def append (b : Buffer) (n : Int) : Buffer × Except Fault (List UInt8) :=
  let stop : Int := b.length + n
  if n < 0 then (if stop < 0 then b else b.cut stop.toNat, .error .bounds)
  else if maxLength < stop then (b, .error .bounds)
  else
    match b.extend n.toNat with
    | .ok e => (e, .ok (e.bytes.drop b.length))
    | .error f => (b, .error f)

/-- The buffer with the given pieces at its end, handed over one after the other. -/
def appendPieces (b : Buffer) (pieces : List (List UInt8)) : Buffer :=
  let bs := pieces.flatten
  let choice := b.allocator.choose b.room b.length (pieces.map List.length)
  ((b.reserveAny bs.length choice).expose bs.length).overwrite b.length bs

def appendBytes (b : Buffer) (bs : List UInt8) : Buffer := b.appendPieces [bs]

def appendByte (b : Buffer) (v : UInt8) : Buffer := b.appendBytes [v]

/-- The buffer with `code` written into as many bytes that were added for it. -/
def place (b : Buffer) (code : List UInt8) : Except Fault Buffer := do
  let e ← b.extend code.length
  return e.overwrite b.length code

/-- The buffer with a 32-bit word at its end, least significant byte first. -/
def appendWord (b : Buffer) (v : UInt32) : Except Fault Buffer :=
  b.place (LittleEndian.word32 v)

/-- The buffer with `n` bytes of instructions that do nothing at its end; nothing is added if `n`
is negative. -/
def pad (b : Buffer) (n : Int) : Buffer := b.appendPieces ((Nop.lengths n.toNat).map Nop.form)

/-- The first `n` bytes of the buffer. -/
def truncate (b : Buffer) (n : Int) : Except Fault Buffer :=
  if n < 0 ∨ (b.length : Int) < n then .error .truncation else .ok (b.cut n.toNat)

/-- The buffer without its bytes, in the same store. -/
def reset (b : Buffer) : Buffer := b.cut 0

/-! ### Runs -/

inductive Step where
  /-- Extends the buffer by `n` zero bytes and writes `fill` to their start, as much as fits. -/
  | append (n : Int) (fill : List UInt8)
  | appendByte (v : UInt8)
  | appendBytes (bs : List UInt8)
  | appendWord (v : UInt32)
  | pad (n : Int)
  | truncate (n : Int)
  | reset
  deriving DecidableEq, Repr

/-- What an operation answers. -/
inductive Outcome where
  /-- It was done. -/
  | done
  /-- It was done and handed out these bytes. -/
  | granted (fresh : List UInt8)
  /-- It was refused. -/
  | refused (fault : Fault)
  deriving DecidableEq, Repr

/-- The buffer and the answer for an operation that may have been refused, and then has changed
nothing. -/
def settle (b : Buffer) : Except Fault Buffer → Buffer × Outcome
  | .ok next => (next, .done)
  | .error f => (b, .refused f)

/-- The buffer after an operation, and what the operation answers. -/
def step (b : Buffer) : Step → Buffer × Outcome
  | .append n fill =>
    match b.append n with
    | (e, .ok fresh) => (e.overwrite b.length fill, .granted fresh)
    | (e, .error f) => (e, .refused f)
  | .appendByte v => (b.appendByte v, .done)
  | .appendBytes bs => (b.appendBytes bs, .done)
  | .appendWord v => b.settle (b.appendWord v)
  | .pad n => (b.pad n, .done)
  | .truncate n => b.settle (b.truncate n)
  | .reset => (b.reset, .done)

def run (b : Buffer) (steps : List Step) : Buffer := steps.foldl (fun b s => (b.step s).1) b

end Buffer

end MachineCode
