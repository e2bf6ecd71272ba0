import MachineCode.Buffer.Basic

/-!
# The bytes of a buffer after each operation

Every operation is described by what it does to the list `Buffer.bytes`, so that nothing else has
to look at the store, the mark or the capacity. The main statements are that extending adds zero
bytes whatever was discarded before (`bytes_extend`), and that the other ways to add bytes put
them at the end (`bytes_appendBytes`, `bytes_place`, `bytes_appendWord`, `bytes_pad`).
-/
namespace MachineCode.Buffer

/-! ### The bytes after each operation -/

/-- Any room that a store can have is given, and no other. -/
theorem withRoom_of_le {a : Allocator} {n : Int} (h : n ≤ maxCapacity) :
    withRoom a n = .ok (vacant a n.toNat) := if_pos (Int.toNat_le.mpr h)

theorem withRoom_of_lt {a : Allocator} {n : Int} (h : (maxCapacity : Int) < n) :
    withRoom a n = .error .storeSize := if_neg (by omega)

@[simp] theorem bytes_moved (b : Buffer) (room : Nat) (known : Bool) :
    (b.moved room known).bytes = b.bytes := by
  simp only [bytes, moved, List.take_take, Nat.min_self]

theorem bytes_reserve {b r : Buffer} {n : Nat} (h : b.reserve n = .ok r) : r.bytes = b.bytes := by
  simp only [reserve] at h
  split at h
  · cases h
    rfl
  · split at h
    · cases h
      exact b.bytes_moved _ _
    · cases h

theorem length_reserve {b r : Buffer} {n : Nat} (h : b.reserve n = .ok r) :
    r.length = b.length := by
  rw [← length_bytes, bytes_reserve h, length_bytes]

@[simp] theorem bytes_reserveAny (b : Buffer) (n choice : Nat) :
    (b.reserveAny n choice).bytes = b.bytes := by
  rw [reserveAny]
  split
  · rfl
  · exact b.bytes_moved _ _

@[simp] theorem length_reserveAny (b : Buffer) (n choice : Nat) :
    (b.reserveAny n choice).length = b.length := by
  rw [← length_bytes, bytes_reserveAny, length_bytes]

@[simp] theorem length_expose (b : Buffer) (n : Nat) : (b.expose n).length = b.length + n := rfl

/-- Moving the mark forward keeps the bytes before it. -/
theorem take_bytes_expose (b : Buffer) (n : Nat) :
    (b.expose n).bytes.take b.length = b.bytes := by
  simp only [bytes, expose, List.take_take]
  rw [Nat.min_eq_left (by omega), List.take_append_of_le_length b.length_le]

@[simp] theorem length_overwrite (b : Buffer) (i : Nat) (bs : List UInt8) :
    (b.overwrite i bs).length = b.length := rfl

/-- Writing up to the mark replaces all bytes from the position on. -/
theorem bytes_overwrite {b : Buffer} {i : Nat} {bs : List UInt8} (h : i + bs.length = b.length) :
    (b.overwrite i bs).bytes = b.bytes.take i ++ bs := by
  have hfit : bs.take (b.length - i) = bs := List.take_of_length_le (by omega)
  have hlen : (b.store.take i ++ bs).length = b.length := by
    have := b.length_le
    simp only [List.length_append, List.length_take]
    omega
  simp only [bytes, overwrite, hfit]
  rw [List.take_append_of_le_length (by omega), ← hlen, List.take_length, List.take_take,
    Nat.min_eq_left (by omega)]

/-- The bytes that the mark passes are the ones that were written. -/
theorem bytes_overwrite_expose (b : Buffer) (bs : List UInt8) :
    ((b.expose bs.length).overwrite b.length bs).bytes = b.bytes ++ bs := by
  rw [bytes_overwrite (by simp), take_bytes_expose]

/-- Extending **adds zero bytes**, whatever the store holds past the mark. -/
theorem bytes_extend {b e : Buffer} {n : Nat} (h : b.extend n = .ok e) :
    e.bytes = b.bytes ++ List.replicate n 0 := by
  rw [extend] at h
  cases hr : b.reserve n with
  | error f =>
    rw [hr] at h
    cases h
  | ok r =>
    rw [hr] at h
    cases h
    have hw := bytes_overwrite_expose r (List.replicate n 0)
    rwa [List.length_replicate, length_reserve hr, bytes_reserve hr] at hw

theorem length_extend {b e : Buffer} {n : Nat} (h : b.extend n = .ok e) :
    e.length = b.length + n := by
  rw [← length_bytes, bytes_extend h, List.length_append, length_bytes, List.length_replicate]

/-- Pieces that are handed over are put at the end, **whatever the allocator chooses**. -/
@[simp] theorem bytes_appendPieces (b : Buffer) (pieces : List (List UInt8)) :
    (b.appendPieces pieces).bytes = b.bytes ++ pieces.flatten := by
  have := bytes_overwrite_expose (b.reserveAny pieces.flatten.length
    (b.allocator.choose b.room b.length (pieces.map List.length))) pieces.flatten
  simpa only [appendPieces, length_reserveAny, bytes_reserveAny] using this

@[simp] theorem length_appendPieces (b : Buffer) (pieces : List (List UInt8)) :
    (b.appendPieces pieces).length = b.length + pieces.flatten.length := by
  rw [← length_bytes, bytes_appendPieces, List.length_append, length_bytes]

@[simp] theorem bytes_appendBytes (b : Buffer) (bs : List UInt8) :
    (b.appendBytes bs).bytes = b.bytes ++ bs := by
  rw [appendBytes, bytes_appendPieces, List.flatten_singleton]

@[simp] theorem bytes_appendByte (b : Buffer) (v : UInt8) :
    (b.appendByte v).bytes = b.bytes ++ [v] := b.bytes_appendBytes [v]

/-- Filling the zero bytes that were just added puts bytes at the end. -/
theorem bytes_place {b p : Buffer} {code : List UInt8} (h : b.place code = .ok p) :
    p.bytes = b.bytes ++ code := by
  rw [place] at h
  cases he : b.extend code.length with
  | error f =>
    rw [he] at h
    cases h
  | ok e =>
    rw [he] at h
    cases h
    rw [bytes_overwrite (length_extend he).symm, bytes_extend he, ← b.length_bytes, List.take_left]

theorem expose_zero (b : Buffer) : b.expose 0 = b := by
  have hnone : b.length - b.store.length = 0 := Nat.sub_eq_zero_of_le b.length_le
  simp only [expose, Nat.add_zero, hnone, List.replicate_zero, List.append_nil]

theorem overwrite_nil (b : Buffer) (i : Nat) : b.overwrite i [] = b := by
  simp only [overwrite, List.take_nil, List.append_nil, List.length_nil, Nat.add_zero,
    List.take_append_drop]

/-- Adding no bytes to a buffer without bytes leaves it where it is. -/
theorem place_nil {b : Buffer} (h : b.length = 0) : b.place [] = .ok b := by
  have hfits : b.fits 0 = true := by simp [fits, h]
  have hextend : b.extend 0 = .ok b := by
    rw [extend, reserve, if_pos hfits, ok_bind, expose_zero, List.replicate_zero, overwrite_nil]
    rfl
  rw [place, List.length_nil, hextend, ok_bind, overwrite_nil]
  rfl

theorem bytes_appendWord {b w : Buffer} {v : UInt32} (h : b.appendWord v = .ok w) :
    w.bytes = b.bytes ++ LittleEndian.word32 v := bytes_place h

@[simp] theorem bytes_pad (b : Buffer) (n : Int) :
    (b.pad n).bytes = b.bytes ++ Nop.padding n.toNat := b.bytes_appendPieces _

@[simp] theorem bytes_cut (b : Buffer) (n : Nat) : (b.cut n).bytes = b.bytes.take n := by
  simp [bytes, cut, List.take_take]

@[simp] theorem bytes_reset (b : Buffer) : b.reset.bytes = [] := by
  simp [reset]

end MachineCode.Buffer
