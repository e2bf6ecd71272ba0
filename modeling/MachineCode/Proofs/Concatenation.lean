import Mathlib.Data.List.SplitLengths
import MachineCode.Proofs.Numerals
import MachineCode.Proofs.PartSetting

/-!
# Written instructions can be taken apart again

The bytes of an instruction are its parts, one behind the other. The length of the storage they are
written to comes from a formula of its own, and copying drops silently what does not fit. So it is
not enough that nothing fails: if formula and parts ever disagreed, bytes would be missing or zero.
For encodings that can be reached they agree (`Encoding.serialize_of_reachable`).

Where one part ends and the next begins does not show in the bytes. Whoever knows the `shape` of the
encoding, which parts are there and how long they are, can cut the bytes at these lengths and has
the parts back (`Encoding.splitLengths_parts`). For one shape the bytes determine the parts.
-/
namespace MachineCode.Encoding

/-! ### Parts and their lengths -/

/-- The bytes of each part in the order in which they are written; a part that is not there has
none. -/
def segments (e : Encoding) : List (List UInt8) :=
  [e.legacy.toList, (e.rex.map Rex.byte).toList, e.opcode.bytes, (e.modRM.map Packed.byte).toList,
    (e.sib.map Packed.byte).toList, e.displacement.bytes, e.immediate.bytes]

/-- Which parts are there and how long they are, in the same order. -/
def shape (e : Encoding) : List Nat :=
  [optionLength e.legacy, optionLength e.rex, e.opcode.length, optionLength e.modRM,
    optionLength e.sib, e.displacement.length, e.immediate.length]

theorem flatten_segments (e : Encoding) : e.segments.flatten = e.parts := by
  simp [segments, parts]

theorem map_length_segments (e : Encoding) : e.segments.map List.length = e.shape := by
  simp [segments, shape, length_toList_eq, optionLength_map]

/-- Pieces that were put together are found again by their lengths. -/
theorem splitLengths_flatten {α : Type} (pieces : List (List α)) :
    (pieces.map List.length).splitLengths pieces.flatten = pieces := by
  induction pieces with
  | nil => rfl
  | cons piece pieces ih =>
    rw [List.map_cons, List.flatten_cons, List.splitLengths_cons, List.take_left, List.drop_left,
      ih]

/-- **Cutting at the lengths of the parts gives the parts back.** -/
theorem splitLengths_parts (e : Encoding) : e.shape.splitLengths e.parts = e.segments := by
  rw [← map_length_segments, ← flatten_segments, splitLengths_flatten]

/-! ### The same parts -/

/-- Two encodings have the same parts. Byte strings are compared by their bytes. -/
structure SameParts (e t : Encoding) : Prop where
  legacy : e.legacy = t.legacy
  rex : e.rex = t.rex
  opcode : e.opcode.bytes = t.opcode.bytes
  modRM : e.modRM = t.modRM
  sib : e.sib = t.sib
  displacement : e.displacement.bytes = t.displacement.bytes
  immediate : e.immediate.bytes = t.immediate.bytes

theorem eq_of_toList_eq {α : Type} {o p : Option α} (h : o.toList = p.toList) : o = p := by
  have hhead := congrArg List.head? h
  rwa [Option.head?_toList, Option.head?_toList] at hhead

theorem sameParts_iff (e t : Encoding) : SameParts e t ↔ e.segments = t.segments := by
  constructor
  · rintro ⟨hlegacy, hrex, hopcode, hmodRM, hsib, hdisplacement, himmediate⟩
    simp only [segments, hlegacy, hrex, hopcode, hmodRM, hsib, hdisplacement, himmediate]
  · intro h
    simp only [segments, List.cons.injEq, and_true] at h
    obtain ⟨hlegacy, hrex, hopcode, hmodRM, hsib, hdisplacement, himmediate⟩ := h
    have hrexByte : Function.Injective Rex.byte := fun _ _ heq => congrArg Rex.mk heq
    exact ⟨eq_of_toList_eq hlegacy, Option.map_injective hrexByte (eq_of_toList_eq hrex), hopcode,
      Option.map_injective (Packed.byte_injective .modRM) (eq_of_toList_eq hmodRM),
      Option.map_injective (Packed.byte_injective .sib) (eq_of_toList_eq hsib), hdisplacement,
      himmediate⟩

/-- For one shape the bytes determine the parts. -/
theorem parts_eq_iff {e t : Encoding} (h : e.shape = t.shape) :
    e.parts = t.parts ↔ SameParts e t := by
  rw [sameParts_iff]
  constructor
  · intro hparts
    rw [← splitLengths_parts, ← splitLengths_parts, h, hparts]
  · intro hsegments
    rw [← flatten_segments, ← flatten_segments, hsegments]

/-! ### Written instructions -/

theorem text_eq_ok {e : Encoding} (h : e.length ≤ maxInstructionLength) :
    e.text = .ok (Hex.text e.parts) := by
  rw [text, bytes_eq_parts h, map_ok]

/-- **An instruction is written as its parts in order.** Writing an encoding that can be reached
does not fail. It gives the parts that are there, one behind the other, in as many bytes as the
encoding is long, and the parts can be told from the bytes by their lengths; another encoding of the
same shape has the same bytes exactly if it has the same parts. The text of the encoding is the one
text of digits that reads as these bytes. -/
theorem serialize_of_reachable {e : Encoding} (he : e.Reachable) :
    ∃ s, e.serialize = .ok s ∧ s.length = e.length ∧
      s.bytes = e.legacy.toList ++ (e.rex.map Rex.byte).toList ++ e.opcode.bytes ++
        (e.modRM.map Packed.byte).toList ++ (e.sib.map Packed.byte).toList ++
        e.displacement.bytes ++ e.immediate.bytes ∧
      e.shape.splitLengths s.bytes = e.segments ∧
      (∀ t : Encoding, t.Reachable → t.shape = e.shape →
        (t.bytes = e.bytes ↔ SameParts t e)) ∧
      ∃ digits, e.text = .ok (String.ofList digits) ∧
        ∀ other, Hex.decode? other = some s.bytes ↔ other = digits := by
  have hlength := he.length_le
  obtain ⟨s, hs, hbytes⟩ := serialize_eq_ok hlength
  refine ⟨s, hs, ?_, ?_, ?_, ?_, Hex.encode s.bytes, ?_, ?_⟩
  · rw [← s.length_bytes, hbytes, length_parts]
  · rw [hbytes, parts]
    simp only [List.append_assoc]
  · rw [hbytes, splitLengths_parts]
  · intro t ht hshape
    rw [bytes_eq_parts ht.length_le, bytes_eq_parts hlength, Except.ok.injEq, parts_eq_iff hshape]
  · rw [text_eq_ok hlength, hbytes, Hex.text]
  · intro other
    exact Hex.decode?_eq_some_iff

/-- The address load of `RSP + 8` behind a prefix that was set later. -/
theorem serialize_of_reachable_prefixed :
    ∃ (e : Encoding) (s : ShortBytes .instruction), e.Reachable ∧ e.serialize = .ok s ∧
      s.bytes = [0x66, 0x48, 0x8d, 0x44, 0x24, 0x08] ∧ e.text = .ok "66488d442408" := by
  obtain ⟨s, hs, _, hbytes, _, _, digits, htext, hdigits⟩ := serialize_of_reachable
    ⟨_, [.legacy 0x66], .encoded (.lea ⟨0⟩ (.place (.based .rsp 8))), rfl⟩
  have hbytes : s.bytes = [0x66, 0x48, 0x8d, 0x44, 0x24, 0x08] := hbytes
  have hread : "66488d442408".toList = digits := (hdigits _).mp (by rw [hbytes]; decide)
  exact ⟨_, s, ⟨_, _, .encoded _, rfl⟩, hs, hbytes, by rw [htext, ← hread, String.ofList_toList]⟩

end MachineCode.Encoding
