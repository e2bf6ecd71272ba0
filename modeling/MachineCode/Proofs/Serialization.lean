import MachineCode.Encoding

/-!
# The bytes of an encoded instruction

`Encoding.serialize` walks through the parts with a cursor over zeroed storage. What it leaves
behind is nothing but the parts in their architectural order, one after the other
(`Encoding.parts`, `Encoding.bytes_eq_parts`), as long as the instruction is within the limit of
the architecture. The argument is the invariant `Cursor.Wrote`: the bytes written so far are the
start of the target, the cursor stands right behind them, and the parts still to come fit.

Setting a part is described by the encoding it gives (`Encoding.set_eq_ok`), with the length as
its only condition.
-/
namespace MachineCode.Encoding

/-! ### Setting parts -/

theorem optionLength_some {α : Type} (o : Option α) (a : α) :
    (optionLength (some a) : Int) = optionLength o + optionGrowth o := by
  cases o <;> rfl

theorem length_replace (e : Encoding) (p : Part) :
    ((e.replace p).length : Int) = e.length + e.growth p := by
  cases p with
  | legacy b =>
    have := optionLength_some e.legacy b
    simp only [replace, length, growth]
    omega
  | rex p =>
    have := optionLength_some e.rex p
    simp only [replace, length, growth]
    omega
  | modRM m =>
    have := optionLength_some e.modRM m
    simp only [replace, length, growth]
    omega
  | sib s =>
    have := optionLength_some e.sib s
    simp only [replace, length, growth]
    omega
  | opcode s | displacement s | immediate s =>
    simp only [replace, length, growth]
    omega

/-- A part is set **whenever the instruction stays within the limit**. -/
theorem set_eq_ok {e : Encoding} {p : Part} (h : (e.replace p).length ≤ maxInstructionLength) :
    e.set p = .ok (e.replace p) := by
  have hgrowth := e.length_replace p
  rw [set, if_pos (Or.inr (by omega))]

/-! ### The cursor -/

namespace Cursor

/-- The cursor has written exactly `bs`, and its target has room for `rest` behind them. -/
structure Wrote (c : Cursor) (bs rest : List UInt8) : Prop where
  length : c.target.length = bs.length + rest.length
  position : c.position = bs.length
  start : c.target.storage.toList.take bs.length = bs

variable {c : Cursor} {bs cs rest : List UInt8}

/-- The cursor after copying bytes that fit. -/
def advanced (c : Cursor) (bs : List UInt8) : Cursor where
  target := { c.target with storage := writeFrom c.target.storage c.position bs }
  position := c.position + bs.length

/-- Bytes that fit are copied whole, and the cursor stays within its target. -/
theorem Wrote.copy_eq_ok (h : c.Wrote bs (cs ++ rest)) : c.copy cs = .ok (c.advanced cs) := by
  have hlen := h.length
  rw [List.length_append] at hlen
  have hwithin : c.position ≤ c.target.length := by
    rw [h.position]
    omega
  have hfit : cs.take (c.target.length - c.position) = cs :=
    List.take_of_length_le (by rw [h.position]; omega)
  simp only [copy, hfit]
  rw [if_pos hwithin]
  rfl

theorem Wrote.advanced (h : c.Wrote bs (cs ++ rest)) : (c.advanced cs).Wrote (bs ++ cs) rest := by
  have hlen : c.target.length = bs.length + cs.length + rest.length := by
    rw [h.length, List.length_append, Nat.add_assoc]
  have hlimit : c.target.length ≤ maxInstructionLength :=
    Nat.le_trans c.target.length_le (Capacity.limit_le _)
  have hmade : (c.advanced cs).target.storage.toList =
      bs ++ cs ++ c.target.storage.toList.drop (bs.length + cs.length) := by
    simp only [Cursor.advanced]
    rw [h.position, toList_writeFrom _ _ _ (by omega), h.start]
  refine ⟨?_, ?_, ?_⟩
  · rw [List.length_append]
    exact hlen
  · rw [Cursor.advanced, h.position, List.length_append]
  · rw [hmade, List.take_left]

theorem Wrote.copy (h : c.Wrote bs (cs ++ rest)) :
    ∃ d, c.copy cs = .ok d ∧ d.Wrote (bs ++ cs) rest :=
  ⟨c.advanced cs, h.copy_eq_ok, h.advanced⟩

/-- Writing one byte is copying one byte, once there is room for it. -/
theorem Wrote.put_eq_copy {b : UInt8} (h : c.Wrote bs ([b] ++ rest)) : c.put b = c.copy [b] := by
  have hlt : c.position < c.target.length := by
    rw [h.length, h.position, List.length_append, List.length_singleton]
    omega
  rw [h.copy_eq_ok, put, ShortBytes.set, if_pos hlt]
  rfl

theorem Wrote.putOption {o : Option UInt8} (h : c.Wrote bs (o.toList ++ rest)) :
    ∃ d, c.putOption o = .ok d ∧ d.Wrote (bs ++ o.toList) rest := by
  cases o with
  | none => exact ⟨c, rfl, by rwa [Option.toList_none, List.append_nil]⟩
  | some b =>
    have hput : c.putOption (some b) = c.copy [b] := Wrote.put_eq_copy h
    rw [hput]
    exact Wrote.copy h

/-- A cursor that has no room left has written all of its target. -/
theorem Wrote.bytes_target (h : c.Wrote bs []) : c.target.bytes = bs := by
  rw [ShortBytes.bytes, h.length, List.length_nil, Nat.add_zero, h.start]

end Cursor

/-! ### The bytes -/

/-- The parts of the instruction, one after the other. -/
def parts (e : Encoding) : List UInt8 :=
  e.legacy.toList ++ ((e.rex.map Rex.byte).toList ++ (e.opcode.bytes ++
    ((e.modRM.map Packed.byte).toList ++ ((e.sib.map Packed.byte).toList ++
      (e.displacement.bytes ++ e.immediate.bytes)))))

theorem length_toList_eq {α : Type} (o : Option α) : o.toList.length = optionLength o := by
  cases o <;> rfl

theorem optionLength_map {α β : Type} (f : α → β) (o : Option α) :
    optionLength (o.map f) = optionLength o := by
  cases o <;> rfl

@[simp] theorem length_parts (e : Encoding) : e.parts.length = e.length := by
  simp only [parts, length, List.length_append, length_toList_eq, optionLength_map,
    ShortBytes.length_bytes]
  omega

/-- Serializing **never fails on an instruction within the limit** and gives its parts in
order. -/
theorem serialize_eq_ok {e : Encoding} (h : e.length ≤ maxInstructionLength) :
    ∃ s, e.serialize = .ok s ∧ s.bytes = e.parts := by
  have hz : (ShortBytes.zeros e.length : Except Fault (ShortBytes .instruction)) =
      .ok ⟨Vector.replicate _ 0, e.length, h⟩ := by
    rw [ShortBytes.zeros, dif_pos ⟨by omega, Int.ofNat_le.mpr h⟩]
    rfl
  have h0 : Cursor.Wrote ⟨⟨Vector.replicate _ 0, e.length, h⟩, 0⟩ [] e.parts :=
    ⟨by rw [length_parts, List.length_nil, Nat.zero_add], rfl, rfl⟩
  -- Each write takes one part off the front of what there is still room for.
  obtain ⟨c1, e1, h1⟩ := h0.putOption
  obtain ⟨c2, e2, h2⟩ := h1.putOption
  obtain ⟨c3, e3, h3⟩ := h2.copy
  obtain ⟨c4, e4, h4⟩ := h3.putOption
  obtain ⟨c5, e5, h5⟩ := h4.putOption
  obtain ⟨c6, e6, h6⟩ := h5.copy
  rw [← List.append_nil e.immediate.bytes] at h6
  obtain ⟨c7, e7, h7⟩ := h6.copy
  refine ⟨c7.target, ?_, ?_⟩
  · simp only [serialize, hz, assured_ok, ok_bind, e1, e2, e3, e4, e5, e6, e7]
    rfl
  · rw [h7.bytes_target]
    simp only [parts, List.append_assoc, List.nil_append]

theorem bytes_eq_parts {e : Encoding} (h : e.length ≤ maxInstructionLength) :
    e.bytes = .ok e.parts := by
  obtain ⟨s, hs, hb⟩ := serialize_eq_ok h
  rw [bytes, hs, ← hb]
  rfl

theorem length_le_of_bytes {e : Encoding} {code : List UInt8} (h : e.bytes = .ok code) :
    code.length ≤ maxInstructionLength := by
  cases hs : e.serialize with
  | error f =>
    rw [bytes, hs] at h
    cases h
  | ok s =>
    rw [bytes, hs] at h
    cases h
    rw [ShortBytes.length_bytes]
    exact s.length_le

/-- An instruction beyond the limit is refused before anything is written. -/
theorem eq_internal_of_bytes {e : Encoding} {f : Fault} (h : e.bytes = .error f) :
    ∃ cause, f = .internal cause := by
  by_cases hlength : e.length ≤ maxInstructionLength
  · rw [bytes_eq_parts hlength] at h
    cases h
  · have hzeros : (ShortBytes.zeros e.length : Except Fault (ShortBytes .instruction)) =
        .error (.byteLength e.length maxInstructionLength) := by
      rw [ShortBytes.zeros, dif_neg (fun hle => hlength (Int.ofNat_le.mp hle.2))]
      rfl
    rw [bytes, serialize, hzeros] at h
    cases h
    exact ⟨_, rfl⟩

end MachineCode.Encoding
