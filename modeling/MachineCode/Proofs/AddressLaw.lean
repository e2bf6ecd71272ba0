import MachineCode.Decode
import MachineCode.Proofs.RoundTrip

/-!
# Which address a processor computes

An address is meant as a sum of registers and a positive displacement. What a processor makes of
the code differs from that sum only in the displacement, which it extends by its sign. The
difference is `Address.shortfall`, and it is settled by comparing the displacement bytes with the
displacement (`Address.signed_displacementBytes`):

* behind a base register, the displacements from 128 to 256 have one byte and lose 256;
* displacements from `2 ^ 31` on have four bytes and lose `2 ^ 32`;
* all others arrive as they are.

So the law below leaves no room for any other wrong address, whatever the registers hold.
-/
namespace MachineCode

/-! ### Displacements as a processor reads them -/

namespace Decode

/-- The sign is decided by the half of the range in which the value lies. -/
theorem signed_eq {bs : List UInt8} {range v : Nat} (hrange : Nat.pow 256 bs.length = range)
    (hv : LittleEndian.value bs = v) :
    signed bs = if 2 * v < range then (v : Int) else v - range := by
  rw [signed, hrange, hv]

theorem signed_byte (v : UInt8) :
    signed [v] = if v.toNat < 128 then (v.toNat : Int) else v.toNat - 256 := by
  have hrange : Nat.pow 256 [v].length = 256 := rfl
  have hv : LittleEndian.value [v] = v.toNat := by simp [LittleEndian.value]
  rw [signed_eq hrange hv]
  split <;> split <;> omega

theorem signed_word32 (v : UInt32) :
    signed (LittleEndian.word32 v) =
      if v.toNat < 0x80000000 then (v.toNat : Int) else v.toNat - 0x100000000 := by
  have hrange : Nat.pow 256 (LittleEndian.word32 v).length = 0x100000000 := by
    rw [LittleEndian.length_word32]
  rw [signed_eq hrange (LittleEndian.value_word32 v)]
  split <;> split <;> omega

end Decode

namespace Address

/-- By how much the address that a processor computes falls short of the one that is meant. -/
def shortfall (a : Address) : Nat :=
  if a.base?.isSome ∧ 128 ≤ a.disp ∧ a.disp ≤ 256 then 256
  else if 0x80000000 ≤ a.disp then 0x100000000
  else 0

theorem signed_baseDisplacement {a : Address} {b : Gpr} (hbase : a.base? = some b) :
    Decode.signed (baseDisplacement b a.disp) = (a.disp.toNat : Int) - a.shortfall := by
  simp only [shortfall, hbase, Option.isSome_some, true_and, UInt32.le_iff_toNat_le,
    UInt32.reduceToNat]
  rcases baseMode_cases b a.disp with ⟨_, hd, hzero, _⟩ | ⟨_, hd, hle, _⟩ | ⟨_, hd, hlt⟩
  · rw [hd, hzero]
    rfl
  · -- One byte is left of the displacement, and its upper half is read as negative.
    have hle : a.disp.toNat ≤ 256 := UInt32.le_iff_toNat_le.mp hle
    rw [hd, Decode.signed_byte, UInt32.toNat_toUInt8,
      if_neg (by omega : ¬ 0x80000000 ≤ a.disp.toNat)]
    split <;> split <;> omega
  · have hlt : 256 < a.disp.toNat := UInt32.lt_iff_toNat_lt.mp hlt
    rw [hd, Decode.signed_word32, if_neg (by omega : ¬ (128 ≤ a.disp.toNat ∧ a.disp.toNat ≤ 256))]
    split <;> split <;> omega

theorem signed_word32_disp {a : Address} (hbase : a.base? = none) :
    Decode.signed (LittleEndian.word32 a.disp) = (a.disp.toNat : Int) - a.shortfall := by
  simp only [shortfall, hbase, Option.isSome_none, Bool.false_eq_true, false_and, if_false,
    UInt32.le_iff_toNat_le, UInt32.reduceToNat]
  rw [Decode.signed_word32]
  split <;> split <;> omega

/-- A processor reads the displacement less the shortfall. -/
theorem signed_displacementBytes (a : Address) :
    Decode.signed a.displacementBytes = (a.disp.toNat : Int) - a.shortfall := by
  match a with
  | based b d => exact signed_baseDisplacement (a := based b d) rfl
  | indexed (some b) i s d => exact signed_baseDisplacement (a := indexed (some b) i s d) rfl
  | ripRelative d => exact signed_word32_disp (a := ripRelative d) rfl
  | indexed none i s d => exact signed_word32_disp (a := indexed none i s d) rfl

/-- The displacements that a processor reads as they are meant: those below `2 ^ 31`, but for the
ones from 128 to 256 behind a base register. -/
def Faithful (a : Address) : Prop :=
  a.disp < 0x80000000 ∧ (a.base?.isSome → a.disp ≤ 127 ∨ 257 ≤ a.disp)

instance (a : Address) : Decidable a.Faithful := inferInstanceAs (Decidable (_ ∧ _))

theorem shortfall_eq_zero_iff (a : Address) : a.shortfall = 0 ↔ a.Faithful := by
  simp only [shortfall, Faithful, UInt32.le_iff_toNat_le, UInt32.lt_iff_toNat_lt,
    UInt32.reduceToNat]
  cases a.base?.isSome with
  | true =>
    simp only [true_and, forall_const]
    split
    · omega
    · split <;> omega
  | false => simp

theorem ofNat_shortfall_eq_zero_iff (a : Address) :
    UInt64.ofNat a.shortfall = 0 ↔ a.shortfall = 0 := by
  unfold shortfall
  split
  · decide
  · split <;> decide

/-! ### The address as a whole -/

theorem ofInt_natCast (n : Nat) : UInt64.ofInt n = UInt64.ofNat n := by
  apply UInt64.toNat_inj.mp
  rw [UInt64.ofInt, UInt64.toNat_ofNat', UInt64.toNat_ofNat']
  omega

/-- The address that is meant has the origin and the index of the one that is read. -/
theorem intended_eq (a : Address) (regs : RegisterFile) (next : UInt64) :
    a.intended regs next = a.location.origin.value regs next +
      a.location.index.elim 0 (fun i => regs i.1 * i.2.factor.toUInt64) + a.disp.toUInt64 := by
  match a with
  | based b d | ripRelative d =>
    simp [intended, location, Decode.Origin.value, disp]
  | indexed none i s d | indexed (some b) i s d =>
    by_cases hi : i = .rsp
    · simp [intended, location, Decode.Origin.value, disp, hi]
    · simp [intended, location, Decode.Origin.value, disp, hi]

theorem ofInt_signed_displacementBytes (a : Address) :
    UInt64.ofInt (Decode.signed a.displacementBytes) =
      a.disp.toUInt64 - UInt64.ofNat a.shortfall := by
  rw [signed_displacementBytes, Int.sub_eq_add_neg, UInt64.ofInt_add, UInt64.ofInt_neg,
    ofInt_natCast, ofInt_natCast, UInt64.ofNat_uInt32ToNat, UInt64.sub_eq_add_neg]

/-- **A processor computes the address that is meant, less the shortfall.** -/
theorem address_location (a : Address) (regs : RegisterFile) (next : UInt64) :
    a.location.address regs next = a.intended regs next - UInt64.ofNat a.shortfall := by
  have hdisp : a.location.displacement = a.displacementBytes := rfl
  rw [Decode.Location.address, hdisp, ofInt_signed_displacementBytes, intended_eq,
    UInt64.sub_eq_add_neg, UInt64.sub_eq_add_neg, UInt64.add_assoc _ _ (-_)]

theorem address_location_eq_iff (a : Address) (regs : RegisterFile) (next : UInt64) :
    a.location.address regs next = a.intended regs next ↔ a.Faithful := by
  have hcancel : ∀ x y : UInt64, x - y = x ↔ y = 0 := by grind
  rw [address_location, hcancel, ofNat_shortfall_eq_zero_iff, shortfall_eq_zero_iff]

end Address

namespace Instruction

/-- The code of an instruction whose rm operand is memory is put together from its register and the
pieces of the address, and reads back as the register and the location of the address. -/
theorem exists_code_of_rm? {i : Instruction} {a : Address} {c : Checked}
    (hrm : i.rm? = some (.memory (.place a))) (hc : i.checked? = some c) :
    ∃ opcode reg, i.reg.gpr? = some reg ∧ c.code = a.pieces.code opcode reg ∧
      c.reading = .operands opcode reg (.memory a.location) := by
  match i with
  | lea dst src | load dst src =>
    obtain ⟨g, b, hg, hb, rfl⟩ := eq_some_pair hc
    cases hrm
    cases hb
    exact ⟨_, g, hg, rfl, rfl⟩
  | store dst src | move (.memory dst) src =>
    obtain ⟨b, g, hb, hg, rfl⟩ := eq_some_pair hc
    cases hrm
    cases hb
    exact ⟨_, g, hg, rfl, rfl⟩

/-- An instruction whose rm operand is memory reads back as one, at the location of the address. -/
theorem exists_reading_of_rm? {i : Instruction} {a : Address} {c : Checked}
    (hrm : i.rm? = some (.memory (.place a))) (hc : i.checked? = some c) :
    ∃ opcode reg, c.reading = .operands opcode reg (.memory a.location) := by
  obtain ⟨opcode, reg, _, _, hreading⟩ := exists_code_of_rm? hrm hc
  exact ⟨opcode, reg, hreading⟩

end Instruction

/-- **The exact effective-address law.** An instruction with a valid register and an address is
encoded, and whatever follows its bytes, a processor reads a place in memory from them. With any
contents of the registers, that place is the address that is meant less its shortfall; so it is
the address itself exactly if the displacement is a faithful one. -/
theorem address_decode_encode {i : Instruction} {a : Address} (hreg : i.reg.Valid)
    (hrm : i.rm? = some (.memory (.place a))) :
    ∃ e code opcode reg l, i.encode = .ok e ∧ e.bytes = .ok code ∧
      (∀ rest, Decode.decode (code ++ rest) = some (.operands opcode reg (.memory l), rest)) ∧
      ∀ regs next,
        l.address regs next = a.intended regs next - UInt64.ofNat a.shortfall ∧
        (l.address regs next = a.intended regs next ↔ a.Faithful) := by
  have hi : i.Valid := (Instruction.valid_iff_of_rm? hrm).mpr ⟨hreg, Memory.noConfusion⟩
  obtain ⟨c, hc⟩ := Option.isSome_iff_exists.mp ((Instruction.isSome_checked?_iff i).mpr hi)
  obtain ⟨e, he, hbytes, _⟩ := Instruction.bytes_of_checked? hc
  obtain ⟨opcode, reg, hreading⟩ := Instruction.exists_reading_of_rm? hrm hc
  refine ⟨e, c.code, opcode, reg, a.location, he, hbytes, ?_, ?_⟩
  · intro rest
    rw [c.decode_code_append, hreading]
  · intro regs next
    exact ⟨a.address_location regs next, a.address_location_eq_iff regs next⟩

/-- A load at `RBP` and the displacement 200 is encoded, and reaches 256 bytes too low. -/
theorem address_decode_encode_load_rbp :
    Reg.Valid ⟨0⟩ ∧ Address.shortfall (.based .rbp 200) = 256 ∧
    ¬ Address.Faithful (.based .rbp 200) ∧
    ∃ e code opcode reg l,
      (Instruction.load ⟨0⟩ (.place (.based .rbp 200))).encode = .ok e ∧ e.bytes = .ok code ∧
      (∀ rest, Decode.decode (code ++ rest) = some (.operands opcode reg (.memory l), rest)) ∧
      ∀ regs next,
        l.address regs next = Address.intended regs next (.based .rbp 200) -
          UInt64.ofNat (Address.shortfall (.based .rbp 200)) ∧
        (l.address regs next = Address.intended regs next (.based .rbp 200) ↔
          Address.Faithful (.based .rbp 200)) :=
  ⟨by decide, by decide, by decide,
    address_decode_encode (i := .load ⟨0⟩ (.place (.based .rbp 200))) (by decide) rfl⟩

end MachineCode
