import MachineCode.Proofs.Code
import MachineCode.Proofs.LittleEndian
import MachineCode.Proofs.PrefixStability

/-!
# Decoding undoes encoding

The encoders and the decoder know nothing of each other: the former resolve an address into six
pieces that each decide anew which form it has, the latter follows the rules of the architecture.
Here the two are brought together. The code of a checked instruction reads back as that
instruction (`Checked.decode_code`), with the same registers and constant, and for memory with the
same origin, index and scale and the displacement bytes that the address asks for
(`Address.location`). One thing is lost on purpose: `RSP` as an index reads back as no index.

The cases in which register numbers collide with special codes are settled where the SIB byte and
the mode are read, one lemma for each rule of the architecture (`location_register`,
`location_next`, `location_sib`, `location_absent`).
-/
namespace MachineCode

/-! ### What an instruction should read back as -/

/-- The place in memory that an address stands for. `RSP` as an index means no index. -/
def Address.location (a : Address) : Decode.Location where
  origin :=
    match a with
    | based b _ => .register b
    | ripRelative _ => .next
    | indexed (some b) _ _ _ => .register b
    | indexed none _ _ _ => .absent
  index :=
    match a with
    | indexed _ i s _ => if i = .rsp then none else some (i, s)
    | _ => none
  displacement := a.displacementBytes

/-- The instruction as a processor should read it. -/
def Checked.reading : Checked → Decode.Decoded
  | lea dst src => .operands 0x8d dst (.memory src.location)
  | load dst src => .operands 0x8b dst (.memory src.location)
  | store dst src => .operands 0x89 src (.memory dst.location)
  | copy dst src => .operands 0x89 src (.register dst)
  | constant dst value => .constant dst value

namespace Decode

/-! ### Fields read back as what was put into them -/

theorem gpr_low3 (g : Gpr) : gpr g.extended g.low3.toNat = g := by
  cases g <;> rfl

theorem scale_bits (s : Scale) : scale s.bits.toNat = s := by
  cases s <;> rfl

theorem split?_length (bs : List UInt8) : split? bs.length bs = some (bs, []) := by
  rw [split?, if_pos (Nat.le_refl _), List.take_length, List.drop_length]

/-- `RSP` is the one index that reads back as none; `R12` has the same low bits, but is told
apart by its extension bit. -/
theorem index?_join (s : Scale) (i : Gpr) {base : UInt8} (hbase : base ≤ 7) :
    index? i.extended (Packed.join s.bits i.low3 base : Sib).byte =
      if i = .rsp then none else some (i, s) := by
  obtain ⟨hhigh, hmiddle, _⟩ := Packed.fields_join .sib (Address.bits_le s) i.low3_le hbase
  have hnone : (i.low3.toNat = 4 ∧ i.extended = false) ↔ i = .rsp := by
    cases i <;> decide
  simp only [index?, hmiddle, hhigh, hnone, gpr_low3, scale_bits]

/-! ### Places in memory, one rule at a time -/

variable {x b : Bool} {mode rm : Nat} {disp : List UInt8} {sib : UInt8}

theorem location_register (hsib : rm ≠ 4) (hnext : ¬ (mode = 0 ∧ rm = 5))
    (hdisp : disp.length = width mode) :
    location x b mode rm disp = some (⟨.register (gpr b rm), none, disp⟩, []) := by
  unfold location
  rw [if_neg hsib, if_neg hnext, ← hdisp, split?_length]
  rfl

theorem location_next (hdisp : disp.length = 4) :
    location x b 0 5 disp = some (⟨.next, none, disp⟩, []) := by
  unfold location
  rw [if_neg (by decide), if_pos (by decide), ← hdisp, split?_length]
  rfl

theorem location_sib (hbase : ¬ (mode = 0 ∧ sib.toNat % 8 = 5)) (hdisp : disp.length = width mode) :
    location x b mode 4 (sib :: disp) =
      some (⟨.register (gpr b (sib.toNat % 8)), index? x sib, disp⟩, []) := by
  unfold location
  rw [if_pos rfl]
  show (if mode = 0 ∧ sib.toNat % 8 = 5 then _ else _) = _
  rw [if_neg hbase, ← hdisp, split?_length]
  rfl

theorem location_absent (hbase : sib.toNat % 8 = 5) (hdisp : disp.length = 4) :
    location x b 0 4 (sib :: disp) = some (⟨.absent, index? x sib, disp⟩, []) := by
  unfold location
  rw [if_pos rfl]
  show (if 0 = 0 ∧ sib.toNat % 8 = 5 then _ else _) = _
  rw [if_pos ⟨rfl, hbase⟩, ← hdisp, split?_length]
  rfl

end Decode

/-! ### Addresses -/

namespace Address

open Decode (width)

theorem length_baseDisplacement (b : Gpr) (d : UInt32) :
    (baseDisplacement b d).length = width (baseMode b d).bits.toNat := by
  rcases baseMode_cases b d with ⟨hm, hd, _⟩ | ⟨hm, hd, _⟩ | ⟨hm, hd, _⟩ <;> rw [hm, hd] <;> rfl

/-- `RBP` and `R13` are never used in the mode in which their number means something else. -/
theorem baseMode_ne_plain {b : Gpr} {d : UInt32} (hm : (baseMode b d).bits.toNat = 0) :
    b.low3.toNat ≠ 5 := by
  intro hlow
  have hb : b = .rbp ∨ b = .r13 := b.low3_eq_noBase_iff.mp (UInt8.toNat_inj.mp hlow)
  rcases baseMode_cases b d with ⟨_, _, _, hne⟩ | ⟨hm', _⟩ | ⟨hm', _⟩
  · exact hne hb
  · rw [hm'] at hm
    cases hm
  · rw [hm'] at hm
    cases hm

/-- A base register and a scaled index read back, whatever the base. -/
theorem location_based_index (b i : Gpr) (s : Scale) (d : UInt32) :
    Decode.location i.extended b.extended (baseMode b d).bits.toNat 4
      ((Packed.join s.bits i.low3 b.low3 : Sib).byte :: baseDisplacement b d) =
        some (⟨.register b, if i = .rsp then none else some (i, s), baseDisplacement b d⟩, []) := by
  obtain ⟨_, _, hlow⟩ := Packed.fields_join .sib (bits_le s) i.low3_le b.low3_le
  have hbase : ¬ ((baseMode b d).bits.toNat = 0 ∧
      (Packed.join s.bits i.low3 b.low3 : Sib).byte.toNat % 8 = 5) := by
    rw [hlow]
    rintro ⟨hmode, hb⟩
    exact baseMode_ne_plain hmode hb
  rw [Decode.location_sib hbase (length_baseDisplacement b d), hlow, Decode.gpr_low3,
    Decode.index?_join s i b.low3_le]

/-- **An address reads back as the place it stands for.** -/
theorem decode_location (a : Address) :
    Decode.location a.rexX a.rexB a.mode.bits.toNat a.rm.toNat
      ((a.sib?.map Packed.byte).toList ++ a.displacementBytes) = some (a.location, []) := by
  match a with
  | ripRelative d => exact Decode.location_next rfl
  | indexed none i s d =>
    obtain ⟨_, _, hlow⟩ := Packed.fields_join .sib (bits_le s) i.low3_le (by decide : noBase ≤ 7)
    have h := Decode.location_absent (x := i.extended) (b := false) hlow
      (LittleEndian.length_word32 d)
    rw [Decode.index?_join s i (by decide)] at h
    exact h
  | indexed (some b) i s d => exact location_based_index b i s d
  | based b d =>
    by_cases hlow : b.low3 = rmSib
    · -- The SIB byte is the one for `RSP` as an index, which counts for nothing.
      have h := location_based_index b .rsp .one d
      simp only [rm, sib?, if_pos hlow]
      rw [hlow] at h ⊢
      exact h
    · have h := Decode.location_register (x := false) (b := b.extended)
        (fun h => hlow (UInt8.toNat_inj.mp h)) (fun h => baseMode_ne_plain h.1 h.2)
        (length_baseDisplacement b d)
      rw [Decode.gpr_low3] at h
      simp only [sib?, if_neg hlow]
      exact h

theorem mode_ne_direct (a : Address) : a.mode ≠ .direct := by
  have hbase : ∀ b d, baseMode b d ≠ .direct := by
    intro b d hm
    rcases baseMode_cases b d with ⟨h, _⟩ | ⟨h, _⟩ | ⟨h, _⟩ <;> rw [hm] at h <;> cases h
  match a with
  | based b d => exact hbase b d
  | ripRelative d => exact Mode.noConfusion
  | indexed (some b) i s d => exact hbase b d
  | indexed none i s d => exact Mode.noConfusion

end Address

/-! ### Instructions -/

namespace Decode

/-- A REX prefix for 64-bit operands hands its three other flags to what follows. -/
theorem decode_rex (r x b : Bool) (bs : List UInt8) :
    decode ((Rex.ofFlags true r x b).byte :: bs) = wide? r x b bs := by
  cases r <;> cases x <;> cases b <;> rfl

theorem operands?_join (reg : Gpr) {mode : Mode} {rm : UInt8} (hrm : rm ≤ 7) (x b : Bool)
    (bs : List UInt8) :
    operands? reg.extended x b ((Packed.join mode.bits reg.low3 rm : ModRM).byte :: bs) =
      if mode = .direct then some (reg, .register (gpr b rm.toNat), bs)
      else (location x b mode.bits.toNat rm.toNat bs).map fun p => (reg, .memory p.1, p.2) := by
  have hmode : mode.bits ≤ 3 := by cases mode <;> decide
  obtain ⟨hhigh, hmiddle, hlow⟩ := Packed.fields_join .modRM hmode reg.low3_le hrm
  have hdirect : mode.bits.toNat = 3 ↔ mode = .direct := by cases mode <;> decide
  simp only [operands?, hhigh, hmiddle, hlow, gpr_low3, hdirect]
  split
  · rfl
  · cases location x b mode.bits.toNat rm.toNat bs <;> rfl

theorem decode_register (reg g : Gpr) :
    decode (g.pieces.code 0x89 reg) = some (.operands 0x89 reg (.register g), []) := by
  rw [Pieces.code, decode_rex]
  show (operands? _ _ _ (_ :: []) >>= _) = _
  rw [Gpr.pieces, operands?_join reg g.low3_le, if_pos rfl, gpr_low3]
  rfl

theorem decode_memory {opcode : UInt8} (h : opcode = 0x89 ∨ opcode = 0x8b ∨ opcode = 0x8d)
    (reg : Gpr) (a : Address) :
    decode (a.pieces.code opcode reg) = some (.operands opcode reg (.memory a.location), []) := by
  rw [Pieces.code, decode_rex, wide?, if_pos h]
  show (operands? _ _ _ (_ :: _) >>= _) = _
  rw [Address.pieces, operands?_join reg a.rm_le, if_neg a.mode_ne_direct, a.decode_location]
  rfl

/-- The register of a move of a constant stands in the opcode. -/
theorem opcodeConstant_add (dst : Gpr) :
    ¬ (Instruction.opcodeConstant + dst.low3 = 0x89 ∨ Instruction.opcodeConstant + dst.low3 = 0x8b ∨
        Instruction.opcodeConstant + dst.low3 = 0x8d) ∧
      (0xb8 ≤ Instruction.opcodeConstant + dst.low3 ∧
        Instruction.opcodeConstant + dst.low3 ≤ 0xbf) ∧
      gpr dst.extended ((Instruction.opcodeConstant + dst.low3).toNat - 0xb8) = dst := by
  cases dst <;> decide

theorem decode_constant (dst : Gpr) (value : UInt64) :
    decode (Checked.constant dst value).code = some (.constant dst value, []) := by
  obtain ⟨hother, hrange, hdst⟩ := opcodeConstant_add dst
  have hsplit : split? 8 (LittleEndian.word64 value) = some (LittleEndian.word64 value, []) :=
    split?_length (LittleEndian.word64 value)
  rw [Checked.code, decode_rex, wide?, if_neg hother, if_pos hrange, hsplit, hdst]
  show some (Decoded.constant dst _, _) = _
  rw [LittleEndian.value_word64, UInt64.ofNat_toNat]

end Decode

/-- **The code of a checked instruction is one instruction**, and reads back as it. -/
theorem Checked.decode_code (c : Checked) : Decode.decode c.code = some (c.reading, []) := by
  cases c with
  | lea dst src => exact Decode.decode_memory (.inr (.inr rfl)) dst src
  | load dst src => exact Decode.decode_memory (.inr (.inl rfl)) dst src
  | store dst src => exact Decode.decode_memory (.inl rfl) src dst
  | copy dst src => exact Decode.decode_register src dst
  | constant dst value => exact Decode.decode_constant dst value

theorem Checked.decode_code_append (c : Checked) (rest : List UInt8) :
    Decode.decode (c.code ++ rest) = some (c.reading, rest) :=
  Decode.decode_stable _ _ _ c.decode_code rest

/-- **Decoding undoes encoding.** A valid instruction is encoded, its bytes are as many as its
encoding is long, and whatever follows them, a processor takes exactly these bytes and reads the
same instruction: the opcode of the encoder, the same registers and constant, and for memory the
same base, index and scale (`RSP` as an index is none) and the displacement bytes of the
address. -/
theorem decode_encode {i : Instruction} (hi : i.Valid) :
    ∃ c e code, i.checked? = some c ∧ i.encode = .ok e ∧ e.bytes = .ok code ∧
      code.length = e.length ∧
      ∀ rest, Decode.decode (code ++ rest) = some (c.reading, rest) := by
  obtain ⟨c, hc⟩ := Option.isSome_iff_exists.mp ((Instruction.isSome_checked?_iff i).mpr hi)
  obtain ⟨e, he, hbytes, hlen⟩ := Instruction.bytes_of_checked? hc
  exact ⟨c, e, c.code, hc, he, hbytes, hlen.symm, c.decode_code_append⟩

/-- A store at `R13` with `RSP` for an index and the displacement 256: the index is lost, and the
displacement is the byte zero. -/
theorem decode_encode_store_r13 :
    Address.ofBaseIndex ⟨13⟩ ⟨4⟩ 8 256 = .ok (.indexed (some .r13) .rsp .eight 256) ∧
    (Instruction.move (.memory (.place (.indexed (some .r13) .rsp .eight 256))) ⟨12⟩).Valid ∧
    ∃ c e code,
      (Instruction.move (.memory (.place (.indexed (some .r13) .rsp .eight 256))) ⟨12⟩).checked? =
        some c ∧
      (Instruction.move (.memory (.place (.indexed (some .r13) .rsp .eight 256))) ⟨12⟩).encode =
        .ok e ∧
      e.bytes = .ok code ∧ code.length = e.length ∧
      (∀ rest, Decode.decode (code ++ rest) = some (c.reading, rest)) ∧
      c.reading = .operands 0x89 .r12 (.memory ⟨.register .r13, none, [0]⟩) := by
  obtain ⟨c, e, code, hc, he, hbytes, hlength, hdecode⟩ := decode_encode
    (by decide :
      (Instruction.move (.memory (.place (.indexed (some .r13) .rsp .eight 256))) ⟨12⟩).Valid)
  refine ⟨rfl, by decide, c, e, code, hc, he, hbytes, hlength, hdecode, ?_⟩
  cases hc
  rfl

end MachineCode
