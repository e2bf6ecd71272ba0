import MachineCode.Proofs.RoundTrip
import Mathlib.Logic.Relation

/-!
# Which instructions have the same code

Two different instructions have the same code only if they differ in how an address is written,
and there are two ways in which that can be (`Address.Coincides`):

* behind `RBP` or `R13` the displacement 256 is cut to the byte zero, which is also the byte that
  these bases have for no displacement;
* `RSP` and `R12` as a base need a SIB byte in any case, and that byte says that there is no
  index, just as `RSP` as an index does with the factor one.

All other coincidences follow from these (`Checked.code_eq_iff`). For one direction it is enough
that the generating pairs contribute the same pieces. For the other, equal code is read as equal
places in memory, since decoding undoes encoding. What a reader does not tell apart is the factor
of an index that is none, and whether there is a SIB byte; both are settled by comparing the SIB
bytes.
-/
namespace MachineCode

/-! ### The coincidences between addresses -/

namespace Address

/-- The pairs of addresses that generate all coincidences. -/
inductive Coincides : Address → Address → Prop where
  | based {b : Gpr} (hb : b = .rbp ∨ b = .r13) : Coincides (.based b 0) (.based b 256)
  | indexed {b : Gpr} (hb : b = .rbp ∨ b = .r13) (i : Gpr) (s : Scale) :
      Coincides (.indexed (some b) i s 0) (.indexed (some b) i s 256)
  | unindexed {b : Gpr} (hb : b = .rsp ∨ b = .r12) (d : UInt32) :
      Coincides (.indexed (some b) .rsp .one d) (.based b d)

/-- The least equivalence that contains the coincidences. -/
abbrev Equivalent : Address → Address → Prop := Relation.EqvGen Coincides

theorem pieces_eq_of_coincides {a a' : Address} (h : Coincides a a') : a.pieces = a'.pieces := by
  cases h with
  | based hb => rcases hb with rfl | rfl <;> rfl
  | indexed hb i s => rcases hb with rfl | rfl <;> rfl
  | unindexed hb d => rcases hb with rfl | rfl <;> rfl

theorem pieces_eq_of_equivalent {a a' : Address} (h : Equivalent a a') : a.pieces = a'.pieces := by
  induction h with
  | rel a a' h => exact pieces_eq_of_coincides h
  | refl a => rfl
  | symm a a' _ ih => exact ih.symm
  | trans a b c _ _ ih₁ ih₂ => exact ih₁.trans ih₂

/-! ### Addresses that read alike -/

/-- Of the displacements up to 256, only 0 and 256 have the same byte. -/
theorem eq_or_of_toUInt8_eq {d d' : UInt32} (hle : d ≤ 256) (hle' : d' ≤ 256)
    (h : d.toUInt8 = d'.toUInt8) : d = d' ∨ (d = 0 ∧ d' = 256) ∨ (d = 256 ∧ d' = 0) := by
  have hmod : d.toNat % 256 = d'.toNat % 256 := by
    simpa only [UInt32.toNat_toUInt8] using congrArg UInt8.toNat h
  simp only [UInt32.le_iff_toNat_le, ← UInt32.toNat_inj, UInt32.reduceToNat] at hle hle' ⊢
  omega

/-- Behind a base register, only 0 and 256 can be confused, and only if zero has a byte. -/
theorem eq_or_of_baseDisplacement_eq {b : Gpr} {d d' : UInt32}
    (h : baseDisplacement b d = baseDisplacement b d') :
    d = d' ∨ ((b = .rbp ∨ b = .r13) ∧ ((d = 0 ∧ d' = 256) ∨ (d = 256 ∧ d' = 0))) := by
  have hlen := congrArg List.length h
  rcases baseMode_cases b d with ⟨_, hd, hzero, _⟩ | ⟨_, hd, hle, hb⟩ | ⟨_, hd, _⟩ <;>
    rcases baseMode_cases b d' with ⟨_, hd', hzero', _⟩ | ⟨_, hd', hle', hb'⟩ | ⟨_, hd', _⟩ <;>
    rw [hd, hd'] at h hlen
  case inl.inl => exact .inl (hzero.trans hzero'.symm)
  case inr.inl.inr.inl =>
    rcases eq_or_of_toUInt8_eq hle hle' (List.cons.inj h).1 with heq | hzero | hzero
    · exact .inl heq
    · exact .inr ⟨hb hzero.1, .inl hzero⟩
    · exact .inr ⟨hb' hzero.2, .inr hzero⟩
  case inr.inr.inr.inr => exact .inl (LittleEndian.word32_inj.mp h)
  -- Otherwise the numbers of bytes differ.
  all_goals simp at hlen

theorem equivalent_based {b : Gpr} {d d' : UInt32}
    (h : baseDisplacement b d = baseDisplacement b d') :
    Equivalent (.based b d) (.based b d') := by
  rcases eq_or_of_baseDisplacement_eq h with rfl | ⟨hb, ⟨rfl, rfl⟩ | ⟨rfl, rfl⟩⟩
  · exact .refl _
  · exact .rel _ _ (.based hb)
  · exact .symm _ _ (.rel _ _ (.based hb))

theorem equivalent_indexed {b i : Gpr} {s : Scale} {d d' : UInt32}
    (h : baseDisplacement b d = baseDisplacement b d') :
    Equivalent (.indexed (some b) i s d) (.indexed (some b) i s d') := by
  rcases eq_or_of_baseDisplacement_eq h with rfl | ⟨hb, ⟨rfl, rfl⟩ | ⟨rfl, rfl⟩⟩
  · exact .refl _
  · exact .rel _ _ (.indexed hb i s)
  · exact .symm _ _ (.rel _ _ (.indexed hb i s))

theorem bits_inj {s s' : Scale} (h : s.bits = s'.bits) : s = s' := by
  rw [← Decode.scale_bits s, ← Decode.scale_bits s', h]

/-- A SIB byte determines its three fields. -/
theorem sib_fields_eq {s s' : Scale} {i i' base base' : UInt8} (hi : i ≤ 7) (hi' : i' ≤ 7)
    (hbase : base ≤ 7) (hbase' : base' ≤ 7)
    (h : (Packed.join s.bits i base : Sib) = .join s'.bits i' base') :
    s = s' ∧ i = i' ∧ base = base' := by
  obtain ⟨hs, hmiddle, hlow⟩ := Packed.fields_join .sib (bits_le s) hi hbase
  obtain ⟨hs', hmiddle', hlow'⟩ := Packed.fields_join .sib (bits_le s') hi' hbase'
  rw [h] at hs hmiddle hlow
  refine ⟨bits_inj ?_, ?_, ?_⟩
  · exact UInt8.toNat_inj.mp (hs.symm.trans hs')
  · exact UInt8.toNat_inj.mp (hmiddle.symm.trans hmiddle')
  · exact UInt8.toNat_inj.mp (hlow.symm.trans hlow')

/-- An index is known from the index that is read and from the SIB byte: the byte gives the
factor that a reader forgets when the index is none. -/
theorem index_eq {i i' : Gpr} {s s' : Scale} {base base' : UInt8} (hbase : base ≤ 7)
    (hbase' : base' ≤ 7)
    (hread : (if i = .rsp then none else some (i, s)) = if i' = .rsp then none else some (i', s'))
    (hsib : (Packed.join s.bits i.low3 base : Sib) = .join s'.bits i'.low3 base') :
    i = i' ∧ s = s' := by
  obtain ⟨hs, hlow, _⟩ := sib_fields_eq i.low3_le i'.low3_le hbase hbase' hsib
  refine ⟨?_, hs⟩
  by_cases hi : i = .rsp
  · by_cases hi' : i' = .rsp
    · rw [hi, hi']
    · rw [if_pos hi, if_neg hi'] at hread
      cases hread
  · by_cases hi' : i' = .rsp
    · rw [if_neg hi, if_pos hi'] at hread
      cases hread
    · rw [if_neg hi, if_neg hi'] at hread
      exact congrArg Prod.fst (Option.some.inj hread)

/-- An address without and one with an index, behind the same base. -/
theorem equivalent_based_indexed {b i : Gpr} {s : Scale} {d d' : UInt32}
    (hread : none = if i = .rsp then none else some (i, s))
    (hsib : (based b d).sib? = (indexed (some b) i s d').sib?)
    (hdisp : baseDisplacement b d = baseDisplacement b d') :
    Equivalent (.based b d) (.indexed (some b) i s d') := by
  by_cases hlow : b.low3 = rmSib
  · have hjoin : (Packed.join Scale.one.bits noIndex b.low3 : Sib) =
        .join s.bits i.low3 b.low3 := by
      rw [sib?, if_pos hlow] at hsib
      exact Option.some.inj hsib
    obtain ⟨rfl, _, _⟩ :=
      sib_fields_eq (by decide : noIndex ≤ 7) i.low3_le b.low3_le b.low3_le hjoin
    have hi : i = .rsp := by
      by_cases hi : i = .rsp
      · exact hi
      · rw [if_neg hi] at hread
        cases hread
    subst hi
    have hb : b = .rsp ∨ b = .r12 := b.low3_eq_rmSib_iff.mp hlow
    exact .trans _ _ _ (equivalent_based hdisp) (.symm _ _ (.rel _ _ (.unindexed hb d')))
  · rw [sib?, if_neg hlow] at hsib
    cases hsib

/-- **Addresses that read alike and have the same SIB byte are equivalent.** -/
theorem equivalent_of_location_eq {a a' : Address} (hloc : a.location = a'.location)
    (hsib : a.sib? = a'.sib?) : Equivalent a a' := by
  have horigin := congrArg Decode.Location.origin hloc
  have hread := congrArg Decode.Location.index hloc
  have hdisp := congrArg Decode.Location.displacement hloc
  match a, a' with
  | based b d, based b' d' =>
    cases horigin
    exact equivalent_based hdisp
  | based b d, indexed (some b') i s d' =>
    cases horigin
    exact equivalent_based_indexed hread hsib hdisp
  | indexed (some b) i s d, based b' d' =>
    cases horigin
    exact .symm _ _ (equivalent_based_indexed hread.symm hsib.symm hdisp.symm)
  | indexed (some b) i s d, indexed (some b') i' s' d' =>
    cases horigin
    obtain ⟨rfl, rfl⟩ := index_eq b.low3_le b.low3_le hread (Option.some.inj hsib)
    exact equivalent_indexed hdisp
  | indexed none i s d, indexed none i' s' d' =>
    obtain ⟨rfl, rfl⟩ := index_eq (by decide) (by decide) hread (Option.some.inj hsib)
    rw [LittleEndian.word32_inj.mp hdisp]
    exact .refl _
  | ripRelative d, ripRelative d' =>
    rw [LittleEndian.word32_inj.mp hdisp]
    exact .refl _
  | ripRelative _, based _ _ | ripRelative _, indexed (some _) _ _ _
  | ripRelative _, indexed none _ _ _ | based _ _, ripRelative _
  | based _ _, indexed none _ _ _ | indexed (some _) _ _ _, ripRelative _
  | indexed (some _) _ _ _, indexed none _ _ _ | indexed none _ _ _, ripRelative _
  | indexed none _ _ _, based _ _ | indexed none _ _ _, indexed (some _) _ _ _ => cases horigin

end Address

/-! ### The coincidences between instructions -/

/-- Two instructions that differ at most in how an address is written. -/
inductive Checked.Alike : Checked → Checked → Prop where
  | lea (dst : Gpr) {a a' : Address} (h : a.Equivalent a') : Alike (.lea dst a) (.lea dst a')
  | load (dst : Gpr) {a a' : Address} (h : a.Equivalent a') : Alike (.load dst a) (.load dst a')
  | store {a a' : Address} (h : a.Equivalent a') (src : Gpr) : Alike (.store a src) (.store a' src)
  | copy (dst src : Gpr) : Alike (.copy dst src) (.copy dst src)
  | constant (dst : Gpr) (value : UInt64) : Alike (.constant dst value) (.constant dst value)

/-- Before equal displacements, the same code has the same SIB byte. -/
theorem Pieces.sib_eq_of_code_eq {opcode : UInt8} {reg : Gpr} {p q : Pieces}
    (h : p.code opcode reg = q.code opcode reg) (hdisp : p.displacement = q.displacement) :
    p.sib = q.sib := by
  simp only [code, hdisp, List.cons.injEq] at h
  have hsib := congrArg List.head? (List.append_cancel_right h.2.2.2)
  rw [Option.head?_toList, Option.head?_toList] at hsib
  exact Option.map_injective (Packed.byte_injective .sib) hsib

/-- The same code is read as the same instruction. -/
theorem Checked.reading_eq_of_code_eq {c d : Checked} (h : c.code = d.code) :
    c.reading = d.reading := by
  have hread := c.decode_code
  rw [h, d.decode_code] at hread
  exact (Prod.mk.inj (Option.some.inj hread)).1.symm

/-- The same code with the same register determines the address, up to coincidences. -/
theorem Address.equivalent_of_code_eq {opcode : UInt8} {reg : Gpr} {a a' : Address}
    (h : a.pieces.code opcode reg = a'.pieces.code opcode reg) (hloc : a.location = a'.location) :
    a.Equivalent a' :=
  equivalent_of_location_eq hloc
    (Pieces.sib_eq_of_code_eq h (congrArg Decode.Location.displacement hloc))

/-- **The exact collision set, for checked instructions.** -/
theorem Checked.code_eq_iff (c d : Checked) : c.code = d.code ↔ c.Alike d := by
  constructor
  · intro h
    have hread := reading_eq_of_code_eq h
    cases c <;> cases d
    case lea.lea dst a dst' a' =>
      injection hread with _ hdst hrm
      injection hrm with hloc
      subst hdst
      exact .lea dst (Address.equivalent_of_code_eq h hloc)
    case load.load dst a dst' a' =>
      injection hread with _ hdst hrm
      injection hrm with hloc
      subst hdst
      exact .load dst (Address.equivalent_of_code_eq h hloc)
    case store.store a src a' src' =>
      injection hread with _ hsrc hrm
      injection hrm with hloc
      subst hsrc
      exact .store (Address.equivalent_of_code_eq h hloc) src
    case copy.copy dst src dst' src' =>
      cases hread
      exact .copy dst src
    case constant.constant dst v dst' v' =>
      cases hread
      exact .constant dst v
    -- Otherwise the opcodes or the kinds of the operands differ.
    all_goals simp [reading] at hread
  · intro h
    cases h with
    | lea dst h => rw [code, code, Address.pieces_eq_of_equivalent h]
    | load dst h => rw [code, code, Address.pieces_eq_of_equivalent h]
    | store h src => rw [code, code, Address.pieces_eq_of_equivalent h]
    | copy dst src => rfl
    | constant dst value => rfl

/-- **The exact collision set of the encoders.** Two instructions that are encoded serialize, and
to the same bytes exactly if they are the same instruction on the same registers and constant,
and on addresses that are equal up to the coincidences. -/
theorem bytes_encode_eq_iff {i j : Instruction} {e f : Encoding} (hi : i.encode = .ok e)
    (hj : j.encode = .ok f) :
    ∃ c d bs cs, i.checked? = some c ∧ j.checked? = some d ∧ e.bytes = .ok bs ∧ f.bytes = .ok cs ∧
      (bs = cs ↔ c.Alike d) := by
  obtain ⟨c, hc, hbs⟩ := Instruction.checked?_of_encode hi
  obtain ⟨d, hd, hcs⟩ := Instruction.checked?_of_encode hj
  exact ⟨c, d, c.code, d.code, hc, hd, hbs, hcs, c.code_eq_iff d⟩

/-- A store at `R12` is the same with `RSP` for an index and without an index. -/
theorem bytes_encode_eq_iff_r12 :
    ∃ e f c d bs cs,
      (Instruction.move (.memory (.place (.indexed (some .r12) .rsp .one 7))) ⟨0⟩).encode = .ok e ∧
      (Instruction.store (.place (.based .r12 7)) ⟨0⟩).encode = .ok f ∧
      e.bytes = .ok bs ∧ f.bytes = .ok cs ∧ (bs = cs ↔ Checked.Alike c d) ∧ bs = cs := by
  obtain ⟨e, he, _⟩ := Instruction.bytes_of_checked? (rfl : Instruction.checked?
    (.move (.memory (.place (.indexed (some .r12) .rsp .one 7))) ⟨0⟩) = some (.store _ .rax))
  obtain ⟨f, hf, _⟩ := Instruction.bytes_of_checked? (rfl : Instruction.checked?
    (.store (.place (.based .r12 7)) ⟨0⟩) = some (.store _ .rax))
  obtain ⟨c, d, bs, cs, hc, hd, hbs, hcs, hiff⟩ := bytes_encode_eq_iff he hf
  refine ⟨e, f, c, d, bs, cs, he, hf, hbs, hcs, hiff, hiff.mpr ?_⟩
  cases hc
  cases hd
  exact .store (.rel _ _ (.unindexed (.inr rfl) 7)) .rax

end MachineCode
