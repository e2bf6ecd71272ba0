import MachineCode.Proofs.AddressLaw

/-!
# No shorter code for the same place in memory

A place in memory can be written in many ways: a SIB byte can be added where none is needed, and a
displacement can be written with more bytes than its value takes. Here the encoder is shown to
choose the shortest way.

What must be written is a matter of the architecture alone. `Decode.Location.leastLength` is the
number of bytes that a place needs behind the ModR/M byte, told from its origin, its index and the
value of its displacement:

* a SIB byte, if there is an index, if there is no origin, or if the base is `RSP` or `R12`;
* four displacement bytes if the origin is no register; behind a register as many as the value
  needs, but at least one behind `RBP` and `R13`.

No code gets by with less, whatever the choice of its fields (`Decode.three_add_leastLength_le`).
The encoder needs no more for the addresses whose displacement and index arrive as they are given
(`Address.leastLength_location`).
-/
namespace MachineCode

/-! ### What a place needs -/

namespace Decode

/-- The fewest displacement bytes for a value behind a base register. -/
def leastDisplacement (base : Gpr) (value : Int) : Nat :=
  if value = 0 ∧ ¬ (base = .rbp ∨ base = .r13) then 0
  else if -128 ≤ value ∧ value < 128 then 1
  else 4

/-- The number of SIB bytes that a base register and an index need. -/
def leastSib (base : Gpr) (index : Option (Gpr × Scale)) : Nat :=
  if index = none ∧ ¬ (base = .rsp ∨ base = .r12) then 0 else 1

namespace Location

/-- The fewest bytes behind the ModR/M byte for a place in memory. -/
def leastLength (l : Location) : Nat :=
  match l.origin with
  | .absent => 1 + 4
  | .next => 4
  | .register g => leastSib g l.index + leastDisplacement g (signed l.displacement)

/-- Two places are the same if they differ at most in how many bytes their displacement is written
with. -/
structure Same (l l' : Location) : Prop where
  origin : l.origin = l'.origin
  index : l.index = l'.index
  value : signed l.displacement = signed l'.displacement

theorem Same.leastLength_eq {l l' : Location} (h : l.Same l') :
    l.leastLength = l'.leastLength := by
  rw [leastLength, leastLength, h.origin, h.index, h.value]

end Location

/-- The bytes are one instruction between a register and a place in memory, the same place as
`l`. -/
def Reaches (bs : List UInt8) (opcode : UInt8) (reg : Gpr) (l : Location) : Prop :=
  ∃ l', decode bs = some (.operands opcode reg (.memory l'), []) ∧ l'.Same l

/-! ### No code needs less -/

/-- The registers for which the rm field announces a SIB byte. -/
theorem gpr_eq_rsp_or_r12_iff (b : Bool) {low : Nat} (hlow : low < 8) :
    (gpr b low = .rsp ∨ gpr b low = .r12) ↔ low = 4 := by
  match low, hlow with
  | 0, _ | 1, _ | 2, _ | 3, _ | 4, _ | 5, _ | 6, _ | 7, _ => cases b <;> decide

/-- The registers whose number means something else in mode `00`. -/
theorem gpr_eq_rbp_or_r13_iff (b : Bool) {low : Nat} (hlow : low < 8) :
    (gpr b low = .rbp ∨ gpr b low = .r13) ↔ low = 5 := by
  match low, hlow with
  | 0, _ | 1, _ | 2, _ | 3, _ | 4, _ | 5, _ | 6, _ | 7, _ => cases b <;> decide

/-- What is made of the next `n` bytes. -/
theorem exists_of_split? {α : Type} {n : Nat} {bs rest : List UInt8} {make : List UInt8 → α} {a : α}
    (h : (do let (disp, rest) ← split? n bs; return (make disp, rest)) = some (a, rest)) :
    ∃ disp, a = make disp ∧ disp.length = n ∧ bs.length = disp.length + rest.length := by
  obtain ⟨⟨disp, left⟩, hsplit, heq⟩ := Option.bind_eq_some_iff.mp h
  cases heq
  unfold split? at hsplit
  split at hsplit
  · next hle =>
    cases hsplit
    exact ⟨bs.take n, rfl, List.length_take_of_le hle, by
      rw [← List.length_append, List.take_append_drop]⟩
  · cases hsplit

/-- A displacement behind a base register has at least the bytes that its value needs, unless the
mode is the one in which the number of the base means something else. -/
theorem leastDisplacement_le {base : Gpr} {mode : Nat} {disp : List UInt8} (hmode : mode < 3)
    (hbase : mode = 0 → ¬ (base = .rbp ∨ base = .r13)) (hlength : disp.length = width mode) :
    leastDisplacement base (signed disp) ≤ disp.length := by
  match mode, hmode with
  | 0, _ =>
    have hnil : disp = [] := List.length_eq_zero_iff.mp hlength
    rw [hnil, leastDisplacement, if_pos ⟨rfl, hbase rfl⟩]
    exact Nat.le_refl 0
  | 1, _ =>
    obtain ⟨v, rfl⟩ := List.length_eq_one_iff.mp hlength
    have hrange : -128 ≤ signed [v] ∧ signed [v] < 128 := by
      have hv : v.toNat < 256 := v.toNat_lt
      rw [signed_byte]
      split <;> omega
    rw [leastDisplacement, if_pos hrange, List.length_singleton]
    split <;> decide
  | 2, _ =>
    rw [hlength, leastDisplacement]
    show _ ≤ 4
    split
    · decide
    · split <;> decide

/-- What the bytes behind the ModR/M byte are: `n` SIB bytes, the displacement and the rest. There
is a base register unless the base field says otherwise, and without a SIB byte there is neither an
index nor a base whose number announces one. -/
theorem location_cases {x b : Bool} {mode rm : Nat} {bs rest : List UInt8} {l : Location}
    (hrm : rm < 8) (h : location x b mode rm bs = some (l, rest)) :
    ∃ n, bs.length = l.displacement.length + rest.length + n ∧
      ((l.origin = .absent ∧ n = 1 ∧ l.displacement.length = 4) ∨
        (l.origin = .next ∧ n = 0 ∧ l.displacement.length = 4) ∨
        ∃ low, low < 8 ∧ l.origin = .register (gpr b low) ∧ ¬ (mode = 0 ∧ low = 5) ∧
          l.displacement.length = width mode ∧ (n = 1 ∨ n = 0 ∧ l.index = none ∧ low ≠ 4)) := by
  unfold location at h
  split at h
  · cases bs with
    | nil => cases h
    | cons sib tail =>
      rw [List.length_cons]
      simp only at h
      split at h
      · obtain ⟨disp, rfl, hdisp, hlength⟩ := exists_of_split? h
        exact ⟨1, congrArg Nat.succ hlength, .inl ⟨rfl, rfl, hdisp⟩⟩
      · next hbase =>
        obtain ⟨disp, rfl, hdisp, hlength⟩ := exists_of_split? h
        exact ⟨1, congrArg Nat.succ hlength,
          .inr (.inr ⟨sib.toNat % 8, by omega, rfl, hbase, hdisp, .inl rfl⟩)⟩
  · next hsib =>
    split at h
    · obtain ⟨disp, rfl, hdisp, hlength⟩ := exists_of_split? h
      exact ⟨0, hlength, .inr (.inl ⟨rfl, rfl, hdisp⟩)⟩
    · next hnext =>
      obtain ⟨disp, rfl, hdisp, hlength⟩ := exists_of_split? h
      exact ⟨0, hlength,
        .inr (.inr ⟨rm, hrm, rfl, hnext, hdisp, .inr ⟨rfl, rfl, hsib⟩⟩)⟩

/-- Whatever the mode and rm fields, a place has at least the bytes that it needs. -/
theorem leastLength_le_of_location {x b : Bool} {mode rm : Nat} {bs rest : List UInt8}
    {l : Location} (hmode : mode < 3) (hrm : rm < 8)
    (h : location x b mode rm bs = some (l, rest)) :
    l.leastLength + rest.length ≤ bs.length := by
  obtain ⟨n, hlength, ⟨horigin, hn, hdisp⟩ | ⟨horigin, hn, hdisp⟩ |
    ⟨low, hlow, horigin, hplain, hdisp, hn⟩⟩ := location_cases hrm h
  · rw [Location.leastLength, horigin]
    show 1 + 4 + _ ≤ _
    omega
  · rw [Location.leastLength, horigin]
    show 4 + _ ≤ _
    omega
  · have hsib : leastSib (gpr b low) l.index ≤ n := by
      unfold leastSib
      rcases hn with hn | ⟨_, hindex, hne⟩
      · rw [hn]
        split <;> decide
      · rw [if_pos ⟨hindex, fun hbase => hne ((gpr_eq_rsp_or_r12_iff b hlow).mp hbase)⟩]
        exact Nat.zero_le n
    have hleast : leastDisplacement (gpr b low) (signed l.displacement) ≤ l.displacement.length :=
      leastDisplacement_le hmode
        (fun hzero hbase => hplain ⟨hzero, (gpr_eq_rbp_or_r13_iff b hlow).mp hbase⟩) hdisp
    rw [Location.leastLength, horigin]
    show leastSib _ _ + leastDisplacement _ _ + _ ≤ _
    omega

theorem leastLength_le_of_operands? {r x b : Bool} {bs rest : List UInt8} {reg : Gpr}
    {l : Location} (h : operands? r x b bs = some (reg, .memory l, rest)) :
    1 + l.leastLength + rest.length ≤ bs.length := by
  cases bs with
  | nil => cases h
  | cons byte tail =>
    have hbyte : byte.toNat < 256 := byte.toNat_lt
    rw [operands?] at h
    split at h
    · cases h
    · next hmode =>
      obtain ⟨⟨l', left⟩, hlocation, heq⟩ := Option.bind_eq_some_iff.mp h
      have hleast : l'.leastLength + left.length ≤ tail.length :=
        leastLength_le_of_location (by omega) (by omega) hlocation
      cases heq
      rw [List.length_cons]
      omega

theorem leastLength_le_of_wide? {r x b : Bool} {bs rest : List UInt8} {opcode : UInt8} {reg : Gpr}
    {l : Location} (h : wide? r x b bs = some (.operands opcode reg (.memory l), rest)) :
    2 + l.leastLength + rest.length ≤ bs.length := by
  cases bs with
  | nil => cases h
  | cons first tail =>
    rw [wide?] at h
    split at h
    · obtain ⟨⟨reg', rm, left⟩, hread, hmade⟩ := Option.bind_eq_some_iff.mp h
      cases rm with
      | register g =>
        simp only at hmade
        split at hmade <;> cases hmade
      | memory l' =>
        cases hmade
        have hleast := leastLength_le_of_operands? hread
        rw [List.length_cons]
        omega
    · split at h
      · obtain ⟨_, _, hmade⟩ := Option.bind_eq_some_iff.mp h
        cases hmade
      · cases h

/-- **No code is shorter than its place needs**: behind the prefix, the opcode and the ModR/M byte
there are at least the bytes that the place needs. -/
theorem three_add_leastLength_le {bs rest : List UInt8} {opcode : UInt8} {reg : Gpr}
    {l : Location} (h : decode bs = some (.operands opcode reg (.memory l), rest)) :
    3 + l.leastLength + rest.length ≤ bs.length := by
  cases bs with
  | nil => cases h
  | cons first tail =>
    rw [decode] at h
    split at h
    · have hleast := leastLength_le_of_wide? h
      rw [List.length_cons]
      omega
    · obtain ⟨_, _, hmade⟩ := Option.bind_eq_some_iff.mp h
      cases hmade

theorem Reaches.three_add_leastLength_le {bs : List UInt8} {opcode : UInt8} {reg : Gpr}
    {l : Location} (h : Reaches bs opcode reg l) : 3 + l.leastLength ≤ bs.length := by
  obtain ⟨l', hdecode, hsame⟩ := h
  rw [← hsame.leastLength_eq]
  exact Decode.three_add_leastLength_le hdecode

end Decode

/-! ### The encoder needs no more -/

namespace Address

open Decode (leastDisplacement leastSib)

/-- The displacements that arrive behind a base register as they are given. -/
def Reachable (disp : UInt32) : Prop :=
  disp ≤ 127 ∨ 257 ≤ disp ∧ disp < 0x80000000

instance (disp : UInt32) : Decidable (Reachable disp) := inferInstanceAs (Decidable (_ ∨ _))

/-- The addresses whose index is not `RSP` and whose displacement, behind a base register, arrives
as it is given. -/
def Compact : Address → Prop
  | based _ d => Reachable d
  | ripRelative _ => True
  | indexed none i _ _ => i ≠ .rsp
  | indexed (some _) i _ d => i ≠ .rsp ∧ Reachable d

instance (a : Address) : Decidable a.Compact :=
  match a with
  | based _ d => inferInstanceAs (Decidable (Reachable d))
  | ripRelative _ => inferInstanceAs (Decidable True)
  | indexed none i _ _ => inferInstanceAs (Decidable (i ≠ .rsp))
  | indexed (some _) i _ d => inferInstanceAs (Decidable (i ≠ .rsp ∧ Reachable d))

def sibLength (a : Address) : Nat := (a.sib?.map Packed.byte).toList.length

theorem sibLength_based (b : Gpr) (d : UInt32) : (based b d).sibLength = leastSib b none := by
  rw [sibLength, sib?, leastSib]
  by_cases hb : b = .rsp ∨ b = .r12
  · rw [if_pos (b.low3_eq_rmSib_iff.mpr hb), if_neg (fun h => h.2 hb)]
    rfl
  · rw [if_neg (fun h => hb (b.low3_eq_rmSib_iff.mp h)), if_pos ⟨rfl, hb⟩]
    rfl

theorem length_baseDisplacement_of_reachable (b : Gpr) {d : UInt32} (hd : Reachable d) :
    (baseDisplacement b d).length = leastDisplacement b (Decode.signed (baseDisplacement b d)) := by
  simp only [Reachable, UInt32.le_iff_toNat_le, UInt32.lt_iff_toNat_lt, UInt32.reduceToNat] at hd
  unfold leastDisplacement
  rcases baseMode_cases b d with ⟨_, hbytes, _, hb⟩ | ⟨_, hbytes, hle, hb⟩ | ⟨_, hbytes, hlt⟩
  · rw [hbytes, if_pos ⟨rfl, hb⟩]
    rfl
  · -- One byte: the value is the displacement, and if it is zero the base needs it.
    have hle : d.toNat ≤ 256 := UInt32.le_iff_toNat_le.mp hle
    have hvalue : Decode.signed [d.toUInt8] = d.toNat := by
      rw [Decode.signed_byte, UInt32.toNat_toUInt8, if_pos (by omega)]
      omega
    have hneeded : ¬ ((d.toNat : Int) = 0 ∧ ¬ (b = .rbp ∨ b = .r13)) := by
      rintro ⟨hzero, hne⟩
      exact hne (hb (UInt32.toNat_inj.mp (Int.ofNat_eq_zero.mp hzero)))
    rw [hbytes, hvalue, if_neg hneeded, if_pos (by omega)]
    rfl
  · have hlt : 256 < d.toNat := UInt32.lt_iff_toNat_lt.mp hlt
    have hvalue : Decode.signed (LittleEndian.word32 d) = d.toNat := by
      rw [Decode.signed_word32, if_pos (by omega)]
    rw [hbytes, hvalue, if_neg (by omega), if_neg (by omega), LittleEndian.length_word32]

/-- **The encoder needs no more bytes than the place does.** -/
theorem leastLength_location {a : Address} (ha : a.Compact) :
    a.location.leastLength = a.sibLength + a.displacementBytes.length := by
  match a, ha with
  | ripRelative d, _ => rfl
  | indexed none i s d, _ => rfl
  | based b d, ha =>
    rw [sibLength_based]
    show _ = _ + (baseDisplacement b d).length
    rw [length_baseDisplacement_of_reachable b ha]
    rfl
  | indexed (some b) i s d, ⟨hi, hd⟩ =>
    show leastSib b (if i = .rsp then none else some (i, s)) + _ =
      1 + (baseDisplacement b d).length
    rw [length_baseDisplacement_of_reachable b hd, if_neg hi]
    rfl

theorem length_code (opcode : UInt8) (reg : Gpr) (a : Address) :
    (a.pieces.code opcode reg).length = 3 + (a.sibLength + a.displacementBytes.length) := by
  simp only [Pieces.code, pieces, sibLength, List.length_cons, List.length_append]
  omega

end Address

/-- **Code for memory is as short as possible.** An instruction with a compact address that was
encoded serializes to code that reads back as its register and the place of its address, and no
code that a processor reads as the same instruction with the same register and the same place is
shorter: not with another mode, nor with or without a SIB byte, nor with a displacement of another
length. -/
theorem encode_shortest {i : Instruction} {a : Address} {e : Encoding}
    (hrm : i.rm? = some (.memory (.place a))) (ha : a.Compact) (he : i.encode = .ok e) :
    ∃ code opcode reg, e.bytes = .ok code ∧ code.length = e.length ∧ i.reg.gpr? = some reg ∧
      Decode.decode code = some (.operands opcode reg (.memory a.location), []) ∧
      ∀ bs, Decode.Reaches bs opcode reg a.location → code.length ≤ bs.length := by
  obtain ⟨c, hc, _⟩ := Instruction.checked?_of_encode he
  obtain ⟨e', he', hbytes, hlength⟩ := Instruction.bytes_of_checked? hc
  cases he.symm.trans he'
  obtain ⟨opcode, reg, hreg, hcode, hreading⟩ := Instruction.exists_code_of_rm? hrm hc
  refine ⟨c.code, opcode, reg, hbytes, hlength.symm, hreg, ?_, ?_⟩
  · rw [c.decode_code, hreading]
  · intro bs hbs
    calc c.code.length
        = 3 + a.location.leastLength := by
          rw [hcode, a.length_code, Address.leastLength_location ha]
      _ ≤ bs.length := hbs.three_add_leastLength_le

/-- A store at `R13` and twice `R12` takes five bytes: the index needs a SIB byte, and the base a
displacement. -/
theorem encode_shortest_store_r13 :
    Address.Compact (.indexed (some .r13) .r12 .two 0) ∧
    ∃ e code opcode reg,
      (Instruction.store (.place (.indexed (some .r13) .r12 .two 0)) ⟨9⟩).encode = .ok e ∧
      e.bytes = .ok code ∧ code.length = 5 ∧ Reg.gpr? ⟨9⟩ = some reg ∧
      Decode.decode code = some (.operands opcode reg
        (.memory (Address.location (.indexed (some .r13) .r12 .two 0))), []) ∧
      ∀ bs, Decode.Reaches bs opcode reg (Address.location (.indexed (some .r13) .r12 .two 0)) →
        code.length ≤ bs.length := by
  have hcompact : Address.Compact (.indexed (some .r13) .r12 .two 0) := by decide
  obtain ⟨e, he, _, hfive⟩ := Instruction.bytes_of_checked? (rfl : Instruction.checked?
    (.store (.place (.indexed (some .r13) .r12 .two 0)) ⟨9⟩) = some (.store _ .r9))
  obtain ⟨code, opcode, reg, hbytes, hlength, hreg, hdecode, hleast⟩ :=
    encode_shortest rfl hcompact he
  exact ⟨hcompact, e, code, opcode, reg, he, hbytes, hlength.trans hfive, hreg, hdecode, hleast⟩

/-- The same store with a displacement of four bytes. -/
example : Decode.Reaches [0x4f, 0x89, 0x8c, 0x65, 0, 0, 0, 0] 0x89 .r9
    (Address.location (.indexed (some .r13) .r12 .two 0)) :=
  ⟨_, rfl, rfl, rfl, rfl⟩

end MachineCode
