import Mathlib.Algebra.Order.Ring.Int
import MachineCode.Proofs.Emission
import MachineCode.Proofs.LittleEndian
import MachineCode.Proofs.OperandChecks

/-!
# Words are written alike everywhere

A 32-bit word is written into a short byte string, at the end of a buffer, into the code of an
assembler and as the displacement of an address; a 64-bit word into a short byte string and as the
constant of an instruction. All of these come down to `LittleEndian.word32` and
`LittleEndian.word64`. What is stated here does not mention them: whatever bytes the writers write
are the same ones everywhere (`Writes32`, `Writes64`), and they are **the only bytes that are worth
the word** (`words_written_alike`).
-/
namespace MachineCode

/-! ### Byte strings -/

/-- A byte string is refused for its length exactly if it is longer than its capacity. -/
theorem ShortBytes.exists_ofBytes_eq_error_iff {c : Capacity} (bs : List UInt8) :
    (∃ f, (ofBytes bs : Except Fault (ShortBytes c)) = .error f ∧ f.kind = .capacityExceeded) ↔
      c.limit < bs.length := by
  constructor
  · rintro ⟨f, hf, -⟩
    by_contra hle
    rw [ofBytes_of_le (Nat.not_lt.mp hle)] at hf
    cases hf
  · intro hlt
    exact ⟨_, ofBytes_of_lt hlt, rfl⟩

/-! ### Displacements -/

namespace Address

theorem baseDisplacement_of_lt (base : Gpr) {disp : UInt32} (h : 256 < disp) :
    baseDisplacement base disp = LittleEndian.word32 disp := by
  have hzero : disp ≠ 0 := by
    rintro rfl
    exact absurd h (by decide)
  rw [baseDisplacement, if_neg hzero, if_neg (UInt32.not_le.mpr h)]

namespace Request

def disp : Request → UInt32
  | ofBase _ d | ofNext d | ofIndex _ _ d | ofBaseIndex _ _ _ d => d

/-- A base register is asked for. -/
def HasBase : Request → Prop
  | ofBase _ _ | ofBaseIndex _ _ _ _ => True
  | ofNext _ | ofIndex _ _ _ => False

/-- The displacement takes four bytes if there is no base register or if it is above 256. -/
theorem displacement_of_build {q : Request} {a : Address} (h : q.build = .ok a)
    (hq : q.HasBase → 256 < q.disp) :
    ∃ s, a.displacement = .ok s ∧ s.bytes = LittleEndian.word32 q.disp := by
  obtain ⟨s, hs, hbytes⟩ := a.exists_displacement_eq_ok
  refine ⟨s, hs, hbytes.trans ?_⟩
  rw [build_eq_ok_iff.mp h] at hq ⊢
  match a with
  | based b d => exact baseDisplacement_of_lt b (hq trivial)
  | .ripRelative d => rfl
  | indexed none i s d => rfl
  | indexed (some b) i s d => exact baseDisplacement_of_lt b (hq trivial)

end Request

end Address

/-! ### The writers -/

/-- Wherever the 32-bit word `v` is written, these bytes are. -/
structure Writes32 (v : UInt32) (bs : List UInt8) : Prop where
  string : ∀ c : Capacity, 4 ≤ c.limit →
    ∃ s : ShortBytes c, ShortBytes.ofUInt32 v = .ok s ∧ s.bytes = bs
  /-- A buffer gets them at its end, unless twice its new length is not possible. -/
  buffer : ∀ b : Buffer,
    (∃ e, b.appendWord v = .ok e ∧ e.bytes = b.bytes ++ bs) ∨
      b.appendWord v = .error .storeSize ∧ Buffer.maxCapacity < 2 * (b.length + 4)
  /-- An assembler gets them at the end of its code, unless there is no room in its buffer. -/
  assembler : ∀ a : Assembler,
    (∃ e, a.word v = .ok e ∧ e.bytes = a.bytes ++ bs) ∨
      a.word v = .error .storeSize ∧ Buffer.maxCapacity < 2 * (a.length + 4)
  /-- An address with this displacement has them, if it has no base register or if the
  displacement is above 256. -/
  displacement : ∀ (q : Address.Request) (a : Address), q.build = .ok a → q.disp = v →
    (q.HasBase → 256 < v) → ∃ s, a.displacement = .ok s ∧ s.bytes = bs

/-- Wherever the 64-bit word `w` is written, these bytes are. -/
structure Writes64 (w : UInt64) (bs : List UInt8) : Prop where
  string : ∀ c : Capacity, 8 ≤ c.limit →
    ∃ s : ShortBytes c, ShortBytes.ofUInt64 w = .ok s ∧ s.bytes = bs
  /-- The move of a constant is two bytes and the constant. -/
  immediate : ∀ dst : Reg, dst.Valid →
    ∃ e code, (Instruction.constant dst w).encode = .ok e ∧ e.bytes = .ok code ∧
      code.length = 10 ∧ (code.drop 2).take 8 = bs

theorem writes32_word32 (v : UInt32) : Writes32 v (LittleEndian.word32 v) where
  string c h := ShortBytes.exists_ofUInt32_eq_ok h v
  buffer b := by
    cases hlacks : b.lacks 4 with
    | false =>
      obtain ⟨e, he⟩ : ∃ e, b.appendWord v = .ok e := Buffer.exists_place_eq_ok hlacks
      exact .inl ⟨e, he, Buffer.bytes_appendWord he⟩
    | true => exact .inr ⟨Buffer.place_of_lacks hlacks, Buffer.lt_of_lacks hlacks⟩
  assembler a := by
    have hadds := a.adds_word v
    generalize a.word v = x at hadds
    cases hadds with
    | added _ h => exact .inl ⟨_, rfl, h.bytes⟩
    | noRoom hlacks => exact .inr ⟨rfl, Buffer.lt_of_lacks hlacks⟩
  displacement q a h hv hq := by
    subst hv
    exact Address.Request.displacement_of_build h hq

theorem writes64_word64 (w : UInt64) : Writes64 w (LittleEndian.word64 w) where
  string c h := ShortBytes.exists_ofUInt64_eq_ok h w
  immediate dst h := by
    obtain ⟨g, hg⟩ := Option.isSome_iff_exists.mp (dst.isSome_gpr?_iff.mpr h)
    have hchecked : (Instruction.constant dst w).checked? = some (.constant g w) := by
      rw [Instruction.checked?, hg, Option.map_some]
    obtain ⟨e, he, hbytes, -⟩ := Instruction.bytes_of_checked? hchecked
    exact ⟨e, _, he, hbytes, rfl, rfl⟩

/-- There are no two ways to write a word. -/
theorem writes32_iff {v : UInt32} {bs : List UInt8} :
    Writes32 v bs ↔ bs = LittleEndian.word32 v := by
  constructor
  · intro h
    obtain ⟨s, hs, hbytes⟩ := h.string .displacement (Nat.le_refl 4)
    obtain ⟨t, ht, hword⟩ := (writes32_word32 v).string .displacement (Nat.le_refl 4)
    rw [hs] at ht
    cases ht
    rw [← hbytes, hword]
  · rintro rfl
    exact writes32_word32 v

theorem writes64_iff {w : UInt64} {bs : List UInt8} :
    Writes64 w bs ↔ bs = LittleEndian.word64 w := by
  constructor
  · intro h
    obtain ⟨s, hs, hbytes⟩ := h.string .immediate (Nat.le_refl 8)
    obtain ⟨t, ht, hword⟩ := (writes64_word64 w).string .immediate (Nat.le_refl 8)
    rw [hs] at ht
    cases ht
    rw [← hbytes, hword]
  · rintro rfl
    exact writes64_word64 w

/-- **Words are written alike everywhere, and can be read back.** For each 32-bit word there are
four bytes, and for each 64-bit word eight, that every writer writes, and they are the only ones
that are worth the word, least significant byte first. A byte string of a word is refused for its
length exactly if its capacity is below four or eight. -/
theorem words_written_alike :
    (∀ v : UInt32, (∃ b0 b1 b2 b3, Writes32 v [b0, b1, b2, b3]) ∧
      ∀ b0 b1 b2 b3 : UInt8, Writes32 v [b0, b1, b2, b3] ↔
        b0.toNat + 256 * b1.toNat + 256 ^ 2 * b2.toNat + 256 ^ 3 * b3.toNat = v.toNat) ∧
    (∀ w : UInt64, (∃ b0 b1 b2 b3 b4 b5 b6 b7, Writes64 w [b0, b1, b2, b3, b4, b5, b6, b7]) ∧
      ∀ b0 b1 b2 b3 b4 b5 b6 b7 : UInt8, Writes64 w [b0, b1, b2, b3, b4, b5, b6, b7] ↔
        b0.toNat + 256 * b1.toNat + 256 ^ 2 * b2.toNat + 256 ^ 3 * b3.toNat +
          256 ^ 4 * b4.toNat + 256 ^ 5 * b5.toNat + 256 ^ 6 * b6.toNat + 256 ^ 7 * b7.toNat =
            w.toNat) ∧
    ∀ c : Capacity,
      (∀ v, (∃ f, (ShortBytes.ofUInt32 v : Except Fault (ShortBytes c)) = .error f ∧
        f.kind = .capacityExceeded) ↔ c.limit < 4) ∧
      ∀ w, (∃ f, (ShortBytes.ofUInt64 w : Except Fault (ShortBytes c)) = .error f ∧
        f.kind = .capacityExceeded) ↔ c.limit < 8 := by
  refine ⟨fun v => ⟨⟨_, _, _, _, writes32_word32 v⟩, ?_⟩,
    fun w => ⟨⟨_, _, _, _, _, _, _, _, writes64_word64 w⟩, ?_⟩, ?_⟩
  · intro b0 b1 b2 b3
    have hlength : [b0, b1, b2, b3].length = (LittleEndian.word32 v).length := rfl
    rw [writes32_iff, ← LittleEndian.value_inj hlength, LittleEndian.value_word32]
    simp only [LittleEndian.value_cons, LittleEndian.value_nil]
    omega
  · intro b0 b1 b2 b3 b4 b5 b6 b7
    have hlength : [b0, b1, b2, b3, b4, b5, b6, b7].length = (LittleEndian.word64 w).length := rfl
    rw [writes64_iff, ← LittleEndian.value_inj hlength, LittleEndian.value_word64]
    simp only [LittleEndian.value_cons, LittleEndian.value_nil]
    omega
  · intro c
    exact ⟨fun v => ShortBytes.exists_ofBytes_eq_error_iff (LittleEndian.word32 v),
      fun w => ShortBytes.exists_ofBytes_eq_error_iff (LittleEndian.word64 w)⟩

end MachineCode
