import MachineCode.Proofs.Fields
import MachineCode.Rex
import MachineCode.Run

/-!
# Fields are independent over whole runs

The fields of a ModR/M or SIB byte and the flags of a REX prefix share one byte, and each setter
clears and sets its own bits of it. What one setter does is said once, field by field
(`Packed.get_attempt`) and bit by bit (`Rex.bit_set`). From that it follows for whole runs, refused
calls among them, that a field holds **the last value it was given** (`Packed.get_attempts`,
`Rex.get_setAll`), and that setters of different fields commute, because a byte is known from its
fields.
-/
namespace MachineCode

/-! ### ModR/M and SIB bytes -/

namespace Packed

variable {l : Layout}

/-- A call of a setter. -/
structure Setting where
  slot : Slot
  value : UInt8
  deriving DecidableEq, Repr

/-- The value that a call gives to a field, if it is one for that field and is accepted. -/
def Setting.given? (s : Slot) (c : Setting) : Option UInt8 :=
  if c.slot = s ∧ c.value ≤ s.max then some c.value else none

/-- The byte after a call of a setter, unless the call is refused. -/
def perform (p : Packed l) (c : Setting) : Except Fault (Packed l) := p.set c.slot c.value

theorem exists_perform_eq_ok_iff (p : Packed l) (c : Setting) :
    (∃ q, p.perform c = .ok q) ↔ c.value ≤ c.slot.max := by
  by_cases hle : c.value ≤ c.slot.max
  · exact iff_of_true ⟨_, set_of_le p hle⟩ hle
  · refine iff_of_false ?_ hle
    rintro ⟨q, hq⟩
    rw [perform, set_of_not_le p hle] at hq
    cases hq

/-- **All that a setter does**: it gives its value to its field, if it is accepted. -/
theorem get_attempt (p : Packed l) (c : Setting) (s : Slot) :
    (attempt perform p c).get s = (c.given? s).getD (p.get s) := by
  by_cases hle : c.value ≤ c.slot.max
  · have hset : p.perform c = .ok _ := set_of_le p hle
    rw [attempt_of_ok hset, get_set hset, Setting.given?]
    by_cases hs : s = c.slot
    · subst hs
      rw [if_pos rfl, if_pos ⟨rfl, hle⟩, Option.getD_some]
    · rw [if_neg hs, if_neg (fun h => hs h.1.symm), Option.getD_none]
  · have hset : p.perform c = .error _ := set_of_not_le p hle
    have hnone : c.given? s = none := by
      refine if_neg ?_
      rintro ⟨rfl, hs⟩
      exact hle hs
    rw [attempt_of_error hset, hnone, Option.getD_none]

/-- After a run of setters a field holds the last value it was given. -/
theorem get_attempts (p : Packed l) (cs : List Setting) (s : Slot) :
    (attempts perform p cs).get s = lastGiven (Setting.given? s) (p.get s) cs :=
  view_foldl (fun q => q.get s) (fun q c => get_attempt q c s) p cs

/-- A byte is known from its fields. -/
theorem eq_of_get_eq {p q : Packed l} (h : ∀ s, p.get s = q.get s) : p = q := by
  refine byte_injective l (UInt8.toNat_inj.mp ?_)
  rw [p.toNat_byte, q.toNat_byte, h, h, h]

/-- Setters of different fields **commute**, whether they are accepted or refused. -/
theorem attempt_comm (p : Packed l) {c d : Setting} (h : c.slot ≠ d.slot) :
    attempt perform (attempt perform p c) d = attempt perform (attempt perform p d) c := by
  refine eq_of_get_eq fun s => ?_
  simp only [get_attempt]
  by_cases hc : c.slot = s
  · have hd : d.given? s = none := if_neg (fun hd => h (hc.trans hd.1.symm))
    rw [hd, Option.getD_none, Option.getD_none]
  · have hc : c.given? s = none := if_neg (fun hs => hc hs.1)
    rw [hc, Option.getD_none, Option.getD_none]

/-- Fields that are all given make a byte exactly if each of them fits, and then it has these
fields. -/
theorem ofFields_eq_ok_iff {high middle low : UInt8} {p : Packed l} :
    ofFields high middle low = .ok p ↔
      (high ≤ 3 ∧ middle ≤ 7 ∧ low ≤ 7) ∧
        p.get .high = high ∧ p.get .middle = middle ∧ p.get .low = low := by
  constructor
  · intro h
    obtain ⟨q, hq, h⟩ := bind_eq_ok.mp h
    obtain ⟨r, hr, h⟩ := bind_eq_ok.mp h
    refine ⟨⟨?_, ?_, ?_⟩, ?_, ?_, ?_⟩
    · exact (exists_perform_eq_ok_iff zero ⟨.high, high⟩).mp ⟨q, hq⟩
    · exact (exists_perform_eq_ok_iff q ⟨.middle, middle⟩).mp ⟨r, hr⟩
    · exact (exists_perform_eq_ok_iff r ⟨.low, low⟩).mp ⟨p, h⟩
    · rw [get_set h, get_set hr, get_set hq]
      rfl
    · rw [get_set h, get_set hr]
      rfl
    · rw [get_set h]
      rfl
  · rintro ⟨⟨hh, hm, hl⟩, rfl, rfl, rfl⟩
    rw [ofFields_eq_join hh hm hl, join, ← toNat_byte, UInt8.ofNat_toNat]

end Packed

/-! ### REX prefixes -/

namespace Rex

/-- The position of the bit of a flag. -/
def Flag.position : Flag → Nat
  | w => 3
  | r => 2
  | x => 1
  | b => 0

theorem Flag.position_lt (f : Flag) : f.position < 4 := by
  cases f <;> decide

theorem Flag.position_inj {f g : Flag} : f.position = g.position ↔ f = g := by
  cases f <;> cases g <;> decide

theorem Flag.toBitVec_mask (f : Flag) : f.mask.toBitVec = BitVec.twoPow 8 f.position := by
  cases f <;> rfl

/-- A bit of the prefix. -/
def bit (p : Rex) (i : Nat) : Bool := p.byte.toBitVec.getLsbD i

theorem get_eq_bit (p : Rex) (f : Flag) : p.get f = p.bit f.position := by
  have hmask : BitVec.twoPow 8 f.position ≠ 0#8 := by cases f <;> decide
  have hclear : p.byte &&& f.mask = 0 ↔ p.bit f.position = false := by
    rw [← UInt8.toBitVec_inj, UInt8.toBitVec_and, f.toBitVec_mask, BitVec.and_twoPow, bit]
    cases p.byte.toBitVec.getLsbD f.position <;> simp [hmask]
  rw [get, Bool.eq_iff_iff, bne_iff_ne, ne_eq, hclear, Bool.not_eq_false]

/-- **All that a setter does**: it sets or clears the bit of its flag. -/
theorem bit_set (p : Rex) (f : Flag) (on : Bool) {i : Nat} (hlt : i < 8) :
    (p.set f on).bit i = if i = f.position then on else p.bit i := by
  rw [bit, bit, set]
  by_cases hi : i = f.position
  · subst hi
    cases on <;> simp [f.toBitVec_mask, hlt]
  · cases on <;> simp [f.toBitVec_mask, hlt, hi]

theorem get_set (p : Rex) (f : Flag) (on : Bool) (g : Flag) :
    (p.set f on).get g = if g = f then on else p.get g := by
  have hlt : g.position < 8 := Nat.lt_of_lt_of_le g.position_lt (by decide)
  simp only [get_eq_bit, bit_set p f on hlt, Flag.position_inj]

theorem eq_of_bit_eq {p q : Rex} (h : ∀ i < 8, p.bit i = q.bit i) : p = q := by
  have hbyte : p.byte = q.byte := by
    rw [← UInt8.toBitVec_inj]
    exact BitVec.eq_of_getLsbD_eq h
  exact congrArg Rex.mk hbyte

/-- Setters of different flags **commute**. -/
theorem set_comm (p : Rex) {f g : Flag} (h : f ≠ g) (on on' : Bool) :
    (p.set f on).set g on' = (p.set g on').set f on := by
  refine eq_of_bit_eq fun i hi => ?_
  simp only [bit_set _ _ _ hi]
  by_cases hf : i = f.position
  · have hg : i ≠ g.position := fun hg => h (Flag.position_inj.mp (hf.symm.trans hg))
    rw [if_neg hg, if_pos hf, if_pos hf]
  · rw [if_neg hf, if_neg hf]

/-- The high half of a prefix is known from its bits. -/
theorem high_eq_of_bit_eq {p q : Rex} (h : ∀ i, 4 ≤ i → i < 8 → p.bit i = q.bit i) :
    p.byte.toNat / 16 = q.byte.toNat / 16 := by
  have hshift : p.byte.toBitVec >>> 4 = q.byte.toBitVec >>> 4 := by
    refine BitVec.eq_of_getLsbD_eq fun i hi => ?_
    rw [BitVec.getLsbD_ushiftRight, BitVec.getLsbD_ushiftRight]
    by_cases hlt : 4 + i < 8
    · exact h (4 + i) (Nat.le_add_right 4 i) hlt
    · rw [BitVec.getLsbD_of_ge _ _ (by omega), BitVec.getLsbD_of_ge _ _ (by omega)]
  have hnat := congrArg BitVec.toNat hshift
  rw [BitVec.toNat_ushiftRight, BitVec.toNat_ushiftRight, Nat.shiftRight_eq_div_pow,
    Nat.shiftRight_eq_div_pow] at hnat
  exact hnat

theorem high_set (p : Rex) (f : Flag) (on : Bool) :
    (p.set f on).byte.toNat / 16 = p.byte.toNat / 16 := by
  refine high_eq_of_bit_eq fun i hge hlt => ?_
  have hlow := f.position_lt
  rw [bit_set p f on hlt, if_neg (by omega)]

/-! ### Runs of setters of flags -/

/-- A call of a setter. -/
structure Setting where
  flag : Flag
  on : Bool
  deriving DecidableEq, Repr

/-- What a call gives to a flag, if it is one for that flag. -/
def Setting.given? (f : Flag) (c : Setting) : Option Bool :=
  if c.flag = f then some c.on else none

def setAll (p : Rex) (cs : List Setting) : Rex := cs.foldl (fun p c => p.set c.flag c.on) p

/-- After a run of setters a flag is as it was last set. -/
theorem get_setAll (p : Rex) (cs : List Setting) (f : Flag) :
    (p.setAll cs).get f = lastGiven (Setting.given? f) (p.get f) cs := by
  refine view_foldl (fun q => q.get f) (fun q c => ?_) p cs
  rw [get_set, Setting.given?]
  by_cases hf : c.flag = f
  · rw [if_pos hf, if_pos hf.symm, Option.getD_some]
  · rw [if_neg hf, if_neg (Ne.symm hf), Option.getD_none]

theorem high_setAll (p : Rex) (cs : List Setting) :
    (p.setAll cs).byte.toNat / 16 = p.byte.toNat / 16 := by
  induction cs generalizing p with
  | nil => rfl
  | cons c cs ih => exact (ih (p.set c.flag c.on)).trans (high_set p c.flag c.on)

/-- The byte is one of a REX prefix. -/
def IsPrefix (p : Rex) : Prop := 0x40 ≤ p.byte ∧ p.byte ≤ 0x4f

instance (p : Rex) : Decidable p.IsPrefix :=
  inferInstanceAs (Decidable (0x40 ≤ p.byte ∧ p.byte ≤ 0x4f))

theorem isPrefix_iff (p : Rex) : p.IsPrefix ↔ p.byte.toNat / 16 = 4 := by
  have hfirst : 0x40 ≤ p.byte ↔ 64 ≤ p.byte.toNat := Iff.rfl
  have hlast : p.byte ≤ 0x4f ↔ p.byte.toNat ≤ 79 := Iff.rfl
  rw [IsPrefix, hfirst, hlast]
  omega

theorem toNat_and_high (raw : UInt8) : (raw &&& 0xf0).toNat = 16 * (raw.toNat / 16) := by
  have hshift : raw.toBitVec &&& 0xf0 = raw.toBitVec >>> 4 <<< 4 := by
    ext i hi
    match i, hi with
    | 0, _ | 1, _ | 2, _ | 3, _ | 4, _ | 5, _ | 6, _ | 7, _ => simp
  have hlt := raw.toNat_lt
  have hnat := congrArg BitVec.toNat hshift
  rw [BitVec.toNat_shiftLeft, BitVec.toNat_ushiftRight, Nat.shiftRight_eq_div_pow,
    Nat.shiftLeft_eq] at hnat
  have hand : (raw &&& 0xf0).toNat = raw.toNat / 16 * 16 % 256 := hnat
  omega

theorem ofByte_eq_ok_iff {raw : UInt8} {p : Rex} :
    ofByte raw = .ok p ↔ p = ⟨raw⟩ ∧ p.IsPrefix := by
  have hcheck : raw &&& 0xf0 = bare.byte ↔ raw.toNat / 16 = 4 := by
    have hbare : bare.byte.toNat = 64 := rfl
    rw [← UInt8.toNat_inj, toNat_and_high, hbare]
    omega
  rw [ofByte]
  by_cases hraw : raw &&& 0xf0 = bare.byte
  · rw [if_pos hraw, Except.ok.injEq, eq_comm]
    refine (and_iff_left_of_imp ?_).symm
    rintro rfl
    exact (isPrefix_iff _).mpr (hcheck.mp hraw)
  · rw [if_neg hraw]
    refine iff_of_false nofun ?_
    rintro ⟨rfl, hkeeps⟩
    exact hraw (hcheck.mpr ((isPrefix_iff _).mp hkeeps))

/-- What is known of a prefix `q` that a run of setters leads to. -/
structure Holds (p : Rex) (cs : List Setting) (q : Rex) : Prop where
  /-- Each flag is as it was last set, or as it was. -/
  flag : ∀ f, q.get f = lastGiven (Setting.given? f) (p.get f) cs
  /-- The high half is as it was. -/
  high : q.byte.toNat / 16 = p.byte.toNat / 16

end Rex

/-- What is known of a byte `q` that a run of setters leads to. -/
structure Packed.Holds {l : Layout} (p : Packed l) (cs : List Setting) (q : Packed l) : Prop where
  /-- Each field holds the last value that it was given and that was accepted, or what it held. -/
  field : ∀ s, q.get s = lastGiven (Setting.given? s) (p.get s) cs
  /-- The byte is worth its fields. -/
  byte : q.byte.toNat =
    64 * (q.get .high).toNat + 8 * (q.get .middle).toNat + (q.get .low).toNat

/-- **The fields of a byte are independent.** Whatever run of setters is called on a ModR/M or SIB
byte, also with values that are refused, each field holds the last accepted value it was given,
or what it held, and the byte is worth its fields. A setter is accepted exactly if the value is at
most 3 in the highest field or 7 in the others, and setters of different fields commute. A byte
that is made from fields has these fields. The same holds for the flags of a REX prefix, whose
setters are always accepted and leave the high half alone, so that a prefix that was made from
flags or from a byte that was checked stays one. -/
theorem fields_independent :
    (∀ (l : Layout) (p : Packed l) (cs : List Packed.Setting),
      p.Holds cs (attempts Packed.perform p cs)) ∧
    (∀ (l : Layout) (p : Packed l) (c : Packed.Setting),
      (∃ q, p.perform c = .ok q) ↔ c.value.toNat ≤ if c.slot = .high then 3 else 7) ∧
    (∀ (l : Layout) (p : Packed l) (c d : Packed.Setting), c.slot ≠ d.slot →
      attempts Packed.perform p [c, d] = attempts Packed.perform p [d, c]) ∧
    (∀ (l : Layout) (high middle low : UInt8) (p : Packed l),
      Packed.ofFields high middle low = .ok p ↔
        (high ≤ 3 ∧ middle ≤ 7 ∧ low ≤ 7) ∧
          p.get .high = high ∧ p.get .middle = middle ∧ p.get .low = low) ∧
    (∀ (p : Rex) (cs : List Rex.Setting),
      p.Holds cs (p.setAll cs) ∧ (p.IsPrefix → (p.setAll cs).IsPrefix)) ∧
    (∀ (p : Rex) (c d : Rex.Setting), c.flag ≠ d.flag → p.setAll [c, d] = p.setAll [d, c]) ∧
    (∀ w r x b : Bool, (Rex.ofFlags w r x b).IsPrefix ∧
      (Rex.ofFlags w r x b).get .w = w ∧ (Rex.ofFlags w r x b).get .r = r ∧
        (Rex.ofFlags w r x b).get .x = x ∧ (Rex.ofFlags w r x b).get .b = b) ∧
    (∀ (raw : UInt8) (p : Rex), Rex.ofByte raw = .ok p ↔ p = ⟨raw⟩ ∧ p.IsPrefix) := by
  have hkeeps : ∀ (p : Rex) (cs : List Rex.Setting), p.IsPrefix → (p.setAll cs).IsPrefix := by
    intro p cs hp
    rw [Rex.isPrefix_iff, p.high_setAll cs, ← Rex.isPrefix_iff]
    exact hp
  refine ⟨?_, ?_, ?_, ?_, ?_, ?_, ?_, ?_⟩
  · intro l p cs
    exact ⟨p.get_attempts cs, Packed.toNat_byte _⟩
  · intro l p ⟨slot, value⟩
    rw [p.exists_perform_eq_ok_iff]
    cases slot <;> rfl
  · intro l p c d h
    exact p.attempt_comm h
  · intro l high middle low p
    exact Packed.ofFields_eq_ok_iff
  · intro p cs
    exact ⟨⟨p.get_setAll cs, p.high_setAll cs⟩, hkeeps p cs⟩
  · intro p c d h
    exact p.set_comm h c.on d.on
  · intro w r x b
    -- A prefix is made from its flags by four setters.
    have hget := Rex.bare.get_setAll [⟨.w, w⟩, ⟨.r, r⟩, ⟨.x, x⟩, ⟨.b, b⟩]
    refine ⟨hkeeps Rex.bare [⟨.w, w⟩, ⟨.r, r⟩, ⟨.x, x⟩, ⟨.b, b⟩] (by decide), ?_⟩
    exact ⟨hget .w, hget .r, hget .x, hget .b⟩
  · intro raw p
    exact Rex.ofByte_eq_ok_iff

end MachineCode
