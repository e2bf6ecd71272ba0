import MachineCode.Text

/-!
# Numerals and hexadecimal texts are unambiguous

A text of lower-case digits is read as some bytes **exactly if it is the text of these bytes**
(`Hex.decode?_eq_some_iff`). So every byte list has one text, two byte lists never share theirs, and
whatever is not a text of that form is refused.

The digits of a number are read back by the rule by which they are read on paper: each digit adds to
`base` times what stands before it. So a number is **known from its digits** in every base from two
to sixteen (`Numeral.value_digits`), however many there are. Digits are told apart from anything
else in a text, because they are characters that `Hex.digitValue?` knows (`Numeral.isDigit_of_mem`).
-/
namespace MachineCode

namespace Hex

/-! ### Digits -/

theorem digitValue?_digitChar : ∀ d < 16, digitValue? (Nat.digitChar d) = some d := by
  decide

/-- Of the characters up to `f` only the sixteen digits have a value. -/
theorem digitChar_of_digitValue? : ∀ n < 103,
    (digitValue? (Char.ofNat n)).all (fun d => d < 16 ∧ Nat.digitChar d = Char.ofNat n) = true := by
  decide

theorem toNat_lt_of_digitValue? {c : Char} {d : Nat} (h : digitValue? c = some d) :
    c.toNat < 103 := by
  have hle : c ≤ 'f' := by
    rw [digitValue?] at h
    split at h
    · next hc => exact Char.le_trans hc.2 (by decide)
    · split at h
      · next hc => exact hc.2
      · cases h
  exact Nat.lt_succ_of_le (UInt32.le_iff_toNat_le.mp (Char.le_def.mp hle))

theorem eq_digitChar_of_digitValue? {c : Char} {d : Nat} (h : digitValue? c = some d) :
    d < 16 ∧ Nat.digitChar d = c := by
  have hall := digitChar_of_digitValue? c.toNat (toNat_lt_of_digitValue? h)
  rw [Char.ofNat_toNat, h, Option.all_some, decide_eq_true_eq] at hall
  exact hall

/-! ### Whole texts -/

theorem decode?_encode (bs : List UInt8) : decode? (encode bs) = some bs := by
  induction bs with
  | nil => rfl
  | cons b bs ih =>
    have hb := b.toNat_lt
    have hhigh := digitValue?_digitChar (b.toNat / 16) (by omega)
    have hlow := digitValue?_digitChar (b.toNat % 16) (by omega)
    have hvalue : 16 * (b.toNat / 16) + b.toNat % 16 = b.toNat := Nat.div_add_mod _ _
    show decode? (Nat.digitChar (b.toNat / 16) :: Nat.digitChar (b.toNat % 16) :: encode bs) = _
    rw [decode?, hhigh, hlow, ih]
    show some (UInt8.ofNat (16 * (b.toNat / 16) + b.toNat % 16) :: bs) = _
    rw [hvalue, UInt8.ofNat_toNat]

theorem eq_encode_of_decode? {digits : List Char} {bs : List UInt8}
    (h : decode? digits = some bs) : digits = encode bs := by
  -- The induction follows the reader, which takes two digits at a time.
  induction digits using decode?.induct generalizing bs with
  | case1 =>
    cases h
    rfl
  | case2 c => cases h
  | case3 high low rest ih =>
    rw [decode?] at h
    obtain ⟨d, hd, h⟩ := Option.bind_eq_some_iff.mp h
    obtain ⟨d', hd', h⟩ := Option.bind_eq_some_iff.mp h
    obtain ⟨tail, htail, h⟩ := Option.bind_eq_some_iff.mp h
    cases h
    obtain ⟨hlt, rfl⟩ := eq_digitChar_of_digitValue? hd
    obtain ⟨hlt', rfl⟩ := eq_digitChar_of_digitValue? hd'
    have hbyte : (UInt8.ofNat (16 * d + d')).toNat = 16 * d + d' := by
      rw [UInt8.toNat_ofNat']
      omega
    have hhigh : (16 * d + d') / 16 = d := by omega
    have hlow : (16 * d + d') % 16 = d' := by omega
    show _ = digitPair _ ++ encode tail
    rw [digitPair, hbyte, hhigh, hlow, ih htail]
    rfl

/-- A text reads as bytes **exactly if it is their text**. -/
theorem decode?_eq_some_iff {digits : List Char} {bs : List UInt8} :
    decode? digits = some bs ↔ digits = encode bs := by
  constructor
  · exact eq_encode_of_decode?
  · rintro rfl
    exact decode?_encode bs

end Hex

/-! ### Numbers -/

namespace Numeral

/-- The value of a digit. What is no digit counts as zero. -/
def digitValue (c : Char) : Nat := (Hex.digitValue? c).getD 0

/-- The number that digits, most significant first, stand for. -/
def value (base : Nat) (cs : List Char) : Nat :=
  cs.foldl (fun v c => base * v + digitValue c) 0

theorem digitValue_digitChar {d : Nat} (h : d < 16) : digitValue (Nat.digitChar d) = d := by
  rw [digitValue, Hex.digitValue?_digitChar d h, Option.getD_some]

theorem value_concat (base : Nat) (cs : List Char) (c : Char) :
    value base (cs ++ [c]) = base * value base cs + digitValue c := by
  rw [value, List.foldl_append]
  rfl

variable {base : Nat}

/-- A number is **known from its digits**. -/
theorem value_digits (htwo : 2 ≤ base) (hle : base ≤ 16) (n : Nat) :
    value base (digits base n) = n := by
  fun_induction digits base n with
  | case1 n h ih =>
    have hlast : n % base < 16 := Nat.lt_of_lt_of_le (Nat.mod_lt n (by omega)) hle
    rw [value_concat, ih, digitValue_digitChar hlast, Nat.div_add_mod]
  | case2 n h =>
    show base * 0 + digitValue (Nat.digitChar n) = n
    rw [digitValue_digitChar (by omega), Nat.mul_zero, Nat.zero_add]

/-- Numerals are made of digits. -/
theorem isDigit_of_mem (htwo : 2 ≤ base) (hle : base ≤ 16) {n : Nat} {c : Char}
    (h : c ∈ digits base n) : (Hex.digitValue? c).isSome := by
  fun_induction digits base n with
  | case1 n hbase ih =>
    rcases List.mem_append.mp h with hmem | hmem
    · exact ih hmem
    · have hlast : n % base < 16 := Nat.lt_of_lt_of_le (Nat.mod_lt n (by omega)) hle
      rw [List.mem_singleton.mp hmem, Hex.digitValue?_digitChar _ hlast, Option.isSome_some]
  | case2 n hbase =>
    rw [List.mem_singleton.mp h, Hex.digitValue?_digitChar n (by omega), Option.isSome_some]

theorem toList_hex (n : Nat) : (hex n).toList = '0' :: 'x' :: digits 16 n := by
  simp [hex]

end Numeral

end MachineCode
