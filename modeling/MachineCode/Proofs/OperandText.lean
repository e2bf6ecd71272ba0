import MachineCode.Proofs.Numerals
import MachineCode.Proofs.OperandChecks

/-!
# Operands are read back from their texts

The text of a memory operand is a sum in brackets. Its terms are registers, the next instruction,
displacements and scaled indexes (`Term`), and which terms there are tells the form of the operand.
No term has a space in it, so the text is cut into its terms at the spaces, and a scaled index into
register and factor at the star. That gives a reader of operands, and every text of an operand is
**read back as that operand** (`Operand.read_text`). No two operands share a text, whatever their
forms, registers and numbers are.
-/
namespace MachineCode

/-! ### Registers -/

def Gpr.ofName? (cs : List Char) : Option Gpr := all.find? fun g => g.name.toList = cs

namespace Gpr

theorem ofName?_name (g : Gpr) : ofName? g.name.toList = some g := by
  cases g <;> rfl

theorem space_notMem_name (g : Gpr) : ' ' ∉ g.name.toList := by
  cases g <;> decide

theorem star_notMem_name (g : Gpr) : '*' ∉ g.name.toList := by
  cases g <;> decide

theorem name_ne_rip (g : Gpr) : g.name.toList ≠ "RIP".toList := by
  cases g <;> decide

/-- The names of registers begin with an `R`. -/
theorem exists_name_eq (g : Gpr) : ∃ cs, g.name.toList = 'R' :: cs := by
  cases g <;> exact ⟨_, rfl⟩

/-- Numerals are no names. -/
theorem ofName?_zero (cs : List Char) : ofName? ('0' :: cs) = none := by
  rw [ofName?, List.find?_eq_none]
  intro g _
  obtain ⟨ds, hname⟩ := g.exists_name_eq
  simp [hname]

end Gpr

namespace Reg

/-- The register that a text names, by its name or by its number. -/
def read (cs : List Char) : Reg :=
  match Gpr.ofName? cs with
  | some g => g.toReg
  | none => ⟨UInt8.ofNat (Numeral.value 10 (cs.drop 6).dropLast)⟩

/-- The name of a register number that names none. -/
theorem toList_name_of_gpr? {r : Reg} (h : r.gpr? = none) :
    r.name.toList = "Reg64(".toList ++ (Numeral.digits 10 r.encoding.toNat ++ [')']) := by
  simp [name, h, Numeral.decimal]

/-- A register is **read back from its name**, also if it is only a number. -/
theorem read_name (r : Reg) : read r.name.toList = r := by
  cases h : r.gpr? with
  | some g =>
    rw [eq_toReg_of_gpr? h, name, gpr?_toReg, read, Gpr.ofName?_name]
  | none =>
    rw [toList_name_of_gpr? h]
    have hnumber : Gpr.ofName? ("Reg64(".toList ++ (Numeral.digits 10 r.encoding.toNat ++ [')'])) =
        none := by
      simp [Gpr.ofName?, Gpr.all, Gpr.name]
    have hdigits : ("Reg64(".toList ++ (Numeral.digits 10 r.encoding.toNat ++ [')'])).drop 6 =
        Numeral.digits 10 r.encoding.toNat ++ [')'] := List.drop_left' rfl
    rw [read, hnumber, hdigits, List.dropLast_concat, Numeral.value_digits (by decide) (by decide),
      UInt8.ofNat_toNat]

/-- The names of registers begin with an `R`. -/
theorem exists_name_eq (r : Reg) : ∃ cs, r.name.toList = 'R' :: cs := by
  cases h : r.gpr? with
  | some g =>
    rw [name, h]
    exact g.exists_name_eq
  | none => exact ⟨_, toList_name_of_gpr? h⟩

end Reg

/-! ### Terms -/

/-- The number behind `0x`. -/
def Numeral.ofHex? : List Char → Option Nat
  | '0' :: 'x' :: ds => some (value 16 ds)
  | _ => none

theorem Numeral.ofHex?_hex (n : Nat) : ofHex? (hex n).toList = some n := by
  rw [toList_hex, ofHex?, value_digits (by decide) (by decide)]

/-- What is no digit does not occur in a number, if it is not the `x`. -/
theorem Numeral.notMem_hex {c : Char} (hdigit : Hex.digitValue? c = none) (hx : c ≠ 'x') (n : Nat) :
    c ∉ (hex n).toList := by
  intro hmem
  rw [toList_hex] at hmem
  rcases List.mem_cons.mp hmem with rfl | hmem
  · cases hdigit
  · rcases List.mem_cons.mp hmem with rfl | hmem
    · exact hx rfl
    · have hsome := isDigit_of_mem (by decide) (by decide) hmem
      rw [hdigit] at hsome
      cases hsome

/-- What is added up in an address. -/
inductive Term where
  | register (g : Gpr)
  | next
  | displacement (d : UInt32)
  | scaled (index : Gpr) (scale : Scale)
  deriving DecidableEq, Repr

namespace Term

def chars : Term → List Char
  | register g => g.name.toList
  | next => "RIP".toList
  | displacement d => (Numeral.hex d.toNat).toList
  | scaled i s => (Address.indexText i s).toList

/-- The term with a given text. -/
def read? (cs : List Char) : Option Term :=
  match cs.splitOn '*' with
  | [word] =>
    if word = "RIP".toList then some next
    else (Gpr.ofName? word).map register <|>
      (Numeral.ofHex? word).map fun n => displacement (UInt32.ofNat n)
  | [index, factor] => do
    let i ← Gpr.ofName? index
    let s ← (Scale.ofFactor (UInt8.ofNat (← Numeral.ofHex? factor))).toOption
    return scaled i s
  | _ => none

theorem toList_indexText (i : Gpr) (s : Scale) :
    (Address.indexText i s).toList =
      ['*'].intercalate [i.name.toList, (Numeral.hex s.factor.toNat).toList] := by
  simp [Address.indexText]

/-- A term is **read back from its text**. -/
theorem read?_chars (t : Term) : read? t.chars = some t := by
  have hstar : ∀ n, '*' ∉ (Numeral.hex n).toList := Numeral.notMem_hex rfl (by decide)
  -- A word without a star is a whole term.
  have hword : ∀ cs : List Char, '*' ∉ cs → cs.splitOn '*' = [cs] := by
    intro cs hcs
    simpa using List.splitOn_intercalate '*' (List.forall_mem_singleton.mpr hcs)
      (List.cons_ne_nil cs [])
  cases t with
  | register g =>
    rw [chars, read?, hword _ g.star_notMem_name]
    simp only [if_neg g.name_ne_rip, g.ofName?_name]
    rfl
  | next => rfl
  | displacement d =>
    rw [chars, read?, hword _ (hstar _)]
    have hrip : (Numeral.hex d.toNat).toList ≠ "RIP".toList := by simp [Numeral.toList_hex]
    have hname : Gpr.ofName? (Numeral.hex d.toNat).toList = none := by
      rw [Numeral.toList_hex, Gpr.ofName?_zero]
    simp only [if_neg hrip, hname, Numeral.ofHex?_hex, Option.map_some, UInt32.ofNat_toNat]
    rfl
  | scaled i s =>
    have hcut := List.splitOn_intercalate '*'
      (List.forall_mem_cons.mpr ⟨i.star_notMem_name,
        List.forall_mem_singleton.mpr (hstar s.factor.toNat)⟩) (List.cons_ne_nil _ _)
    have hscale : Scale.ofFactor s.factor = .ok s := Scale.ofFactor_eq_ok_iff.mpr rfl
    rw [chars, read?, toList_indexText, hcut]
    simp only [i.ofName?_name, Numeral.ofHex?_hex, UInt8.ofNat_toNat, Option.bind_eq_bind,
      Option.bind_some, hscale]
    rfl

theorem space_notMem_chars (t : Term) : ' ' ∉ t.chars := by
  have hspace : ∀ n, ' ' ∉ (Numeral.hex n).toList := Numeral.notMem_hex rfl (by decide)
  cases t with
  | register g => exact g.space_notMem_name
  | next => decide
  | displacement d => exact hspace _
  | scaled i s =>
    rw [chars, Address.indexText, String.toList_append, String.toList_append, List.mem_append,
      List.mem_append, not_or, not_or]
    exact ⟨⟨i.space_notMem_name, by decide⟩, hspace _⟩

end Term

/-! ### Memory operands -/

namespace Memory

/-- The terms of a memory operand; there are none if it was never built. -/
def terms : Memory → List Term
  | unset => []
  | place (.based b d) => [.register b, .displacement d]
  | place (.ripRelative d) => [.next, .displacement d]
  | place (.indexed none i s d) => [.displacement d, .scaled i s]
  | place (.indexed (some b) i s d) => [.register b, .displacement d, .scaled i s]

/-- The memory operand with the given terms. -/
def ofTerms : List Term → Memory
  | [.register b, .displacement d] => place (.based b d)
  | [.next, .displacement d] => place (.ripRelative d)
  | [.displacement d, .scaled i s] => place (.indexed none i s d)
  | [.register b, .displacement d, .scaled i s] => place (.indexed (some b) i s d)
  | _ => unset

/-- The terms tell **which form** an operand has. -/
theorem ofTerms_terms (m : Memory) : ofTerms m.terms = m := by
  match m with
  | unset | place (.based _ _) | place (.ripRelative _) | place (.indexed none _ _ _)
  | place (.indexed (some _) _ _ _) => rfl

/-- The words of the text between the brackets. -/
def words (m : Memory) : List (List Char) :=
  if m = unset then ["invalid".toList] else (m.terms.map Term.chars).intersperse ['+']

theorem toList_text (m : Memory) :
    m.text.toList = '[' :: ([' '].intercalate m.words ++ [']']) := by
  match m with
  | unset => rfl
  | place (.based _ _) | place (.ripRelative _) | place (.indexed none _ _ _)
  | place (.indexed (some _) _ _ _) =>
    simp [text, address?, Address.text, words, terms, Term.chars]

theorem space_notMem_of_mem_words (m : Memory) : ∀ w ∈ m.words, ' ' ∉ w := by
  match m with
  | unset => decide
  | place (.based _ _) | place (.ripRelative _) | place (.indexed none _ _ _)
  | place (.indexed (some _) _ _ _) =>
    simp [words, terms, Term.space_notMem_chars]

/-- Between the terms there is nothing that could be taken for one. -/
theorem filterMap_words (m : Memory) : m.words.filterMap Term.read? = m.terms := by
  have hplus : Term.read? ['+'] = none := rfl
  match m with
  | unset => rfl
  | place (.based _ _) | place (.ripRelative _) | place (.indexed none _ _ _)
  | place (.indexed (some _) _ _ _) =>
    simp [words, terms, Term.read?_chars, hplus]

/-- The memory operand whose text has these characters between its brackets. -/
def read (cs : List Char) : Memory := ofTerms ((cs.splitOn ' ').filterMap Term.read?)

theorem read_words (m : Memory) : read ([' '].intercalate m.words) = m := by
  have hne : m.words ≠ [] := by
    match m with
    | unset | place (.based _ _) | place (.ripRelative _) | place (.indexed none _ _ _)
    | place (.indexed (some _) _ _ _) => exact List.cons_ne_nil _ _
  rw [read, List.splitOn_intercalate ' ' m.space_notMem_of_mem_words hne, filterMap_words,
    ofTerms_terms]

end Memory

/-! ### The parts of an operand -/

/-- An address is known from its form and its parts. -/
theorem Address.eq_of_parts {a a' : Address} (hform : a.form = a'.form) (hbase : a.base? = a'.base?)
    (hindex : a.index? = a'.index?) (hscale : a.scale = a'.scale) (hdisp : a.disp = a'.disp) :
    a = a' := by
  cases a with
  | based b d =>
    cases a' with
    | based b' d' =>
      cases hbase
      exact congrArg (based b) hdisp
    | ripRelative | indexed => cases hform
  | ripRelative d =>
    cases a' with
    | ripRelative d' => exact congrArg ripRelative hdisp
    | based | indexed => cases hform
  | indexed b i s d =>
    cases a' with
    | indexed b' i' s' d' =>
      cases hindex
      obtain rfl : b = b' := hbase
      obtain rfl : s = s' := hscale
      exact congrArg (indexed b i s) hdisp
    | based | ripRelative => cases hform

theorem Memory.eq_of_parts {m m' : Memory} (hform : m.form? = m'.form?) (hbase : m.base? = m'.base?)
    (hindex : m.index? = m'.index?) (hscale : m.scale = m'.scale) (hdisp : m.disp = m'.disp) :
    m = m' := by
  cases m with
  | unset =>
    cases m' with
    | unset => rfl
    | place a' => cases hform
  | place a =>
    cases m' with
    | unset => cases hform
    | place a' =>
      rw [Address.eq_of_parts (Option.some.inj hform) hbase hindex hscale hdisp]

namespace Operand

/-- The same register, or memory operands of the same form with the same base, index, scale and
displacement. -/
def Agrees : Operand → Operand → Prop
  | register r, register r' => r = r'
  | memory m, memory m' =>
    m.form? = m'.form? ∧ m.base? = m'.base? ∧ m.index? = m'.index? ∧ m.scale = m'.scale ∧
      m.disp = m'.disp
  | register _, memory _ | memory _, register _ => False

/-- Operands are equal if they agree in all their parts. -/
theorem eq_iff_agrees (o o' : Operand) : o = o' ↔ o.Agrees o' := by
  constructor
  · rintro rfl
    cases o with
    | register r => exact rfl
    | memory m => exact ⟨rfl, rfl, rfl, rfl, rfl⟩
  · intro h
    cases o with
    | register r =>
      cases o' with
      | register r' => exact congrArg register h
      | memory m' => exact h.elim
    | memory m =>
      cases o' with
      | register r' => exact h.elim
      | memory m' =>
        obtain ⟨hform, hbase, hindex, hscale, hdisp⟩ := h
        exact congrArg memory (Memory.eq_of_parts hform hbase hindex hscale hdisp)

/-! ### Texts of operands -/

/-- The operand with a given text: a memory operand if it begins with a bracket. -/
def read : List Char → Operand
  | '[' :: cs => memory (.read cs.dropLast)
  | cs => register (.read cs)

/-- An operand is **read back from its text**. -/
theorem read_text (o : Operand) : read o.text.toList = o := by
  cases o with
  | register r =>
    obtain ⟨cs, hname⟩ := r.exists_name_eq
    have hread := r.read_name
    rw [text]
    rw [hname] at hread ⊢
    exact congrArg register hread
  | memory m =>
    rw [text, Memory.toList_text, read, List.dropLast_concat, Memory.read_words]

/-- **The texts of operands are unambiguous.** Whatever two operands are, registers or numbers that
name none, memory operands of any form or such as were never built, they have the same text exactly
if they are equal, that is, if they agree in all their parts. Memory operands that builders made
have the same text exactly if they were asked for alike. -/
theorem text_eq_iff :
    (∀ o o' : Operand, (o.text = o'.text ↔ o = o') ∧ (o = o' ↔ o.Agrees o')) ∧
    ∀ (q q' : Address.Request) (a a' : Address), q.build = .ok a → q'.build = .ok a' →
      ((memory (.place a)).text = (memory (.place a')).text ↔ q = q') := by
  have htext : ∀ o o' : Operand, o.text = o'.text ↔ o = o' := by
    intro o o'
    refine ⟨fun h => ?_, congrArg text⟩
    rw [← read_text o, h, read_text]
  refine ⟨fun o o' => ⟨htext o o', eq_iff_agrees o o'⟩, ?_⟩
  intro q q' a a' hq hq'
  rw [htext]
  constructor
  · intro h
    cases h
    rw [Address.Request.build_eq_ok_iff.mp hq, Address.Request.build_eq_ok_iff.mp hq']
  · rintro rfl
    rw [hq] at hq'
    cases hq'
    rfl

end Operand

end MachineCode
