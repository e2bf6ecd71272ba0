import Mathlib.Algebra.Order.Ring.Int
import Mathlib.Data.List.Induction
import Mathlib.Data.Nat.Cast.Basic
import MachineCode.Options
import MachineCode.Run

/-!
# Trees of options

Options are derived one from another, so a tree of them grows from the defaults. What a change does
is said once (`Options.change_eq_ok_iff`): it is accepted or not whatever the options are, and then
it replaces one of them. Everything about trees follows from that. The options at a node hold the
last values that were given on the way to it (`Options.getElem?_of_path`), whatever else is derived
from them leaves them as they are (`Options.prefix_attempts`), and no chain of changes leads to an
alignment that is no power of two (`Options.Derivable.sound`).

Only a change of the alignment can be refused. It is decided on the bits of a word, and exactly one
of them is set in the powers of two (`Options.countOnes_eq_one_iff`). The sign bit alone is such a
word as well, which is why the sign is looked at first.
-/
namespace MachineCode.Options

/-! ### Powers of two -/

theorem countOnes_eq_zero_iff (n : Nat) : countOnes n = 0 ↔ n = 0 := by
  fun_induction countOnes n with
  | case1 => exact iff_of_true rfl rfl
  | case2 n hn ih => omega

/-- Exactly one binary digit is set in **the powers of two**. -/
theorem countOnes_eq_one_iff (n : Nat) : countOnes n = 1 ↔ ∃ k, n = 2 ^ k := by
  fun_induction countOnes n with
  | case1 =>
    refine iff_of_false Nat.zero_ne_one ?_
    rintro ⟨k, hk⟩
    exact absurd hk.symm (Nat.pos_iff_ne_zero.mp (Nat.two_pow_pos k))
  | case2 n hn ih =>
    have hzero := countOnes_eq_zero_iff (n / 2)
    constructor
    · intro hone
      rcases Nat.mod_two_eq_zero_or_one n with heven | hodd
      · obtain ⟨k, hk⟩ := ih.mp (by omega)
        exact ⟨k + 1, by rw [pow_succ]; omega⟩
      · exact ⟨0, by rw [pow_zero]; omega⟩
    · rintro ⟨k, hk⟩
      rcases Nat.eq_zero_or_pos k with rfl | hpos
      · rw [pow_zero] at hk
        omega
      · obtain ⟨j, rfl⟩ := Nat.exists_eq_succ_of_ne_zero (Nat.pos_iff_ne_zero.mp hpos)
        rw [Nat.succ_eq_add_one, pow_succ] at hk
        have hhalf := ih.mpr ⟨j, by omega⟩
        omega

/-- A word passes the check of its bits and its sign exactly if it is a power of two. -/
theorem alignment_accepted_iff (n : Int64) :
    ¬ (n ≤ 0 ∨ countOnes n.toUInt64.toNat ≠ 1) ↔ ∃ k ≤ 62, n.toInt = 2 ^ k := by
  have hbits : 0 < n.toInt → n.toUInt64.toNat = n.toInt.toNat := by
    intro hpos
    exact Int64.toNat_toUInt64_of_le (Int64.le_iff_toInt_le.mpr (Int.le_of_lt hpos))
  rw [not_or, not_not, Int64.le_iff_toInt_le, Int64.toInt_zero, Int.not_le, countOnes_eq_one_iff]
  constructor
  · rintro ⟨hpos, k, hk⟩
    rw [hbits hpos] at hk
    have hvalue : n.toInt = 2 ^ k := by
      rw [← Int.toNat_of_nonneg (Int.le_of_lt hpos), hk, Nat.cast_pow, Nat.cast_ofNat]
    refine ⟨k, ?_, hvalue⟩
    -- A larger power has no place in a signed word.
    have hlt := n.toInt_lt
    rw [hvalue] at hlt
    have hexp := (pow_lt_pow_iff_right₀ (by decide : (1 : Int) < 2)).mp hlt
    omega
  · rintro ⟨k, -, hk⟩
    have hpos : 0 < n.toInt := by
      rw [hk]
      exact pow_pos (by decide) k
    refine ⟨hpos, k, ?_⟩
    rw [hbits hpos, hk]
    rfl

/-! ### What a change does -/

/-- The options that can be changed. -/
inductive Field where
  | room | alignment | nopPadding
  deriving DecidableEq, Repr

namespace Change

def field : Change → Field
  | .room _ => .room
  | .alignment _ => .alignment
  | .nopPadding _ => .nopPadding

/-- The room that a change gives; fewer than none count as none. -/
def room? : Change → Option Nat
  | .room n => some n.toInt.toNat
  | .alignment _ | .nopPadding _ => none

def alignment? : Change → Option Nat
  | .alignment n => some n.toInt.toNat
  | .room _ | .nopPadding _ => none

def nopPadding? : Change → Option Bool
  | .nopPadding on => some on
  | .room _ | .alignment _ => none

/-- A change is accepted unless it asks for an alignment that is no power of two. -/
def Accepted : Change → Prop
  | .alignment n => ∃ k ≤ 62, n.toInt = 2 ^ k
  | .room _ | .nopPadding _ => True

end Change

/-- The options with the value that a change gives, and the others as they are. -/
def updated (o : Options) (c : Change) : Options where
  room := c.room?.getD o.room
  alignment := c.alignment?.getD o.alignment
  nopPadding := c.nopPadding?.getD o.nopPadding

/-- **All that a change does**: if it is accepted, it replaces its option and no other. -/
theorem change_eq_ok_iff {o o' : Options} {c : Change} :
    o.change c = .ok o' ↔ c.Accepted ∧ o' = o.updated c := by
  cases c with
  | room n | nopPadding on =>
    rw [change, Except.ok.injEq, eq_comm]
    exact (and_iff_right trivial).symm
  | alignment n =>
    rw [change, Change.Accepted, ← alignment_accepted_iff]
    by_cases hn : n ≤ 0 ∨ countOnes n.toUInt64.toNat ≠ 1
    · rw [if_pos hn]
      exact iff_of_false nofun (fun h => h.1 hn)
    · rw [if_neg hn, Except.ok.injEq, eq_comm]
      exact (and_iff_right hn).symm

theorem exists_change_eq_ok_iff (o : Options) (c : Change) :
    (∃ o', o.change c = .ok o') ↔ c.Accepted := by
  constructor
  · rintro ⟨o', h⟩
    exact (change_eq_ok_iff.mp h).1
  · intro hc
    exact ⟨o.updated c, change_eq_ok_iff.mpr ⟨hc, rfl⟩⟩

/-- Changes of different options **commute**, also when one of them is refused. -/
theorem change_comm (o : Options) {c c' : Change} (h : c.field ≠ c'.field) :
    (do (← o.change c).change c') = (do (← o.change c').change c) := by
  match c, c' with
  | .room _, .nopPadding _ | .nopPadding _, .room _ => rfl
  | .room _, .alignment n | .nopPadding _, .alignment n
  | .alignment n, .room _ | .alignment n, .nopPadding _ =>
    by_cases hn : n ≤ 0 ∨ countOnes n.toUInt64.toNat ≠ 1
    · simp only [change, if_pos hn, ok_bind, error_bind]
    · simp only [change, if_neg hn, ok_bind]
  | .room _, .room _ | .alignment _, .alignment _ | .nopPadding _, .nopPadding _ =>
    exact absurd rfl h

/-! ### Chains of changes -/

/-- The options to which a chain of changes leads, none of which is refused. -/
inductive Derivable : Options → Prop where
  | default : Derivable {}
  | change {o o' : Options} {c : Change} (h : Derivable o) (hc : o.change c = .ok o') :
      Derivable o'

/-- The alignment is a power of two and the room a number that is not negative, both of them in
the range of a signed word. -/
structure Sound (o : Options) : Prop where
  alignment : ∃ k ≤ 62, o.alignment = 2 ^ k
  room : ∃ n : Int64, 0 ≤ n ∧ n.toInt = o.room

/-- A change keeps options sound. -/
theorem Sound.change {o o' : Options} {c : Change} (ho : o.Sound) (h : o.change c = .ok o') :
    o'.Sound := by
  obtain ⟨hc, rfl⟩ := change_eq_ok_iff.mp h
  cases c with
  | room n =>
    refine ⟨ho.alignment, ?_⟩
    rcases Int.le_total 0 n.toInt with hn | hn
    · exact ⟨n, Int64.le_iff_toInt_le.mpr hn, (Int.toNat_of_nonneg hn).symm⟩
    · refine ⟨0, Int64.le_refl 0, ?_⟩
      show (0 : Int) = (n.toInt.toNat : Int)
      rw [Int.toNat_of_nonpos hn, Nat.cast_zero]
  | alignment n =>
    obtain ⟨k, hk, hn⟩ := hc
    refine ⟨⟨k, hk, ?_⟩, ho.room⟩
    show n.toInt.toNat = 2 ^ k
    rw [hn]
    rfl
  | nopPadding on => exact ⟨ho.alignment, ho.room⟩

/-- **No chain of changes leads to unsound options.** -/
theorem Derivable.sound {o : Options} (h : o.Derivable) : o.Sound := by
  induction h with
  | default => exact ⟨⟨0, Nat.zero_le _, rfl⟩, ⟨1024, by decide, rfl⟩⟩
  | change _ hc ih => exact ih.change hc

/-- The options that hold the last values that changes give, and the defaults where they give
none. -/
def given (cs : List Change) : Options where
  room := lastGiven Change.room? 1024 cs
  alignment := lastGiven Change.alignment? 1 cs
  nopPadding := lastGiven Change.nopPadding? true cs

/-- A change of what was given gives one value more. -/
theorem updated_given (cs : List Change) (c : Change) :
    (given cs).updated c = given (cs ++ [c]) := by
  simp only [updated, given, lastGiven_concat]

/-! ### Trees -/

/-- Every entry is derived from the defaults or from an entry before it. -/
def Rooted (ds : List Derivation) : Prop := ∀ i (h : i < ds.length), ds[i].parent ≤ i

instance (ds : List Derivation) : Decidable (Rooted ds) :=
  inferInstanceAs (Decidable (∀ i (h : i < ds.length), ds[i].parent ≤ i))

/-- The changes on the way from the defaults, which are at position 0, to the options at a
position. -/
inductive Path (ds : List Derivation) : Nat → List Change → Prop where
  | root : Path ds 0 []
  | child {i : Nat} {d : Derivation} {cs : List Change} (hd : ds[i]? = some d)
      (hparent : d.parent ≤ i) (h : Path ds d.parent cs) : Path ds (i + 1) (cs ++ [d.change])

theorem exists_path {ds : List Derivation} (hds : Rooted ds) {i : Nat} (hi : i ≤ ds.length) :
    ∃ cs, Path ds i cs := by
  induction i using Nat.strongRecOn with
  | ind i ih =>
    rcases Nat.eq_zero_or_pos i with rfl | hpos
    · exact ⟨[], .root⟩
    · obtain ⟨j, rfl⟩ := Nat.exists_eq_succ_of_ne_zero (Nat.pos_iff_ne_zero.mp hpos)
      have hparent := hds j hi
      obtain ⟨cs, hcs⟩ := ih ds[j].parent (by omega) (by omega)
      exact ⟨_, .child (List.getElem?_eq_getElem hi) hparent hcs⟩

/-- One entry more: it adds the options that its change makes of those of its parent. -/
theorem derive_concat_eq_ok_iff {ds : List Derivation} {d : Derivation} {os' : List Options} :
    derive (ds ++ [d]) = .ok os' ↔
      ∃ os o, derive ds = .ok os ∧ (pick os d.parent).change d.change = .ok o ∧
        os' = os ++ [o] := by
  have hnext : derive (ds ++ [d]) = derive ds >>= fun os => deriveNext os d := by
    rw [derive, List.foldlM_append]
    simp only [List.foldlM_cons, List.foldlM_nil, bind_pure]
    rfl
  rw [hnext, bind_eq_ok]
  constructor
  · rintro ⟨os, hos, h⟩
    obtain ⟨o, ho, h⟩ := bind_eq_ok.mp h
    cases h
    exact ⟨os, o, hos, ho, rfl⟩
  · rintro ⟨os, o, hos, ho, rfl⟩
    exact ⟨os, hos, bind_eq_ok.mpr ⟨o, ho, rfl⟩⟩

/-- A tree is made **exactly if each of its changes is accepted**. -/
theorem exists_derive_eq_ok_iff (ds : List Derivation) :
    (∃ os, derive ds = .ok os) ↔ ∀ d ∈ ds, d.change.Accepted := by
  induction ds using List.reverseRecOn with
  | nil => exact iff_of_true ⟨_, rfl⟩ (fun d hd => absurd hd List.not_mem_nil)
  | append_singleton ds d ih =>
    simp only [derive_concat_eq_ok_iff, List.forall_mem_append, List.forall_mem_singleton, ← ih]
    constructor
    · rintro ⟨_, os, o, hos, ho, -⟩
      exact ⟨⟨os, hos⟩, (change_eq_ok_iff.mp ho).1⟩
    · rintro ⟨⟨os, hos⟩, hd⟩
      obtain ⟨o, ho⟩ := (exists_change_eq_ok_iff (pick os d.parent) d.change).mpr hd
      exact ⟨_, os, o, hos, ho, rfl⟩

variable {ds : List Derivation} {os : List Options}

theorem length_derive (h : derive ds = .ok os) : os.length = ds.length + 1 := by
  induction ds using List.reverseRecOn generalizing os with
  | nil =>
    cases h
    rfl
  | append_singleton ds d ih =>
    obtain ⟨os, o, hos, -, rfl⟩ := derive_concat_eq_ok_iff.mp h
    rw [List.length_append, List.length_append, ih hos]
    rfl

theorem derivable_pick (h : ∀ o ∈ os, o.Derivable) (i : Nat) : (pick os i).Derivable := by
  rw [pick, List.getD_eq_getElem?_getD]
  cases hi : os[i]? with
  | none => exact .default
  | some o => exact h o (List.mem_of_getElem? hi)

/-- The options in a tree are derivable. -/
theorem derivable_of_derive (h : derive ds = .ok os) : ∀ o ∈ os, o.Derivable := by
  induction ds using List.reverseRecOn generalizing os with
  | nil =>
    cases h
    exact List.forall_mem_singleton.mpr .default
  | append_singleton ds d ih =>
    obtain ⟨os, o, hos, ho, rfl⟩ := derive_concat_eq_ok_iff.mp h
    refine List.forall_mem_append.mpr ⟨ih hos, List.forall_mem_singleton.mpr ?_⟩
    exact .change (derivable_pick (ih hos) d.parent) ho

/-- The options of an entry are made from those at the position of its parent. -/
theorem change_of_derive (h : derive ds = .ok os) {i : Nat} {d : Derivation}
    (hd : ds[i]? = some d) (hparent : d.parent ≤ i) :
    ∃ p o, os[d.parent]? = some p ∧ p.change d.change = .ok o ∧ os[i + 1]? = some o := by
  induction ds using List.reverseRecOn generalizing os with
  | nil => cases hd
  | append_singleton ds d' ih =>
    obtain ⟨os, o, hos, ho, rfl⟩ := derive_concat_eq_ok_iff.mp h
    have hlen := length_derive hos
    rcases Nat.lt_or_ge i ds.length with hlt | hge
    · -- An earlier entry: its options and its parent's are where they were.
      rw [List.getElem?_append_left hlt] at hd
      rw [List.getElem?_append_left (by omega), List.getElem?_append_left (by omega)]
      exact ih hos hd
    · obtain ⟨hlast, -⟩ := List.getElem?_eq_some_iff.mp hd
      rw [List.length_append, List.length_singleton] at hlast
      obtain rfl : i = ds.length := by omega
      rw [List.getElem?_concat_length] at hd
      cases hd
      have hp : d.parent < os.length := by omega
      have hpick : pick os d.parent = os[d.parent] := by
        rw [pick, List.getD_eq_getElem?_getD, List.getElem?_eq_getElem hp, Option.getD_some]
      refine ⟨os[d.parent], o, ?_, hpick ▸ ho, ?_⟩
      · rw [List.getElem?_append_left hp, List.getElem?_eq_getElem hp]
      · rw [← hlen, List.getElem?_concat_length]

theorem getElem?_zero_of_derive (h : derive ds = .ok os) : os[0]? = some ({} : Options) := by
  induction ds using List.reverseRecOn generalizing os with
  | nil =>
    cases h
    rfl
  | append_singleton ds d ih =>
    obtain ⟨os, o, hos, -, rfl⟩ := derive_concat_eq_ok_iff.mp h
    have hlen := length_derive hos
    rw [List.getElem?_append_left (by omega), ih hos]

/-- **The last value wins**: the options at a position hold what was given last on the way to it,
and the defaults for the rest. -/
theorem getElem?_of_path (h : derive ds = .ok os) {i : Nat} {cs : List Change}
    (hpath : Path ds i cs) : os[i]? = some (given cs) := by
  induction hpath with
  | root => exact getElem?_zero_of_derive h
  | child hd hparent _ ih =>
    obtain ⟨p, o, hp, ho, hnode⟩ := change_of_derive h hd hparent
    rw [ih] at hp
    cases hp
    obtain ⟨-, rfl⟩ := change_eq_ok_iff.mp ho
    rw [hnode, updated_given]

/-- **Options stay as they are**, whatever is derived later, and whether it is accepted or
refused. -/
theorem prefix_attempts (os : List Options) (later : List Derivation) :
    os <+: attempts deriveNext os later := by
  refine attempts_invariant (fun os' d os'' hprefix h => ?_) (List.prefix_refl os) later
  obtain ⟨o, -, h⟩ := bind_eq_ok.mp h
  cases h
  exact hprefix.trans (List.prefix_append os' [o])

/-- **Derivation keeps its invariants.** In a tree of options that is rooted at the defaults, a
change of the alignment is accepted exactly for the powers of two, and the tree can be made exactly
if all its changes are accepted. Then it has the defaults and one node for each entry; whatever is
derived later leaves its nodes as they are; and each node is sound and holds what was given last on
the path to it, or the defaults. Changes of different options commute. -/
theorem derivation_tree (hds : Rooted ds) :
    (∀ (o : Options) (n : Int64),
      (∃ o', o.change (.alignment n) = .ok o') ↔ ∃ k ≤ 62, n.toInt = 2 ^ k) ∧
    ((∃ os, derive ds = .ok os) ↔ ∀ d ∈ ds, d.change.Accepted) ∧
    (∀ os, derive ds = .ok os →
      os.length = ds.length + 1 ∧ (∀ later, os <+: attempts deriveNext os later) ∧
      ∀ i o, os[i]? = some o → o.Sound ∧ ∃ cs, Path ds i cs ∧ o = given cs) ∧
    ∀ (o : Options) (c c' : Change), c.field ≠ c'.field →
      (do (← o.change c).change c') = (do (← o.change c').change c) := by
  refine ⟨fun o n => exists_change_eq_ok_iff o (.alignment n), exists_derive_eq_ok_iff ds, ?_,
    fun o c c' => change_comm o⟩
  intro os hos
  have hlen := length_derive hos
  refine ⟨hlen, prefix_attempts os, ?_⟩
  intro i o hi
  refine ⟨(derivable_of_derive hos o (List.mem_of_getElem? hi)).sound, ?_⟩
  obtain ⟨hlt, -⟩ := List.getElem?_eq_some_iff.mp hi
  obtain ⟨cs, hcs⟩ := exists_path hds (i := i) (by omega)
  rw [getElem?_of_path hos hcs] at hi
  exact ⟨cs, hcs, (Option.some.inj hi).symm⟩

/-- A tree with two branches: room that is negative counts as none, and the alignment of the other
branch does not matter. -/
theorem derivation_tree_branches :
    ∃ os, derive [⟨0, .alignment 16⟩, ⟨0, .alignment 4⟩, ⟨1, .room (-5)⟩] = .ok os ∧
      os[3]? = some { room := 0, alignment := 16 } := by
  have hrooted : Rooted [⟨0, .alignment 16⟩, ⟨0, .alignment 4⟩, ⟨1, .room (-5)⟩] := by decide
  obtain ⟨-, hmade, htree, -⟩ := derivation_tree hrooted
  have haccepted : ∀ d ∈ [(⟨0, .alignment 16⟩ : Derivation), ⟨0, .alignment 4⟩, ⟨1, .room (-5)⟩],
      d.change.Accepted := by
    rw [List.forall_mem_cons, List.forall_mem_cons, List.forall_mem_singleton]
    exact ⟨⟨4, by decide, rfl⟩, ⟨2, by decide, rfl⟩, trivial⟩
  obtain ⟨os, hos⟩ := hmade.mpr haccepted
  obtain ⟨hlen, -, hnode⟩ := htree os hos
  have hlast : 3 < os.length := by rw [hlen]; decide
  obtain ⟨-, cs, hpath, hgiven⟩ := hnode 3 os[3] (List.getElem?_eq_getElem hlast)
  refine ⟨os, hos, ?_⟩
  rw [List.getElem?_eq_getElem hlast, hgiven]
  -- The path leads over the first entry to the third.
  cases hpath with
  | child hd _ h =>
    cases hd
    cases h with
    | child hd _ h =>
      cases hd
      cases h
      rfl

end MachineCode.Options
