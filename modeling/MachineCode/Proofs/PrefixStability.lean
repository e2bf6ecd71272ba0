import MachineCode.Decode

/-!
# Reading does not look ahead

An instruction that was read from the start of some bytes is read in the same way when more bytes
follow, and the bytes that follow are left over (`decode_stable`). So it is enough to know what a
piece of code reads as on its own: `decode code = some (d, [])` says that the code is one
instruction, whatever it is followed by.

A reader with this property is `Stable`. Taking a fixed number of bytes is stable, and so is
whatever is put together from stable readers by choosing, taking a byte, and reading in sequence,
which is how all readers here are made.
-/
namespace MachineCode.Decode

variable {α β : Type}

/-- A reader is stable if bytes that are appended are left over. -/
def Stable (read : List UInt8 → Option (α × List UInt8)) : Prop :=
  ∀ bs a rest, read bs = some (a, rest) → ∀ more, read (bs ++ more) = some (a, rest ++ more)

/-! ### Ways to make stable readers -/

theorem Stable.none : Stable fun _ => (none : Option (α × List UInt8)) := by
  intro bs a rest h
  cases h

theorem Stable.pure (a : α) : Stable fun bs => some (a, bs) := by
  intro bs a' rest h more
  cases h
  rfl

theorem Stable.bind {read : List UInt8 → Option (α × List UInt8)}
    {next : α → List UInt8 → Option (β × List UInt8)} (h : Stable read)
    (hnext : ∀ a, Stable (next a)) : Stable fun bs => read bs >>= fun p => next p.1 p.2 := by
  intro bs b rest hb more
  obtain ⟨⟨a, left⟩, ha, hleft⟩ := Option.bind_eq_some_iff.mp hb
  show (read (bs ++ more)).bind _ = _
  rw [h _ _ _ ha more]
  exact hnext a _ _ _ hleft more

theorem Stable.ite {first second : List UInt8 → Option (α × List UInt8)} (p : Prop) [Decidable p]
    (hfirst : p → Stable first) (hsecond : ¬ p → Stable second) :
    Stable fun bs => if p then first bs else second bs := by
  intro bs a rest h more
  by_cases hp : p
  · simp only [if_pos hp] at h ⊢
    exact hfirst hp _ _ _ h more
  · simp only [if_neg hp] at h ⊢
    exact hsecond hp _ _ _ h more

theorem Stable.uncons {next : UInt8 → List UInt8 → Option (α × List UInt8)}
    (h : ∀ b, Stable (next b)) :
    Stable fun | [] => .none | b :: bs => next b bs := by
  intro bs a rest hb more
  cases bs with
  | nil => cases hb
  | cons b bs => exact h b _ _ _ hb more

theorem split?_stable (n : Nat) : Stable (split? n) := by
  intro bs taken rest h more
  rw [split?] at h ⊢
  split at h
  · next hle =>
    cases h
    rw [if_pos (by rw [List.length_append]; omega), List.take_append_of_le_length hle,
      List.drop_append_of_le_length hle]
  · cases h

/-! ### The readers of a processor -/

theorem location_stable (x b : Bool) (mode rm : Nat) : Stable (location x b mode rm) := by
  apply Stable.ite
  · intro _
    apply Stable.uncons
    intro sib
    apply Stable.ite
    · intro _
      exact (split?_stable 4).bind fun disp => Stable.pure _
    · intro _
      exact (split?_stable (width mode)).bind fun disp => Stable.pure _
  · intro _
    apply Stable.ite
    · intro _
      exact (split?_stable 4).bind fun disp => Stable.pure _
    · intro _
      exact (split?_stable (width mode)).bind fun disp => Stable.pure _

theorem operands?_append {r x b : Bool} {bs rest : List UInt8} {reg : Gpr} {rm : Place}
    (h : operands? r x b bs = some (reg, rm, rest)) (more : List UInt8) :
    operands? r x b (bs ++ more) = some (reg, rm, rest ++ more) := by
  cases bs with
  | nil => cases h
  | cons byte bs =>
    rw [List.cons_append, operands?]
    rw [operands?] at h
    split at h
    · next hmode =>
      cases h
      rw [if_pos hmode]
    · next hmode =>
      obtain ⟨⟨l, left⟩, hl, heq⟩ := Option.bind_eq_some_iff.mp h
      cases heq
      rw [if_neg hmode, location_stable _ _ _ _ _ _ _ hl more]
      rfl

theorem wide?_stable (r x b : Bool) : Stable (wide? r x b) := by
  apply Stable.uncons
  intro opcode
  apply Stable.ite
  · -- Two operands are read at once here, so this is no instance of `Stable.bind`.
    intro _ bs d rest h more
    obtain ⟨⟨reg, rm, left⟩, hread, hmade⟩ := Option.bind_eq_some_iff.mp h
    show (operands? r x b (bs ++ more)).bind _ = _
    rw [operands?_append hread more]
    cases rm with
    | register g =>
      by_cases hlea : opcode = 0x8d
      · simp [hlea] at hmade
      · simp only [hlea, if_false] at hmade ⊢
        cases hmade
        rfl
    | memory l =>
      cases hmade
      rfl
  · intro _
    apply Stable.ite
    · intro _
      exact (split?_stable 8).bind fun value => Stable.pure
        (Decoded.constant (gpr b (opcode.toNat - 0xb8)) (.ofNat (LittleEndian.value value)))
    · intro _
      exact Stable.none

theorem longNop?_append {bs rest : List UInt8} (h : longNop? bs = some rest)
    (more : List UInt8) : longNop? (bs ++ more) = some (rest ++ more) := by
  rw [longNop?] at h ⊢
  split at h
  · next hread =>
    cases h
    rw [operands?_append hread more]
  · cases h

theorem nop?_append {bs rest : List UInt8} (h : nop? bs = some rest) (more : List UInt8) :
    nop? (bs ++ more) = some (rest ++ more) := by
  rw [nop?.eq_def] at h
  split at h
  · cases h
    rfl
  · cases h
    rfl
  · exact longNop?_append h more
  · exact longNop?_append h more
  · cases h

/-- **Prefix stability.** What an instruction reads as does not depend on what follows it. -/
theorem decode_stable : Stable decode := by
  apply Stable.uncons
  intro first
  apply Stable.ite
  · intro _
    exact wide?_stable _ _ _
  · intro _ bs d rest h more
    obtain ⟨left, hleft, heq⟩ := Option.bind_eq_some_iff.mp h
    cases heq
    show (nop? (first :: bs ++ more)).bind _ = _
    rw [nop?_append hleft more]
    rfl

end MachineCode.Decode
