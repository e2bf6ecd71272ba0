import Mathlib.Order.Bounds.Defs
import MachineCode.Proofs.Derivation
import MachineCode.Proofs.Fragments

/-!
# Padding up to a boundary

Padding takes the code to the next multiple of the alignment, and no further
(`Options.isLeast_add_gap`). For that the alignment must not be zero, which holds for all options
that are derived from the defaults. On a boundary there is nothing to do, so padding once more adds
nothing.

The options decide whether padding is made of instructions or of zero bytes, and with that, whether
it can lack room. Instructions are handed over to the buffer. Zero bytes are asked for as a block,
and what decides whether there is room for it is the capacity (`Buffer.DecidesRoom`).
-/
namespace MachineCode

/-! ### Boundaries -/

namespace Options

variable {o : Options} {position : Nat}

theorem gap_of_dvd (h : o.alignment ∣ position) : o.gap position = 0 := by
  rw [gap, Nat.mod_eq_zero_of_dvd h, Nat.sub_zero, Nat.mod_self]

theorem gap_of_not_dvd (ho : 0 < o.alignment) (h : ¬ o.alignment ∣ position) :
    o.gap position = o.alignment - position % o.alignment := by
  have hpos : 0 < position % o.alignment :=
    Nat.pos_of_ne_zero (fun hzero => h (Nat.dvd_of_mod_eq_zero hzero))
  exact Nat.mod_eq_of_lt (by omega)

theorem gap_lt (ho : 0 < o.alignment) (position : Nat) : o.gap position < o.alignment :=
  Nat.mod_lt _ ho

/-- Behind the gap there is a boundary. -/
theorem dvd_add_gap (ho : 0 < o.alignment) (position : Nat) :
    o.alignment ∣ position + o.gap position := by
  by_cases h : o.alignment ∣ position
  · rwa [gap_of_dvd h]
  · have hlt := Nat.mod_lt position ho
    have hdiv := Nat.div_add_mod position o.alignment
    refine ⟨position / o.alignment + 1, ?_⟩
    rw [gap_of_not_dvd ho h, Nat.mul_succ]
    omega

/-- **The gap leads to the next boundary.** -/
theorem isLeast_add_gap (ho : 0 < o.alignment) (position : Nat) :
    IsLeast {n | o.alignment ∣ n ∧ position ≤ n} (position + o.gap position) := by
  refine ⟨⟨dvd_add_gap ho position, Nat.le_add_right _ _⟩, ?_⟩
  rintro n ⟨hn, hle⟩
  -- Two boundaries closer together than the alignment are the same.
  by_contra hlt
  have hgap := gap_lt ho position
  have hdiff := Nat.le_of_dvd (by omega) (Nat.dvd_sub (dvd_add_gap ho position) hn)
  omega

theorem Sound.alignment_pos (ho : o.Sound) : 0 < o.alignment := by
  obtain ⟨k, -, hk⟩ := ho.alignment
  rw [hk]
  exact Nat.two_pow_pos k

/-- From any length that a store can have, the next boundary is at most 2⁶². -/
theorem Sound.add_gap_le (ho : o.Sound) (h : position ≤ Buffer.maxCapacity) :
    position + o.gap position ≤ 2 ^ 62 := by
  obtain ⟨k, hk, halignment⟩ := ho.alignment
  have hmax : Buffer.maxCapacity ≤ 2 ^ 62 := by decide
  have hboundary : o.alignment ∣ 2 ^ 62 := by
    rw [halignment]
    exact Nat.pow_dvd_pow 2 hk
  exact (isLeast_add_gap ho.alignment_pos position).2 ⟨hboundary, Nat.le_trans h hmax⟩

end Options

namespace Assembler

/-! ### One padding -/

/-- `b` is `a` padded by `r` bytes. -/
structure PaddedBy (a : Assembler) (r : Nat) (b : Assembler) : Prop where
  /-- Fewer bytes are added than the alignment has. -/
  lt : r < a.options.alignment
  /-- The new length is the next boundary. -/
  least : IsLeast {n | a.options.alignment ∣ n ∧ a.length ≤ n} b.length
  length : b.length = a.length + r
  /-- What is added are instructions that do nothing, as the buffer pads with them, or zero
  bytes. -/
  bytes : b.bytes =
    if a.options.nopPadding then (a.buffer.pad r).bytes else a.bytes ++ List.replicate r 0
  kept : a.bytes <+: b.bytes
  offsets : b.offsets = a.offsets
  /-- Padding once more adds nothing. -/
  again : b.step .align = (b, .padded 0)

/-- On a boundary padding does nothing. -/
theorem step_align_of_dvd {a : Assembler} (h : a.options.alignment ∣ a.length) :
    a.step .align = (a, .padded 0) := by
  have hgap : a.gap = 0 := Options.gap_of_dvd h
  rw [step, align, if_pos hgap, settle, hgap]

/-- **Padding that is added leads to the next boundary.** -/
theorem paddedBy_of_added {a b : Assembler} (ha : 0 < a.options.alignment)
    (h : Added a (a.options.filler a.length) [] b) : PaddedBy a (a.options.gap a.length) b := by
  have hlength : b.length = a.length + a.options.gap a.length := by
    rw [h.length, Options.length_filler]
  refine ⟨Options.gap_lt ha _, ?_, hlength, ?_, ?_, ?_, ?_⟩
  · rw [hlength]
    exact Options.isLeast_add_gap ha _
  · rw [h.bytes, Options.filler]
    split
    · exact (a.buffer.bytes_pad a.gap).symm
    · rfl
  · rw [h.bytes]
    exact List.prefix_append _ _
  · rw [h.offsets, List.append_nil]
  · refine step_align_of_dvd ?_
    rw [h.options, hlength]
    exact Options.dvd_add_gap ha _

/-! ### Padding after any run -/

/-- Padding succeeds, and leads to the next boundary. -/
def Pads (b : Assembler) : Prop :=
  ∃ r, (b.step .align).2 = .padded r ∧ PaddedBy b r (b.step .align).1

/-- Padding succeeds **unless it lacks room**. -/
theorem pads_of_granted {b : Assembler} (hb : 0 < b.options.alignment)
    (h : b.outOfRoom .align = false) : Pads b := by
  refine ⟨b.options.gap b.length, step_eq_answer h, paddedBy_of_added hb ?_⟩
  simpa [Step.chunks, Step.code, Step.records, Chunk.starts] using
    added_of_granted Step.noConfusion h

/-- Only zero bytes that are needed can lack room. -/
theorem needed_of_asks {o : Options} {position n : Nat}
    (h : Step.align.asks o position = some n) :
    o.nopPadding = false ∧ ¬ o.alignment ∣ position := by
  rw [Step.asks] at h
  split at h
  · cases h
  · next hneeded =>
    obtain ⟨hgap, hnop⟩ := not_or.mp hneeded
    exact ⟨Bool.eq_false_iff.mpr hnop, fun hdvd => hgap (Options.gap_of_dvd hdvd)⟩

/-- The code fits, if it is padded with zero bytes. -/
def FitsZeros (a : Assembler) : Prop := a.options.nopPadding = false → a.length ≤ a.buffer.room

/-- Code that is padded with zero bytes stays within the capacity. -/
theorem FitsZeros.step {a : Assembler} (h : a.FitsZeros) (s : Step) : (a.step s).1.FitsZeros := by
  intro hnop
  rw [options_step] at hnop
  have ht := a.transition s
  generalize a.step s = r at ht
  cases ht with
  | failed _ | noRoom _ => exact h hnop
  | added _ _ _ hadded => exact hadded.fits hnop (h hnop)
  | reset _ => exact Nat.le_trans (Nat.min_le_left _ _) (Nat.zero_le _)

/-- How `b` takes padding. -/
structure Aligns (b : Assembler) : Prop where
  /-- The division by the alignment has a meaning. -/
  divisor : b.options.alignment ≠ 0
  aligned : b.options.alignment ∣ b.length → Pads b
  /-- Instructions that do nothing are added up to any boundary that a store can have. -/
  nops : b.options.nopPadding = true →
    (∃ n ≤ Buffer.maxCapacity, b.options.alignment ∣ n ∧ b.length ≤ n) → Pads b
  /-- Zero bytes are added unless there is no room for them. -/
  zeros : b.options.nopPadding = false → b.outOfRoom .align = false → Pads b
  /-- Without room nothing is changed, and only zero bytes that are needed can lack room. -/
  unchanged : b.outOfRoom .align = true →
    b.step .align = (b, .refused .storeSize) ∧ b.options.nopPadding = false ∧
      ¬ b.options.alignment ∣ b.length
  /-- Whether there is room for the zero bytes up to the next boundary is decided by the
  capacity. -/
  room : b.options.nopPadding = false → ¬ b.options.alignment ∣ b.length →
    ∃ n, IsLeast {m | b.options.alignment ∣ m ∧ b.length ≤ m} (b.length + n) ∧
      b.buffer.DecidesRoom n (b.outOfRoom .align)

theorem aligns {b : Assembler} (ho : b.options.Sound) (hb : b.buffer.Addressable)
    (hfits : b.FitsZeros) : Aligns b := by
  have hpos : 0 < b.options.alignment := ho.alignment_pos
  have hlacking : b.outOfRoom .align = true →
      b.options.nopPadding = false ∧ ¬ b.options.alignment ∣ b.length := by
    intro hroom
    cases hasks : Step.align.asks b.options b.length with
    | none =>
      rw [outOfRoom, hasks] at hroom
      cases hroom
    | some n => exact needed_of_asks hasks
  refine ⟨Nat.ne_of_gt hpos, ?_, ?_, fun _ => pads_of_granted hpos, ?_, ?_⟩
  · intro hdvd
    refine pads_of_granted hpos (Bool.eq_false_iff.mpr ?_)
    intro hroom
    exact (hlacking hroom).2 hdvd
  · -- Instructions are handed over, so they ask for no block.
    intro hnop _
    refine pads_of_granted hpos (Bool.eq_false_iff.mpr ?_)
    intro hroom
    exact absurd hnop ((hlacking hroom).1 ▸ Bool.false_ne_true)
  · intro hroom
    exact ⟨step_of_outOfRoom hroom, hlacking hroom⟩
  · intro hnop hdvd
    refine ⟨b.options.gap b.length, Options.isLeast_add_gap hpos _, ?_⟩
    have hgap : b.options.gap b.length ≠ 0 := by
      intro hzero
      have hnext := Options.dvd_add_gap hpos b.length
      rw [hzero] at hnext
      exact hdvd hnext
    have hasks : Step.align.asks b.options b.length = some (b.options.gap b.length) :=
      if_neg (not_or.mpr ⟨hgap, Bool.eq_false_iff.mp hnop⟩)
    rw [outOfRoom, hasks]
    exact Buffer.decidesRoom hb (ho.add_gap_le (Nat.le_trans (hfits hnop) hb))

/-- **Padding reaches the next boundary.** Whatever chain of changes the options of an assembler
come from and whatever was done with it, its alignment is not zero, and padding takes its code to
the least multiple of the alignment that is not below its length. Fewer bytes are added than the
alignment has; they are instructions that do nothing or zero bytes, as the options say; the code
and the offsets that are there stay, and padding once more adds nothing.

It succeeds on a boundary, and with instructions up to any boundary that a store can have. With zero
bytes the one exception are those that are needed and for which there is no room: then nothing is
changed. The capacity decides about that; there is room if twice the new length is possible for a
store, and none if the new length is not. -/
theorem run_aligns {allocator : Allocator} {o : Options} (ho : o.Derivable) {a : Assembler}
    (ha : new allocator o = .ok a) (steps : List Step) :
    (a.run steps).options = o ∧ Aligns (a.run steps) := by
  obtain ⟨-, rfl⟩ := eq_of_new ha
  have hrun := options_run ⟨o, .vacant allocator o.room, []⟩ steps
  refine ⟨hrun, aligns ?_ (addressable_run (addressable_of_new ha) steps) ?_⟩
  · rw [hrun]
    exact ho.sound
  · exact run_invariant (fun _ => Nat.zero_le _) (fun _ s _ hb => FitsZeros.step hb s)

/-- A word is padded to sixteen bytes. -/
theorem run_aligns_word :
    ∃ o a b, Options.change {} (.alignment 16) = .ok o ∧ new .tight o = .ok a ∧
      (a.run [.word 7]).step .align = (b, .padded 12) ∧ b.length = 16 ∧
      b.step .align = (b, .padded 0) := by
  have hchange : Options.change {} (.alignment 16) = .ok { alignment := 16 } :=
    Options.change_eq_ok_iff.mpr ⟨⟨4, by decide, rfl⟩, rfl⟩
  have hnew : new .tight { alignment := 16 } =
      .ok ⟨{ alignment := 16 }, .vacant .tight 1024, []⟩ := rfl
  obtain ⟨-, haligns⟩ := run_aligns (.change .default hchange) hnew [.word 7]
  obtain ⟨r, hr, hpadded⟩ := haligns.nops rfl ⟨16, by decide, by decide, by decide⟩
  obtain ⟨⟨hdvd, -⟩, -⟩ := hpadded.least
  have hlength := hpadded.length
  have hlt : r < 16 := hpadded.lt
  have hstart : (Assembler.run ⟨{ alignment := 16 }, .vacant .tight 1024, []⟩
      [.word 7]).length = 4 := rfl
  rw [hstart] at hlength
  have hdvd : 16 ∣ 4 + r := hlength ▸ hdvd
  obtain rfl : r = 12 := by omega
  exact ⟨_, _, _, hchange, hnew, Prod.ext rfl hr, hlength, hpadded.again⟩

/-- Zero bytes up to a boundary of 2⁵² bytes are refused, and nothing is changed. -/
theorem align_excessive :
    ∃ o a, o.Derivable ∧ o.alignment = 0x10000000000000 ∧ new .tight o = .ok a ∧
      (a.run [.word 1]).length = 4 ∧
      (a.run [.word 1]).step .align = (a.run [.word 1], .refused .storeSize) := by
  have hchange : Options.change {} (.alignment 0x10000000000000) =
      .ok { alignment := 0x10000000000000 } :=
    Options.change_eq_ok_iff.mpr ⟨⟨52, by decide, rfl⟩, rfl⟩
  have hnew : new .tight { alignment := 0x10000000000000, nopPadding := false } =
      .ok ⟨{ alignment := 0x10000000000000, nopPadding := false }, .vacant .tight 1024, []⟩ := rfl
  have hroom := addressable_run (addressable_of_new hnew) [.word 1]
  have hderivable : Options.Derivable { alignment := 0x10000000000000, nopPadding := false } :=
    .change (.change .default hchange) (c := .nopPadding false) rfl
  refine ⟨_, _, hderivable, rfl, hnew, rfl, ?_⟩
  exact step_of_outOfRoom (outOfRoom_eq_true hroom rfl (by decide))

end Assembler

end MachineCode
