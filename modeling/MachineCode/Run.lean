import MachineCode.Fault

/-!
# Runs of fallible updates

An update that is refused leaves the state as it was, and a run goes on after it. `attempt` is one
such update, `attempts` a whole run, and `verdicts` says which of its updates are accepted.

Where it depends on the state whether an operation is refused, `accepted` are the operations of a
run that are not. What every one of them keeps holds after the whole run, and the run may be
described by them alone (`accepted_invariant`).

Where a run can be seen through a value that each operation replaces or leaves alone, the value
after the run is the last one that was given (`view_foldl`).
-/
namespace MachineCode

variable {σ α : Type}

/-- The state after an update that may be refused. -/
def attempt (update : σ → α → Except Fault σ) (s : σ) (a : α) : σ :=
  match update s a with
  | .ok t => t
  | .error _ => s

/-- The state after a run of updates that may be refused. -/
def attempts (update : σ → α → Except Fault σ) (s : σ) (as : List α) : σ :=
  as.foldl (attempt update) s

/-- Whether each update of a run is accepted, in order. -/
def verdicts (update : σ → α → Except Fault σ) (s : σ) : List α → List Bool
  | [] => []
  | a :: as => (update s a).isOk :: verdicts update (attempt update s a) as

variable {update : σ → α → Except Fault σ} {s t : σ} {a : α}

theorem attempt_of_ok (h : update s a = .ok t) : attempt update s a = t := by
  rw [attempt, h]

theorem attempt_of_error {f : Fault} (h : update s a = .error f) : attempt update s a = s := by
  rw [attempt, h]

@[simp] theorem attempts_nil : attempts update s [] = s := rfl

@[simp] theorem attempts_cons (as : List α) :
    attempts update s (a :: as) = attempts update (attempt update s a) as := rfl

/-- What every accepted update keeps, every run keeps. -/
theorem attempts_invariant {Inv : σ → Prop}
    (hstep : ∀ s a t, Inv s → update s a = .ok t → Inv t) (hs : Inv s) (as : List α) :
    Inv (attempts update s as) := by
  induction as generalizing s with
  | nil => exact hs
  | cons a as ih =>
    rw [attempts_cons]
    refine ih ?_
    cases h : update s a with
    | ok t =>
      rw [attempt_of_ok h]
      exact hstep s a t hs h
    | error f =>
      rw [attempt_of_error h]
      exact hs

/-! ### The operations that are not refused -/

section Accepted

variable (next : σ → α → σ) (refused : σ → α → Bool)

/-- The operations of a run that are not refused. -/
def accepted (s : σ) : List α → List α
  | [] => []
  | a :: as => if refused s a then accepted (next s a) as else a :: accepted (next s a) as

variable {next refused}

/-- What relates a state to the operations that led to it is kept by a run, if an accepted
operation keeps it and a refused one does nothing. -/
theorem accepted_invariant (Inv : σ → List α → Prop)
    (hrefused : ∀ s a, refused s a = true → next s a = s)
    (hnext : ∀ s before a, Inv s before → refused s a = false → Inv (next s a) (before ++ [a]))
    (s : σ) (before : List α) (hs : Inv s before) (as : List α) :
    Inv (as.foldl next s) (before ++ accepted next refused s as) := by
  induction as generalizing s before with
  | nil =>
    rw [accepted, List.append_nil]
    exact hs
  | cons a as ih =>
    rw [List.foldl_cons, accepted]
    cases h : refused s a with
    | true =>
      rw [if_pos rfl, hrefused s a h]
      exact ih s before hs
    | false =>
      have htail := ih (next s a) (before ++ [a]) (hnext s before a hs h)
      rwa [List.append_assoc] at htail

end Accepted

/-! ### The last value -/

section Last

variable {β : Type} {given? : α → Option β}

/-- The last value that the operations of a run give, or `default` if they give none. -/
def lastGiven (given? : α → Option β) (default : β) (as : List α) : β :=
  (as.filterMap given?).getLast?.getD default

theorem lastGiven_cons (default : β) (a : α) (as : List α) :
    lastGiven given? default (a :: as) = lastGiven given? ((given? a).getD default) as := by
  rw [lastGiven, List.filterMap_cons]
  cases given? a with
  | none => rfl
  | some b => rw [List.getLast?_cons, Option.getD_some, Option.getD_some, lastGiven]

theorem lastGiven_concat (default : β) (as : List α) (a : α) :
    lastGiven given? default (as ++ [a]) = (given? a).getD (lastGiven given? default as) := by
  rw [lastGiven, List.filterMap_append, List.getLast?_append]
  cases h : given? a with
  | none => simp [h, lastGiven]
  | some v => simp [h]

/-- **The last value wins**: where an operation replaces what is seen of the state by the value it
gives, or gives none and leaves it, a run leaves the last value that was given. -/
theorem view_foldl {next : σ → α → σ} (view : σ → β)
    (hnext : ∀ s a, view (next s a) = (given? a).getD (view s)) (s : σ) (as : List α) :
    view (as.foldl next s) = lastGiven given? (view s) as := by
  induction as generalizing s with
  | nil => rfl
  | cons a as ih => rw [List.foldl_cons, ih, hnext, lastGiven_cons]

end Last

end MachineCode
