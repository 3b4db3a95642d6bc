import Mathlib.Data.List.Induction

/-!
# Conditions on every call of a history

A condition on a run of calls is often a condition on each of its calls, read in
the history before it. `Each P calls` says that of a list of calls; it is built
up call by call, at the end (`each_concat`), as the runs are.
-/

namespace History

variable {α : Type*} {P : List α → α → Prop}

/-- Every call meets the condition, after the calls before it. -/
def Each (P : List α → α → Prop) (calls : List α) : Prop :=
  ∀ before call later, calls = before ++ call :: later → P before call

theorem each_nil : Each P [] :=
  fun _ _ _ heq => absurd heq (by simp)

/-- **One more call**: it meets the condition after all the others. -/
theorem each_concat (calls : List α) (last : α) :
    Each P (calls ++ [last]) ↔ Each P calls ∧ P calls last := by
  constructor
  · intro heach
    refine ⟨fun before call later heq => heach before call (later ++ [last]) ?_,
      heach calls last [] rfl⟩
    rw [heq, List.append_assoc, List.cons_append]
  · rintro ⟨heach, hlast⟩ before call later heq
    induction later using List.reverseRecOn with
    | nil =>
      obtain ⟨rfl, hcall⟩ := List.append_inj' heq rfl
      rw [← List.singleton_inj.mp hcall]
      exact hlast
    | append_singleton later x _ =>
      rw [← List.cons_append, ← List.append_assoc] at heq
      exact heach before call later (List.append_inj' heq rfl).1

/-- The calls before a point of a history meet what all of them do. -/
theorem Each.of_append {before later : List α} (heach : Each P (before ++ later)) :
    Each P before := by
  intro before' call later' heq
  exact heach before' call (later' ++ later) (by rw [heq, List.append_assoc, List.cons_append])

end History
