import Mathlib.Data.Nat.Basic

/-! # Runs of a deterministic machine

A machine is a step that gives the next state, if there is one. Some of its states may be watched, and the list of those that
a run leaves behind is what the run has done. Since the machine is deterministic, what one run does is part of what any longer
run does.
-/

namespace Biefircate.Machine

variable {σ : Type} {step : σ → Option σ} {watch : σ → Bool} {s t u : σ} {seen seen' : List σ}

/-- The state after `n` steps. -/
def run (step : σ → Option σ) : ℕ → σ → Option σ
  | 0, s => some s
  | n + 1, s => step s >>= run step n

/-- The watched states among the first `n`. -/
def passed (step : σ → Option σ) (watch : σ → Bool) : ℕ → σ → List σ
  | 0, _ => []
  | n + 1, s =>
    match step s with
    | none => []
    | some t => if watch s then s :: passed step watch n t else passed step watch n t

/-- The machine gets from one state to another, past the given watched states. -/
def Passes (step : σ → Option σ) (watch : σ → Bool) (s : σ) (seen : List σ) (t : σ) : Prop :=
  ∃ n, run step n s = some t ∧ passed step watch n s = seen

/-- The machine gets to a state where it stays. -/
def Finishes (step : σ → Option σ) (watch : σ → Bool) (s : σ) (seen : List σ) (t : σ) : Prop :=
  Passes step watch s seen t ∧ step t = none

namespace Passes

theorem refl (s : σ) : Passes step watch s [] s := ⟨0, rfl, rfl⟩

/-- One step from a state that is not watched. -/
theorem head (stepped : step s = some t) (quiet : watch s = false) (rest : Passes step watch t seen u) :
    Passes step watch s seen u := by
  obtain ⟨n, ran, same⟩ := rest
  refine ⟨n + 1, ?_, ?_⟩
  · rw [run, stepped]
    exact ran
  · rw [passed, stepped, quiet]
    exact same

/-- One step from a watched state. -/
theorem watched (stepped : step s = some t) (here : watch s = true) (rest : Passes step watch t seen u) :
    Passes step watch s (s :: seen) u := by
  obtain ⟨n, ran, same⟩ := rest
  refine ⟨n + 1, ?_, ?_⟩
  · rw [run, stepped]
    exact ran
  · rw [passed, stepped, here, ← same]
    rfl

theorem trans (first : Passes step watch s seen t) (second : Passes step watch t seen' u) :
    Passes step watch s (seen ++ seen') u := by
  obtain ⟨n, ran, same⟩ := first
  induction n generalizing s seen with
  | zero =>
    cases ran
    cases same
    exact second
  | succ n ih =>
    rcases stepped : step s with _ | next
    · rw [run, stepped] at ran
      cases ran
    · rw [run, stepped] at ran
      rw [passed, stepped] at same
      rcases here : watch s with _ | _
      · rw [here] at same
        exact (ih ran same).head stepped here
      · rw [here] at same
        cases same
        exact (ih ran rfl).watched stepped here

/-- A run that ends somewhere goes on from anywhere on its way. -/
theorem finishes (first : Passes step watch s seen t) (last : Finishes step watch s seen' u) :
    ∃ rest, seen' = seen ++ rest ∧ Finishes step watch t rest u := by
  obtain ⟨n, ran, same⟩ := first
  induction n generalizing s seen seen' with
  | zero =>
    cases ran
    cases same
    exact ⟨seen', rfl, last⟩
  | succ n ih =>
    rcases stepped : step s with _ | next
    · rw [run, stepped] at ran
      cases ran
    · rw [run, stepped] at ran
      rw [passed, stepped] at same
      obtain ⟨⟨k, ran', same'⟩, stays⟩ := last
      cases k with
      | zero =>
        cases ran'
        rw [stepped] at stays
        cases stays
      | succ k =>
        rw [run, stepped] at ran'
        rw [passed, stepped] at same'
        obtain ⟨rest, split, finishes⟩ := ih ⟨⟨k, ran', rfl⟩, stays⟩ ran rfl
        refine ⟨rest, ?_, finishes⟩
        dsimp only at same same'
        rw [← same, ← same', split]
        split <;> rfl

end Passes

/-- A machine has one end to come to. -/
theorem Finishes.unique (first : Finishes step watch s seen t) (second : Finishes step watch s seen' u) :
    t = u ∧ seen = seen' := by
  obtain ⟨rest, rfl, ⟨⟨k, ran, same⟩, _⟩⟩ := first.1.finishes second
  cases k with
  | zero =>
    cases ran
    cases same
    exact ⟨rfl, (List.append_nil _).symm⟩
  | succ k =>
    rw [run, first.2] at ran
    cases ran

theorem Passes.after (first : Passes step watch s seen t) (last : Finishes step watch t seen' u) :
    Finishes step watch s (seen ++ seen') u := ⟨first.trans last.1, last.2⟩

end Biefircate.Machine
