import Mathlib.Data.List.Forall2

/-! # Runs of a fallible step function

A program that may stop is a step `σ → ε → Except ω σ`; a run feeds it a finite list of events
and stops at the first failure. The rules here cut a successful run at any point, and carry an
invariant along it from the steps alone.
-/

namespace Biefircate

/-- A sequence of two computations succeeds exactly when both do. -/
theorem bind_eq_ok {ω α β : Type} {x : Except ω α} {f : α → Except ω β} {b : β} :
    (x >>= f) = .ok b ↔ ∃ a, x = .ok a ∧ f a = .ok b := by
  cases x with
  | error e => simp [bind, Except.bind]
  | ok a => simp [bind, Except.bind]

theorem ok_bind {ω α β : Type} (a : α) (f : α → Except ω β) : ((.ok a : Except ω α) >>= f) = f a := rfl

theorem error_bind {ω α β : Type} (e : ω) (f : α → Except ω β) : ((.error e : Except ω α) >>= f) = .error e := rfl

theorem map_eq_ok {ω α β : Type} {x : Except ω α} {f : α → β} {b : β} :
    (f <$> x) = .ok b ↔ ∃ a, x = .ok a ∧ f a = b := by
  cases x with
  | error e => simp [Functor.map, Except.map]
  | ok a => simp [Functor.map, Except.map]

/-- A branch on a failing guard succeeds only past the guard. -/
theorem ite_error_eq_ok {ω α : Type} {p : Prop} [Decidable p] {e : ω} {x : Except ω α} {a : α} :
    (if p then Except.error e else x) = .ok a ↔ ¬ p ∧ x = .ok a := by
  by_cases stop : p <;> simp [stop]

theorem exists_of_isOk {ω α : Type} {x : Except ω α} (ok : x.isOk = true) : ∃ a, x = .ok a := by
  cases x with
  | error _ => cases ok
  | ok a => exact ⟨a, rfl⟩

namespace Run

variable {σ ε ω : Type} {step : σ → ε → Except ω σ}

/-- Feed a list of events to a step, stopping at the first failure. -/
def run (step : σ → ε → Except ω σ) : σ → List ε → Except ω σ
  | s, [] => .ok s
  | s, event :: rest => step s event >>= fun next => run step next rest

@[simp] theorem run_nil (s : σ) : run step s [] = .ok s := rfl

theorem run_cons_eq_ok {s t : σ} {event : ε} {rest : List ε} :
    run step s (event :: rest) = .ok t ↔ ∃ next, step s event = .ok next ∧ run step next rest = .ok t :=
  bind_eq_ok

/-- A run over two lists is one after the other. -/
theorem run_append (s : σ) (first second : List ε) :
    run step s (first ++ second) = run step s first >>= fun middle => run step middle second := by
  induction first generalizing s with
  | nil => rfl
  | cons event rest ih =>
    rw [List.cons_append, run, run]
    cases step s event with
    | error stop => rfl
    | ok next => exact ih next

/-- Runs compose and split at any event. -/
theorem run_append_eq_ok {s t : σ} {first second : List ε} :
    run step s (first ++ second) = .ok t ↔
      ∃ middle, run step s first = .ok middle ∧ run step middle second = .ok t := by
  induction first generalizing s with
  | nil => simp
  | cons event rest ih =>
    simp only [List.cons_append, run_cons_eq_ok, ih]
    constructor
    · rintro ⟨next, stepped, middle, ran, tail⟩
      exact ⟨middle, ⟨next, stepped, ran⟩, tail⟩
    · rintro ⟨middle, ⟨next, stepped, ran⟩, tail⟩
      exact ⟨next, stepped, middle, ran, tail⟩

/-- A run ends where one of its steps stops. -/
theorem run_append_error {s middle : σ} {first rest : List ε} {event : ε} {stop : ω}
    (ran : run step s first = .ok middle) (stopped : step middle event = .error stop) :
    run step s (first ++ event :: rest) = .error stop := by
  induction first generalizing s with
  | nil =>
    cases ran
    rw [List.nil_append, run, stopped, error_bind]
  | cons other first ih =>
    obtain ⟨next, stepped, tail⟩ := run_cons_eq_ok.mp ran
    rw [List.cons_append, run, stepped, ok_bind, ih tail]

/-- What every step of a run preserves holds at its end. The step may use that its event is one
of the run's. -/
theorem run_invariant {s t : σ} {events : List ε} (Inv : σ → Prop)
    (preserves : ∀ u event v, event ∈ events → Inv u → step u event = .ok v → Inv v)
    (start : Inv s) (ran : run step s events = .ok t) : Inv t := by
  induction events generalizing s with
  | nil => cases ran; exact start
  | cons event rest ih =>
    obtain ⟨next, stepped, tail⟩ := run_cons_eq_ok.mp ran
    exact ih (fun u other v member => preserves u other v (List.mem_cons_of_mem _ member))
      (preserves s event next (List.mem_cons_self ..) start stepped) tail

/-- Every step of a run meets a condition on the state before it and its event. -/
def Along (step : σ → ε → Except ω σ) (P : σ → ε → Prop) : σ → List ε → Prop
  | _, [] => True
  | s, event :: rest => P s event ∧ ∀ next, step s event = .ok next → Along step P next rest

/-- The invariant rule for runs whose steps all meet a condition. -/
theorem run_invariant_along {P : σ → ε → Prop} {s t : σ} {events : List ε} (Inv : σ → Prop)
    (preserves : ∀ u event v, event ∈ events → P u event → Inv u → step u event = .ok v → Inv v)
    (along : Along step P s events) (start : Inv s) (ran : run step s events = .ok t) : Inv t := by
  induction events generalizing s with
  | nil => cases ran; exact start
  | cons event rest ih =>
    obtain ⟨next, stepped, tail⟩ := run_cons_eq_ok.mp ran
    exact ih (fun u other v member => preserves u other v (List.mem_cons_of_mem _ member))
      (along.2 next stepped)
      (preserves s event next (List.mem_cons_self ..) along.1 start stepped) tail

/-! ## What is gathered on the way -/

/-- Each event yields a list, and these lists one after the other are what is gathered. -/
def Gathered {β : Type} (yields : ε → List β → Prop) (events : List ε) (gathered : List β) : Prop :=
  ∃ parts, List.Forall₂ yields events parts ∧ gathered = parts.flatten

namespace Gathered

variable {β : Type} {yields : ε → List β → Prop} {event : ε} {events : List ε} {gathered others : List β}

theorem nil : Gathered yields [] [] := ⟨[], .nil, rfl⟩

theorem cons (first : yields event gathered) (rest : Gathered yields events others) :
    Gathered yields (event :: events) (gathered ++ others) := by
  obtain ⟨parts, each, rfl⟩ := rest
  exact ⟨gathered :: parts, .cons first each, rfl⟩

theorem append {later : List ε} (first : Gathered yields events gathered) (rest : Gathered yields later others) :
    Gathered yields (events ++ later) (gathered ++ others) := by
  obtain ⟨parts, each, rfl⟩ := first
  obtain ⟨parts', each', rfl⟩ := rest
  exact ⟨parts ++ parts', List.rel_append each each', List.flatten_append.symm⟩

/-- What is gathered from lists of events, one list after the other. -/
theorem flatMap {α : Type} {lists : List α} {eventsOf : α → List ε}
    (gathers : Gathered (fun a => Gathered yields (eventsOf a)) lists gathered) :
    Gathered yields (lists.flatMap eventsOf) gathered := by
  obtain ⟨parts, each, rfl⟩ := gathers
  induction each with
  | nil => exact nil
  | cons first rest ih => exact first.append ih

theorem forall_mem {P : β → Prop} (yields_forall : ∀ event gathered, yields event gathered → ∀ b ∈ gathered, P b)
    (gathers : Gathered yields events gathered) : ∀ b ∈ gathered, P b := by
  obtain ⟨parts, each, rfl⟩ := gathers
  induction each with
  | nil => exact List.forall_mem_nil _
  | @cons event part events parts first rest ih =>
    intro b member
    rcases List.mem_append.mp member with here | later
    · exact yields_forall event part first b here
    · exact ih b later

/-- If every event yields one list at most, so does the run. -/
theorem unique (yieldsOne : ∀ event ∈ events, ∀ first second, yields event first → yields event second → first = second)
    (gathers : Gathered yields events gathered) (gathersToo : Gathered yields events others) : gathered = others := by
  obtain ⟨parts, each, rfl⟩ := gathers
  obtain ⟨parts', each', rfl⟩ := gathersToo
  congr 1
  induction each generalizing parts' with
  | nil =>
    cases each'
    rfl
  | @cons event part events parts first rest ih =>
    cases each' with
    | cons first' rest' =>
      rw [yieldsOne event (List.mem_cons_self ..) _ _ first first',
        ih (fun event member => yieldsOne event (List.mem_cons_of_mem _ member)) _ rest']

/-- A run whose steps succeed, and add to what there is what their events yield, adds what is gathered. -/
theorem run {Inv : σ → List β → Prop} {s : σ}
    (each : ∀ s got, ∀ event ∈ events, Inv s got → ∃ t more, yields event more ∧ step s event = .ok t ∧ Inv t (got ++ more))
    (start : Inv s gathered) :
    ∃ t more, Gathered yields events more ∧ Run.run step s events = .ok t ∧ Inv t (gathered ++ more) := by
  induction events generalizing s gathered with
  | nil => exact ⟨s, [], nil, rfl, by rwa [List.append_nil]⟩
  | cons event events ih =>
    obtain ⟨middle, more, yielded, stepped, here⟩ := each s gathered event (List.mem_cons_self ..) start
    obtain ⟨t, rest, gathers, ran, there⟩ := ih (fun s got event member => each s got event (List.mem_cons_of_mem _ member)) here
    refine ⟨t, more ++ rest, gathers.cons yielded, ?_, by rwa [← List.append_assoc]⟩
    rw [Run.run, stepped, ok_bind, ran]

end Gathered

/-! ## Runs that cannot fail -/

/-- A function that follows each step from the states of an invariant follows the runs. -/
theorem foldl_refines {τ : Type} {step : σ → ε → σ} {step' : τ → ε → τ} {abs : σ → τ} (Inv : σ → Prop)
    (preserves : ∀ s event, Inv s → Inv (step s event))
    (refines : ∀ s event, Inv s → abs (step s event) = step' (abs s) event) {s : σ} (start : Inv s) (events : List ε) :
    abs (events.foldl step s) = events.foldl step' (abs s) := by
  induction events generalizing s with
  | nil => rfl
  | cons event events ih => rw [List.foldl_cons, List.foldl_cons, ih (preserves s event start), refines s event start]

end Run

end Biefircate
