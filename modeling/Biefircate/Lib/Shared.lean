import Biefircate.Lib.Bytes
import Mathlib.Data.Set.Function
import Mathlib.Data.Set.Lattice
import Mathlib.Order.CompletePartialOrder

/-! # Components that share a memory

A component answers events, and each answer may change memory. It is local to some addresses if, as long as its invariant
holds, it reads and writes no others. Components that are local to disjoint addresses do not interfere: in every interleaving
of their events each gives the answers that it gives alone, and leaves its addresses as it does alone.
-/

namespace Biefircate.Shared

variable {A V ε δ ω χ : Type*}

/-- The answers to a list of events, and memory afterwards. -/
def exec (step : (A → V) → ε → ω × (A → V)) : (A → V) → List ε → List ω × (A → V)
  | m, [] => ([], m)
  | m, event :: rest =>
    let (answer, next) := step m event
    let (answers, last) := exec step next rest
    (answer :: answers, last)

/-- Two components, each of which answers its own events. -/
def both (first : (A → V) → ε → ω × (A → V)) (second : (A → V) → δ → χ × (A → V)) (m : A → V) :
    ε ⊕ δ → (ω ⊕ χ) × (A → V)
  | .inl event => Prod.map .inl id (first m event)
  | .inr event => Prod.map .inr id (second m event)

/-- While `inv` holds, the component reads and writes its own addresses only. -/
structure Local (own : Set A) (inv : (A → V) → Prop) (step : (A → V) → ε → ω × (A → V)) : Prop where
  congr : ∀ {m m'}, own.EqOn m m' → inv m → inv m'
  keeps : ∀ {m}, inv m → ∀ event, inv (step m event).2
  frame : ∀ {m}, inv m → ∀ event, ownᶜ.EqOn (step m event).2 m
  answer : ∀ {m m'}, inv m → own.EqOn m m' → ∀ event, (step m event).1 = (step m' event).1
  writes : ∀ {m m'}, inv m → own.EqOn m m' → ∀ event, own.EqOn (step m event).2 (step m' event).2

/-- A run of two components is for each of them as its own run. -/
structure Independent (own own' : Set A) (first : A → V) (run : List (ω ⊕ χ) × (A → V)) (alone : List ω × (A → V))
    (alone' : List χ × (A → V)) : Prop where
  answers : run.1.filterMap Sum.getLeft? = alone.1 ∧ run.1.filterMap Sum.getRight? = alone'.1
  kept : own.EqOn run.2 alone.2 ∧ own'.EqOn run.2 alone'.2
  rest : (own ∪ own')ᶜ.EqOn run.2 first

theorem ite_eqOn {own : Set A} {m m' n n' : A → V} {p : Prop} [Decidable p] (yes : own.EqOn m m') (no : own.EqOn n n') :
    own.EqOn (if p then m else n) (if p then m' else n') := by
  split
  · exact yes
  · exact no

section

variable {own own' : Set A} {inv inv' : (A → V) → Prop} {step : (A → V) → ε → ω × (A → V)} {step' : (A → V) → δ → χ × (A → V)}
  {m m₁ m₂ : A → V}

/-- A component leaves alone what is not its own. -/
theorem Local.disjoint (component : Local own inv step) (apart : Disjoint own own') (holds : inv m) (event : ε) :
    own'.EqOn (step m event).2 m :=
  (component.frame holds event).mono apart.subset_compl_left

/-- The run of each alone may begin in a memory of its own, which agrees on its addresses. -/
theorem independent_of_eqOn (first : Local own inv step) (second : Local own' inv' step') (apart : Disjoint own own')
    (holds : inv m) (holds' : inv' m) (same : own.EqOn m m₁) (same' : own'.EqOn m m₂) (events : List (ε ⊕ δ)) :
    Independent own own' m (exec (both step step') m events) (exec step m₁ (events.filterMap Sum.getLeft?))
      (exec step' m₂ (events.filterMap Sum.getRight?)) := by
  induction events generalizing m m₁ m₂ with
  | nil => exact ⟨⟨rfl, rfl⟩, ⟨same, same'⟩, fun _ _ => rfl⟩
  | cons event rest ih =>
    cases event with
    | inl event =>
      have left := first.disjoint apart holds event
      have later := ih (first.keeps holds event) (second.congr left.symm holds') (first.writes holds same event)
        (left.trans same')
      obtain ⟨⟨answers, answers'⟩, owns, others⟩ := later
      refine ⟨⟨congrArg₂ List.cons (first.answer holds same event) answers, answers'⟩, owns, others.trans ?_⟩
      exact (first.frame holds event).mono (Set.compl_subset_compl.mpr Set.subset_union_left)
    | inr event =>
      have left := second.disjoint apart.symm holds' event
      have later := ih (first.congr left.symm holds) (second.keeps holds' event) (left.trans same)
        (second.writes holds' same' event)
      obtain ⟨⟨answers, answers'⟩, owns, others⟩ := later
      refine ⟨⟨answers, congrArg₂ List.cons (second.answer holds' same' event) answers'⟩, owns, others.trans ?_⟩
      exact (second.frame holds' event).mono (Set.compl_subset_compl.mpr Set.subset_union_right)

end

/-! ## Memory of bytes -/

section

variable {own : Set ℕ} {m m' : Mem}

theorem readLE_eqOn (same : own.EqOn m m') {a n : ℕ} (inside : ∀ x, a ≤ x → x < a + n → x ∈ own) :
    m.readLE a n = m'.readLE a n :=
  Mem.readLE_congr fun x low high => same (inside x low high)

/-- The same write keeps memories alike. -/
theorem write_eqOn (same : own.EqOn m m') (a : ℕ) (bytes : List UInt8) : own.EqOn (m.write a bytes) (m'.write a bytes) := by
  intro x member
  unfold Mem.write
  rw [same member]

theorem writeLE_eqOn (same : own.EqOn m m') (a n v : ℕ) : own.EqOn (m.writeLE a n v) (m'.writeLE a n v) :=
  write_eqOn same a (toBytes n v)

end

end Biefircate.Shared
