import Biefircate.Lib.Run

/-! # Validations

A program that checks its input goes on if a condition holds and is rejected otherwise, or looks for something and
gives up where a check fails. The rules here read the condition off a sequence of checks.
-/

namespace Biefircate

section

variable {ω α ε : Type} {Rejects : ω → Prop} {cond more p : Prop} {x y rest : Except ω α} {stop : ω}

/-- The computation goes on as `rest` if the condition holds, and otherwise stops with a rejection. -/
def Demands (Rejects : ω → Prop) (cond : Prop) (x rest : Except ω α) : Prop :=
  cond ∧ x = rest ∨ ¬ cond ∧ ∃ stop, Rejects stop ∧ x = .error stop

namespace Demands

theorem refl (x : Except ω α) : Demands Rejects True x x := .inl ⟨trivial, rfl⟩

theorem congr (demands : Demands Rejects cond x rest) (same : more ↔ cond) : Demands Rejects more x rest :=
  propext same ▸ demands

/-- A check first: the condition has to hold besides what comes after. -/
theorem check [Decidable p] (rejects : Rejects stop) (demands : Demands Rejects cond x rest) :
    Demands Rejects (¬ p ∧ cond) (if p then .error stop else x) rest := by
  by_cases bad : p
  · rw [if_pos bad]
    exact .inr ⟨fun both => both.1 bad, stop, rejects, rfl⟩
  · rw [if_neg bad]
    rcases demands with ⟨holds, same⟩ | ⟨fails, rejected⟩
    · exact .inl ⟨⟨bad, holds⟩, same⟩
    · exact .inr ⟨fun both => fails both.2, rejected⟩

/-- A validation in sequence with the rest. -/
theorem andThen {first : Except ω Unit} (before : Demands Rejects cond first (.ok ())) (after : Demands Rejects more x rest) :
    Demands Rejects (cond ∧ more) (first >>= fun _ => x) rest := by
  rcases before with ⟨holds, rfl⟩ | ⟨fails, stop, rejects, rfl⟩
  · rcases after with ⟨also, same⟩ | ⟨fails, rejected⟩
    · exact .inl ⟨⟨holds, also⟩, same⟩
    · exact .inr ⟨fun both => fails both.2, rejected⟩
  · exact .inr ⟨fun both => fails both.1, stop, rejects, rfl⟩

/-- A validation of every entry of a list. -/
theorem all {cond : ε → Prop} {validate : ε → Except ω Unit} (entries : List ε)
    (each : ∀ entry, Demands Rejects (cond entry) (validate entry) (.ok ())) :
    Demands Rejects (∀ entry ∈ entries, cond entry) (Run.run (fun _ entry => validate entry) () entries) (.ok ()) := by
  induction entries with
  | nil => exact (refl _).congr (iff_of_true (fun _ member => nomatch member) trivial)
  | cons entry entries ih => exact ((each entry).andThen ih).congr List.forall_mem_cons

end Demands

end

/-! ## Searches -/

section

variable {ω α : Type} {P : α → Prop} {p : Prop} {x : Except ω (Option α)}

/-- The search succeeds, with what has the property, if anything has. -/
def Finds (P : α → Prop) (x : Except ω (Option α)) : Prop := ∃ found, x = .ok found ∧ ∀ a, found = some a ↔ P a

namespace Finds

theorem none (absent : ∀ a, ¬ P a) : Finds P (.ok Option.none : Except ω (Option α)) :=
  ⟨_, rfl, fun a => iff_of_false (fun found => nomatch found) (absent a)⟩

theorem some {a : α} (unique : ∀ b, P b ↔ a = b) : Finds P (.ok (Option.some a) : Except ω (Option α)) :=
  ⟨_, rfl, fun b => Option.some_inj.trans (unique b).symm⟩

/-- A search that gives up on a condition, which excludes what is looked for. -/
theorem check [Decidable p] (excludes : p → ∀ a, ¬ P a) (otherwise : ¬ p → Finds P x) :
    Finds P (if p then .ok Option.none else x) := by
  split
  · next here => exact none (excludes here)
  · next past => exact otherwise past

end Finds

end

end Biefircate
