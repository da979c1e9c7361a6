import Mathlib.Data.List.Basic
import Mathlib.Logic.Function.Basic

/-! # Chained hash tables

A table keeps its entries in chains, each entry in the chain for the hash of its key, the latest first. Looking for a
key in its chain is looking for it among all entries ever made, from the latest on.
-/

namespace Biefircate.HashTable

variable {κ ν : Type} {hash : κ → ℕ} {key : ν → κ} {table : ℕ → List ν} {entries : List ν} {entry : ν}

/-- The chains of a table hold these entries. -/
def Represents (hash : κ → ℕ) (key : ν → κ) (table : ℕ → List ν) (entries : List ν) : Prop :=
  ∀ bucket, table bucket = entries.filter fun entry => decide (hash (key entry) = bucket)

theorem represents_empty : Represents hash key (fun _ => []) [] := fun _ => rfl

/-- A new entry comes first in its chain. -/
theorem Represents.insert (represents : Represents hash key table entries) (entry : ν) :
    Represents hash key (Function.update table (hash (key entry)) (entry :: table (hash (key entry)))) (entry :: entries) := by
  intro bucket
  rw [List.filter_cons]
  by_cases here : hash (key entry) = bucket
  · subst here
    rw [Function.update_self, represents]
    simp
  · rw [Function.update_of_ne (Ne.symm here), represents, if_neg (by simpa using here)]

/-- The chain for the hash of a key has the latest entry for it. -/
theorem Represents.find? [DecidableEq κ] (represents : Represents hash key table entries) (k : κ) :
    (table (hash k)).find? (fun entry => decide (key entry = k)) = entries.find? fun entry => decide (key entry = k) := by
  rw [represents, List.find?_filter]
  congr 1
  funext entry
  by_cases same : key entry = k <;> simp [same]

end Biefircate.HashTable
