import Mathlib.Logic.Function.Basic
import Mathlib.Data.Nat.Basic

/-! # A queue in a wrapping ring of slots

The queue runs from the slot at `head` up to, not including, the slot at `tail`, so that one slot
always stays free: a full ring would look like an empty one. Adding at the tail and taking at the
head are the two ends of a list, wherever the queue wraps.
-/

namespace Biefircate.Ring

variable {α : Type} {slot slot' : ℕ → α} {n head tail : ℕ}

/-- The slot after slot `i` of `n`. -/
def next (n i : ℕ) : ℕ := if i + 1 = n then 0 else i + 1

/-- How many slots there are from `head` up to `tail`. -/
def count (n head tail : ℕ) : ℕ := if head ≤ tail then tail - head else tail + n - head

/-- The items of `k` slots from `head` on. -/
def items (slot : ℕ → α) (n : ℕ) : ℕ → ℕ → List α
  | _, 0 => []
  | head, k + 1 => slot head :: items slot n (next n head) k

/-- The items from `head` up to `tail`. -/
def contents (slot : ℕ → α) (n head tail : ℕ) : List α := items slot n head (count n head tail)

theorem next_lt (inside : head < n) : next n head < n := by
  unfold next
  split <;> omega

theorem next_inj (same : next n tail = next n head) : tail = head := by
  unfold next at same
  split at same <;> split at same <;> omega

@[simp] theorem count_self (n head : ℕ) : count n head head = 0 := by simp [count]

theorem count_lt (ti : tail < n) : count n head tail < n := by
  unfold count
  split <;> omega

/-- Moving the head up frees one slot. -/
theorem count_next_head (hi : head < n) (ti : tail < n) (pending : head ≠ tail) :
    count n head tail = count n (next n head) tail + 1 := by
  unfold count next
  split <;> split <;> split <;> omega

/-- Only one free slot is left exactly when the tail would move onto the head. -/
theorem next_tail_eq_head_iff (hi : head < n) (ti : tail < n) :
    next n tail = head ↔ count n head tail = n - 1 := by
  unfold count next
  split <;> split <;> omega

@[simp] theorem items_length (slot : ℕ → α) (n head k : ℕ) : (items slot n head k).length = k := by
  induction k generalizing head with
  | zero => rfl
  | succ k ih => rw [items, List.length_cons, ih]

@[simp] theorem contents_length : (contents slot n head tail).length = count n head tail := items_length ..

@[simp] theorem contents_self (slot : ℕ → α) (n head : ℕ) : contents slot n head head = [] := by
  rw [contents, count_self, items]

/-- Taking from a queue that is not empty. -/
theorem contents_cons (hi : head < n) (ti : tail < n) (pending : head ≠ tail) :
    contents slot n head tail = slot head :: contents slot n (next n head) tail := by
  rw [contents, count_next_head hi ti pending, items, contents]

theorem contents_eq_nil_iff (hi : head < n) (ti : tail < n) : contents slot n head tail = [] ↔ head = tail := by
  constructor
  · intro empty
    by_contra pending
    rw [contents_cons hi ti pending] at empty
    cases empty
  · rintro rfl
    exact contents_self ..

/-- The slots of the queue determine its items. -/
theorem contents_congr (hi : head < n) (ti : tail < n) (same : ∀ i < n, i ≠ tail → slot' i = slot i) :
    contents slot' n head tail = contents slot n head tail := by
  induction k : count n head tail generalizing head with
  | zero => rw [contents, contents, k, items, items]
  | succ k ih =>
    have pending : head ≠ tail := by
      rintro rfl
      rw [count_self] at k
      cases k
    have fewer := count_next_head hi ti pending
    rw [contents_cons hi ti pending, contents_cons hi ti pending, same head hi pending,
      ih (next_lt hi) (by omega)]

/-- Filling the slot at the tail and moving the tail up adds an item, if a slot stays free. -/
theorem contents_append (hi : head < n) (ti : tail < n) (room : next n tail ≠ head)
    (same : ∀ i < n, i ≠ tail → slot' i = slot i) :
    contents slot' n head (next n tail) = contents slot n head tail ++ [slot' tail] := by
  induction k : count n head tail generalizing head with
  | zero =>
    have empty : head = tail := by
      by_contra pending
      have fewer := count_next_head hi ti pending
      omega
    subst empty
    rw [contents_cons hi (next_lt hi) (Ne.symm room), contents_self, contents_self, List.nil_append]
  | succ k ih =>
    have pending : head ≠ tail := by
      rintro rfl
      rw [count_self] at k
      cases k
    have fewer := count_next_head hi ti pending
    have further : next n tail ≠ next n head := fun both => pending (next_inj both).symm
    rw [contents_cons hi (next_lt ti) (Ne.symm room), contents_cons hi ti pending, same head hi pending,
      ih (next_lt hi) further (by omega), List.cons_append]

end Biefircate.Ring
