import Mathlib.Algebra.GroupWithZero.Nat
import Mathlib.Data.List.Pairwise
import Mathlib.Order.Lattice
import Mathlib.Order.Nat

/-! # Tables of half-open spans

Items of any type that carry a lower and an upper end in a linear order. A table is *ordered*
when each item ends no later than every later one starts. Items that keep apart have at most one among
them at a point; sorting puts them in order; and both properties stay when an item is cut into smaller
ones in place.
-/

namespace Biefircate.Span

variable {α β : Type*} [LinearOrder β] (lo hi : α → β)

/-- The point lies in the item's span. -/
def Covers (a : α) (x : β) : Prop := lo a ≤ x ∧ x < hi a

instance (a : α) (x : β) : Decidable (Covers lo hi a x) := inferInstanceAs (Decidable (_ ∧ _))

/-- One of the two spans ends before the other begins. -/
def Apart (a b : α) : Prop := hi a ≤ lo b ∨ hi b ≤ lo a

instance (a b : α) : Decidable (Apart lo hi a b) := inferInstanceAs (Decidable (_ ∨ _))

/-- Spans in increasing order, none meeting another. -/
def Ordered (items : List α) : Prop := items.Pairwise fun a b => hi a ≤ lo b

/-- The first item covering a point. -/
def find (items : List α) (x : β) : Option α := items.find? fun a => decide (Covers lo hi a x)

variable {lo hi}

theorem Apart.symm {a b : α} (apart : Apart lo hi a b) : Apart lo hi b a := Or.symm apart

theorem Apart.not_covers {a b : α} (apart : Apart lo hi a b) {x : β} (inside : Covers lo hi a x) :
    ¬ Covers lo hi b x := by
  rintro ⟨above, below⟩
  rcases apart with before | after
  · exact absurd (lt_of_lt_of_le inside.2 before) (not_lt.mpr above)
  · exact absurd (lt_of_lt_of_le below after) (not_lt.mpr inside.1)

/-- Two spans without a common point keep apart, when neither is empty. -/
theorem apart_of_not_covers {a b : α} (left : lo a < hi a) (right : lo b < hi b)
    (separate : ∀ x, Covers lo hi a x → ¬ Covers lo hi b x) : Apart lo hi a b := by
  by_contra meet
  simp only [Apart, not_or, not_le] at meet
  rcases le_total (lo a) (lo b) with first | first
  · exact separate (lo b) ⟨first, meet.1⟩ ⟨le_rfl, right⟩
  · exact separate (lo a) ⟨le_rfl, left⟩ ⟨first, meet.2⟩

theorem Ordered.pairwise_apart {items : List α} (ordered : Ordered lo hi items) :
    items.Pairwise (Apart lo hi) := List.Pairwise.imp Or.inl ordered

/-- Sorting by lower end puts items that keep apart in order. -/
theorem ordered_of_sorted {items : List α} (sorted : items.Pairwise fun a b => lo a ≤ lo b)
    (apart : items.Pairwise (Apart lo hi)) (nonempty : ∀ a ∈ items, lo a < hi a) :
    Ordered lo hi items := by
  apply (sorted.and apart).imp_of_mem
  rintro a b _ memberB ⟨before, left | right⟩
  · exact left
  · exact absurd (lt_of_lt_of_le (nonempty b memberB) right) (not_lt.mpr before)

/-- Of items that keep apart, at most one covers a point. -/
theorem eq_of_covers {items : List α} (apart : items.Pairwise (Apart lo hi)) {a b : α} {x : β}
    (memberA : a ∈ items) (memberB : b ∈ items) (insideA : Covers lo hi a x)
    (insideB : Covers lo hi b x) : a = b := by
  have : Std.Symm (Apart lo hi) := ⟨fun _ _ => Apart.symm⟩
  by_contra different
  exact (apart.forall memberA memberB different).not_covers insideA insideB

/-- Among items that keep apart, lookup is membership. -/
theorem find_eq_some_iff {items : List α} (apart : items.Pairwise (Apart lo hi)) {a : α} {x : β} :
    find lo hi items x = some a ↔ a ∈ items ∧ Covers lo hi a x := by
  constructor
  · intro found
    exact ⟨List.mem_of_find?_eq_some found, by simpa using List.find?_some found⟩
  · rintro ⟨member, inside⟩
    cases found : find lo hi items x with
    | none => exact absurd inside (by simpa using List.find?_eq_none.mp found a member)
    | some b =>
      have insideB : Covers lo hi b x := by simpa using List.find?_some found
      rw [eq_of_covers apart member (List.mem_of_find?_eq_some found) inside insideB]

/-- The order of the items does not matter to lookup. -/
theorem find_perm {items items' : List α} (apart : items.Pairwise (Apart lo hi)) (perm : items'.Perm items)
    (x : β) : find lo hi items' x = find lo hi items x := by
  have apart' : items'.Pairwise (Apart lo hi) := perm.symm.pairwise apart fun first => first.symm
  apply Option.ext
  intro a
  rw [find_eq_some_iff apart', find_eq_some_iff apart, perm.mem_iff]

theorem find_eq_none_iff {items : List α} {x : β} :
    find lo hi items x = none ↔ ∀ a ∈ items, ¬ Covers lo hi a x := by
  simp [find, List.find?_eq_none]

theorem ordered_append_iff {first second : List α} :
    Ordered lo hi (first ++ second) ↔ Ordered lo hi first ∧ Ordered lo hi second ∧
      ∀ a ∈ first, ∀ b ∈ second, hi a ≤ lo b := List.pairwise_append

/-- Cut one item in place: the table stays ordered if the pieces are, within the item's span. -/
theorem Ordered.replace {before after pieces : List α} {item : α}
    (ordered : Ordered lo hi (before ++ item :: after)) (cut : Ordered lo hi pieces)
    (inside : ∀ piece ∈ pieces, lo item ≤ lo piece ∧ hi piece ≤ hi item) :
    Ordered lo hi (before ++ (pieces ++ after)) := by
  obtain ⟨left, right, across⟩ := ordered_append_iff.mp ordered
  obtain ⟨head, tail⟩ := List.pairwise_cons.mp right
  refine ordered_append_iff.mpr ⟨left, ordered_append_iff.mpr ⟨cut, tail, ?_⟩, ?_⟩
  · intro piece member b later
    exact (inside piece member).2.trans (head b later)
  · intro a earlier b member
    rcases List.mem_append.mp member with piece | later
    · exact (across a earlier item (List.mem_cons_self ..)).trans (inside b piece).1
    · exact across a earlier b (List.mem_cons_of_mem _ later)

/-- The same cut for spans in any order that merely keep apart. -/
theorem pairwise_apart_replace {before after pieces : List α} {item : α}
    (apart : (before ++ item :: after).Pairwise (Apart lo hi)) (cut : pieces.Pairwise (Apart lo hi))
    (inside : ∀ piece ∈ pieces, lo item ≤ lo piece ∧ hi piece ≤ hi item) :
    (before ++ (pieces ++ after)).Pairwise (Apart lo hi) := by
  have shrink : ∀ piece ∈ pieces, ∀ b, Apart lo hi item b → Apart lo hi piece b := by
    rintro piece member b (ends | starts)
    · exact Or.inl ((inside piece member).2.trans ends)
    · exact Or.inr (starts.trans (inside piece member).1)
  obtain ⟨left, right, across⟩ := List.pairwise_append.mp apart
  obtain ⟨head, tail⟩ := List.pairwise_cons.mp right
  refine List.pairwise_append.mpr ⟨left, List.pairwise_append.mpr ⟨cut, tail, ?_⟩, ?_⟩
  · intro piece member b later
    exact shrink piece member b (head b later)
  · intro a earlier b member
    rcases List.mem_append.mp member with piece | later
    · exact (shrink b piece a (across a earlier item (List.mem_cons_self ..)).symm).symm
    · exact across a earlier b (List.mem_cons_of_mem _ later)

/-- Away from the item that is cut, lookup does not change. -/
theorem find_replace_of_not_covers {before after pieces : List α} {item : α}
    (apart : (before ++ item :: after).Pairwise (Apart lo hi)) (cut : pieces.Pairwise (Apart lo hi))
    (inside : ∀ piece ∈ pieces, lo item ≤ lo piece ∧ hi piece ≤ hi item) {x : β}
    (outside : ¬ Covers lo hi item x) :
    find lo hi (before ++ (pieces ++ after)) x = find lo hi (before ++ item :: after) x := by
  apply Option.ext
  intro a
  rw [find_eq_some_iff (pairwise_apart_replace apart cut inside), find_eq_some_iff apart]
  simp only [List.mem_append, List.mem_cons]
  constructor
  · rintro ⟨early | piece | late, covers⟩
    · exact ⟨Or.inl early, covers⟩
    · have bounds := inside a piece
      exact absurd ⟨bounds.1.trans covers.1, lt_of_lt_of_le covers.2 bounds.2⟩ outside
    · exact ⟨Or.inr (Or.inr late), covers⟩
  · rintro ⟨early | same | late, covers⟩
    · exact ⟨Or.inl early, covers⟩
    · exact absurd (same ▸ covers) outside
    · exact ⟨Or.inr (Or.inr late), covers⟩

/-- Within it, the piece that covers the point is found. -/
theorem find_replace_of_covers {before after pieces : List α} {item piece : α}
    (apart : (before ++ item :: after).Pairwise (Apart lo hi)) (cut : pieces.Pairwise (Apart lo hi))
    (inside : ∀ piece ∈ pieces, lo item ≤ lo piece ∧ hi piece ≤ hi item) (member : piece ∈ pieces) {x : β}
    (covers : Covers lo hi piece x) : find lo hi (before ++ (pieces ++ after)) x = some piece :=
  (find_eq_some_iff (pairwise_apart_replace apart cut inside)).mpr
    ⟨List.mem_append_right _ (List.mem_append_left _ member), covers⟩

/-- An ordered table of spans of naturals is no longer than what it lies in. -/
theorem Ordered.sum_le {items : List α} {lo hi : α → ℕ} (ordered : Ordered lo hi items) (low high : ℕ)
    (inside : ∀ a ∈ items, low ≤ lo a ∧ lo a ≤ hi a ∧ hi a ≤ high) (fits : low ≤ high) :
    low + (items.map fun a => hi a - lo a).sum ≤ high := by
  induction items generalizing low with
  | nil => exact fits
  | cons a rest ih =>
    obtain ⟨head, tail⟩ := List.pairwise_cons.mp ordered
    obtain ⟨above, whole, below⟩ := inside a (List.mem_cons_self ..)
    have later : hi a + (rest.map fun a => hi a - lo a).sum ≤ high := by
      refine ih tail (hi a) ?_ below
      intro b member
      exact ⟨head b member, (inside b (List.mem_cons_of_mem _ member)).2⟩
    simp only [List.map_cons, List.sum_cons]
    omega

end Biefircate.Span
