import Mathlib.Data.List.Basic

/-! # Linked lists in a store

The nodes of a linked list, each at an address of its own, as found by following pointers. A *segment*
leads through the given nodes from one pointer to another. It splits and joins at any node, depends on
its own nodes alone, and is what a walk that stops at the null pointer visits.
-/

namespace Biefircate.LinkedList

variable {α ν : Type*}

/-- From `p` on come the given nodes, and after the last of them the pointer `q`. -/
def Segment (addr : ν → α) (next : α → α) (stored : ν → Prop) : α → List ν → α → Prop
  | p, [], q => p = q
  | p, node :: rest, q => p = addr node ∧ stored node ∧ Segment addr next stored (next p) rest q

variable {addr : ν → α} {next next' : α → α} {stored stored' : ν → Prop} {p q : α} {nodes : List ν}

@[simp] theorem segment_nil : Segment addr next stored p [] q ↔ p = q := Iff.rfl

@[simp] theorem segment_cons {node : ν} : Segment addr next stored p (node :: nodes) q ↔
    p = addr node ∧ stored node ∧ Segment addr next stored (next p) nodes q := Iff.rfl

/-- Segments join and split at any node. -/
theorem segment_append {first second : List ν} : Segment addr next stored p (first ++ second) q ↔
    ∃ middle, Segment addr next stored p first middle ∧ Segment addr next stored middle second q := by
  induction first generalizing p with
  | nil => simp
  | cons node rest ih =>
    rw [List.cons_append, segment_cons, ih]
    constructor
    · rintro ⟨here, held, middle, left, right⟩
      exact ⟨middle, ⟨here, held, left⟩, right⟩
    · rintro ⟨middle, ⟨here, held, left⟩, right⟩
      exact ⟨here, held, middle, left, right⟩

/-- A segment stays as it is when its nodes and their pointers do. -/
theorem Segment.congr (segment : Segment addr next stored p nodes q)
    (links : ∀ node ∈ nodes, next' (addr node) = next (addr node))
    (kept : ∀ node ∈ nodes, stored node → stored' node) : Segment addr next' stored' p nodes q := by
  induction nodes generalizing p with
  | nil => exact segment
  | cons node rest ih =>
    obtain ⟨rfl, held, tail⟩ := segment_cons.mp segment
    refine ⟨rfl, kept node (List.mem_cons_self ..) held, ?_⟩
    rw [links node (List.mem_cons_self ..)]
    exact ih tail (fun other member => links other (List.mem_cons_of_mem _ member))
      fun other member => kept other (List.mem_cons_of_mem _ member)

theorem Segment.forall_stored (segment : Segment addr next stored p nodes q) : ∀ node ∈ nodes, stored node := by
  induction nodes generalizing p with
  | nil => simp
  | cons node rest ih =>
    obtain ⟨_, held, tail⟩ := segment_cons.mp segment
    exact List.forall_mem_cons.mpr ⟨held, ih tail⟩

theorem Segment.start_mem (segment : Segment addr next stored p nodes q) (nonempty : nodes ≠ []) :
    ∃ node ∈ nodes, p = addr node := by
  cases nodes with
  | nil => exact absurd rfl nonempty
  | cons node rest => exact ⟨node, List.mem_cons_self .., segment.1⟩

theorem Segment.start (segment : Segment addr next stored p nodes q) :
    p = q ∨ ∃ node ∈ nodes, p = addr node := by
  cases nodes with
  | nil => exact Or.inl segment
  | cons node rest => exact Or.inr (segment.start_mem (List.cons_ne_nil node rest))

/-- Every pointer leads to another of the nodes or out of the segment. -/
theorem Segment.next_mem (segment : Segment addr next stored p nodes q) : ∀ node ∈ nodes,
    next (addr node) = q ∨ ∃ node' ∈ nodes, next (addr node) = addr node' := by
  induction nodes generalizing p with
  | nil => simp
  | cons node rest ih =>
    obtain ⟨rfl, _, tail⟩ := segment_cons.mp segment
    refine List.forall_mem_cons.mpr ⟨?_, ?_⟩
    · exact tail.start.imp_right fun ⟨other, member, same⟩ => ⟨other, List.mem_cons_of_mem _ member, same⟩
    · intro other member
      apply (ih tail other member).imp_right
      rintro ⟨third, memberThird, same⟩
      exact ⟨third, List.mem_cons_of_mem _ memberThird, same⟩

/-! ## Walks -/

variable [DecidableEq α]

/-- Follow pointers from `p` for at most `fuel` nodes; a walk that has not met the null pointer by
then has no result. -/
def walk (null : α) (next : α → α) (visit : α → ν) : ℕ → α → Option (List ν)
  | 0, p => if p = null then some [] else none
  | fuel + 1, p =>
    if p = null then some [] else (visit p :: ·) <$> walk null next visit fuel (next p)

/-- A walk visits the nodes of the segment that ends in the null pointer, in order, and no others. -/
theorem Segment.walk_eq {null : α} {visit : α → ν} (segment : Segment addr next stored p nodes null)
    (nonnull : ∀ node ∈ nodes, addr node ≠ null) (seen : ∀ node ∈ nodes, visit (addr node) = node)
    {fuel : ℕ} (enough : nodes.length ≤ fuel) : walk null next visit fuel p = some nodes := by
  induction nodes generalizing p fuel with
  | nil => cases fuel <;> simp [walk, segment_nil.mp segment]
  | cons node rest ih =>
    obtain ⟨rfl, _, tail⟩ := segment_cons.mp segment
    obtain ⟨fuel, rfl⟩ := Nat.exists_eq_add_of_lt enough
    have visited := ih tail (fun other member => nonnull other (List.mem_cons_of_mem _ member))
      (fun other member => seen other (List.mem_cons_of_mem _ member)) (Nat.le_add_right rest.length fuel)
    rw [walk, if_neg (nonnull node (List.mem_cons_self ..)), visited, seen node (List.mem_cons_self ..)]
    rfl

/-- A walk that ends takes one step for each node. -/
theorem walk_length {null : α} {visit : α → ν} {fuel : ℕ} (walked : walk null next visit fuel p = some nodes) :
    walk null next visit nodes.length p = some nodes := by
  induction fuel generalizing p nodes with
  | zero =>
    unfold walk at walked
    split at walked
    · cases walked
      simp_all [walk]
    · cases walked
  | succ fuel ih =>
    unfold walk at walked
    split at walked
    · cases walked
      simp_all [walk]
    · next nonnull =>
      obtain ⟨rest, tail, rfl⟩ := Option.map_eq_some_iff.mp walked
      rw [List.length_cons, walk, if_neg nonnull, ih tail]
      rfl

end Biefircate.LinkedList
