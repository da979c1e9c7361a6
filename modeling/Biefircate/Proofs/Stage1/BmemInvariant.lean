import Biefircate.Lib.Run
import Biefircate.Proofs.Stage1.Bmem

/-! # The invariant of base memory allocation

`runtime_bmem_top` never lies strictly inside the free part of a block. Initially the page there is
not available, and `bmem_alloc` only moves it to the end it gives a block. So a boot time region
that starts below the bound also ends below it.
-/

namespace Biefircate

/-- What is known of a region that was given out, in the present state. -/
structure Region.Ok (granted : ℕ → Bool) (s : Bmem) (r : Region) : Prop where
  aligned : r.align ∣ r.start
  low : efiPageSize ≤ r.start
  high : r.stop ≤ bmemMaxAddr
  pages : ∀ x, r.start ≤ x → x < r.stop → granted (x / efiPageSize) = true
  above : r.kind = .runtime → s.runtimeBmemTop ≤ r.start
  below : r.kind = .boottime → r.stop ≤ s.boottimeBmemBot
  under : r.kind = .boottime → r.stop ≤ r.top

/-- What holds between the calls, when the firmware granted the given pages. -/
structure Bmem.Inv (granted : ℕ → Bool) (s : Bmem) : Prop where
  blks : ∀ b ∈ s.blk, b.Ok
  sorted : Span.Ordered Blk.start Blk.origEnd s.blk
  pages : ∀ b ∈ s.blk, ∀ x, b.start ≤ x → x < b.origEnd → granted (x / efiPageSize) = true
  sides : ∀ b ∈ s.blk, s.runtimeBmemTop ≤ b.start ∨ b.bend ≤ s.runtimeBmemTop
  regions : ∀ r ∈ s.returned, r.Ok granted s
  apart : s.returned.Pairwise (Span.Apart Region.start Region.stop)
  free : ∀ b ∈ s.blk, ∀ r ∈ s.returned, r.stop ≤ b.start ∨ b.bend ≤ r.start

/-! ## Cutting a region -/

section

variable {granted : ℕ → Bool} {s t : Bmem} {r : Region} {before after pieces : List Blk} {b : Blk}

/-- A piece of the block that was cut, or another block as it was. -/
theorem Cut.mem_new (cut : Cut s t r before b after pieces) {b' : Blk} :
    b' ∈ t.blk ↔ b' ∈ pieces ∨ b' ∈ before ∨ b' ∈ after := by
  rw [cut.new]
  simp only [List.mem_append]
  tauto

theorem Cut.mem_old (cut : Cut s t r before b after pieces) {b' : Blk} :
    b' ∈ s.blk ↔ b' = b ∨ b' ∈ before ∨ b' ∈ after := by
  rw [cut.old]
  simp only [List.mem_append, List.mem_cons]
  tauto

theorem Cut.blks (cut : Cut s t r before b after pieces) (blks : ∀ b ∈ s.blk, b.Ok) :
    ∀ b ∈ t.blk, b.Ok := by
  intro b' member
  rcases cut.mem_new.mp member with piece | other
  · obtain ⟨low, free, high, origEnd, _⟩ := cut.kept b' piece
    have ok := blks b (cut.mem_old.mpr (Or.inl rfl))
    exact ⟨ok.low.trans low, free, origEnd ▸ high.trans ok.given, origEnd ▸ ok.high⟩
  · exact blks b' (cut.mem_old.mpr (Or.inr other))

theorem Cut.pages (cut : Cut s t r before b after pieces)
    (pages : ∀ b ∈ s.blk, ∀ x, b.start ≤ x → x < b.origEnd → granted (x / efiPageSize) = true) :
    ∀ b ∈ t.blk, ∀ x, b.start ≤ x → x < b.origEnd → granted (x / efiPageSize) = true := by
  intro b' member x low high
  rcases cut.mem_new.mp member with piece | other
  · obtain ⟨start, _, _, origEnd, _⟩ := cut.kept b' piece
    exact pages b (cut.mem_old.mpr (Or.inl rfl)) x (start.trans low) (origEnd ▸ high)
  · exact pages b' (cut.mem_old.mpr (Or.inr other)) x low high

theorem Cut.sorted (cut : Cut s t r before b after pieces)
    (sorted : Span.Ordered Blk.start Blk.origEnd s.blk) : Span.Ordered Blk.start Blk.origEnd t.blk := by
  rw [cut.old] at sorted
  rw [cut.new]
  apply sorted.replace
  · cases pieces with
    | nil => exact List.Pairwise.nil
    | cons piece rest =>
      have none : rest = [] := List.eq_nil_of_length_eq_zero (by simpa using cut.few)
      rw [none]
      exact List.pairwise_singleton _ _
  · intro piece member
    obtain ⟨low, _, _, origEnd, _⟩ := cut.kept piece member
    exact ⟨low, origEnd.le⟩

/-- The other blocks lie on either side of the one that was cut. -/
theorem Cut.other (cut : Cut s t r before b after pieces)
    (sorted : Span.Ordered Blk.start Blk.origEnd s.blk) {b' : Blk} (other : b' ∈ before ∨ b' ∈ after) :
    b'.origEnd ≤ b.start ∨ b.origEnd ≤ b'.start := by
  rw [cut.old] at sorted
  obtain ⟨_, right, across⟩ := Span.ordered_append_iff.mp sorted
  rcases other with early | late
  · exact Or.inl (across b' early b (List.mem_cons_self ..))
  · exact Or.inr ((List.pairwise_cons.mp right).1 b' late)

theorem Cut.free (cut : Cut s t r before b after pieces) (inv : s.Inv granted) :
    ∀ b' ∈ t.blk, ∀ r' ∈ t.returned, r'.stop ≤ b'.start ∨ b'.bend ≤ r'.start := by
  have above := cut.above
  have below := cut.below
  have member := cut.mem_old.mpr (Or.inl rfl)
  have given := (inv.blks b member).given
  intro b' newBlk r' region
  rw [cut.noted] at region
  rcases cut.mem_new.mp newBlk with piece | other
  · obtain ⟨low, _, high, _, clear⟩ := cut.kept b' piece
    rcases List.mem_cons.mp region with rfl | earlier
    · exact clear
    · have := inv.free b member r' earlier
      omega
  · have known := cut.mem_old.mpr (Or.inr other)
    rcases List.mem_cons.mp region with rfl | earlier
    · have side := cut.other inv.sorted other
      have own := (inv.blks b' known).given
      omega
    · exact inv.free b' known r' earlier

theorem Cut.apart (cut : Cut s t r before b after pieces) (inv : s.Inv granted) :
    t.returned.Pairwise (Span.Apart Region.start Region.stop) := by
  rw [cut.noted]
  refine List.pairwise_cons.mpr ⟨?_, inv.apart⟩
  intro r' earlier
  have above := cut.above
  have below := cut.below
  rcases inv.free b (cut.mem_old.mpr (Or.inl rfl)) r' earlier with left | right
  · exact Or.inr (left.trans above)
  · exact Or.inl (below.trans right)

/-- The invariant follows from the cut and from what each allocator does to the two bounds. -/
theorem Cut.inv (cut : Cut s t r before b after pieces) (inv : s.Inv granted)
    (sides : ∀ b ∈ t.blk, t.runtimeBmemTop ≤ b.start ∨ b.bend ≤ t.runtimeBmemTop)
    (top : t.runtimeBmemTop ≤ s.runtimeBmemTop) (bot : s.boottimeBmemBot ≤ t.boottimeBmemBot)
    (above : r.kind = .runtime → t.runtimeBmemTop ≤ r.start)
    (below : r.kind = .boottime → r.stop ≤ t.boottimeBmemBot)
    (under : r.kind = .boottime → r.stop ≤ r.top) : t.Inv granted := by
  have member := cut.mem_old.mpr (Or.inl rfl)
  have ok := inv.blks b member
  have inside := cut.below.trans ok.given
  refine ⟨cut.blks inv.blks, cut.sorted inv.sorted, cut.pages inv.pages, sides, ?_, cut.apart inv,
    cut.free inv⟩
  rw [cut.noted]
  refine List.forall_mem_cons.mpr ⟨?_, ?_⟩
  · refine ⟨cut.aligned, ok.low.trans cut.above, inside.trans ok.high, ?_, above, below, under⟩
    intro x low high
    exact inv.pages b member x (cut.above.trans low) (high.trans_le inside)
  · intro r' earlier
    have old := inv.regions r' earlier
    exact ⟨old.aligned, old.low, old.high, old.pages, fun kind => top.trans (old.above kind),
      fun kind => (old.below kind).trans bot, old.under⟩

end

/-! ## The two allocators -/

section

variable {granted : ℕ → Bool} {s t : Bmem} {size align k a : ℕ}

theorem bmemAlloc_inv (inv : s.Inv granted) (pow : align = 2 ^ k)
    (ran : bmemAlloc s size align = .ok (a, t)) : t.Inv granted := by
  obtain ⟨before, b, after, cut, top, bot, _⟩ := bmemAlloc_ok inv.blks pow ran
  have lowered : t.runtimeBmemTop ≤ s.runtimeBmemTop := top ▸ min_le_right ..
  refine cut.inv inv ?_ lowered bot.ge (fun _ => top ▸ min_le_left ..) (fun kind => by cases kind)
    (fun kind => by cases kind)
  intro b' member
  have above := cut.above
  have known := cut.mem_old.mpr (Or.inl rfl)
  dsimp only at above
  rw [top]
  rcases cut.mem_new.mp member with piece | other
  · obtain rfl := List.mem_singleton.mp piece
    have side := inv.sides b known
    have below := cut.below
    dsimp only [Region.stop] at below ⊢
    omega
  · have side := inv.sides b' (cut.mem_old.mpr (Or.inr other))
    have apart := cut.other inv.sorted other
    have own := (inv.blks b' (cut.mem_old.mpr (Or.inr other))).given
    have given := (inv.blks b known).given
    have below := cut.below
    dsimp only [Region.stop] at below
    omega

theorem bmemAllocBoottime_inv (inv : s.Inv granted) (pow : align = 2 ^ k) (narrow : k < 32)
    (ran : bmemAllocBoottime s size align = .ok (a, t)) : t.Inv granted := by
  obtain ⟨before, b, after, pieces, cut, started, top, bot, _⟩ := bmemAllocBoottime_ok inv.blks pow narrow ran
  have known := cut.mem_old.mpr (Or.inl rfl)
  have side := inv.sides b known
  have above := cut.above
  have below := cut.below
  dsimp only [Region.stop] at above below
  refine cut.inv inv ?_ top.le (bot ▸ le_max_left ..) (fun kind => by cases kind)
    (fun _ => bot ▸ le_max_right ..) (fun _ => by dsimp only [Region.stop]; omega)
  intro b' member
  rw [top]
  rcases cut.mem_new.mp member with piece | other
  · obtain ⟨_, _, high, _, _⟩ := cut.kept b' piece
    omega
  · exact inv.sides b' (cut.mem_old.mpr (Or.inr other))

end

/-- An actual size, and a power of two that the type of the argument can hold. -/
structure BmemCall.Valid (call : BmemCall) : Prop where
  positive : 0 < call.size
  pow : ∃ k < 64, call.align = 2 ^ k

/-- The alignment that `bmem_alloc_boottime` converts to 32 bits survives that. -/
def BmemCall.Narrow (call : BmemCall) : Prop := call.kind = .boottime → call.align < 2 ^ 32

instance (call : BmemCall) : Decidable call.Narrow := inferInstanceAs (Decidable (_ → _))

theorem Bmem.Inv.step {granted : ℕ → Bool} {s t : Bmem} {call : BmemCall} {k : ℕ} (inv : s.Inv granted)
    (pow : call.align = 2 ^ k) (narrow : call.Narrow) (stepped : s.step call = .ok t) : t.Inv granted := by
  obtain ⟨kind, size, align⟩ := call
  obtain ⟨⟨a, _⟩, ran, rfl⟩ := map_eq_ok.mp stepped
  cases kind with
  | runtime => exact bmemAlloc_inv inv pow ran
  | boottime =>
    have below : 2 ^ k < 2 ^ 32 := pow ▸ narrow rfl
    exact bmemAllocBoottime_inv inv pow ((Nat.pow_lt_pow_iff_right (by decide)).mp below) ran

end Biefircate
