import Biefircate.Proofs.Stage2.MemAllocTotal
import Biefircate.Proofs.Stage2.Shellsort

/-! # Sorting the memory map and searching it

`shellsort` puts the entries of any array of up to `2 ^ 31` of them in order of starting address, whatever lies
in memory after them. On a table in order the search finds the last entry that ends at or below a limit.
-/

namespace Biefircate

/-- `shellsort` ends with the same entries in order. What follows them in memory it neither changes nor reads. -/
theorem shellsort_sorts {mrs : List MemRange} (small : mrs.length ≤ 2 ^ 31) : ∃ out,
    (∀ rest, shellsort (mrs ++ rest) mrs.length = .ok (out ++ rest)) ∧ out.Perm mrs ∧
      out.Pairwise fun a b => a.start ≤ b.start := by
  obtain ⟨out, ran, perm, sorted⟩ := shellsort_spec small
  refine ⟨out, fun rest => ?_, perm, sorted⟩
  rw [shellsort_append rest small, ran]
  rfl

/-- Five entries, two of which start at the same address. -/
def unsortedRanges : List MemRange :=
  [⟨0x5000, 0x1000, 1, 1, 15⟩, ⟨0x1000, 0x1000, 2, 1, 1⟩, ⟨0x3000, 0x1000, 1, 1, 15⟩, ⟨0x1000, 0x2000, 1, 1, 15⟩,
    ⟨0, 0x1000, 1, 1, 15⟩]

theorem shellsort_sorts_sample : ∃ out, (∀ rest, shellsort (unsortedRanges ++ rest) 5 = .ok (out ++ rest)) ∧
    out.Perm unsortedRanges ∧ out.Pairwise fun a b => a.start ≤ b.start :=
  @shellsort_sorts unsortedRanges (by decide)

/-- The entry of greatest index among those that end at or below the limit. -/
structure HighestBelow (mrs : List MemRange) (maxAddr i : ℕ) : Prop where
  below : ∃ mr, mrs[i]? = some mr ∧ mr.stop ≤ maxAddr
  highest : ∀ j mr, mrs[j]? = some mr → mr.stop ≤ maxAddr → j ≤ i

/-- On a table in order, anywhere in the 32-bit address space, the search returns the highest entry below the
limit, or halts if there is none. Nothing else happens. -/
theorem findHighestRangeBelow_exact {m : MemMap} {maxAddr : ℕ} (table : TableOk m.ranges) (nonempty : m.ranges ≠ [])
    (placed : m.base + sizeofMemRange * m.ranges.length ≤ xm32MaxAddr) (positive : 0 < maxAddr)
    (typed : maxAddr < 2 ^ 64) :
    (∃ i, findHighestRangeBelow m.ranges maxAddr = .ok i ∧ HighestBelow m.ranges maxAddr i) ∨
      findHighestRangeBelow m.ranges maxAddr = .error .hlt ∧ ∀ i, ¬ HighestBelow m.ranges maxAddr i := by
  have small : m.ranges.length ≤ 2 ^ 31 := by
    rw [sizeofMemRange, xm32MaxAddr] at placed
    omega
  rcases findHighestRangeBelow_spec table nonempty small positive typed with
    ⟨i, mr, ran, present, below, highest⟩ | ⟨halted, above⟩
  · exact Or.inl ⟨i, ran, ⟨mr, present, below⟩, highest⟩
  · refine Or.inr ⟨halted, ?_⟩
    rintro i ⟨⟨mr, present, below⟩, -⟩
    exact absurd below (not_le.mpr (above mr (List.mem_of_getElem? present)))

/-- Two entries, of which the second begins where the first ends. -/
def adjacentRanges : List MemRange := [⟨0, 0x1000, 1, 1, 15⟩, ⟨0x1000, 0x1000, 2, 1, 1⟩]

theorem findHighestRangeBelow_exact_sample : ∃ i, HighestBelow adjacentRanges 0x2000 i := by
  have table : TableOk adjacentRanges := by
    constructor
    · simp only [adjacentRanges, List.forall_mem_cons]
      exact ⟨⟨by decide, by decide⟩, ⟨by decide, by decide⟩, by simp⟩
    · exact List.pairwise_pair.mpr (by decide)
  rcases @findHighestRangeBelow_exact ⟨adjacentRanges, 16, 0x3000⟩ 0x2000 table (by decide) (by decide) (by decide)
    (by decide) with ⟨i, -, found⟩ | ⟨halted, -⟩
  · exact ⟨i, found⟩
  · cases halted

end Biefircate
