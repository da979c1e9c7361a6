import Biefircate.Soundness.MemoryMap

/-! # The memory map describes the boot parameters

Counting, choosing, carving and copying agree on which ranges count, and sorting changes nothing that an
address can see. So the map says of every address what the boot parameters say, except of its own memory.
-/

namespace Biefircate

/-- A map in order of its starts, within its capacity, that says of every address what the parameters say,
except that its own memory, the top of an available range below 4 GiB, is reserved. -/
structure MemMap.Describes (m : MemMap) (bps : BootParams) : Prop where
  sorted : m.ranges.Pairwise fun low high => low.start ≤ high.start
  nonempty : ∀ mr ∈ m.ranges, 0 < mr.len
  room : m.ranges.length ≤ m.maxRanges
  carved : ∃ r, .mrng r ∈ bps.nodes ∧ r.e820Type = e820Ram ∧ r.stop ≤ xm32MaxAddr ∧
    r.start ≤ m.base ∧ m.base + m.maxRanges * sizeofMemRange = r.stop
  types : ∀ x, typeAt m.ranges x =
    if m.base ≤ x ∧ x < m.base + m.maxRanges * sizeofMemRange then some e820Reserved
    else typeAt (givenRanges bps.nodes) x
  attrs : ∀ x, attrsAt m.ranges x = attrsAt (givenRanges bps.nodes) x

/-- From ranges that keep apart, `mem_map_init` makes a map that describes them, and it halts exactly when no
available range below 4 GiB can hold the map. -/
theorem memMapInit_describes {bps : BootParams}
    (apart : (usedRanges bps.nodes).Pairwise (Span.Apart BdatMemRange.start BdatMemRange.stop)) :
    (∀ m, memMapInit bps.nodes = .ok m → m.Describes bps) ∧
      ((∃ m, memMapInit bps.nodes = .ok m) ∨ memMapInit bps.nodes = .error .hlt) ∧
      (memMapInit bps.nodes = .error .hlt ↔
        ∀ r, .mrng r ∈ bps.nodes → ¬ r.Holds (mapCapacity bps.nodes * sizeofMemRange)) := by
  have size : mapCapacity bps.nodes * sizeofMemRange = 32 * mapCapacity bps.nodes := Nat.mul_comm ..
  refine ⟨?_, ?_, ?_⟩
  · intro m ran
    obtain ⟨_, _, _, _, _, _, _, _, sorted, room⟩ := memMapInit_ok ran
    obtain ⟨before, r, after, given, member, holds, above, top, below, perm⟩ := memMapInit_carved ran
    have separate := givenRanges_apart apart
    rw [given] at separate
    obtain ⟨pieces, inside⟩ := @MemRange.carve_ordered (.ofBdat r) _ above below.le
    have separate' := Span.pairwise_apart_replace separate pieces.pairwise_apart inside
    have own : m.base + m.maxRanges * sizeofMemRange = (MemRange.ofBdat r).stop := by
      rw [Nat.mul_comm]
      exact top
    refine ⟨sorted, memMapInit_forall ran givenRanges_nonempty fun mr valid => valid.nonempty, room,
      ⟨r, member, holds.1, ?_, above, own⟩, ?_, memMapInit_attrs apart ran⟩
    · obtain ⟨_, low, fits, _⟩ := holds
      rw [BdatMemRange.stop]
      omega
    · intro x
      rw [own, given, ← typeAt_carve separate above below.le, typeAt, typeAt, entryAt, entryAt,
        Span.find_perm separate' perm]
  · exact (memMapInit_cases bps).imp And.left And.left
  · rw [size]
    rcases memMapInit_cases bps with ⟨⟨m, ran⟩, r, member, holds⟩ | ⟨halted, none⟩
    · apply iff_of_false (by simp [ran])
      exact fun none => none r member holds
    · exact iff_of_true halted none

/-- The map of the sample is made from the extended memory below 64 MiB. -/
theorem memMapInit_describes_sample : ∃ m, memMapInit sampleParams.nodes = .ok m ∧ m.Describes sampleParams ∧
    m.base + 512 = 0x4000000 := by
  have evaluated : (fun m : MemMap => decide (m.base + 512 = 0x4000000)) <$> memMapInit sampleParams.nodes =
      .ok true := by decide +kernel
  obtain ⟨m, ran, place⟩ := map_eq_ok.mp evaluated
  exact ⟨m, ran, (memMapInit_describes (by decide)).1 m ran, of_decide_eq_true place⟩

end Biefircate
