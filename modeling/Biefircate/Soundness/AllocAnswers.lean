import Biefircate.Proofs.Stage2.MemAllocTotal
import Biefircate.Soundness.MemoryMap

/-! # When `mem_alloc` answers

A call is answered when it returns a block or halts, and halts only for want of a range that fits or of a
free entry. On the tables of stage 2 this is so unless entries lie below the limit and none of them fits:
then the scan leaves the table at its lower end.
-/

namespace Biefircate

/-- The call returns or halts, and halts exactly when no available range below the limit can hold the block
or the highest that can would have to be split in a full table. It does not look outside the table. -/
structure AllocReq.Answered (req : AllocReq) (m : MemMap) : Prop where
  ends : (∃ a m', memAlloc m req.sz req.align req.maxAddr = .ok (a, m')) ∨
    memAlloc m req.sz req.align req.maxAddr = .error .hlt
  halts : memAlloc m req.sz req.align req.maxAddr = .error .hlt ↔ (∀ mr ∈ m.ranges, ¬ mr.Fits req) ∨
    m.maxRanges ≤ m.ranges.length ∧ ∃ mr, HighestFit m.ranges req mr ∧ mr.start ≠ mr.blockAt req
  inside : memAlloc m req.sz req.align req.maxAddr ≠ .error .outside

/-- The call is for more than lies below the limit, or no entry lies below it, or some entry fits. -/
def AllocReq.Stops (req : AllocReq) (m : MemMap) : Prop :=
  (allocLimit req.maxAddr < req.sz ∨ ∀ mr ∈ m.ranges, allocLimit req.maxAddr < mr.stop) ∨
    ∃ mr ∈ m.ranges, mr.Fits req

/-- In a table in order there is only one highest range that fits. -/
theorem HighestFit.unique {mrs : List MemRange} {req : AllocReq} {mr mr' : MemRange} (table : TableOk mrs)
    (first : HighestFit mrs req mr) (second : HighestFit mrs req mr') : mr = mr' := by
  have same : mr.start = mr'.start :=
    le_antisymm (second.highest mr first.member first.fits) (first.highest mr' second.member second.fits)
  have covers : ∀ other ∈ mrs, Span.Covers MemRange.start MemRange.stop other other.start := fun other member =>
    ⟨le_rfl, Nat.lt_add_of_pos_right (table.valid other member).nonempty⟩
  exact Span.eq_of_covers table.ordered.pairwise_apart first.member second.member (covers mr first.member)
    (same ▸ covers mr' second.member)

/-- On a table in order, a call is answered exactly when it stops. -/
theorem AllocReq.answered_iff {m : MemMap} {req : AllocReq} (table : TableOk m.ranges) (nonempty : m.ranges ≠ [])
    (small : m.ranges.length ≤ 2 ^ 31) (valid : req.Valid) : req.Answered m ↔ req.Stops m := by
  rcases memAlloc_cases table nonempty small valid with
    ⟨mr, highest, ⟨room, m', ran⟩ | ⟨full, ran⟩⟩ | ⟨none, ⟨early, ran⟩ | ⟨late, ran⟩⟩
  · refine iff_of_true ⟨Or.inl ⟨_, m', ran⟩, ?_, by simp [ran]⟩ (Or.inr ⟨mr, highest.member, highest.fits⟩)
    rw [ran]
    apply iff_of_false (by simp)
    rintro (none | ⟨full, mr', highest', split⟩)
    · exact none mr highest.member highest.fits
    · obtain rfl := highest.unique table highest'
      exact room.elim split (not_lt.mpr full)
  · refine iff_of_true ⟨Or.inr ran, ?_, by simp [ran]⟩ (Or.inr ⟨mr, highest.member, highest.fits⟩)
    obtain ⟨split, full⟩ := not_or.mp full
    exact iff_of_true ran (Or.inr ⟨not_lt.mp full, mr, highest, split⟩)
  · exact iff_of_true ⟨Or.inr ran, iff_of_true ran (Or.inl none), by simp [ran]⟩ (Or.inl early)
  · apply iff_of_false (fun answered => answered.inside ran)
    rintro (early | ⟨mr, member, fits⟩)
    · exact late early
    · exact none mr member fits

/-- On every table that stage 2 can reach, a call is answered exactly when it stops. -/
theorem memAlloc_answered_iff {bps : BootParams} {m : MemMap} {reqs : List AllocReq} {reached : Allocs}
    {req : AllocReq} (apart : RangesApart bps.nodes) (init : memMapInit bps.nodes = .ok m)
    (earlier : ∀ req ∈ reqs, req.Valid) (ran : Run.run Allocs.step ⟨m, []⟩ reqs = .ok reached)
    (valid : req.Valid) : req.Answered reached.map ↔ req.Stops reached.map := by
  have inv := Allocs.Inv.run apart init earlier ran
  obtain ⟨_, _, _, _, _, capacity, _⟩ := memMapInit_ok init
  have bounds := mapCapacity_bounds bps
  refine AllocReq.answered_iff inv.table ?_ ?_ valid
  · intro empty
    have taken := inv.own m.base le_rfl (by omega)
    rw [empty] at taken
    cases taken
  · have room := inv.room
    have size := inv.size
    omega

/-- A page and a small block of the sample are answered one after the other, each from a range that fits. -/
theorem memAlloc_answered_iff_sample : ∃ m reached, memMapInit sampleParams.nodes = .ok m ∧
    Run.run Allocs.step ⟨m, []⟩ [⟨0x1000, 0x1000, 0⟩] = .ok reached ∧
    AllocReq.Answered ⟨0x20, 0x20, 0x100000⟩ reached.map := by
  have evaluated : (fun s : Allocs => decide (∃ mr ∈ s.map.ranges, mr.e820Type = e820Ram ∧ mr.stop ≤ 0x100000 ∧
      mr.start = 0 ∧ 0x20 ≤ mr.stop)) <$> (memMapInit sampleParams.nodes >>= fun m =>
        Run.run Allocs.step ⟨m, []⟩ [⟨0x1000, 0x1000, 0⟩]) = .ok true := by decide +kernel
  obtain ⟨reached, ran, found⟩ := map_eq_ok.mp evaluated
  obtain ⟨m, init, ran⟩ := bind_eq_ok.mp ran
  obtain ⟨mr, member, ram, below, start, large⟩ := of_decide_eq_true found
  have valid : ∀ req ∈ [AllocReq.mk 0x1000 0x1000 0], req.Valid :=
    List.forall_mem_cons.mpr ⟨⟨by decide, by decide, ⟨12, by decide⟩, by decide⟩, by simp⟩
  refine ⟨m, reached, init, ran, ?_⟩
  refine (memAlloc_answered_iff (by decide) init valid ran
    ⟨by decide, by decide, ⟨5, by decide⟩, by decide⟩).mpr (Or.inr ⟨mr, member, ram, below, 0, ?_⟩)
  exact ⟨Nat.dvd_zero _, start.le, large⟩

/-- A request for 256 MiB finds entries below 4 GiB, but none that fits: the scan leaves the table. -/
theorem memAlloc_leaves_table : ∃ m, memMapInit sampleParams.nodes = .ok m ∧ m.ranges ≠ [] ∧
    memAlloc m 0x10000000 0x1000 0 = .error .outside ∧ ¬ AllocReq.Answered ⟨0x10000000, 0x1000, 0⟩ m := by
  have evaluated : (fun m : MemMap => decide (m.ranges ≠ [] ∧ memAlloc m 0x10000000 0x1000 0 = .error .outside)) <$>
      memMapInit sampleParams.nodes = .ok true := by decide +kernel
  obtain ⟨m, init, found⟩ := map_eq_ok.mp evaluated
  obtain ⟨nonempty, left⟩ := of_decide_eq_true found
  exact ⟨m, init, nonempty, left, fun answered => answered.inside left⟩

end Biefircate
