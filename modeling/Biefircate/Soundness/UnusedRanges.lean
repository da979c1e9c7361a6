import Biefircate.Proofs.Stage2.FindUnused
import Biefircate.Soundness.MemoryMap

/-! # The unused ranges are the holes of the memory map

Stage 1 always describes address 0, so every page that no entry meets lies above some entry, and the
ranges that `va_init` finds are exactly the maximal runs of such pages between 1 MiB and 4 GiB. The
allocation that makes room for them cuts entries in two, but neither opens nor closes a hole.
-/

namespace Biefircate

/-- A page between 1 MiB and 4 GiB that no entry meets. -/
def Vacant (mrs : List MemRange) (page : ℕ) : Prop :=
  256 ≤ page ∧ page < 2 ^ 20 ∧ ∀ mr ∈ mrs, ¬ mr.Meets page

/-- The ranges are the maximal runs of vacant pages, in increasing order. -/
structure MaximalRuns (mrs : List MemRange) (unused : List VaRange) : Prop where
  pages : ∀ vr ∈ unused, vr.Ok ∧ 0 < vr.len
  apart : unused.Pairwise fun low high => low.stop < high.start
  vacant : ∀ page, Vacant mrs page ↔ ∃ vr ∈ unused, vr.HasPage page
  maximal : ∀ vr ∈ unused, ¬ Vacant mrs (vr.start / 2 ^ 12 - 1) ∧ ¬ Vacant mrs (vr.stop / 2 ^ 12)

/-- Under a map that describes address 0, every vacant page has an entry below it. -/
theorem unusedPage_iff_vacant {mrs : List MemRange} {page : ℕ} (bottom : ∃ mr ∈ mrs, mr.start = 0) :
    UnusedPage mrs page ↔ Vacant mrs page := by
  obtain ⟨mr, member, zero⟩ := bottom
  constructor
  · rintro ⟨low, high, clear, _⟩
    exact ⟨low, high, clear⟩
  · rintro ⟨low, high, clear⟩
    exact ⟨low, high, clear, mr, member, by omega⟩

/-- Ranges of whole pages with something between any two cannot be extended by a page that one of them has. -/
theorem MaximalRuns.of_exact {mrs : List MemRange} {unused : List VaRange}
    (pages : ∀ vr ∈ unused, vr.Ok ∧ 0 < vr.len)
    (apart : unused.Pairwise fun low high => low.stop < high.start)
    (vacant : ∀ page, Vacant mrs page ↔ ∃ vr ∈ unused, vr.HasPage page) : MaximalRuns mrs unused := by
  refine ⟨pages, apart, vacant, ?_⟩
  intro vr member
  obtain ⟨ok, nonempty⟩ := pages vr member
  obtain ⟨first, start⟩ := ok.start
  obtain ⟨size, len⟩ := ok.len
  have low := ok.low
  rw [bmemMaxAddr] at low
  constructor
  · intro before
    obtain ⟨other, member', inside, below⟩ := (vacant _).mp before
    obtain ⟨first', start'⟩ := (pages other member').1.start
    obtain ⟨size', len'⟩ := (pages other member').1.len
    rcases apart_or_of_mem apart member member' with rfl | above | under
    · omega
    · rw [VaRange.stop] at above
      omega
    · rw [VaRange.stop] at below under
      omega
  · intro after
    obtain ⟨other, member', inside, below⟩ := (vacant _).mp after
    obtain ⟨first', start'⟩ := (pages other member').1.start
    obtain ⟨size', len'⟩ := (pages other member').1.len
    rw [VaRange.stop] at inside below
    rcases apart_or_of_mem apart member member' with rfl | above | under
    · rw [VaRange.stop] at below
      omega
    · rw [VaRange.stop] at above
      omega
    · rw [VaRange.stop] at below under
      omega

/-- The unused ranges that `va_init` computes are the maximal runs of pages that the map leaves vacant, and
there is room for all of them. -/
theorem vaInit_unused_maximal {m m' : MemMap} {unused : List VaRange} (ok : m.Ok)
    (bottom : ∃ mr ∈ m.ranges, mr.start = 0) (ran : initUnusedVaRanges m = .ok (unused, m')) :
    MaximalRuns m.ranges unused ∧ unused.length ≤ m.maxRanges ∧
      ∀ words stale s, vaInit m words stale = .ok s → s.unused = unused ∧ s.maxUnused = m.maxRanges := by
  obtain ⟨grown, rfl⟩ := initUnusedVaRanges_ok ok ran
  obtain ⟨pages, apart, found⟩ := grown.findUnused_spec ok
  refine ⟨.of_exact pages apart fun page => ?_, ?_, ?_⟩
  · rw [← unusedPage_iff_vacant bottom, found]
  · calc (findUnused m'.ranges).length ≤ m'.ranges.length := findUnused_length_le _
      _ ≤ m'.maxRanges := grown.ok.room
      _ = m.maxRanges := grown.capacity
  · intro words stale s init
    obtain ⟨⟨_, _⟩, again, init⟩ := bind_eq_ok.mp init
    cases ran.symm.trans again
    obtain ⟨⟨pdpt, map⟩, _, init⟩ := bind_eq_ok.mp init
    obtain ⟨p, _, init⟩ := bind_eq_ok.mp init
    obtain ⟨first, _, init⟩ := bind_eq_ok.mp init
    obtain ⟨p, _, init⟩ := bind_eq_ok.mp init
    obtain ⟨p, _, init⟩ := bind_eq_ok.mp init
    obtain ⟨p, _, init⟩ := bind_eq_ok.mp init
    cases init
    exact ⟨rfl, rfl⟩

/-- Between the extended memory and the reserved page of the sample there is one hole, and above that page
another. -/
theorem vaInit_unused_maximal_sample : ∃ m m' unused, memMapInit sampleParams.nodes = .ok m ∧
    initUnusedVaRanges m = .ok (unused, m') ∧ unused.length = 2 ∧ MaximalRuns m.ranges unused := by
  have evaluated : (fun found : MemMap × List VaRange × MemMap =>
      decide ((∃ mr ∈ found.1.ranges, mr.start = 0) ∧ found.1.ranges.length ≤ found.1.maxRanges ∧
        found.2.1.length = 2)) <$>
      (do
        let m ← memMapInit sampleParams.nodes
        let found ← initUnusedVaRanges m
        return (m, found)) = .ok true := by decide +kernel
  obtain ⟨⟨m, unused, m'⟩, ran, facts⟩ := map_eq_ok.mp evaluated
  obtain ⟨bottom, room, two⟩ := of_decide_eq_true facts
  obtain ⟨m, init, ran⟩ := bind_eq_ok.mp ran
  obtain ⟨⟨unused, m'⟩, found, same⟩ := bind_eq_ok.mp ran
  cases same
  have ok : m.Ok := ⟨memMapInit_table (by decide) init, room⟩
  exact ⟨m, m', unused, init, found, two, (vaInit_unused_maximal ok bottom found).1⟩

end Biefircate
