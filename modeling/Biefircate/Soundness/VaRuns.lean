import Biefircate.Proofs.Stage2.VaInit
import Biefircate.Proofs.Stage2.VaRuns
import Biefircate.Soundness.MemoryMap

/-! # No page of virtual memory is lost or handed out twice

In whatever order blocks are mapped and unmapped, what was unused after `mem_init` is at any time split among
the unused ranges and the live blocks. The live blocks are mapped to what was asked for, and the unused ranges
are not mapped.
-/

namespace Biefircate

/-- Unused ranges and live blocks share out the pages that `start` has unused, and the page tables agree. -/
structure VaRun.Sound (start : Va) (s : VaRun) : Prop where
  cover : ∀ page, start.HasUnused page ↔ s.va.HasUnused page ∨ ∃ b ∈ s.live, b.HasPage page
  unused : s.va.unused.Pairwise fun vr vr' => ∀ page, vr.HasPage page → ¬ vr'.HasPage page
  live : s.live.Pairwise fun b b' => ∀ page, b.HasPage page → ¬ b'.HasPage page
  clear : ∀ b ∈ s.live, ∀ page, b.HasPage page → ¬ s.va.HasUnused page
  mapped : ∀ b ∈ s.live, ∀ k < b.sz, b.va + k < 2 ^ 32 ∧
    s.va.paging.translate (b.va + k) = some ⟨b.pa + k, true, b.pteFlags⟩
  blank : ∀ va < 2 ^ 32, s.va.HasUnused (va / 2 ^ 12) → s.va.paging.translate va = none

theorem VaRun.Inv.sound {start : Va} {s : VaRun} (inv : s.Inv start) : s.Sound start where
  cover := inv.cover
  unused := inv.ok.apart
  live := inv.apart
  clear := inv.clear
  mapped b member k inside := (inv.mapped b member (Nat.ne_zero_of_lt inside)).translate inv.ok.paging inside
  blank va small unused := by rw [translate_eq inv.ok.paging small, inv.ok.blank _ unused, pteTranslation_zero]

/-- Whenever `mem_init` returns, this holds after every run of calls that return. -/
theorem vaRun_sound {bps : BootParams} {words : ℕ → ℕ} {stale : ℕ} {start : Va} {events : List VaEvent} {s : VaRun}
    (apart : RangesApart bps.nodes) (typed : stale < 2 ^ 32) (valid : ∀ event ∈ events, event.Valid)
    (started : memInit bps.nodes words stale = .ok start) (ran : Run.run VaRun.step ⟨start, []⟩ events = .ok s) :
    s.Sound start :=
  ((VaRun.Inv.init (memInit_ok apart typed started).ready.ok).run valid ran).sound

/-- Blocks that are unmapped in another order than they were mapped in. The first is a large page that ends at
4 GiB, and the third begins and ends within pages. -/
def sampleCalls : List VaEvent :=
  [.map 0x40000000 0x200000 pteCd, .map 0 0 0, .map 0x1234ffff0 0x2000 pteWt, .map 0x2000 0x1000 0, .unmap 2, .unmap 0,
    .map 0xfffffffff000 0x3001 (pteWt ||| pteCd)]

theorem vaRun_sound_sample : ∃ start s, memInit sampleParams.nodes (fun _ => 0) 0 = .ok start ∧
    Run.run VaRun.step ⟨start, []⟩ sampleCalls = .ok s ∧ s.live.length = 3 ∧ s.Sound start := by
  have evaluated : (fun s : VaRun => decide (s.live.length = 3)) <$> (memInit sampleParams.nodes (fun _ => 0) 0 >>=
      fun start => Run.run VaRun.step ⟨start, []⟩ sampleCalls) = .ok true := by decide +kernel
  obtain ⟨s, ran, facts⟩ := map_eq_ok.mp evaluated
  obtain ⟨start, started, ran⟩ := bind_eq_ok.mp ran
  have valid : ∀ event ∈ sampleCalls, event.Valid := by decide
  exact ⟨start, s, started, ran, of_decide_eq_true facts, vaRun_sound (by decide) (by decide) valid started ran⟩

end Biefircate
