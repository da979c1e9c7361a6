import Biefircate.Proofs.Stage1.BmemInit

/-! # Base memory over any run of the two allocators

From the state that `bmem_init` leaves, the two allocators keep the regions they give out apart and
on their own sides of the two bounds, in any order of calls, as long as the alignments passed to
`bmem_alloc_boottime` fit in 32 bits. A wider power of two is converted to zero, which gives out
address 0.
-/

namespace Biefircate

/-- What callers of the base memory allocators may rely on. -/
structure Bmem.Sound (granted : ℕ → Bool) (s : Bmem) : Prop where
  apart : s.returned.Pairwise (Span.Apart Region.start Region.stop)
  aligned : ∀ r ∈ s.returned, r.align ∣ r.start
  inside : ∀ r ∈ s.returned, ∀ x, r.start ≤ x → x < r.stop →
    x < bmemMaxAddr ∧ granted (x / efiPageSize) = true ∧ x / efiPageSize ≠ 0
  sorted : Span.Ordered Blk.start Blk.origEnd s.blk
  ordered : ∀ b ∈ s.blk, b.start ≤ b.bend ∧ b.bend ≤ b.origEnd
  free : ∀ b ∈ s.blk, ∀ r ∈ s.returned, r.stop ≤ b.start ∨ b.bend ≤ r.start
  sides : ∀ b ∈ s.blk, s.runtimeBmemTop ≤ b.start ∨ b.bend ≤ s.runtimeBmemTop
  above : ∀ r ∈ s.returned, r.kind = .runtime → s.runtimeBmemTop ≤ r.start
  below : ∀ r ∈ s.returned, r.kind = .boottime → r.stop ≤ s.boottimeBmemBot
  under : ∀ r ∈ s.returned, r.kind = .boottime → r.stop ≤ r.top

variable {granted : ℕ → Bool}

theorem Bmem.Inv.sound {s : Bmem} (inv : s.Inv granted) : s.Sound granted where
  apart := inv.apart
  aligned r member := (inv.regions r member).aligned
  inside r member x low high := by
    have ok := inv.regions r member
    refine ⟨high.trans_le ok.high, ok.pages x low high, ?_⟩
    exact (Nat.div_pos (ok.low.trans low) (by decide)).ne'
  sorted := inv.sorted
  ordered b member := ⟨(inv.blks b member).free, (inv.blks b member).given⟩
  free := inv.free
  sides := inv.sides
  above r member := (inv.regions r member).above
  below r member := (inv.regions r member).below
  under r member := (inv.regions r member).under

/-- Regions given out stay given out. -/
private theorem run_keeps {s t : Bmem} {calls : List BmemCall} {r : Region} (member : r ∈ s.returned)
    (ran : Run.run Bmem.step s calls = .ok t) : r ∈ t.returned := by
  refine Run.run_invariant (fun u => r ∈ u.returned) ?_ member ran
  intro u call v _ present stepped
  obtain ⟨r', noted, _⟩ := Bmem.step_noted stepped
  rw [noted]
  exact List.mem_cons_of_mem _ present

/-- A call with an alignment beyond 32 bits leaves a region at address 0. -/
private theorem run_wide {s t : Bmem} {calls : List BmemCall} {call : BmemCall} {k : ℕ}
    (member : call ∈ calls) (kind : call.kind = .boottime) (pow : call.align = 2 ^ k) (wide : 32 ≤ k)
    (ran : Run.run Bmem.step s calls = .ok t) :
    ∃ r ∈ t.returned, r.start = 0 ∧ r.size = call.size := by
  obtain ⟨first, rest, rfl⟩ := List.append_of_mem member
  obtain ⟨u, _, ran⟩ := Run.run_append_eq_ok.mp ran
  obtain ⟨v, stepped, ran⟩ := Run.run_cons_eq_ok.mp ran
  obtain ⟨_, size, align⟩ := call
  subst kind
  obtain ⟨⟨a, _⟩, allocated, rfl⟩ := map_eq_ok.mp stepped
  obtain ⟨_, noted⟩ := bmemAllocBoottime_wide pow wide allocated
  exact ⟨_, run_keeps (by rw [noted]; exact List.mem_cons_self ..) ran, rfl, rfl⟩

/-- From any state that `bmem_init` leaves, a run of calls keeps all the guarantees exactly when no
alignment passed to `bmem_alloc_boottime` is cut off. -/
theorem bmem_run_sound_iff {descs : List EfiMemoryDescriptor} {start final : Bmem} {calls : List BmemCall}
    (init : bmemInit granted descs = .ok start) (valid : ∀ call ∈ calls, call.Valid)
    (ran : Run.run Bmem.step start calls = .ok final) :
    final.Sound granted ↔ ∀ call ∈ calls, call.Narrow := by
  constructor
  · intro sound call member kind
    by_contra wide
    obtain ⟨k, _, pow⟩ := (valid call member).pow
    have large : 32 ≤ k := (Nat.pow_le_pow_iff_right (by decide)).mp (pow ▸ not_lt.mp wide)
    obtain ⟨r, present, zero, size⟩ := run_wide member kind pow large ran
    have positive := (valid call member).positive
    obtain ⟨_, _, page⟩ := sound.inside r present 0 zero.le (by rw [Region.stop]; omega)
    exact page rfl
  · intro narrow
    refine Bmem.Inv.sound (Run.run_invariant (Bmem.Inv granted) ?_ (bmemInit_ok init).1 ran)
    intro s call t member inv stepped
    obtain ⟨k, _, pow⟩ := (valid call member).pow
    exact inv.step pow (narrow call member) stepped

/-- A machine whose firmware granted all of the pages from 1 to 0x9e and reports them so. -/
def sampleDescs : List EfiMemoryDescriptor :=
  [⟨.conventionalMemory, 0, 1, 0xf⟩, ⟨.runtimeServicesData, 0x1000, 0x9e, 0xf⟩,
    ⟨.conventionalMemory, 0x100000, 0x3f00, 0xf⟩]

def sampleGranted (page : ℕ) : Bool := 1 ≤ page ∧ page < 0x9f

theorem bmem_run_sound_sample : ∃ start final, bmemInit sampleGranted sampleDescs = .ok start ∧
    Run.run Bmem.step start [⟨.boottime, 36, 8⟩, ⟨.runtime, 0x8000, 0x800⟩, ⟨.boottime, 0x200, 0x200⟩] =
      .ok final ∧ final.Sound sampleGranted := by
  obtain ⟨final, ran⟩ := exists_of_isOk (x := bmemInit sampleGranted sampleDescs >>= fun s =>
    Run.run Bmem.step s [⟨.boottime, 36, 8⟩, ⟨.runtime, 0x8000, 0x800⟩, ⟨.boottime, 0x200, 0x200⟩])
    (by decide +kernel)
  obtain ⟨start, init, ran⟩ := bind_eq_ok.mp ran
  have valid : ∀ call ∈ [BmemCall.mk .boottime 36 8, ⟨.runtime, 0x8000, 0x800⟩, ⟨.boottime, 0x200, 0x200⟩],
      call.Valid :=
    List.forall_mem_cons.mpr ⟨⟨by decide, 3, by decide⟩, List.forall_mem_cons.mpr
      ⟨⟨by decide, 11, by decide⟩, List.forall_mem_cons.mpr ⟨⟨by decide, 9, by decide⟩, by simp⟩⟩⟩
  exact ⟨start, final, init, ran, (bmem_run_sound_iff init valid ran).mpr (by decide)⟩

/-- A single call with alignment 2 ^ 32 gives out address 0, which was not granted. -/
theorem bmem_run_wide_unsound : ∃ start final, bmemInit sampleGranted sampleDescs = .ok start ∧
    Run.run Bmem.step start [⟨.boottime, 36, 2 ^ 32⟩] = .ok final ∧ ¬ final.Sound sampleGranted := by
  obtain ⟨final, ran⟩ := exists_of_isOk (x := bmemInit sampleGranted sampleDescs >>= fun s =>
    Run.run Bmem.step s [⟨.boottime, 36, 2 ^ 32⟩]) (by decide +kernel)
  obtain ⟨start, init, ran⟩ := bind_eq_ok.mp ran
  obtain ⟨r, present, zero, size⟩ := run_wide (List.mem_singleton_self _) rfl rfl le_rfl ran
  refine ⟨start, final, init, ran, fun sound => ?_⟩
  obtain ⟨_, _, page⟩ := sound.inside r present 0 zero.le (by rw [Region.stop, zero, size]; decide)
  exact page rfl

end Biefircate
