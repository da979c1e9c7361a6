import Biefircate.Soundness.BootParams

/-! # The scratch window of base memory

Stage 2 may overwrite base memory from `boottime_bmem_bot` to `runtime_bmem_top`. The allocator
keeps out of it everything it gave out, but an option ROM image that is used in place was not given
out by it, and a bound of 1 MiB does not fit in a segment.
-/

namespace Biefircate

/-- The parameter for the bounds describes a window that nothing else uses. -/
structure Stage1.WindowOk (s : Stage1) : Prop where
  described : ∃ bmem, .bmem bmem ∈ s.nodes
  bounds : ∀ bmem, .bmem bmem ∈ s.nodes →
    bmem.boottimeBmemBotSeg * paraSize = s.bmem.boottimeBmemBot ∧
      bmem.runtimeBmemTopSeg * paraSize = s.bmem.runtimeBmemTop
  large : s.bmem.boottimeBmemBot + 128 * kibyte ≤ s.bmem.runtimeBmemTop
  nodes : ∀ node ∈ s.bparms, node.stop ≤ s.bmem.boottimeBmemBot ∨ s.bmem.runtimeBmemTop ≤ node.addr
  regions : ∀ r ∈ s.bmem.returned, r.stop ≤ s.bmem.boottimeBmemBot ∨ s.bmem.runtimeBmemTop ≤ r.start
  images : ∀ bd, .pcid bd ∈ s.nodes → ImageClear s.bmem bd

/-- If the step is about to use an image in place, the addresses it will record for it lie outside
the window as it is. -/
def Stage1Op.ClearOfWindow (s : Stage1) : Stage1Op → Prop
  | .findRimg _ (some rimg) => ∀ addr bd, s.bparms.getLast? = some ⟨addr, .pcid bd⟩ → bd.rimgSeg = 0 →
      rimg.UsedInPlace → ∀ x, addrToRmSeg rimg.addr * paraSize ≤ x →
        x < addrToRmSeg rimg.addr * paraSize + rimg.sz →
        x < s.bmem.boottimeBmemBot ∨ s.bmem.runtimeBmemTop ≤ x
  | _ => True

/-- What holds before the hand-over when every step is clear of the window. -/
structure Stage1.WindowInv (granted : ℕ → Bool) (s : Stage1) : Prop where
  inv : s.Inv granted
  images : ∀ bd, .pcid bd ∈ s.nodes → ImageClear s.bmem bd
  unbounded : ∀ bmem, .bmem bmem ∉ s.nodes

variable {granted : ℕ → Bool} {s t : Stage1}

/-- A narrower window is clear of more. -/
theorem ImageClear.mono {wide narrow : Bmem} {bd : BdatPciDev} (clear : ImageClear wide bd)
    (bot : wide.boottimeBmemBot ≤ narrow.boottimeBmemBot) (top : narrow.runtimeBmemTop ≤ wide.runtimeBmemTop) :
    ImageClear narrow bd := by
  intro x low high
  rcases clear x low high with under | beyond
  · exact Or.inl (under.trans_le bot)
  · exact Or.inr (top.trans beyond)

/-- A device that was just added has no image. -/
theorem ImageClear.of_size_zero {bmem : Bmem} {bd : BdatPciDev} (none : bd.rimgSz = 0) :
    ImageClear bmem bd := by
  intro x low high
  omega

private theorem Stage1.WindowInv.add {bp : Bparm} (window : s.WindowInv granted) (ran : bparmAdd s bp = .ok t)
    (images : ∀ bd, bp = .pcid bd → bd.rimgSz = 0) (unbounded : ∀ bmem, bp ≠ .bmem bmem) :
    t.WindowInv granted := by
  obtain ⟨inv, a, added⟩ := bparmAdd_ok window.inv ran
  have nodes : t.nodes = s.nodes ++ [bp] := by simp [Stage1.nodes, added.node]
  refine ⟨inv, ?_, ?_⟩
  · intro bd member
    rw [nodes, List.mem_append, List.mem_singleton] at member
    rcases member with old | new
    · exact (window.images bd old).mono added.bot added.top.le
    · exact ImageClear.of_size_zero (images bd new.symm)
  · intro bmem member
    rw [nodes, List.mem_append, List.mem_singleton] at member
    rcases member with old | new
    · exact window.unbounded bmem old
    · exact unbounded bmem new.symm

private theorem Stage1.WindowInv.narrow {bmem : Bmem} (window : s.WindowInv granted)
    (inv : Stage1.Inv granted { s with bmem := bmem })
    (bot : s.bmem.boottimeBmemBot ≤ bmem.boottimeBmemBot)
    (top : bmem.runtimeBmemTop ≤ s.bmem.runtimeBmemTop) :
    Stage1.WindowInv granted { s with bmem := bmem } :=
  ⟨inv, fun bd member => (window.images bd member).mono bot top, window.unbounded⟩

/-- Every operation that is clear of the window keeps the images clear of it. -/
theorem Stage1.WindowInv.step {op : Stage1Op} (window : s.WindowInv granted) (valid : op.Valid)
    (clear : op.ClearOfWindow s) (stepped : s.step op = .ok t) : t.WindowInv granted := by
  have inv := window.inv.step valid stepped
  cases op with
  | bmem call =>
    obtain ⟨kind, size, align⟩ := call
    obtain ⟨k, narrow, pow⟩ := valid
    obtain ⟨bmem, ran, same⟩ := bind_eq_ok.mp stepped
    cases same
    obtain ⟨⟨a, last⟩, allocated, rfl⟩ := map_eq_ok.mp ran
    cases kind with
    | runtime =>
      obtain ⟨_, _, _, _, top, bot, _⟩ := bmemAlloc_ok window.inv.bmem.blks pow allocated
      exact window.narrow inv bot.ge (top.le.trans (min_le_right ..))
    | boottime =>
      obtain ⟨_, _, _, _, _, _, top, bot, _⟩ :=
        bmemAllocBoottime_ok window.inv.bmem.blks pow narrow allocated
      exact window.narrow inv ((le_max_left ..).trans bot.ge) top.le
  | addRsdp rsdp => exact window.add stepped (fun _ same => by cases same) (fun _ same => by cases same)
  | addPciDev pciLocn pciId classIf =>
    exact window.add stepped (fun _ same => by cases same; rfl) (fun _ same => by cases same)
  | findRimg source found =>
    rcases findRimg_ok stepped with rfl | ⟨before, addr, bd, bd', nodes, missing, ran, filled⟩
    · exact window
    · obtain ⟨_, top, bot, image⟩ := getRimgFrom_ok window.inv ran
      have old : ∀ node ∈ before ++ [⟨addr, .pcid bd⟩], node.bp ∈ s.nodes := by
        rw [← nodes]
        exact fun node member => List.mem_map_of_mem member
      have recorded : ImageClear t.bmem bd' := by
        apply image (window.images bd (old ⟨addr, .pcid bd⟩ (by simp)))
        intro rimg present
        subst present
        exact clear addr bd (by simp [nodes]) missing
      refine ⟨inv, ?_, ?_⟩
      · intro bd'' member
        rw [Stage1.nodes, filled, List.map_append, List.mem_append] at member
        rcases member with early | late
        · obtain ⟨node, listed, same⟩ := List.mem_map.mp early
          exact (window.images bd'' (same ▸ old node (List.mem_append_left _ listed))).mono bot top
        · simp only [List.map_cons, List.map_nil, List.mem_singleton, Bparm.pcid.injEq] at late
          exact late ▸ recorded
      · intro bounds member
        rw [Stage1.nodes, filled, List.map_append, List.mem_append] at member
        rcases member with early | late
        · obtain ⟨node, listed, same⟩ := List.mem_map.mp early
          exact window.unbounded bounds (same ▸ old node (List.mem_append_left _ listed))
        · simp at late

/-! ## The hand-over -/

section

variable {descs : List EfiMemoryDescriptor} {ext node uefi our : Stage1}

/-- The bounds that the hand-over found are those it left, before rounding. -/
theorem HandedOver.bounds (handed : HandedOver granted s descs ext node uefi our t) :
    our.bmem.runtimeBmemTop = s.bmem.runtimeBmemTop ∧ s.bmem.boottimeBmemBot ≤ our.bmem.boottimeBmemBot ∧
      t.bmem.runtimeBmemTop ≤ our.bmem.runtimeBmemTop ∧
      our.bmem.boottimeBmemBot ≤ t.bmem.boottimeBmemBot := by
  obtain ⟨a, more, added, _⟩ := handed.filled
  refine ⟨?_, ?_, ?_, ?_⟩
  · rw [handed.growsOur.top, handed.growsUefi.top, added.top, handed.growsExt.top]
  · exact handed.growsExt.bot.trans (added.bot.trans (handed.growsUefi.bot.trans handed.growsOur.bot))
  · exact handed.top ▸ Word.alignDown_le _ _
  · exact handed.bot ▸ Word.le_alignUp (by decide) _

/-- A parameter that is passed on was there before, describes a range, or describes the bounds. -/
theorem HandedOver.mem_nodes (handed : HandedOver granted s descs ext node uefi our t) {bp : Bparm}
    (member : bp ∈ t.nodes) : bp ∈ s.nodes ∨ (∃ r, bp = .mrng r) ∨
      bp = .bmem ⟨addrToRmSeg t.bmem.boottimeBmemBot, addrToRmSeg t.bmem.runtimeBmemTop⟩ := by
  obtain ⟨a, more, _, ranges, _, after⟩ := handed.filled
  obtain ⟨moreExt, nodesExt, rangesExt⟩ := handed.growsExt.nodes
  obtain ⟨other, listed, rfl⟩ := List.mem_map.mp member
  rw [after, nodesExt, List.append_assoc] at listed
  simp only [List.mem_append, List.mem_cons] at listed
  rcases listed with old | new | rfl | late
  · exact Or.inl (List.mem_map_of_mem old)
  · exact Or.inr (Or.inl (rangesExt other new))
  · exact Or.inr (Or.inr rfl)
  · exact Or.inr (Or.inl (ranges other late))

/-- Every node that is passed on lies below the window. -/
theorem HandedOver.node_stop_le (handed : HandedOver granted s descs ext node uefi our t)
    {other : BparmNode} (member : other ∈ t.bparms) : other.stop ≤ t.bmem.boottimeBmemBot := by
  obtain ⟨a, more, _, _, before, after⟩ := handed.filled
  have same : ∃ old ∈ our.bparms, old.stop = other.stop := by
    rw [after] at member
    rw [before]
    rcases List.mem_append.mp member with early | late
    · exact ⟨other, List.mem_append_left _ early, rfl⟩
    · rcases List.mem_cons.mp late with rfl | later
      · exact ⟨_, List.mem_append_right _ (List.mem_cons_self ..), rfl⟩
      · exact ⟨other, List.mem_append_right _ (List.mem_cons_of_mem _ later), rfl⟩
  obtain ⟨old, listed, stop⟩ := same
  obtain ⟨r, present, kind, _, stopR⟩ := handed.invOur.nodes old listed
  have below := (handed.invOur.bmem.regions r present).below kind
  exact stop ▸ stopR ▸ below.trans handed.bounds.2.2.2

end

section

variable {initDescs descs : List EfiMemoryDescriptor} {ops : List Stage1Op} {bmem : Bmem}

/-- In a run whose steps use no image in place inside the window, the window that is passed on is
sound exactly when `runtime_bmem_top` is below 1 MiB by the time of the hand-over. -/
theorem window_ok_iff (valid : ∀ op ∈ ops, op.Valid) (init : bmemInit granted initDescs = .ok bmem)
    (clear : Run.Along Stage1.step (fun u op => op.ClearOfWindow u) ⟨bmem, []⟩ ops)
    (ranOps : Run.run Stage1.step ⟨bmem, []⟩ ops = .ok s) (ran : prepareToHandOver s descs = .ok t) :
    t.WindowOk ↔ s.bmem.runtimeBmemTop < bmemMaxAddr := by
  have window : s.WindowInv granted := by
    refine Run.run_invariant_along (Stage1.WindowInv granted) ?_ clear
      ⟨bmemInit_stage1 init, by simp [Stage1.nodes], by simp [Stage1.nodes]⟩ ranOps
    intro u op v member clearOp windowU stepped
    exact windowU.step (valid op member) clearOp stepped
  obtain ⟨ext, node, uefi, our, handed⟩ := prepareToHandOver_ok window.inv ran
  obtain ⟨sameTop, raised, lowered, rounded⟩ := handed.bounds
  have bounded := window.inv.bounded.1
  have enough := handed.enough
  have passed : .bmem ⟨addrToRmSeg t.bmem.boottimeBmemBot, addrToRmSeg t.bmem.runtimeBmemTop⟩ ∈ t.nodes := by
    obtain ⟨a, more, _, _, _, after⟩ := handed.filled
    simp [Stage1.nodes, after]
  have limit : bmemMaxAddr = 0x100000 := rfl
  constructor
  · intro sound
    by_contra high
    have full : t.bmem.runtimeBmemTop = bmemMaxAddr := by
      rw [handed.top, sameTop, show s.bmem.runtimeBmemTop = bmemMaxAddr by omega]
      rfl
    have segment := (sound.bounds _ passed).2
    rw [full] at segment
    exact absurd segment (show ¬ addrToRmSeg bmemMaxAddr * paraSize = bmemMaxAddr by decide)
  · intro below
    have kib : 128 * kibyte = 0x20000 := rfl
    refine ⟨⟨_, passed⟩, ?_, enough, fun other member => Or.inl (handed.node_stop_le member), ?_, ?_⟩
    · intro bounds member
      rcases handed.mem_nodes member with old | ⟨r, range⟩ | same
      · exact absurd old (window.unbounded bounds)
      · cases range
      · cases same
        refine ⟨addrToRmSeg_mul ?_ (by omega), addrToRmSeg_mul ?_ (by omega)⟩
        · exact handed.bot ▸ Word.dvd_alignUp _ _
        · exact (show paraSize ∣ kibyte by decide).trans (handed.top ▸ Word.dvd_alignDown _ _)
    · rw [handed.returned]
      intro r member
      have ok := handed.invOur.bmem.regions r member
      cases kind : r.kind with
      | runtime => exact Or.inr (lowered.trans (ok.above kind))
      | boottime => exact Or.inl ((ok.below kind).trans rounded)
    · intro bd member
      rcases handed.mem_nodes member with old | ⟨r, range⟩ | same
      · exact (window.images bd old).mono (raised.trans rounded) (lowered.trans sameTop.le)
      · cases range
      · cases same

/-- The image of the sample run is copied, since it lies above 1 MiB. -/
theorem sampleOps_clear (u : Stage1) :
    Run.Along Stage1.step (fun u op => op.ClearOfWindow u) u sampleOps := by
  refine ⟨trivial, fun _ _ => ⟨trivial, fun _ _ => ⟨?_, fun _ _ => ⟨trivial, fun _ _ => ⟨trivial, ?_⟩⟩⟩⟩⟩
  · intro _ _ _ _ used
    exact absurd used.2.2.1 (by decide)
  · exact fun _ _ => trivial

theorem window_ok_sample : ∃ bmem s t, bmemInit sampleGranted sampleDescs = .ok bmem ∧
    Run.run Stage1.step ⟨bmem, []⟩ sampleOps = .ok s ∧ prepareToHandOver s sampleDescs = .ok t ∧
    t.WindowOk := by
  have evaluated : (bmemInit sampleGranted sampleDescs >>= fun bmem =>
      Run.run Stage1.step ⟨bmem, []⟩ sampleOps >>= fun s => prepareToHandOver s sampleDescs >>= fun _ =>
        .ok (decide (s.bmem.runtimeBmemTop < bmemMaxAddr))) = .ok true := by decide +kernel
  obtain ⟨bmem, init, evaluated⟩ := bind_eq_ok.mp evaluated
  obtain ⟨s, ranOps, evaluated⟩ := bind_eq_ok.mp evaluated
  obtain ⟨t, ran, below⟩ := bind_eq_ok.mp evaluated
  exact ⟨bmem, s, t, init, ranOps, ran, (window_ok_iff sampleOps_valid init (sampleOps_clear _) ranOps ran).mpr
    (of_decide_eq_true (Except.ok.inj below))⟩

/-- A machine that keeps a ROM image in boot services memory from 0x20000 to 0x28000. -/
def sampleRomDescs : List EfiMemoryDescriptor :=
  [⟨.conventionalMemory, 0, 1, 0xf⟩, ⟨.runtimeServicesData, 0x1000, 0x1f, 0xf⟩,
    ⟨.bootServicesData, 0x20000, 8, 0xf⟩, ⟨.runtimeServicesData, 0x28000, 0x77, 0xf⟩,
    ⟨.conventionalMemory, 0x100000, 0x3f00, 0xf⟩]

def sampleRomGranted (page : ℕ) : Bool := 1 ≤ page ∧ page < 0x20 ∨ 0x28 ≤ page ∧ page < 0x9f

def sampleRomOps : List Stage1Op :=
  processOnePciIo 0x10 0x11111234 0x03000000 fun source =>
    if source = .pciIo then some ⟨0x20000, 0x8000, some ⟨3, 0x20⟩⟩ else none

/-- The image is used in place, although the window covers it. -/
theorem sample_rom_in_window : ∃ t, stage1 sampleRomGranted sampleRomDescs sampleRomOps sampleRomDescs = .ok t ∧
    ¬ t.WindowOk := by
  have evaluated : (fun t => decide (.pcid ⟨0x10, 0x11111234, 0x03000000, 0x2000, 0x9b00, 0x8000⟩ ∈ t.nodes ∧
      t.bmem.boottimeBmemBot ≤ 0x20000 ∧ 0x20000 < t.bmem.runtimeBmemTop)) <$>
      stage1 sampleRomGranted sampleRomDescs sampleRomOps sampleRomDescs = .ok true := by decide +kernel
  obtain ⟨t, ran, facts⟩ := map_eq_ok.mp evaluated
  obtain ⟨member, bot, top⟩ := of_decide_eq_true facts
  refine ⟨t, ran, fun sound => ?_⟩
  rcases sound.images _ member 0x20000 (by decide) (by decide) with under | beyond
  · omega
  · omega

end

end Biefircate
