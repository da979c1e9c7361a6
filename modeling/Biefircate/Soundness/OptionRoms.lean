import Biefircate.Proofs.Stage2.MemMapInit
import Biefircate.Soundness.BootParams

/-! # Run time option ROMs are safe from stage 2

Stage 1 never describes memory that it gave out for use at run time as available, and stage 2 only
places its map and its blocks in memory that was described as available. Neither half needs the
described ranges to keep apart, which they do not.
-/

namespace Biefircate

/-! ## What stage 1 describes as available -/

/-- What holds of the ranges described so far: their fields have their C types, and available
memory keeps away from the regions for use at run time. -/
structure Stage1.Passed (s : Stage1) : Prop where
  typed : ∀ r ∈ memRanges s.nodes, r.start < 2 ^ 64 ∧ r.len < 2 ^ 64
  apart : ∀ r ∈ memRanges s.nodes, r.e820Type = e820Ram → ∀ region ∈ s.bmem.returned,
    region.kind = .runtime → r.stop ≤ region.start ∨ region.stop ≤ r.start

variable {granted : ℕ → Bool} {s t : Stage1}

theorem Stage1.Passed.add {start len type ext attr : ℕ} (passed : s.Passed) (inv : s.Inv granted)
    (ran : bparmAddMemRange s start len type ext attr = .ok t) (typed : start < 2 ^ 64 ∧ len < 2 ^ 64)
    (apart : type = e820Ram → ∀ region ∈ s.bmem.returned, region.kind = .runtime →
      start + len ≤ region.start ∨ region.stop ≤ start) : t.Passed := by
  obtain ⟨_, grows⟩ := bparmAddMemRange_inv inv ran
  constructor
  · intro r member
    rcases (mem_memRanges_bparmAddMemRange inv ran).mp member with old | ⟨_, rfl⟩
    · exact passed.typed r old
    · exact typed
  · intro r member ram region present kind
    rw [grows.runtime_iff kind] at present
    rcases (mem_memRanges_bparmAddMemRange inv ran).mp member with old | ⟨_, rfl⟩
    · exact passed.apart r old ram region present kind
    · exact apart ram region present kind

theorem addExtMemBparm_passed {desc : EfiMemoryDescriptor} (passed : s.Passed) (inv : s.Inv granted)
    (typed : desc.physicalStart < 2 ^ 64) (ran : addExtMemBparm s desc = .ok t) : t.Passed := by
  unfold addExtMemBparm at ran
  dsimp only at ran
  split at ran
  · cases ran
    exact passed
  · refine passed.add inv ran ⟨?_, Word.sub_lt ..⟩ ?_
    · split
      · decide
      · exact typed
    · intro _ region present _
      have high := (inv.bmem.regions region present).high
      right
      split <;> omega

theorem EfiMemoryType.e820Type_ne_ram {type : EfiMemoryType} (firmware : ¬ type.isUsable = true) :
    type.e820Type ≠ e820Ram := by
  cases type with
  | loaderCode | loaderData | bootServicesCode | bootServicesData | conventionalMemory =>
    exact absurd rfl firmware
  | other _ => exact show e820Reserved ≠ e820Ram by decide
  | _ => decide

theorem addUefiMemBparm_passed {desc : EfiMemoryDescriptor} (passed : s.Passed) (inv : s.Inv granted)
    (typed : desc.physicalStart < 2 ^ 64) (ran : addUefiMemBparm s desc = .ok t) : t.Passed := by
  unfold addUefiMemBparm at ran
  dsimp only at ran
  split at ran
  · cases ran
    exact passed
  · split at ran
    · cases ran
      exact passed
    · next firmware =>
      refine passed.add inv ran ⟨typed, ?_⟩ fun ram => absurd ram (EfiMemoryType.e820Type_ne_ram firmware)
      have size := Nat.mod_lt (desc.numberOfPages * efiPageSize) (Nat.two_pow_pos 64)
      have limit : bmemMaxAddr = 0x100000 := rfl
      rw [Word.mul]
      split <;> omega

theorem addBlkBparms_passed {left blkIdx : ℕ} (passed : s.Passed) (inv : s.Inv granted)
    (ran : addBlkBparms left blkIdx s = .ok t) : t.Passed := by
  induction left generalizing blkIdx s with
  | zero =>
    cases ran
    exact passed
  | succ left ih =>
    rw [addBlkBparms] at ran
    split at ran
    · obtain ⟨b, loaded, ran⟩ := bind_eq_ok.mp ran
      obtain ⟨u, free, ran⟩ := bind_eq_ok.mp ran
      obtain ⟨v, given, ran⟩ := bind_eq_ok.mp ran
      have member : b ∈ s.bmem.blk := List.mem_of_getElem? (load_eq_ok.mp loaded)
      have ok := inv.bmem.blks b member
      have bounds : b.start ≤ b.bend ∧ b.bend ≤ b.origEnd ∧ b.origEnd ≤ 0x100000 :=
        ⟨ok.free, ok.given, ok.high⟩
      have size : Word.sub 32 b.bend b.start = b.bend - b.start := Word.sub_of_le (by omega) (by omega)
      obtain ⟨invU, _⟩ := bparmAddMemRange_inv inv free
      obtain ⟨invV, _⟩ := bparmAddMemRange_inv invU given
      have passedU : u.Passed := by
        apply passed.add inv free ⟨by omega, by omega⟩
        intro _ region present _
        have clear := inv.bmem.free b member region present
        omega
      refine ih (passedU.add invU given ⟨by omega, ?_⟩ fun ram => by cases ram) invV ran
      exact (Word.sub_lt ..).trans (by decide)
    · cases ran
      exact passed

theorem addOurMemBparms_passed (passed : s.Passed) (inv : s.Inv granted)
    (ran : addOurMemBparms s = .ok t) : t.Passed := by
  obtain ⟨u, base, ran⟩ := bind_eq_ok.mp ran
  obtain ⟨invU, _⟩ := bparmAddMemRange_inv inv base
  have bounded : s.bmem.runtimeBmemTop ≤ 0x100000 := inv.bounded.1
  refine addBlkBparms_passed (passed.add inv base ⟨by decide, by omega⟩ ?_) invU ran
  intro _ region present kind
  have above := (inv.bmem.regions region present).above kind
  omega

/-- Before the hand-over no range is described. -/
theorem Stage1.step_memRanges {op : Stage1Op} (inv : s.Inv granted) (stepped : s.step op = .ok t) :
    memRanges t.nodes = memRanges s.nodes := by
  cases op with
  | bmem call =>
    obtain ⟨bmem, _, same⟩ := bind_eq_ok.mp stepped
    cases same
    rfl
  | addRsdp rsdp =>
    obtain ⟨_, a, added⟩ := bparmAdd_ok inv stepped
    simp [Stage1.nodes, added.node, memRanges]
  | addPciDev pciLocn pciId classIf =>
    obtain ⟨_, a, added⟩ := bparmAdd_ok inv stepped
    simp [Stage1.nodes, added.node, memRanges]
  | findRimg source found =>
    rcases findRimg_ok stepped with rfl | ⟨before, addr, bd, bd', nodes, _, _, filled⟩
    · rfl
    · simp [Stage1.nodes, nodes, filled, memRanges]

theorem run_memRanges {ops : List Stage1Op} (inv : s.Inv granted) (valid : ∀ op ∈ ops, op.Valid)
    (ran : Run.run Stage1.step s ops = .ok t) : memRanges t.nodes = memRanges s.nodes := by
  refine (Run.run_invariant (fun u => u.Inv granted ∧ memRanges u.nodes = memRanges s.nodes) ?_
    ⟨inv, rfl⟩ ran).2
  rintro u op v member ⟨invU, same⟩ stepped
  exact ⟨invU.step (valid op member) stepped, (Stage1.step_memRanges invU stepped).trans same⟩

/-- A loop over the descriptors of a memory map describes no run time memory as available. -/
theorem run_passed {step : Stage1 → EfiMemoryDescriptor → Exec Stage1} {descs : List EfiMemoryDescriptor}
    (grows : ∀ u desc v, u.Inv granted → step u desc = .ok v → v.Inv granted ∧ u.Grows v)
    (passes : ∀ u desc v, u.Passed → u.Inv granted → desc.physicalStart < 2 ^ 64 →
      step u desc = .ok v → v.Passed)
    (typed : ∀ desc ∈ descs, desc.physicalStart < 2 ^ 64) (passed : s.Passed) (inv : s.Inv granted)
    (ran : Run.run step s descs = .ok t) : t.Passed := by
  refine (Run.run_invariant (fun u => u.Inv granted ∧ u.Passed) ?_ ⟨inv, passed⟩ ran).2
  rintro u desc v member ⟨invU, passedU⟩ stepped
  exact ⟨(grows u desc v invU stepped).1, passes u desc v passedU invU (typed desc member) stepped⟩

section

variable {initDescs descs : List EfiMemoryDescriptor} {ops : List Stage1Op}

/-- The parameters that stage 1 passes on are ones that stage 2 can be given, and describe no memory
for use at run time as available. -/
theorem stage1_passed (typed : ∀ desc ∈ descs, desc.physicalStart < 2 ^ 64) (valid : ∀ op ∈ ops, op.Valid)
    (ran : stage1 granted initDescs ops descs = .ok t) :
    t.Passed ∧ bparmBytes t.nodes ≤ bmemMaxAddr := by
  obtain ⟨bmem, s, ext, node, uefi, our, init, ranOps, inv, handed⟩ := stage1_ok valid ran
  have none : memRanges s.nodes = [] := run_memRanges (bmemInit_stage1 init) valid ranOps
  have passed : s.Passed := ⟨by simp [none], by simp [none]⟩
  have passedExt : ext.Passed := run_passed (fun _ _ _ => addExtMemBparm_inv)
    (fun _ _ _ => addExtMemBparm_passed) typed passed inv handed.ranExt
  obtain ⟨a, more, added, _, before, after⟩ := handed.filled
  have passedNode : node.Passed := by
    have same : memRanges node.nodes = memRanges ext.nodes := by
      simp [Stage1.nodes, added.node, memRanges]
    obtain ⟨r, noted, kind⟩ := added.region
    refine ⟨same ▸ passedExt.typed, ?_⟩
    intro range member ram region present runtime
    rw [same] at member
    rcases List.mem_cons.mp (noted ▸ present) with rfl | old
    · exact absurd kind (by rw [runtime]; simp)
    · exact passedExt.apart range member ram region old runtime
  have passedUefi : uefi.Passed := run_passed (fun _ _ _ => addUefiMemBparm_inv)
    (fun _ _ _ => addUefiMemBparm_passed) typed passedNode handed.invNode handed.ranUefi
  have passedOur := addOurMemBparms_passed passedUefi handed.invUefi handed.ranOur
  refine ⟨⟨handed.memRanges_eq ▸ passedOur.typed, ?_⟩, ?_⟩
  · rw [handed.memRanges_eq, handed.returned]
    exact passedOur.apart
  · have spent := (Nat.le_add_right _ _).trans handed.invOur.spent
    simp only [Stage1.nodes, before, after, bparmBytes, List.map_append, List.map_cons, List.sum_append,
      List.sum_cons, Bparm.size] at spent ⊢
    exact spent

end

/-! ## Where stage 2 places its map and its blocks -/

/-- Available entries of the table describe memory that was described as available. -/
def RamWithin (nodes : List Bparm) (mrs : List MemRange) : Prop :=
  ∀ mr ∈ mrs, mr.e820Type = e820Ram → ∀ x, mr.start ≤ x → x < mr.stop →
    ∃ r ∈ memRanges nodes, r.e820Type = e820Ram ∧ r.start ≤ x ∧ x < r.stop

theorem memMapInit_within {bps : BootParams} {m : MemMap} (ran : memMapInit bps.nodes = .ok m) :
    RamWithin bps.nodes m.ranges ∧ ∃ r ∈ memRanges bps.nodes, r.e820Type = e820Ram ∧
      r.start ≤ m.base ∧ m.base + 32 * m.maxRanges ≤ r.stop := by
  obtain ⟨before, r, after, cut, ⟨ram, low, fits, large⟩, _, base, perm, _⟩ := memMapInit_ok ran
  have listed : r ∈ memRanges bps.nodes := mem_memRanges.mpr (by rw [cut]; simp)
  have from_node : ∀ other, .mrng other ∈ bps.nodes → other.e820Type = e820Ram →
      ∀ x, other.start ≤ x → x < other.stop →
        ∃ r ∈ memRanges bps.nodes, r.e820Type = e820Ram ∧ r.start ≤ x ∧ x < r.stop :=
    fun other node ramOther x above below => ⟨other, mem_memRanges.mpr node, ramOther, above, below⟩
  simp only [xm32MaxAddr] at low fits
  constructor
  · intro mr member ramMr x above below
    have member := perm.mem_iff.mp member
    simp only [List.mem_append, List.mem_map] at member
    rcases member with ⟨other, early, rfl⟩ | piece | ⟨other, late, rfl⟩
    · exact from_node other (by rw [cut]; simp [(mem_usedRanges.mp early).1]) ramMr x above below
    · refine ⟨r, listed, ram, ?_⟩
      unfold carveMap MemRange.ofBdat at piece
      dsimp only at piece
      rw [Word.sub_of_le large (by omega)] at piece
      simp only [BdatMemRange.stop]
      split at piece
      · simp only [List.mem_cons, List.not_mem_nil, or_false] at piece
        rcases piece with rfl | rfl
        · simp only [MemRange.stop] at above below
          omega
        · cases ramMr
      · obtain rfl := List.mem_singleton.mp piece
        cases ramMr
    · exact from_node other (by rw [cut]; simp [(mem_usedRanges.mp late).1]) ramMr x above below
  · refine ⟨r, listed, ram, ?_⟩
    simp only [BdatMemRange.stop] at base ⊢
    omega

/-- On any table, an allocation returns available memory and makes none available. -/
theorem memAlloc_within {nodes : List Bparm} {m m' : MemMap} {sz align maxAddr a : ℕ} (fits : sz < 2 ^ 32)
    (within : RamWithin nodes m.ranges) (ran : memAlloc m sz align maxAddr = .ok (a, m')) :
    RamWithin nodes m'.ranges ∧ ∀ x, a ≤ x → x < a + sz →
      ∃ r ∈ memRanges nodes, r.e820Type = e820Ram ∧ r.start ≤ x ∧ x < r.stop := by
  rcases Nat.eq_zero_or_pos sz with rfl | positive
  · cases ran
    exact ⟨within, fun x above below => by omega⟩
  · obtain ⟨top, i, mr, _, _, present, taken, cut⟩ := memAlloc_parts positive.ne' ran
    obtain ⟨before, mr', after, ranges, size, _, _, outcome⟩ := splitRange_ok cut
    obtain rfl : mr' = mr := by
      rw [ranges, ← size, List.getElem?_append_right le_rfl, Nat.sub_self] at present
      exact Option.some.inj present
    obtain ⟨above, inside⟩ := scan_inside fits taken
    obtain ⟨ram, _, _, formula⟩ := scan_eq_take taken
    have small : a < 2 ^ 32 := formula ▸ (Word.and_mask_le ..).trans_lt (Word.sub_lt ..)
    have known : ∀ other ∈ before ++ mr' :: after, other.e820Type = e820Ram → ∀ x, other.start ≤ x →
        x < other.stop → ∃ r ∈ memRanges nodes, r.e820Type = e820Ram ∧ r.start ≤ x ∧ x < r.stop :=
      ranges ▸ within
    refine ⟨?_, fun x low high => known mr' (by simp) ram x (above.trans low) (high.trans_le inside)⟩
    intro other member ramOther x low high
    rcases outcome with ⟨_, out⟩ | ⟨_, _, out⟩ | ⟨_, _, _, out⟩
    · rw [out] at member
      rcases List.mem_append.mp member with early | late
      · exact known other (List.mem_append_left _ early) ramOther x low high
      · rcases List.mem_cons.mp late with rfl | later
        · cases ramOther
        · exact known other (by simp [later]) ramOther x low high
    · rw [out] at member
      rcases List.mem_append.mp member with early | late
      · exact known other (List.mem_append_left _ early) ramOther x low high
      · rcases List.mem_cons.mp late with rfl | later
        · exact known mr' (by simp) ram x low high
        · exact known other (by simp [later]) ramOther x low high
    · rw [out] at member
      rcases List.mem_append.mp member with early | late
      · exact known other (List.mem_append_left _ early) ramOther x low high
      · simp only [List.mem_cons] at late
        rcases late with rfl | rfl | later
        · simp only [MemRange.stop] at high
          rw [Word.sub_of_le above (by omega)] at high
          exact known mr' (by simp) ram x low (by omega)
        · cases ramOther
        · exact known other (by simp [later]) ramOther x low high

section

variable {initDescs descs : List EfiMemoryDescriptor} {ops : List Stage1Op}

/-- Memory that stage 1 gave out for use at run time is described as available by no parameter, and
neither the memory map of stage 2 nor any block that stage 2 allocates overlaps it. -/
theorem runtime_region_safe (typed : ∀ desc ∈ descs, desc.physicalStart < 2 ^ 64)
    (valid : ∀ op ∈ ops, op.Valid) (ran : stage1 granted initDescs ops descs = .ok t) {region : Region}
    (given : region ∈ t.bmem.returned) (kind : region.kind = .runtime) {x : ℕ}
    (low : region.start ≤ x) (high : x < region.stop) :
    (∀ r ∈ memRanges t.nodes, r.e820Type = e820Ram → ¬ (r.start ≤ x ∧ x < r.stop)) ∧
      ∀ m, memMapInit t.nodes = .ok m → ¬ (m.base ≤ x ∧ x < m.base + 32 * m.maxRanges) ∧
        ∀ reqs final, (∀ req ∈ reqs, req.sz < 2 ^ 32) → Run.run Allocs.step ⟨m, []⟩ reqs = .ok final →
          ∀ call ∈ final.calls, ¬ (call.astart ≤ x ∧ x < call.stop) := by
  obtain ⟨passed, bytes⟩ := stage1_passed typed valid ran
  have unavailable : ∀ r ∈ memRanges t.nodes, r.e820Type = e820Ram → ¬ (r.start ≤ x ∧ x < r.stop) := by
    intro r member ram covers
    have apart := passed.apart r member ram region given kind
    omega
  refine ⟨unavailable, ?_⟩
  intro m init
  have fits : bparmBytes t.nodes ≤ xm32MaxAddr - pageSize := bytes.trans (by decide)
  obtain ⟨within, r, member, ram, below, above⟩ := memMapInit_within
    (show memMapInit (BootParams.mk t.nodes passed.typed fits).nodes = .ok m from init)
  refine ⟨fun covers => unavailable r member ram (by omega), ?_⟩
  intro reqs final sizes ranReqs
  refine (Run.run_invariant (fun u : Allocs => RamWithin t.nodes u.map.ranges ∧
    ∀ call ∈ u.calls, ¬ (call.astart ≤ x ∧ x < call.stop)) ?_ ⟨within, by simp⟩ ranReqs).2
  rintro u req v listed ⟨withinU, clear⟩ stepped
  obtain ⟨⟨a, new⟩, allocated, same⟩ := bind_eq_ok.mp stepped
  cases same
  obtain ⟨withinV, inside⟩ := memAlloc_within (sizes req listed) withinU allocated
  refine ⟨withinV, List.forall_mem_cons.mpr ⟨?_, clear⟩⟩
  rintro ⟨start, stop⟩
  obtain ⟨r, member, ram, covers⟩ := inside x start stop
  exact unavailable r member ram covers

/-- The run time image of the sample run is the 16 KiB at 0x9b000. -/
theorem runtime_region_safe_sample : ∃ t, stage1 sampleGranted sampleDescs sampleOps sampleDescs = .ok t ∧
    (∀ r ∈ memRanges t.nodes, r.e820Type = e820Ram → ¬ (r.start ≤ 0x9b000 ∧ 0x9b000 < r.stop)) ∧
    ∃ m, memMapInit t.nodes = .ok m ∧ ¬ (m.base ≤ 0x9b000 ∧ 0x9b000 < m.base + 32 * m.maxRanges) := by
  have evaluated : (stage1 sampleGranted sampleDescs sampleOps sampleDescs >>= fun t =>
      memMapInit t.nodes >>= fun _ =>
        .ok (decide (⟨.runtime, 0x9b000, 0x4000, 0x200, 0x9f000⟩ ∈ t.bmem.returned))) = .ok true := by
    decide +kernel
  obtain ⟨t, ran, evaluated⟩ := bind_eq_ok.mp evaluated
  obtain ⟨m, init, given⟩ := bind_eq_ok.mp evaluated
  obtain ⟨unavailable, stage2⟩ := runtime_region_safe (x := 0x9b000) (by decide) sampleOps_valid ran
    (of_decide_eq_true (Except.ok.inj given)) rfl (by decide) (by decide)
  exact ⟨t, ran, unavailable, m, init, (stage2 m init).1⟩

end

end Biefircate
