import Biefircate.Proofs.Stage1.HandOver
import Biefircate.Soundness.BaseMemory

/-! # The memory ranges that stage 1 passes on

The firmware reports the pages that `bmem_init` took as run time services data, so stage 1 passes
them on as reserved memory. The same memory below `runtime_bmem_top` it also passes on as available.
The node for the bounds of base memory always lies there.
-/

namespace Biefircate

/-- A memory map of the firmware, which reports the granted pages under the type they were
allocated as. -/
structure UefiMap (granted : ℕ → Bool) (descs : List EfiMemoryDescriptor) : Prop where
  aligned : ∀ desc ∈ descs, efiPageSize ∣ desc.physicalStart
  short : ∀ desc ∈ descs, desc.numberOfPages < 2 ^ 52
  bounded : ∀ desc ∈ descs, desc.physicalStart + desc.numberOfPages * efiPageSize ≤ 2 ^ 64
  apart : descs.Pairwise (Span.Apart EfiMemoryDescriptor.physicalStart
    fun desc => desc.physicalStart + desc.numberOfPages * efiPageSize)
  reported : ∀ page, granted page = true → page < bmemMaxAddr / efiPageSize →
    ∃ desc ∈ descs, desc.type = .runtimeServicesData ∧ desc.physicalStart ≤ page * efiPageSize ∧
      (page + 1) * efiPageSize ≤ desc.physicalStart + desc.numberOfPages * efiPageSize

/-- No address lies in two of the ranges. -/
def RangesDisjoint (nodes : List Bparm) : Prop :=
  (memRanges nodes).Pairwise (Span.Apart BdatMemRange.start BdatMemRange.stop)

instance (nodes : List Bparm) : Decidable (RangesDisjoint nodes) :=
  inferInstanceAs (Decidable (List.Pairwise _ _))

variable {granted : ℕ → Bool} {s t : Stage1}

theorem RangesDisjoint.eq_of_covers {nodes : List Bparm} (disjoint : RangesDisjoint nodes)
    {low high : BdatMemRange} {x : ℕ} (memberLow : low ∈ memRanges nodes) (memberHigh : high ∈ memRanges nodes)
    (coversLow : Span.Covers BdatMemRange.start BdatMemRange.stop low x)
    (coversHigh : Span.Covers BdatMemRange.start BdatMemRange.stop high x) : low = high := by
  have : Std.Symm (Span.Apart BdatMemRange.start BdatMemRange.stop) := ⟨fun _ _ => Span.Apart.symm⟩
  by_contra different
  exact (disjoint.forall memberLow memberHigh different).not_covers coversLow coversHigh

/-- A page of the firmware's own below 1 MiB is passed on as reserved. -/
theorem addUefiMemBparms_reserved {descs : List EfiMemoryDescriptor} {desc : EfiMemoryDescriptor} {x : ℕ}
    (inv : s.Inv granted) (ran : Run.run addUefiMemBparm s descs = .ok t) (member : desc ∈ descs)
    (type : desc.type = .runtimeServicesData) (short : desc.numberOfPages < 2 ^ 52)
    (below : x < bmemMaxAddr) (low : desc.physicalStart ≤ x)
    (high : x < desc.physicalStart + desc.numberOfPages * efiPageSize) :
    ∃ r ∈ memRanges t.nodes, r.e820Type = e820Reserved ∧
      Span.Covers BdatMemRange.start BdatMemRange.stop r x := by
  obtain ⟨first, rest, rfl⟩ := List.append_of_mem member
  obtain ⟨u, ranFirst, ran⟩ := Run.run_append_eq_ok.mp ran
  obtain ⟨v, stepped, ran⟩ := Run.run_cons_eq_ok.mp ran
  obtain ⟨invU, _⟩ := run_grows (fun _ _ _ => addUefiMemBparm_inv) inv ranFirst
  obtain ⟨invV, _⟩ := addUefiMemBparm_inv invU stepped
  obtain ⟨_, grows⟩ := run_grows (fun _ _ _ => addUefiMemBparm_inv) invV ran
  have size : Word.mul 64 desc.numberOfPages efiPageSize = desc.numberOfPages * efiPageSize :=
    Word.mul_of_lt (by simp only [efiPageSize]; omega)
  have firmware : ¬ EfiMemoryType.runtimeServicesData.isUsable = true := Bool.false_ne_true
  rw [addUefiMemBparm, if_neg (by omega), size, type, if_neg firmware] at stepped
  have added := (mem_memRanges_bparmAddMemRange invU stepped).mpr (Or.inr ⟨?_, rfl⟩)
  · refine ⟨_, grows.mem_memRanges added, rfl, low, ?_⟩
    simp only [BdatMemRange.stop]
    split <;> omega
  · split <;> omega

/-- Base memory up to `runtime_bmem_top` is passed on as available. -/
theorem addOurMemBparms_ram {x : ℕ} (inv : s.Inv granted) (ran : addOurMemBparms s = .ok t)
    (below : x < s.bmem.runtimeBmemTop) :
    ∃ r ∈ memRanges t.nodes, r.e820Type = e820Ram ∧
      Span.Covers BdatMemRange.start BdatMemRange.stop r x := by
  obtain ⟨u, base, ran⟩ := bind_eq_ok.mp ran
  obtain ⟨invU, _⟩ := bparmAddMemRange_inv inv base
  obtain ⟨_, grows⟩ := addBlkBparms_inv invU ran
  have added := (mem_memRanges_bparmAddMemRange inv base).mpr (Or.inr ⟨by omega, rfl⟩)
  exact ⟨_, grows.mem_memRanges added, rfl, Nat.zero_le _, by simpa [BdatMemRange.stop] using below⟩

section

variable {initDescs descs : List EfiMemoryDescriptor} {ops : List Stage1Op}

/-- In every run that reaches the hand-over, some address is passed on both as available and as
reserved memory. -/
theorem handOver_describes_twice (map : UefiMap granted descs) (valid : ∀ op ∈ ops, op.Valid)
    (ran : stage1 granted initDescs ops descs = .ok t) :
    (∃ ram ∈ memRanges t.nodes, ∃ reserved ∈ memRanges t.nodes, ram.e820Type = e820Ram ∧
      reserved.e820Type = e820Reserved ∧ ∃ x, Span.Covers BdatMemRange.start BdatMemRange.stop ram x ∧
        Span.Covers BdatMemRange.start BdatMemRange.stop reserved x) ∧ ¬ RangesDisjoint t.nodes := by
  obtain ⟨_, s, ext, node, uefi, our, _, _, _, handed⟩ := stage1_ok valid ran
  obtain ⟨a, _, added, _⟩ := handed.filled
  have below := added.below
  have bounded := handed.invExt.bounded.1
  have page : a / efiPageSize < bmemMaxAddr / efiPageSize := by
    simp only [efiPageSize, bmemMaxAddr] at bounded ⊢
    omega
  obtain ⟨desc, member, type, low, high⟩ := map.reported _ added.page page
  have inside := Nat.div_add_mod a efiPageSize
  have offset := Nat.mod_lt a (show 0 < efiPageSize by decide)
  simp only [efiPageSize] at low high inside offset
  obtain ⟨reserved, memberReserved, typeReserved, coversReserved⟩ :=
    addUefiMemBparms_reserved (x := a) handed.invNode handed.ranUefi member type (map.short desc member)
      (by omega) (by omega) (by simp only [efiPageSize]; omega)
  have sameTop : uefi.bmem.runtimeBmemTop = ext.bmem.runtimeBmemTop :=
    handed.growsUefi.top.trans added.top
  obtain ⟨ram, memberRam, typeRam, coversRam⟩ :=
    addOurMemBparms_ram (x := a) handed.invUefi handed.ranOur (by omega)
  have known := handed.growsOur.mem_memRanges memberReserved
  rw [← handed.memRanges_eq] at memberRam known
  refine ⟨⟨ram, memberRam, reserved, known, typeRam, typeReserved, a, coversRam, coversReserved⟩, ?_⟩
  intro disjoint
  have same := disjoint.eq_of_covers memberRam known coversRam coversReserved
  rw [← same, typeRam] at typeReserved
  cases typeReserved

/-- One device, whose image is copied for initialization and shrinks to half its size afterwards. -/
def sampleOps : List Stage1Op :=
  .addRsdp ⟨0x7fe0000, 36⟩ :: processOnePciIo 0x10 0x11111234 0x03000000 fun source =>
    if source = .pciIo then some ⟨0x7f00000, 0x8000, some ⟨3, 0x20⟩⟩ else none

theorem sampleOps_valid : ∀ op ∈ sampleOps, op.Valid := by
  simp [sampleOps, processOnePciIo, Stage1Op.Valid]

theorem sampleDescs_map : UefiMap sampleGranted sampleDescs where
  aligned := by decide
  short := by decide
  bounded := by decide
  apart := by decide
  reported := by
    intro page set _
    simp only [sampleGranted, decide_eq_true_eq] at set
    exact ⟨⟨.runtimeServicesData, 0x1000, 0x9e, 0xf⟩, by simp [sampleDescs], rfl,
      by simp only [efiPageSize]; omega, by simp only [efiPageSize]; omega⟩

theorem handOver_describes_twice_sample : ∃ t, stage1 sampleGranted sampleDescs sampleOps sampleDescs = .ok t ∧
    ∃ ram ∈ memRanges t.nodes, ∃ reserved ∈ memRanges t.nodes, ram.e820Type = e820Ram ∧
      reserved.e820Type = e820Reserved ∧ ∃ x, Span.Covers BdatMemRange.start BdatMemRange.stop ram x ∧
        Span.Covers BdatMemRange.start BdatMemRange.stop reserved x := by
  obtain ⟨t, ran⟩ := exists_of_isOk (x := stage1 sampleGranted sampleDescs sampleOps sampleDescs)
    (by decide +kernel)
  exact ⟨t, ran, (handOver_describes_twice sampleDescs_map sampleOps_valid ran).1⟩

/-- The ranges passed on there are reserved [0x1000, 0x9f000) and available [0, 0x9b000). -/
theorem sample_ranges_overlap : UefiMap sampleGranted sampleDescs ∧
    ∃ t, stage1 sampleGranted sampleDescs sampleOps sampleDescs = .ok t ∧ ¬ RangesDisjoint t.nodes := by
  have evaluated : (fun t => decide (RangesDisjoint t.nodes)) <$>
      stage1 sampleGranted sampleDescs sampleOps sampleDescs = .ok false := by decide +kernel
  obtain ⟨t, ran, overlap⟩ := map_eq_ok.mp evaluated
  exact ⟨sampleDescs_map, t, ran, of_decide_eq_false overlap⟩

end

end Biefircate
