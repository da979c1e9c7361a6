import Biefircate.Proofs.Stage1.AddOur
import Biefircate.Soundness.BootParams

/-! # The firmware's memory map is passed on exactly once

Two loops go over the descriptors, one for the memory from 1 MiB on and one for the firmware's own memory
below. Each adds at most one range for a descriptor, which is the part of it on the loop's side of 1 MiB, so
an address is described by the loop on its side, once for the descriptor it lies in.
-/

namespace Biefircate

namespace EfiMemoryDescriptor

/-- One past the last address of the memory described. -/
def stop (desc : EfiMemoryDescriptor) : ℕ := desc.physicalStart + desc.numberOfPages * efiPageSize

/-- The address is in the memory described. -/
def Has (desc : EfiMemoryDescriptor) (x : ℕ) : Prop := Span.Covers physicalStart stop desc x

instance (desc : EfiMemoryDescriptor) (x : ℕ) : Decidable (desc.Has x) := inferInstanceAs (Decidable (_ ∧ _))

/-- What there is to pass on of the descriptor from 1 MiB on. -/
def extRanges (desc : EfiMemoryDescriptor) : List BdatMemRange :=
  if desc.stop ≤ bmemMaxAddr then []
  else
    let start := max desc.physicalStart bmemMaxAddr
    [⟨start, desc.stop - start, desc.type.e820Type, 1, desc.attrib⟩]

/-- What there is to pass on of the descriptor below 1 MiB: nothing of memory that the firmware lets go of. -/
def lowRanges (desc : EfiMemoryDescriptor) : List BdatMemRange :=
  if bmemMaxAddr ≤ desc.physicalStart ∨ desc.type.isUsable then []
  else [⟨desc.physicalStart, min desc.stop bmemMaxAddr - desc.physicalStart, desc.type.e820Type, 1, desc.attrib⟩]

/-- A descriptor of some whole pages of the 64-bit address space. -/
structure Valid (desc : EfiMemoryDescriptor) : Prop where
  aligned : efiPageSize ∣ desc.physicalStart
  pages : 1 ≤ desc.numberOfPages ∧ desc.numberOfPages < 2 ^ 52
  bounded : desc.stop ≤ 2 ^ 64

end EfiMemoryDescriptor

/-- The descriptors of a memory map: none describes what another does. -/
structure DescsOk (descs : List EfiMemoryDescriptor) : Prop where
  valid : ∀ desc ∈ descs, desc.Valid
  apart : descs.Pairwise (Span.Apart EfiMemoryDescriptor.physicalStart EfiMemoryDescriptor.stop)

section

variable {s t : Stage1} {desc : EfiMemoryDescriptor} {descs : List EfiMemoryDescriptor}

/-! ## The two loops -/

theorem bparmAddMemRange_ranges {start len type ext uefi : ℕ} (ran : bparmAddMemRange s start len type ext uefi = .ok t) :
    memRanges t.nodes = memRanges s.nodes ++ reported [⟨start, len, type, ext, uefi⟩] := by
  rcases bparmAddMemRange_ok ran with ⟨empty, rfl⟩ | ⟨nonempty, added⟩
  · simp [reported, empty]
  · obtain ⟨⟨a, bmem⟩, _, same⟩ := bind_eq_ok.mp added
    cases same
    simp [Stage1.nodes, memRanges, reported, nonempty]

theorem addExtMemBparm_ranges (valid : desc.Valid) (ran : addExtMemBparm s desc = .ok t) :
    memRanges t.nodes = memRanges s.nodes ++ desc.extRanges := by
  obtain ⟨_, ⟨some, short⟩, bounded⟩ := valid
  rw [EfiMemoryDescriptor.stop] at bounded
  have size : Word.mul 64 desc.numberOfPages efiPageSize = desc.numberOfPages * efiPageSize :=
    Word.mul_of_lt (by rw [efiPageSize]; omega)
  have positive : 0 < desc.numberOfPages * efiPageSize := Nat.mul_pos some (by decide)
  unfold addExtMemBparm at ran
  rw [size] at ran
  dsimp only at ran
  rw [EfiMemoryDescriptor.extRanges, EfiMemoryDescriptor.stop]
  dsimp only
  have limit : bmemMaxAddr = 2 ^ 20 := rfl
  generalize desc.numberOfPages * efiPageSize = bytes at *
  -- At 2 ^ 64 the end wraps to zero, and the length wraps back.
  have stop : Word.add 64 desc.physicalStart bytes = if desc.physicalStart + bytes = 2 ^ 64 then 0
      else desc.physicalStart + bytes := by
    rw [Word.add]
    split <;> omega
  have start : (if desc.physicalStart < bmemMaxAddr then bmemMaxAddr else desc.physicalStart) =
      max desc.physicalStart bmemMaxAddr := by
    rw [max_def]
    split <;> split <;> omega
  rw [stop, start] at ran
  by_cases low : desc.physicalStart + bytes ≤ bmemMaxAddr
  · rw [if_neg (show ¬ desc.physicalStart + bytes = 2 ^ 64 by omega), if_pos (by omega)] at ran
    cases ran
    rw [if_pos low, List.append_nil]
  · have length : Word.sub 64 (if desc.physicalStart + bytes = 2 ^ 64 then 0 else desc.physicalStart + bytes)
        (max desc.physicalStart bmemMaxAddr) = desc.physicalStart + bytes - max desc.physicalStart bmemMaxAddr := by
      rw [Word.sub]
      split <;> omega
    rw [if_neg (by split <;> omega), length] at ran
    rw [if_neg low, bparmAddMemRange_ranges ran, reported, List.filter_cons_of_pos, List.filter_nil]
    rw [decide_eq_true_eq]
    dsimp only
    omega

theorem addUefiMemBparm_ranges (valid : desc.Valid) (ran : addUefiMemBparm s desc = .ok t) :
    memRanges t.nodes = memRanges s.nodes ++ desc.lowRanges := by
  obtain ⟨_, ⟨some, short⟩, bounded⟩ := valid
  have size : Word.mul 64 desc.numberOfPages efiPageSize = desc.numberOfPages * efiPageSize :=
    Word.mul_of_lt (by rw [efiPageSize]; omega)
  have positive : 0 < desc.numberOfPages * efiPageSize := Nat.mul_pos some (by decide)
  unfold addUefiMemBparm at ran
  rw [size] at ran
  dsimp only at ran
  rw [EfiMemoryDescriptor.lowRanges, EfiMemoryDescriptor.stop]
  generalize desc.numberOfPages * efiPageSize = bytes at *
  by_cases high : bmemMaxAddr ≤ desc.physicalStart
  · rw [if_pos high] at ran
    cases ran
    rw [if_pos (Or.inl high), List.append_nil]
  · rw [if_neg high] at ran
    by_cases usable : desc.type.isUsable = true
    · rw [if_pos usable] at ran
      cases ran
      rw [if_pos (Or.inr usable), List.append_nil]
    · have length : (if bmemMaxAddr - desc.physicalStart < bytes then bmemMaxAddr - desc.physicalStart else bytes) =
          min (desc.physicalStart + bytes) bmemMaxAddr - desc.physicalStart := by
        split <;> omega
      rw [if_neg usable, length] at ran
      rw [if_neg (not_or.mpr ⟨high, usable⟩), bparmAddMemRange_ranges ran, reported, List.filter_cons_of_pos,
        List.filter_nil]
      rw [decide_eq_true_eq]
      dsimp only
      omega

/-- A loop over the descriptors adds what its body adds for each. -/
theorem run_ranges {step : Stage1 → EfiMemoryDescriptor → Exec Stage1} {f : EfiMemoryDescriptor → List BdatMemRange}
    (adds : ∀ u, ∀ desc ∈ descs, ∀ v, step u desc = .ok v → memRanges v.nodes = memRanges u.nodes ++ f desc)
    (ran : Run.run step s descs = .ok t) : memRanges t.nodes = memRanges s.nodes ++ descs.flatMap f := by
  induction descs generalizing s with
  | nil =>
    cases ran
    exact (List.append_nil _).symm
  | cons desc rest ih =>
    obtain ⟨u, stepped, ran⟩ := Run.run_cons_eq_ok.mp ran
    have first := adds s desc (List.mem_cons_self ..) u stepped
    rw [ih (fun u other member => adds u other (List.mem_cons_of_mem _ member)) ran, first, List.flatMap_cons,
      List.append_assoc]

/-! ## Address by address -/

/-- The ranges that describe an address. -/
def rangesAt (ranges : List BdatMemRange) (x : ℕ) : List BdatMemRange :=
  ranges.filter fun r => decide (Span.Covers BdatMemRange.start BdatMemRange.stop r x)

theorem rangesAt_singleton (r : BdatMemRange) (x : ℕ) :
    rangesAt [r] x = if Span.Covers BdatMemRange.start BdatMemRange.stop r x then [r] else [] := by
  simp [rangesAt, List.filter_cons]

theorem rangesAt_extRanges (desc : EfiMemoryDescriptor) (x : ℕ) :
    rangesAt desc.extRanges x = if desc.Has x ∧ bmemMaxAddr ≤ x then desc.extRanges else [] := by
  rw [EfiMemoryDescriptor.extRanges]
  by_cases low : desc.stop ≤ bmemMaxAddr
  · rw [if_pos low, rangesAt, List.filter_nil, ite_self]
  · rw [if_neg low, rangesAt_singleton]
    refine if_congr ?_ rfl rfl
    simp only [Span.Covers, EfiMemoryDescriptor.Has, BdatMemRange.stop]
    omega

theorem rangesAt_lowRanges (desc : EfiMemoryDescriptor) (x : ℕ) :
    rangesAt desc.lowRanges x = if desc.Has x ∧ x < bmemMaxAddr then desc.lowRanges else [] := by
  rw [EfiMemoryDescriptor.lowRanges]
  by_cases out : bmemMaxAddr ≤ desc.physicalStart ∨ desc.type.isUsable
  · rw [if_pos out, rangesAt, List.filter_nil, ite_self]
  · rw [if_neg out, rangesAt_singleton]
    obtain ⟨low, _⟩ := not_or.mp out
    refine if_congr ?_ rfl rfl
    simp only [Span.Covers, EfiMemoryDescriptor.Has, BdatMemRange.stop]
    omega

/-- What a loop adds at an address is what it adds for the one descriptor that has the address. -/
theorem rangesAt_flatMap (ok : DescsOk descs) {f : EfiMemoryDescriptor → List BdatMemRange} {x : ℕ}
    (outside : ∀ desc ∈ descs, ¬ desc.Has x → rangesAt (f desc) x = []) (member : desc ∈ descs) (has : desc.Has x) :
    rangesAt (descs.flatMap f) x = rangesAt (f desc) x := by
  obtain ⟨before, after, rfl⟩ := List.append_of_mem member
  obtain ⟨_, right, across⟩ := List.pairwise_append.mp ok.apart
  have early : ∀ other ∈ before, rangesAt (f other) x = [] := by
    intro other listed
    apply outside other (List.mem_append_left _ listed)
    exact (across other listed desc (List.mem_cons_self ..)).symm.not_covers has
  have late : ∀ other ∈ after, rangesAt (f other) x = [] := by
    intro other listed
    apply outside other (List.mem_append_right _ (List.mem_cons_of_mem _ listed))
    exact ((List.pairwise_cons.mp right).1 other listed).not_covers has
  simp only [rangesAt] at early late ⊢
  rw [List.filter_flatMap, List.flatMap_append, List.flatMap_cons, List.flatMap_eq_nil_iff.mpr early,
    List.flatMap_eq_nil_iff.mpr late, List.nil_append, List.append_nil]

/-- Of the ranges that the two loops add, exactly one describes an address at or above 1 MiB of a descriptor, or
an address below of one whose memory the firmware keeps, and it does so as the descriptor does. None describes
any other address. -/
theorem uefiRanges_tile {ext node uefi : Stage1} (ok : DescsOk descs)
    (ranExt : Run.run addExtMemBparm s descs = .ok ext) (ranUefi : addUefiMemBparms node descs = .ok uefi) :
    ∃ above below, memRanges ext.nodes = memRanges s.nodes ++ above ∧
      memRanges uefi.nodes = memRanges node.nodes ++ below ∧
      (∀ desc ∈ descs, ∀ x, desc.Has x → (bmemMaxAddr ≤ x ∨ desc.type.isUsable = false) →
        ∃ r, rangesAt (above ++ below) x = [r] ∧ r.e820Type = desc.type.e820Type ∧ r.e820ExtAttr = 1 ∧
          r.uefiAttr = desc.attrib) ∧
      ∀ x, (∀ desc ∈ descs, desc.Has x → x < bmemMaxAddr ∧ desc.type.isUsable = true) →
        rangesAt (above ++ below) x = [] := by
  have addsExt : ∀ u, ∀ desc ∈ descs, ∀ v, addExtMemBparm u desc = .ok v →
      memRanges v.nodes = memRanges u.nodes ++ desc.extRanges := fun u desc member v =>
    addExtMemBparm_ranges (ok.valid desc member)
  have addsLow : ∀ u, ∀ desc ∈ descs, ∀ v, addUefiMemBparm u desc = .ok v →
      memRanges v.nodes = memRanges u.nodes ++ desc.lowRanges := fun u desc member v =>
    addUefiMemBparm_ranges (ok.valid desc member)
  refine ⟨_, _, run_ranges addsExt ranExt, run_ranges addsLow ranUefi, ?_, ?_⟩
  · intro desc member x has side
    have outsideExt : ∀ desc ∈ descs, ¬ desc.Has x → rangesAt desc.extRanges x = [] := fun desc _ out => by
      rw [rangesAt_extRanges, if_neg fun both => out both.1]
    have outsideLow : ∀ desc ∈ descs, ¬ desc.Has x → rangesAt desc.lowRanges x = [] := fun desc _ out => by
      rw [rangesAt_lowRanges, if_neg fun both => out both.1]
    have append : ∀ above below, rangesAt (above ++ below) x = rangesAt above x ++ rangesAt below x :=
      fun above below => List.filter_append ..
    rw [append, rangesAt_flatMap ok outsideExt member has, rangesAt_flatMap ok outsideLow member has,
      rangesAt_extRanges, rangesAt_lowRanges]
    obtain ⟨low, high⟩ := has
    rcases Nat.lt_or_ge x bmemMaxAddr with under | beyond
    · have kept := side.resolve_left (not_le.mpr under)
      rw [if_neg (by omega), if_pos ⟨⟨low, high⟩, under⟩, EfiMemoryDescriptor.lowRanges, if_neg]
      · exact ⟨_, rfl, rfl, rfl, rfl⟩
      · rintro (beyond | usable)
        · omega
        · rw [kept] at usable
          cases usable
    · rw [if_pos ⟨⟨low, high⟩, beyond⟩, if_neg (by omega), EfiMemoryDescriptor.extRanges, if_neg (by omega)]
      exact ⟨_, rfl, rfl, rfl, rfl⟩
  · intro x none
    rw [rangesAt, List.filter_append, List.filter_flatMap, List.filter_flatMap, List.append_eq_nil_iff,
      List.flatMap_eq_nil_iff, List.flatMap_eq_nil_iff]
    constructor
    · intro desc member
      rw [← rangesAt, rangesAt_extRanges, if_neg]
      rintro ⟨has, beyond⟩
      exact absurd (none desc member has).1 (not_lt.mpr beyond)
    · intro desc member
      rw [← rangesAt, rangesAt_lowRanges]
      split
      · next held => rw [EfiMemoryDescriptor.lowRanges, if_pos (Or.inr (none desc member held.1).2)]
      · rfl

/-- A descriptor across 1 MiB, and one that ends at the end of the address space. -/
def edgeDescs : List EfiMemoryDescriptor :=
  [⟨.acpiMemoryNvs, 0xff000, 2, 0xf⟩, ⟨.memoryMappedDevice, 2 ^ 64 - 0x1000, 1, 1⟩]

theorem uefiRanges_tile_sample : ∃ s ext uefi above below, Run.run addExtMemBparm s edgeDescs = .ok ext ∧
    addUefiMemBparms ext edgeDescs = .ok uefi ∧ memRanges ext.nodes = memRanges s.nodes ++ above ∧
    memRanges uefi.nodes = memRanges ext.nodes ++ below ∧
    ∃ r, rangesAt (above ++ below) (2 ^ 64 - 1) = [r] ∧ r.e820Type = e820Reserved := by
  obtain ⟨⟨bmem, ext, uefi⟩, ran⟩ := exists_of_isOk (x := do
    let bmem ← bmemInit sampleGranted sampleDescs
    let ext ← Run.run addExtMemBparm ⟨bmem, []⟩ edgeDescs
    let uefi ← addUefiMemBparms ext edgeDescs
    return (bmem, ext, uefi)) (by decide +kernel)
  obtain ⟨_, _, ran⟩ := bind_eq_ok.mp ran
  obtain ⟨_, ranExt, ran⟩ := bind_eq_ok.mp ran
  obtain ⟨_, ranUefi, same⟩ := bind_eq_ok.mp ran
  cases same
  have ok : DescsOk edgeDescs := by
    refine ⟨?_, by decide⟩
    exact List.forall_mem_cons.mpr ⟨⟨by decide, by decide, by decide⟩,
      List.forall_mem_cons.mpr ⟨⟨by decide, by decide, by decide⟩, by simp⟩⟩
  obtain ⟨above, below, addedExt, addedLow, once, _⟩ := uefiRanges_tile ok ranExt ranUefi
  obtain ⟨r, only, type, _⟩ := once ⟨.memoryMappedDevice, 2 ^ 64 - 0x1000, 1, 1⟩ (by simp [edgeDescs]) (2 ^ 64 - 1)
    (by simp only [EfiMemoryDescriptor.Has]; decide) (Or.inl (by decide))
  exact ⟨_, ext, uefi, above, below, ranExt, ranUefi, addedExt, addedLow, r, only, type⟩

end

end Biefircate
