import Biefircate.Proofs.Stage1.LoadStage2

/-! # Stage 2 is where its program headers say

The slack of a segment within its first page is added to its sizes and subtracted from its place in the file, all
in 32 bits and after the sizes were compared. A segment is loaded, whatever the file and memory hold, exactly
when none of this wraps.
-/

namespace Biefircate

/-- A segment is loaded whenever the iteration goes on exactly when its sizes with the slack fit in 32 bits and
the slack is in the file. If all segments are such, it is in memory once the loop is through. -/
theorem loadStage2_segments_iff (phdr : Phdr) (typed : phdr.Typed) (isLoad : phdr.pType = ptLoad)
    (sizes : phdr.pFilesz ≤ phdr.pMemsz) :
    ((∀ fw file phdrs phIdx s t, loadSeg fw file phdrs s (phdr, phIdx) = .ok t → SegLoaded file phdr s t) ↔ phdr.Fits) ∧
    ∀ (fw : Firmware) (file : ℕ → UInt8) (s t : Loader) (entry : ℕ), fw.KeepsPages → s.calls = [] → s.written = [] →
      (∀ other ∈ readPhdrs file, other.pType = ptLoad → other.Fits) → loadStage2 fw file s = .ok (entry, t) →
        (phdr ∈ readPhdrs file → SegKept file phdr t) ∧
          ∀ span ∈ t.written, ∃ base pages, .allocate base pages true ∈ t.calls ∧ InPages base pages span := by
  constructor
  · constructor
    · exact fun always => phdr.fits_of_loaded typed isLoad sizes fun file s t ran => always _ _ _ _ _ _ ran
    · intro fits fw file phdrs phIdx s t ran
      rcases loadSeg_ok ran with ⟨other, _⟩ | ⟨_, _, _, filled⟩
      · exact absurd isLoad other
      · exact filled.loaded typed sizes fits
  · intro fw file s t entry keeps calls written fits ran
    have start : LoadInv file [] s := .init calls written
    have inv := start.run keeps (readPhdrs_typed file) fits (loadStage2_ok ran)
    exact ⟨fun member => (inv.kept phdr member isLoad).2, inv.written⟩

/-- Firmware that grants pages unless it granted some of them before, and reads everything. -/
def keepingFirmware : Firmware where
  allocatePages calls base pages := calls.all fun
    | .allocate b n true => decide (base + pages * efiPageSize ≤ b ∨ b + n * efiPageSize ≤ base)
    | _ => true
  readError _ _ := none

theorem keepingFirmware_keepsPages : keepingFirmware.KeepsPages := by
  intro calls base pages granted _ b n earlier
  exact of_decide_eq_true (List.all_eq_true.mp granted _ earlier)

/-- An ELF file with a segment that does not begin at a page, one that has no bytes in the file, and a header that
is not to be loaded. -/
def sampleElf : ℕ → UInt8 := fun pos =>
  ([0x7f, 0x45, 0x4c, 0x46, 1, 1, 1, 0, 0, 0, 0, 0, 0, 0, 0, 0, 2, 0, 3, 0, 1, 0, 0, 0, 0x34, 0x12, 0x20, 0,
    0x34, 0, 0, 0, 0, 0, 0, 0, 0, 0, 0, 0, 52, 0, 32, 0, 3, 0, 0, 0, 0, 0, 0, 0,
    1, 0, 0, 0, 0xa0, 0, 0, 0, 0x10, 0, 0x20, 0, 0x10, 0, 0x20, 0, 4, 0, 0, 0, 8, 0, 0, 0, 5, 0, 0, 0, 0, 0, 0, 0,
    4, 0, 0, 0, 0, 0, 0, 0, 0, 0, 0, 0, 0, 0, 0, 0, 9, 0, 0, 0, 3, 0, 0, 0, 0, 0, 0, 0, 0, 0, 0, 0,
    1, 0, 0, 0, 0, 0, 0, 0, 0, 0x10, 0x20, 0, 0, 0x10, 0x20, 0, 0, 0, 0, 0, 0x20, 0, 0, 0, 6, 0, 0, 0, 0, 0, 0, 0,
    0, 0, 0, 0, 0, 0, 0, 0, 0, 0, 0, 0, 0xde, 0xad, 0xbe, 0xef] : List UInt8).getD pos 0

theorem loadStage2_segments_iff_sample : ∃ t, loadStage2 keepingFirmware sampleElf ⟨.zero, [], []⟩ = .ok (0x201234, t) ∧
    (readPhdrs sampleElf).length = 3 ∧ ∀ phdr ∈ readPhdrs sampleElf, phdr.pType = ptLoad → SegKept sampleElf phdr t := by
  obtain ⟨⟨entry, t⟩, ran⟩ :=
    exists_of_isOk (x := loadStage2 keepingFirmware sampleElf ⟨.zero, [], []⟩) (by decide +kernel)
  have entryIs : (Prod.fst <$> loadStage2 keepingFirmware sampleElf ⟨.zero, [], []⟩).toOption = some 0x201234 := by
    decide +kernel
  rw [ran] at entryIs
  cases entryIs
  have sizes : ∀ phdr ∈ readPhdrs sampleElf, phdr.pType = ptLoad → phdr.pFilesz ≤ phdr.pMemsz := by decide +kernel
  refine ⟨t, ran, by decide +kernel, fun phdr member isLoad => ?_⟩
  have typed : phdr.Typed := readPhdrs_typed sampleElf phdr member
  exact ((loadStage2_segments_iff phdr typed isLoad (sizes phdr member isLoad)).2 keepingFirmware sampleElf ⟨.zero, [], []⟩ t _
    keepingFirmware_keepsPages rfl rfl (by decide +kernel) ran).1 member

/-- A segment of 4 GiB less one byte that begins with the last byte of a page. -/
def wrappingSeg : Phdr := ⟨ptLoad, 0, 0x1fff, 0, 0xffffffff⟩

/-- It is given one page, which ends with its first byte, and that byte is not cleared. -/
theorem wrappingSeg_not_loaded : wrappingSeg.Typed ∧ wrappingSeg.pFilesz ≤ wrappingSeg.pMemsz ∧
    ∃ t, loadSeg generous (fun _ => 0) [wrappingSeg] ⟨fun _ => 1, [], []⟩ (wrappingSeg, 0) = .ok t ∧
      t.calls = [.allocate 0x1000 1 true] ∧ t.mem 0x1fff = 1 ∧
        ¬ SegLoaded (fun _ => 0) wrappingSeg ⟨fun _ => 1, [], []⟩ t := by
  obtain ⟨t, ran, filled⟩ := loadSeg_generous (show wrappingSeg.pType = ptLoad from rfl) (by decide) (fun _ => 0) [wrappingSeg]
    ⟨fun _ => 1, [], []⟩ 0
  have first : t.mem 0x1fff = 1 := by
    rw [filled.mem, Mem.write_of_outside (by rw [List.length_replicate]; decide),
      Mem.write_of_outside (by rw [Mem.read_length]; decide)]
  refine ⟨⟨by decide, by decide, by decide, by decide⟩, by decide, t, ran, filled.calls, first, fun loaded => ?_⟩
  exact absurd (first.symm.trans (loaded.zeros 0 (by decide) (by decide))) (by decide)

end Biefircate
