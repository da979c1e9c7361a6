import Biefircate.Model.Stage1.LoadStage2

/-! # What an iteration of `load_stage2` does

An iteration that goes on either passes a header that is not to be loaded, or takes pages, reads the file and
clears the rest. If the sizes with the slack fit in 32 bits, the segment is where it should be, and all of it is
within the pages.
-/

namespace Biefircate

/-! ## Reading and clearing -/

/-- Memory and the spans written, once the segment was read and the rest cleared. -/
structure SegFilled (file : ℕ → UInt8) (seg : Phdr) (s t : Loader) : Prop where
  calls : t.calls = s.calls
  mem : t.mem = (s.mem.write seg.pPaddr (Mem.read file seg.pOffset seg.pFilesz)).write (seg.pPaddr + seg.pFilesz)
    (List.replicate (Word.sub 32 seg.pMemsz seg.pFilesz) 0)
  written : t.written = s.written ++ (if seg.pFilesz = 0 then [] else [(seg.pPaddr, seg.pFilesz)]) ++
    [(seg.pPaddr + seg.pFilesz, Word.sub 32 seg.pMemsz seg.pFilesz)]

section

variable {fw : Firmware} {file : ℕ → UInt8} {s t u : Loader} {seg phdr : Phdr} {phdrs : List Phdr} {phIdx : ℕ}

theorem fillSeg_ok (ran : fillSeg fw file s seg = .ok t) : SegFilled file seg s t := by
  obtain ⟨middle, read, cleared⟩ := bind_eq_ok.mp ran
  cases cleared
  rw [Loader.seekRead] at read
  split at read
  · next zero =>
    cases read
    refine ⟨rfl, ?_, ?_⟩
    · rw [zero, Mem.read, Mem.write_nil]
      rfl
    · rw [if_pos zero, List.append_nil, Loader.put, List.length_replicate]
  · next nonzero =>
    split at read
    · cases read
      refine ⟨rfl, rfl, ?_⟩
      rw [if_neg nonzero, Loader.put, Loader.put, List.length_replicate, Mem.read_length]
    · cases read

/-- A span written lies within some pages. -/
def InPages (base pages : ℕ) (span : ℕ × ℕ) : Prop :=
  base ≤ span.1 ∧ span.1 + span.2 ≤ base + pages * efiPageSize

/-- Memory outside the spans written is left alone. -/
theorem SegFilled.frame (filled : SegFilled file seg s t) {base pages x : ℕ}
    (inside : ∀ span ∈ t.written.drop s.written.length, InPages base pages span)
    (outside : x < base ∨ base + pages * efiPageSize ≤ x) : t.mem x = s.mem x := by
  have spans : t.written.drop s.written.length = (if seg.pFilesz = 0 then [] else [(seg.pPaddr, seg.pFilesz)]) ++
      [(seg.pPaddr + seg.pFilesz, Word.sub 32 seg.pMemsz seg.pFilesz)] := by
    rw [filled.written, List.append_assoc, List.drop_left]
  rw [spans] at inside
  have clear := inside (seg.pPaddr + seg.pFilesz, Word.sub 32 seg.pMemsz seg.pFilesz) (by simp)
  rw [InPages] at clear
  rw [filled.mem, Mem.write_of_outside (by rw [List.length_replicate]; omega)]
  by_cases zero : seg.pFilesz = 0
  · exact Mem.write_of_outside (by rw [Mem.read_length]; omega)
  · have read := inside (seg.pPaddr, seg.pFilesz) (by simp [zero])
    rw [InPages] at read
    exact Mem.write_of_outside (by rw [Mem.read_length]; omega)

/-! ## An iteration -/

/-- What an iteration did that went on. -/
theorem loadSeg_ok (ran : loadSeg fw file phdrs s (phdr, phIdx) = .ok t) :
    phdr.pType ≠ ptLoad ∧ t = s ∨
      phdr.pType = ptLoad ∧ phdr.pFilesz ≤ phdr.pMemsz ∧
        fw.allocatePages s.calls phdr.adjusted.pPaddr (pagesFor phdr.adjusted.pMemsz) = true ∧
        SegFilled file phdr.adjusted
          { s with calls := s.calls ++ [.allocate phdr.adjusted.pPaddr (pagesFor phdr.adjusted.pMemsz) true] } t := by
  rw [loadSeg] at ran
  dsimp only at ran
  split at ran
  · next other =>
    cases ran
    exact Or.inl ⟨other, rfl⟩
  · next isLoad =>
    split at ran
    · cases ran
    · next sizes =>
      split at ran
      · next granted =>
        rw [granted] at ran
        exact Or.inr ⟨not_not.mp isLoad, not_lt.mp sizes, granted, fillSeg_ok ran⟩
      · cases ran

/-- The sizes of the segment with the slack fit in 32 bits, and the slack is in the file. -/
def Phdr.Fits (phdr : Phdr) : Prop :=
  phdr.pMemsz + phdr.pPaddr % efiPageSize < 2 ^ 32 ∧
    (phdr.pFilesz = 0 ∨ phdr.pPaddr % efiPageSize ≤ phdr.pOffset)

instance (phdr : Phdr) : Decidable phdr.Fits := inferInstanceAs (Decidable (_ ∧ _))

/-- Without slack the adjusted values are what they would be too if it were subtracted and added. -/
theorem Phdr.adjusted_eq (typed : phdr.Typed) : phdr.adjusted = { phdr with
    pOffset := Word.sub 32 phdr.pOffset (phdr.pPaddr % efiPageSize)
    pPaddr := phdr.pPaddr - phdr.pPaddr % efiPageSize
    pFilesz := if phdr.pFilesz = 0 then 0 else Word.add 32 phdr.pFilesz (phdr.pPaddr % efiPageSize)
    pMemsz := Word.add 32 phdr.pMemsz (phdr.pPaddr % efiPageSize) } := by
  obtain ⟨offset, _, filesz, memsz⟩ := typed
  rw [Phdr.adjusted]
  split
  · next aligned =>
    rw [aligned, Word.sub_of_le (Nat.zero_le _) offset, Word.add_of_lt (by omega), Word.add_of_lt (by omega)]
    split
    · next zero => rw [Nat.sub_zero, Nat.sub_zero, Nat.add_zero, ← zero]
    · rfl
  · split
    · next zero => simp [zero]
    · rfl

/-- The adjusted values, if nothing wraps. -/
structure Phdr.AdjustedBy (phdr : Phdr) (slack : ℕ) : Prop where
  start : phdr.adjusted.pPaddr + slack = phdr.pPaddr
  memsz : phdr.adjusted.pMemsz = phdr.pMemsz + slack
  file : phdr.pFilesz = 0 ∧ phdr.adjusted.pFilesz = 0 ∨
    phdr.adjusted.pFilesz = phdr.pFilesz + slack ∧ phdr.adjusted.pOffset + slack = phdr.pOffset

theorem Phdr.Fits.adjustedBy (typed : phdr.Typed) (sizes : phdr.pFilesz ≤ phdr.pMemsz) (fits : phdr.Fits) :
    phdr.AdjustedBy (phdr.pPaddr % efiPageSize) := by
  obtain ⟨small, before⟩ := fits
  have low := Nat.mod_le phdr.pPaddr efiPageSize
  have same := phdr.adjusted_eq typed
  generalize phdr.pPaddr % efiPageSize = slack at small before low same ⊢
  refine ⟨?_, ?_, ?_⟩
  · rw [same]
    exact Nat.sub_add_cancel low
  · rw [same]
    exact Word.add_of_lt small
  · rw [same]
    dsimp only
    rcases Nat.eq_zero_or_pos phdr.pFilesz with zero | positive
    · exact Or.inl ⟨zero, if_pos zero⟩
    · have under := before.resolve_left positive.ne'
      rw [if_neg positive.ne', Word.add_of_lt (by omega), Word.sub_of_le under typed.pOffset]
      exact Or.inr ⟨rfl, Nat.sub_add_cancel under⟩

/-- The pages that the iteration took hold all that it wrote, and the segment is where it should be. -/
structure SegLoaded (file : ℕ → UInt8) (phdr : Phdr) (s t : Loader) : Prop where
  inside : ∃ base pages, t.calls = s.calls ++ [.allocate base pages true] ∧
    ∀ span ∈ t.written.drop s.written.length, InPages base pages span
  bytes : ∀ k < phdr.pFilesz, t.mem (phdr.pPaddr + k) = file (phdr.pOffset + k)
  zeros : ∀ k < phdr.pMemsz, phdr.pFilesz ≤ k → t.mem (phdr.pPaddr + k) = 0

theorem le_pagesFor (memsz : ℕ) : memsz ≤ pagesFor memsz * efiPageSize := by
  rw [pagesFor, efiPageSize]
  omega

/-- A segment that fits is loaded. -/
theorem SegFilled.loaded (typed : phdr.Typed) (sizes : phdr.pFilesz ≤ phdr.pMemsz) (fits : phdr.Fits)
    (filled : SegFilled file phdr.adjusted
      { s with calls := s.calls ++ [.allocate phdr.adjusted.pPaddr (pagesFor phdr.adjusted.pMemsz) true] } t) :
    SegLoaded file phdr s t := by
  have small := fits.1
  obtain ⟨start, memsz, filesz⟩ := fits.adjustedBy typed sizes
  generalize phdr.pPaddr % efiPageSize = slack at small start memsz filesz
  have room := le_pagesFor phdr.adjusted.pMemsz
  have rest : Word.sub 32 phdr.adjusted.pMemsz phdr.adjusted.pFilesz = phdr.adjusted.pMemsz - phdr.adjusted.pFilesz :=
    Word.sub_of_le (by omega) (by omega)
  have written := filled.written
  have mem := filled.mem
  rw [rest] at written mem
  refine ⟨⟨_, _, filled.calls, ?_⟩, fun k inside => ?_, fun k inside above => ?_⟩
  · intro span member
    rw [written, List.append_assoc, List.drop_left] at member
    rw [InPages]
    rcases List.mem_append.mp member with read | cleared
    · split at read
      · cases read
      · rw [List.mem_singleton.mp read]
        dsimp only
        omega
    · rw [List.mem_singleton.mp cleared]
      dsimp only
      omega
  · obtain ⟨size, pos⟩ := filesz.resolve_left (by omega)
    have place : phdr.pPaddr + k = phdr.adjusted.pPaddr + (slack + k) := by omega
    have byte : phdr.adjusted.pOffset + (slack + k) = phdr.pOffset + k := by omega
    have low : slack + k < (Mem.read file phdr.adjusted.pOffset phdr.adjusted.pFilesz).length := by
      rw [Mem.read_length]
      omega
    rw [mem, place, Mem.write_of_outside (by omega), Mem.write_of_inside low, ← byte]
    exact List.getElem_of_getElem? (Mem.getElem?_read _ _ (by omega)) |>.2
  · have place : phdr.pPaddr + k = phdr.adjusted.pPaddr + phdr.adjusted.pFilesz + (slack + k - phdr.adjusted.pFilesz) := by
      omega
    have low : slack + k - phdr.adjusted.pFilesz <
        (List.replicate (phdr.adjusted.pMemsz - phdr.adjusted.pFilesz) (0 : UInt8)).length := by
      rw [List.length_replicate]
      omega
    rw [mem, place, Mem.write_of_inside low, List.getElem_replicate]

/-! ## Segments that do not fit -/

/-- Firmware that grants all pages and reads everything. -/
def generous : Firmware := ⟨fun _ _ _ => true, fun _ _ => none⟩

theorem fillSeg_generous (file : ℕ → UInt8) (s : Loader) (seg : Phdr) : ∃ t, fillSeg generous file s seg = .ok t := by
  rw [fillSeg, Loader.seekRead]
  split
  · exact ⟨_, rfl⟩
  · exact ⟨_, rfl⟩

/-- With such firmware the iteration goes on. -/
theorem loadSeg_generous (isLoad : phdr.pType = ptLoad) (sizes : phdr.pFilesz ≤ phdr.pMemsz) (file : ℕ → UInt8)
    (phdrs : List Phdr) (s : Loader) (phIdx : ℕ) : ∃ t, loadSeg generous file phdrs s (phdr, phIdx) = .ok t ∧
      SegFilled file phdr.adjusted
        { s with calls := s.calls ++ [.allocate phdr.adjusted.pPaddr (pagesFor phdr.adjusted.pMemsz) true] } t := by
  obtain ⟨t, filled⟩ := fillSeg_generous file
    { s with calls := s.calls ++ [.allocate phdr.adjusted.pPaddr (pagesFor phdr.adjusted.pMemsz) true] } phdr.adjusted
  refine ⟨t, ?_, fillSeg_ok filled⟩
  rw [loadSeg]
  dsimp only
  rw [if_neg (not_not.mpr isLoad), if_neg (not_lt.mpr sizes)]
  exact filled

/-- The pages that the iteration took are those it asked for. -/
theorem SegLoaded.inPages (loaded : SegLoaded file phdr s t) {base pages : ℕ}
    (calls : t.calls = s.calls ++ [.allocate base pages true]) :
    ∀ span ∈ t.written.drop s.written.length, InPages base pages span := by
  obtain ⟨base', pages', calls', inside⟩ := loaded.inside
  cases (List.append_cancel_left (calls.symm.trans calls'))
  exact inside

/-- A segment that does not fit is not loaded with all contents of the file and of memory. -/
theorem Phdr.fits_of_loaded (typed : phdr.Typed) (isLoad : phdr.pType = ptLoad) (sizes : phdr.pFilesz ≤ phdr.pMemsz)
    (always : ∀ file s t, loadSeg generous file [] s (phdr, 0) = .ok t → SegLoaded file phdr s t) : phdr.Fits := by
  have same := phdr.adjusted_eq typed
  have low := Nat.mod_le phdr.pPaddr efiPageSize
  have slackSmall : phdr.pPaddr % efiPageSize < 4096 := Nat.mod_lt _ (by decide)
  have offset := typed.pOffset
  rw [Phdr.Fits]
  generalize phdr.pPaddr % efiPageSize = slack at same low slackSmall ⊢
  have start : phdr.adjusted.pPaddr = phdr.pPaddr - slack := by rw [same]
  have begins : phdr.adjusted.pOffset = Word.sub 32 phdr.pOffset slack := by rw [same]
  have size : phdr.adjusted.pMemsz = Word.add 32 phdr.pMemsz slack := by rw [same]
  by_contra misfit
  by_cases small : phdr.pMemsz + slack < 2 ^ 32
  · -- The read begins in the file 4 GiB further on.
    obtain ⟨nonzero, beyond⟩ := not_or.mp fun before => misfit ⟨small, before⟩
    obtain ⟨t, ran, filled⟩ := loadSeg_generous isLoad sizes (fun pos => if pos < 2 ^ 32 then 1 else 2) [] ⟨.zero, [], []⟩ 0
    have byte : t.mem phdr.pPaddr = if phdr.pOffset < 2 ^ 32 then 1 else 2 :=
      (always _ _ _ ran).bytes 0 (Nat.pos_of_ne_zero nonzero)
    have filesz : phdr.adjusted.pFilesz = phdr.pFilesz + slack := by
      rw [same]
      exact (if_neg nonzero).trans (Word.add_of_lt (by omega))
    have pos : phdr.adjusted.pOffset + slack = phdr.pOffset + 2 ^ 32 := by
      rw [begins, Word.sub]
      omega
    have read : t.mem phdr.pPaddr = 2 := by
      have place : phdr.pPaddr = phdr.adjusted.pPaddr + slack := by omega
      have inside : slack < (Mem.read (fun pos => if pos < 2 ^ 32 then (1 : UInt8) else 2) phdr.adjusted.pOffset
          phdr.adjusted.pFilesz).length := by
        rw [Mem.read_length]
        omega
      rw [filled.mem, place, Mem.write_of_outside (by omega), Mem.write_of_inside inside]
      rw [List.getElem_eq_iff, Mem.getElem?_read _ _ (by omega), pos, if_neg (by omega)]
    rw [read, if_pos offset] at byte
    exact absurd byte (by decide)
  · -- The pages are too few for the segment to end in them.
    obtain ⟨t, ran, filled⟩ := loadSeg_generous isLoad sizes (fun _ => 2) [] ⟨fun _ => 1, [], []⟩ 0
    have loaded := always _ _ _ ran
    have few : pagesFor phdr.adjusted.pMemsz * efiPageSize ≤ 2 ^ 13 := by
      have memsz := typed.pMemsz
      rw [size, Word.add, pagesFor, efiPageSize]
      omega
    have last : t.mem (phdr.pPaddr + (phdr.pMemsz - 1)) = 1 :=
      filled.frame (loaded.inPages filled.calls) (Or.inr (by omega))
    rcases lt_or_ge (phdr.pMemsz - 1) phdr.pFilesz with read | cleared
    · exact absurd (last.symm.trans (loaded.bytes _ read)) (by decide)
    · exact absurd (last.symm.trans (loaded.zeros _ (by omega) cleared)) (by decide)

/-! ## The whole loop -/

/-- As long as no pages are freed, the firmware does not grant a page twice. -/
def Firmware.KeepsPages (fw : Firmware) : Prop :=
  ∀ calls base pages, fw.allocatePages calls base pages = true → (∀ b n, PageCall.free b n ∉ calls) →
    ∀ b n, .allocate b n true ∈ calls → base + pages * efiPageSize ≤ b ∨ b + n * efiPageSize ≤ base

/-- The segment is in memory, within pages that were granted. -/
structure SegKept (file : ℕ → UInt8) (phdr : Phdr) (s : Loader) : Prop where
  pages : ∃ base pages, .allocate base pages true ∈ s.calls ∧ InPages base pages (phdr.pPaddr, phdr.pMemsz)
  bytes : ∀ k < phdr.pFilesz, s.mem (phdr.pPaddr + k) = file (phdr.pOffset + k)
  zeros : ∀ k < phdr.pMemsz, phdr.pFilesz ≤ k → s.mem (phdr.pPaddr + k) = 0

/-- What holds once the loop has gone through some of the headers. -/
structure LoadInv (file : ℕ → UInt8) (done : List Phdr) (s : Loader) : Prop where
  kept : ∀ phdr ∈ done, phdr.pType = ptLoad → phdr.pFilesz ≤ phdr.pMemsz ∧ SegKept file phdr s
  calls : ∀ b n, PageCall.free b n ∉ s.calls
  written : ∀ span ∈ s.written, ∃ base pages, .allocate base pages true ∈ s.calls ∧ InPages base pages span

/-- Pages granted later do not disturb the segment. -/
theorem SegKept.of_frame (kept : SegKept file phdr s) (sizes : phdr.pFilesz ≤ phdr.pMemsz)
    (calls : ∀ call ∈ s.calls, call ∈ t.calls)
    (same : ∀ base pages, .allocate base pages true ∈ s.calls → ∀ x, base ≤ x → x < base + pages * efiPageSize →
      t.mem x = s.mem x) : SegKept file phdr t := by
  obtain ⟨base, pages, granted, low, high⟩ := kept.pages
  dsimp only at low high
  refine ⟨⟨base, pages, calls _ granted, low, high⟩, fun k inside => ?_, fun k inside above => ?_⟩
  · rw [same base pages granted _ (by omega) (by omega)]
    exact kept.bytes k inside
  · rw [same base pages granted _ (by omega) (by omega)]
    exact kept.zeros k inside above

theorem LoadInv.step {done : List Phdr} (keeps : fw.KeepsPages) (inv : LoadInv file done s) (typed : phdr.Typed)
    (fits : phdr.pType = ptLoad → phdr.Fits) (ran : loadSeg fw file phdrs s (phdr, phIdx) = .ok t) :
    LoadInv file (done ++ [phdr]) t := by
  rcases loadSeg_ok ran with ⟨other, rfl⟩ | ⟨isLoad, sizes, granted, filled⟩
  · refine ⟨fun before member isLoad => ?_, inv.calls, inv.written⟩
    rcases List.mem_append.mp member with early | here
    · exact inv.kept before early isLoad
    · rw [List.mem_singleton.mp here] at isLoad
      exact absurd isLoad other
  · have loaded := filled.loaded typed sizes (fits isLoad)
    have inside := loaded.inPages filled.calls
    have apart := keeps _ _ _ granted inv.calls
    have more : ∀ call ∈ s.calls, call ∈ t.calls := by
      rw [filled.calls]
      exact fun call member => List.mem_append_left _ member
    have here : .allocate phdr.adjusted.pPaddr (pagesFor phdr.adjusted.pMemsz) true ∈ t.calls := by
      rw [filled.calls]
      exact List.mem_append_right _ (List.mem_singleton_self _)
    refine ⟨fun before member isLoad' => ?_, ?_, ?_⟩
    · rcases List.mem_append.mp member with early | last
      · obtain ⟨order, kept⟩ := inv.kept before early isLoad'
        refine ⟨order, kept.of_frame order more fun base pages earlier x low high => ?_⟩
        exact filled.frame inside (by have gap := apart base pages earlier; omega)
      · rw [List.mem_singleton.mp last]
        obtain ⟨start, memsz, _⟩ := (fits isLoad).adjustedBy typed sizes
        have room := le_pagesFor phdr.adjusted.pMemsz
        exact ⟨sizes, ⟨_, _, here, by dsimp only; omega, by dsimp only; omega⟩, loaded.bytes, loaded.zeros⟩
    · rw [filled.calls]
      intro b n member
      rcases List.mem_append.mp member with early | last
      · exact inv.calls b n early
      · cases List.mem_singleton.mp last
    · intro span member
      have split : t.written = s.written ++ t.written.drop s.written.length := by
        rw [filled.written, List.append_assoc, List.drop_left]
      rw [split] at member
      rcases List.mem_append.mp member with early | late
      · obtain ⟨base, pages, earlier, within⟩ := inv.written span early
        exact ⟨base, pages, more _ earlier, within⟩
      · exact ⟨_, _, here, inside span late⟩

theorem LoadInv.run {done rest : List Phdr} {i : ℕ} (keeps : fw.KeepsPages) (inv : LoadInv file done s)
    (typed : ∀ phdr ∈ rest, phdr.Typed) (fits : ∀ phdr ∈ rest, phdr.pType = ptLoad → phdr.Fits)
    (ran : Run.run (loadSeg fw file phdrs) s (rest.zipIdx i) = .ok t) : LoadInv file (done ++ rest) t := by
  induction rest generalizing done s i with
  | nil =>
    cases ran
    rwa [List.append_nil]
  | cons phdr rest ih =>
    obtain ⟨next, stepped, tail⟩ := Run.run_cons_eq_ok.mp ran
    have after := inv.step keeps (typed phdr (List.mem_cons_self ..)) (fits phdr (List.mem_cons_self ..)) stepped
    have all := ih after (fun other later => typed other (List.mem_cons_of_mem _ later))
      (fun other later => fits other (List.mem_cons_of_mem _ later)) tail
    rwa [List.append_assoc, List.singleton_append] at all

theorem LoadInv.init (calls : s.calls = []) (written : s.written = []) : LoadInv file [] s where
  kept := by simp
  calls := by simp [calls]
  written := by simp [written]

/-- Headers that are read are of 32-bit fields. -/
theorem readPhdrs_typed (file : ℕ → UInt8) : ∀ phdr ∈ readPhdrs file, phdr.Typed := by
  intro phdr member
  obtain ⟨i, _, rfl⟩ := List.mem_map.mp member
  exact ⟨Mem.readLE_lt .., Mem.readLE_lt .., Mem.readLE_lt .., Mem.readLE_lt ..⟩

theorem loadStage2_ok {entry : ℕ} (ran : loadStage2 fw file s = .ok (entry, t)) :
    loadSegs fw file s (readPhdrs file) = .ok t := by
  rw [loadStage2] at ran
  dsimp only at ran
  split at ran
  · cases ran
  · split at ran
    · cases ran
    · split at ran
      · cases ran
      · obtain ⟨after, loaded, same⟩ := bind_eq_ok.mp ran
        cases same
        exact loaded

end

end Biefircate
