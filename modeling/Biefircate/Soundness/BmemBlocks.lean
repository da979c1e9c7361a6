import Biefircate.Proofs.Stage1.BmemInit

/-! # The blocks and the bound that `bmem_init` sets up

A block takes up at least one page and the gap after it another, so an array with one entry for every two pages has room
for the blocks of any pages that the firmware may grant. The bound comes from a second look at the pages, which sees more
of them than the blocks do, so it lies in none of the blocks.
-/

namespace Biefircate

/-- The first page that is neither granted nor inside memory that is free once boot services end. All 256 may be. -/
structure IsTopPage (granted : ℕ → Bool) (descs : List EfiMemoryDescriptor) (top : ℕ) : Prop where
  bound : top ≤ 256
  before : ∀ page < top, granted page = true ∨ ∃ desc ∈ descs, desc.HasPage page
  clear : top < 256 → ¬ (granted top = true ∨ ∃ desc ∈ descs, desc.HasPage top)

/-- What the allocators start from. -/
structure Bmem.Initial (granted : ℕ → Bool) (descs : List EfiMemoryDescriptor) (s : Bmem) : Prop where
  runs : ∀ b, b ∈ s.blk ↔ ∃ first stop, IsRun granted first stop ∧ b = runBlk first stop
  apart : s.blk.Pairwise fun a b => a.origEnd < b.start
  few : s.blk.length ≤ maxBmemBlks
  top : ∃ top, IsTopPage granted descs top ∧ s.runtimeBmemTop = top * efiPageSize
  enough : 192 * kibyte ≤ s.runtimeBmemTop
  outside : ∀ b ∈ s.blk, ¬ (b.start < s.runtimeBmemTop ∧ s.runtimeBmemTop < b.origEnd)

variable {granted : ℕ → Bool} {descs : List EfiMemoryDescriptor}

theorem topPage_isTopPage (few : ∀ desc ∈ descs, desc.numberOfPages < 2 ^ 32 - 256) :
    IsTopPage granted descs (topPage granted descs) where
  bound := (topPage_le granted descs).1
  before := (topPage_spec few).1
  clear := (topPage_spec few).2

/-- A granted page is in no need of a second look, so the bound is in no block. -/
theorem GroupedBlks.outside {blk : List Blk} {top : ℕ} (grouped : GroupedBlks granted 256 blk) (isTop : IsTopPage granted descs top) :
    ∀ b ∈ blk, ¬ (b.start < top * efiPageSize ∧ top * efiPageSize < b.origEnd) := by
  rintro b member ⟨above, below⟩
  have set := grouped.pages b member (top * efiPageSize) above.le below
  have high := (grouped.whole b member).2.2.2
  rw [Nat.mul_div_cancel _ (by decide)] at set
  simp only [efiPageSize, bmemMaxAddr] at below high
  exact isTop.clear (by omega) (Or.inl set)

theorem GroupedBlks.initial {blk : List Blk} {top attr : ℕ} (grouped : GroupedBlks granted 256 blk)
    (isTop : IsTopPage granted descs top) (enough : 192 * kibyte ≤ top * efiPageSize) :
    Bmem.Initial granted descs ⟨blk, efiPageSize, top * efiPageSize, attr, []⟩ := by
  have room : blk.length ≤ maxBmemBlks := by
    have twice := grouped.few
    simp only [maxBmemBlks, bmemMaxAddr, efiPageSize]
    omega
  exact ⟨fun b => grouped.mem_iff, grouped.apart, room, ⟨_, isTop, rfl⟩, enough, grouped.outside isTop⟩

/-- For any pages granted and any memory map, `bmem_init` stays inside the array of blocks, and where it returns the blocks
are the maximal runs of granted pages, with the bound at the first page that will not be free. -/
theorem bmemInit_initial (few : ∀ desc ∈ descs, desc.numberOfPages < 2 ^ 32 - 256) :
    bmemInit granted descs ≠ .error .outside ∧ ∀ s, bmemInit granted descs = .ok s → s.Initial granted descs := by
  rcases bmemInit_cases granted descs with ⟨msg, stopped⟩ | ⟨blk, attr, grouped, enough, left⟩
  · rw [stopped]
    exact ⟨by simp, fun s ran => by cases ran⟩
  · rw [left]
    refine ⟨by simp, fun s ran => ?_⟩
    cases ran
    exact grouped.initial (topPage_isTopPage few) enough

set_option maxRecDepth 4000 in
/-- Two runs of pages, and a map that frees what comes after the first. -/
theorem bmemInit_initial_sample :
    ∃ s, bmemInit (fun page => decide (page < 64 ∨ page = 255)) [⟨.conventionalMemory, 0x40000, 16, 0xf⟩] = .ok s ∧
      s.blk = [runBlk 1 64, runBlk 255 256] ∧ s.runtimeBmemTop = 0x50000 ∧
        s.Initial (fun page => decide (page < 64 ∨ page = 255)) [⟨.conventionalMemory, 0x40000, 16, 0xf⟩] :=
  ⟨_, rfl, rfl, rfl, (bmemInit_initial (by decide)).2 _ rfl⟩

end Biefircate
