import Biefircate.Proofs.Stage1.BmemGrab
import Biefircate.Soundness.BmemBlocks

/-! # The pages that `bmem_init` takes

Whatever pages are free and however they lie, the loop takes them all. It is over only when a request for a single page is
refused.
-/

namespace Biefircate

variable {σ : Type} {bs : BootServices σ} {firmware : σ} {fuel : ℕ}

/-- What the grabbing loop leaves of a firmware that was in the state `origin`. -/
structure Grabbed.Complete (bs : BootServices σ) (origin : σ) (s : Grabbed σ) : Prop where
  bits : ∀ page, s.avail page = true ↔ ∃ grant ∈ s.grants, grant.Has page
  low : ∀ page, s.avail page = true → page < bmemMaxAddr / efiPageSize
  free : ∀ page, s.avail page = true → bs.free origin page = true
  rest : ∀ page < bmemMaxAddr / efiPageSize, bs.free s.firmware page = false

/-- On any firmware that keeps its promises, the loop ends without leaving the bit vector. The bits set are those of the
pages granted, and the firmware has no free page left below 1 MiB. -/
theorem grabBmem_complete (honours : bs.Honours) (enough : grabRounds ≤ fuel) :
    ∃ left, grabBmem bs fuel firmware = .ok left ∧ left.Complete bs firmware := by
  obtain ⟨left, ran, inv, rest⟩ := grabBmem_ok honours enough
  exact ⟨left, ran, inv.bits, inv.low, inv.free, rest⟩

/-- The run of pages is below the address, and free. -/
def RunFits (pages : ℕ → Bool) (pageCount maxAddr first : ℕ) : Prop :=
  (first + pageCount) * efiPageSize ≤ maxAddr ∧ ∀ page < first + pageCount, first ≤ page → pages page = true

instance (pages : ℕ → Bool) (pageCount maxAddr first : ℕ) : Decidable (RunFits pages pageCount maxAddr first) :=
  inferInstanceAs (Decidable (_ ∧ _))

/-- A firmware that grants the first run that is long enough. -/
def firstFit : BootServices (ℕ → Bool) where
  free pages := pages
  allocatePages pages pageCount maxAddr :=
    match (List.range 256).find? fun first => decide (RunFits pages pageCount maxAddr first) with
    | some first => (some (first * efiPageSize), fun page => pages page && !decide (first ≤ page ∧ page < first + pageCount))
    | none => (none, pages)

theorem firstFit_honours : firstFit.Honours where
  grants := by
    intro pages pageCount start pages' positive answered
    simp only [firstFit] at answered
    split at answered
    · next first found =>
      cases answered
      have fits := List.find?_some found
      obtain ⟨high, free⟩ := of_decide_eq_true fits
      refine ⟨Nat.dvd_mul_left _ _, by rw [← Nat.add_mul]; exact high, ?_⟩
      rintro page ⟨above, below⟩
      rw [Nat.mul_div_cancel _ (by decide)] at above below
      exact ⟨free page below above, by simp [firstFit, above, below]⟩
    · cases answered
  refuses := by
    intro pages pageCount pages' positive answered
    simp only [firstFit] at answered
    split at answered
    · cases answered
    · next absent =>
      rintro ⟨first, high, free⟩
      have inside : first ∈ List.range 256 := by
        simp only [efiPageSize, bmemMaxAddr] at high
        exact List.mem_range.mpr (by omega)
      have unfit := List.find?_eq_none.mp absent first inside
      exact unfit (decide_eq_true ⟨high, fun page below above => free page above below⟩)
  keeps := by
    intro pages pageCount page free
    simp only [firstFit] at free
    split at free
    · exact (Bool.and_eq_true_iff.mp free).1
    · exact free

/-- Every third page is in use. -/
theorem grabBmem_complete_sample : ∃ left, grabBmem firstFit grabRounds (fun page => decide (page % 3 ≠ 0)) = .ok left ∧
    left.Complete firstFit fun page => decide (page % 3 ≠ 0) :=
  grabBmem_complete firstFit_honours le_rfl

/-- The whole of `bmem_init`: it ends inside its arrays, and what it returns was made from pages that were free. -/
theorem bmemInitFrom_initial {memMap : σ → List EfiMemoryDescriptor} (honours : bs.Honours) (enough : grabRounds ≤ fuel)
    (few : ∀ firmware, ∀ desc ∈ memMap firmware, desc.numberOfPages < 2 ^ 32 - 256) :
    (∃ msg, bmemInitFrom bs memMap fuel firmware = .error (.error msg)) ∨ ∃ granted descs s,
      bmemInitFrom bs memMap fuel firmware = .ok s ∧ s.Initial granted descs ∧
        ∀ page, granted page = true → bs.free firmware page = true := by
  obtain ⟨left, ran, inv, _⟩ := @grabBmem_ok _ _ firmware _ honours enough
  rw [bmemInitFrom, ran, ok_bind]
  rcases bmemInit_cases left.avail (memMap left.firmware) with stopped | ⟨blk, attr, grouped, high, returned⟩
  · exact .inl stopped
  · exact .inr ⟨_, _, _, returned, grouped.initial (topPage_isTopPage (few left.firmware)) high, inv.free⟩

end Biefircate
