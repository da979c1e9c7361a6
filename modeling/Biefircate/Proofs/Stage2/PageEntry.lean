import Biefircate.Lib.Word
import Biefircate.Model.Stage2.PageTable

/-! # Entries of the page tables

An entry of a page directory is blank, refers to a page table, or maps a large page. What `mem.c` writes
has its flags or-ed into address bits that are clear, so it is a sum. Every test of `mem.c` and of the
processor selects a field, whatever the other bits are, such as those that the processor itself sets.
-/

namespace Biefircate

/-- The flags that `mem_va_map` takes: any of write-through and cache disable. -/
def CacheFlags (flags : ℕ) : Prop := flags ∈ [0, pteWt, pteCd, pteWt + pteCd]

instance (flags : ℕ) : Decidable (CacheFlags flags) := inferInstanceAs (Decidable (_ ∈ _))

theorem CacheFlags.cases {flags : ℕ} (cache : CacheFlags flags) :
    flags = 0 ∨ flags = 8 ∨ flags = 16 ∨ flags = 24 := by
  simpa [CacheFlags, pteWt, pteCd] using cache

/-! ## The entries that are written -/

/-- A present, writable page. -/
def smallEntry (frame flags : ℕ) : ℕ := frame * 2 ^ 12 + (0x7 + flags)

/-- A present, writable large page. -/
def largeEntry (frame flags : ℕ) : ℕ := frame * 2 ^ 21 + (0x87 + flags)

/-- A page table at the page `pt`. -/
def tableEntry (pt : ℕ) : ℕ := pt * 2 ^ 12 + 0x7

section

variable {frame flags pt s entry : ℕ}

theorem smallEntry_eq (aligned : s = frame * 2 ^ 12) (cache : CacheFlags flags) :
    s ||| pteP ||| pteRw ||| pteUs ||| flags = smallEntry frame flags := by
  have low : pteP ||| (pteRw ||| (pteUs ||| flags)) = 0x7 + flags := by
    rcases cache.cases with rfl | rfl | rfl | rfl <;> rfl
  have small : 0x7 + flags < 2 ^ 12 := by
    rcases cache.cases with rfl | rfl | rfl | rfl <;> decide
  rw [Nat.or_assoc, Nat.or_assoc, Nat.or_assoc, low, aligned,
    Word.or_of_dvd (Dvd.intro_left frame rfl) small, smallEntry]

theorem largeEntry_eq (aligned : s = frame * 2 ^ 21) (cache : CacheFlags flags) :
    s ||| pteP ||| pteRw ||| pteUs ||| pdePs ||| flags = largeEntry frame flags := by
  have low : pteP ||| (pteRw ||| (pteUs ||| (pdePs ||| flags))) = 0x87 + flags := by
    rcases cache.cases with rfl | rfl | rfl | rfl <;> rfl
  have small : 0x87 + flags < 2 ^ 21 := by
    rcases cache.cases with rfl | rfl | rfl | rfl <;> decide
  rw [Nat.or_assoc, Nat.or_assoc, Nat.or_assoc, Nat.or_assoc, low, aligned,
    Word.or_of_dvd (Dvd.intro_left frame rfl) small, largeEntry]

theorem tableEntry_eq (aligned : s = pt * 2 ^ 12) :
    s ||| pteP ||| pteRw ||| pteUs = tableEntry pt := by
  rw [Nat.or_assoc, Nat.or_assoc, aligned, tableEntry]
  exact Word.or_of_dvd (Dvd.intro_left pt rfl) (by decide)

/-! ## The fields that are tested -/

theorem and_pteP (entry : ℕ) : entry &&& pteP = entry % 2 := by
  have field := Word.and_field entry 1 0
  rwa [pow_zero, Nat.mul_one, Nat.div_one, Nat.mul_one] at field

theorem and_pteRw (entry : ℕ) : entry &&& pteRw = entry / 2 % 2 * 2 := Word.and_field entry 1 1

theorem and_pdePs (entry : ℕ) : entry &&& pdePs = entry / 2 ^ 7 % 2 * 2 ^ 7 := Word.and_field entry 1 7

theorem and_cache (entry : ℕ) : entry &&& (pteWt ||| pteCd) = entry / 2 ^ 3 % 4 * 2 ^ 3 := Word.and_field entry 2 3

/-- Clearing the large page flag of a word that has it. -/
theorem and_not_pdePs (word : entry < 2 ^ 64) (large : entry &&& pdePs ≠ 0) :
    entry &&& (2 ^ 64 - 1 - pdePs) = entry - 2 ^ 7 := by
  rw [and_pdePs] at large
  have high : entry / 2 ^ 8 < 2 ^ 56 := by omega
  have fields : entry / 2 ^ 8 * 2 ^ 8 + entry % 2 ^ 8 &&& (2 ^ 56 - 1) * 2 ^ 8 + (2 ^ 7 - 1) =
      (entry / 2 ^ 8 &&& (2 ^ 56 - 1)) * 2 ^ 8 + (entry % 2 ^ 8 &&& (2 ^ 7 - 1)) :=
    Word.mul_add_and_mul_add (Nat.mod_lt _ (by decide)) (by decide)
  rw [Nat.and_two_pow_sub_one_eq_mod, Nat.and_two_pow_sub_one_eq_mod, Nat.mod_eq_of_lt high,
    Nat.div_add_mod'] at fields
  have mask : (2 ^ 64 - 1 - pdePs : ℕ) = (2 ^ 56 - 1) * 2 ^ 8 + (2 ^ 7 - 1) := rfl
  rw [mask, fields]
  omega

/-! ## Entries of a page directory -/

/-- An entry that refers to the page table at the page `pt`. -/
structure RefersTo (entry pt : ℕ) : Prop where
  present : entry &&& pteP ≠ 0
  writable : entry &&& pteRw ≠ 0
  notLarge : entry &&& pdePs = 0
  frame : entryFrame entry pageSize = pt
  below : pt < 2 ^ 20

/-- An entry that refers to a page table. -/
def IsTable (entry : ℕ) : Prop := ∃ pt, RefersTo entry pt

/-- An entry that maps a large page: only flags below its address. -/
structure IsLarge (entry : ℕ) : Prop where
  large : entry &&& pdePs ≠ 0
  aligned : entry % 2 ^ 21 < 2 ^ 12
  word : entry < 2 ^ 64

/-- An entry of a page directory that does not refer to a page table. -/
def BigOk (entry : ℕ) : Prop := entry = 0 ∨ IsLarge entry

theorem refersTo_tableEntry (below : pt < 2 ^ 20) : RefersTo (tableEntry pt) pt := by
  refine ⟨?_, ?_, ?_, ?_, below⟩
  · rw [and_pteP, tableEntry]
    omega
  · rw [and_pteRw, tableEntry]
    omega
  · rw [and_pdePs, tableEntry]
    omega
  · rw [entryFrame, tableEntry, pageSize]
    omega

theorem isLarge_largeEntry (small : frame < 2 ^ 43) (cache : CacheFlags flags) : IsLarge (largeEntry frame flags) := by
  have bound : flags ≤ 24 := by
    rcases cache.cases with rfl | rfl | rfl | rfl <;> decide
  refine ⟨?_, ?_, ?_⟩
  · rw [and_pdePs, largeEntry]
    omega
  · rw [largeEntry]
    omega
  · rw [largeEntry]
    omega

/-- The address that `ensure_pt` takes from an entry. -/
theorem RefersTo.ptOf (refers : RefersTo entry pt) : ptOf entry = pt * 2 ^ 12 := by
  have frame := refers.frame
  have below := refers.below
  rw [entryFrame, pageSize] at frame
  rw [Biefircate.ptOf, Word.and_mask_eq (a := pageSize) (k := 12) rfl (by decide) (Nat.mod_lt _ (by decide)),
    Word.alignDown, pageSize]
  omega

theorem RefersTo.unique {pt' : ℕ} (refers : RefersTo entry pt) (refers' : RefersTo entry pt') : pt = pt' :=
  refers.frame.symm.trans refers'.frame

/-- The test of `do_va_map` for an entry that a large page may replace. -/
theorem BigOk.replaceable (big : BigOk entry) : entry = 0 ∨ entry &&& pdePs ≠ 0 := big.imp_right IsLarge.large

theorem IsTable.tests (table : IsTable entry) : entry ≠ 0 ∧ entry &&& pdePs = 0 := by
  obtain ⟨pt, refers⟩ := table
  refine ⟨?_, refers.notLarge⟩
  rintro rfl
  exact refers.present (Nat.zero_and _)

theorem IsTable.not_replaceable (table : IsTable entry) : ¬ (entry = 0 ∨ entry &&& pdePs ≠ 0) := by
  obtain ⟨nonzero, clear⟩ := table.tests
  exact not_or.mpr ⟨nonzero, not_not.mpr clear⟩

/-- The kinds of entries exclude each other. -/
theorem BigOk.not_table (big : BigOk entry) : ¬ IsTable entry := fun table => table.not_replaceable big.replaceable

/-! ## Breaking up a large page -/

/-- What a blank entry or a large page says of its pages. -/
def bigPte (entry page : ℕ) : ℕ :=
  if entry = 0 then 0 else ((entry &&& (2 ^ 64 - 1 - pdePs)) + page % 512 * pageSize) % 2 ^ 64

/-- A large page without its flag, plus the offset of a page in it. -/
theorem IsLarge.bigPte_eq (isLarge : IsLarge entry) (page : ℕ) :
    bigPte entry page = entry - 2 ^ 7 + page % 512 * 2 ^ 12 := by
  have ⟨large, aligned, word⟩ := isLarge
  have inside : page % 512 < 512 := Nat.mod_lt _ (by decide)
  have nonzero : entry ≠ 0 := by
    rintro rfl
    exact large (Nat.zero_and _)
  rw [bigPte, if_neg nonzero, and_not_pdePs word large, pageSize]
  omega

theorem bigPte_largeEntry {page : ℕ} (small : frame < 2 ^ 43) (cache : CacheFlags flags) :
    bigPte (largeEntry frame flags) page = smallEntry (frame * 512 + page % 512) flags := by
  rw [(isLarge_largeEntry small cache).bigPte_eq, largeEntry, smallEntry]
  omega

end

/-! ## What the processor finds -/

/-- What an entry of a page table gives for an address in its page. -/
def pteTranslation (pte va : ℕ) : Option Translation :=
  if pte &&& pteP = 0 then none
  else some ⟨entryFrame pte pageSize * pageSize + va % pageSize, decide (pte &&& pteRw ≠ 0), pte &&& (pteWt ||| pteCd)⟩

section

variable {frame flags entry : ℕ}

@[simp] theorem pteTranslation_zero (va : ℕ) : pteTranslation 0 va = none := rfl

/-- The processor takes the frame modulo the width of its addresses. -/
theorem pteTranslation_smallEntry_mod (cache : CacheFlags flags) (va : ℕ) :
    pteTranslation (smallEntry frame flags) va = some ⟨frame % 2 ^ 40 * 2 ^ 12 + va % 2 ^ 12, true, flags⟩ := by
  have bound := cache.cases
  have present : smallEntry frame flags &&& pteP ≠ 0 := by
    rw [and_pteP, smallEntry]
    omega
  have writable : smallEntry frame flags &&& pteRw ≠ 0 := by
    rw [and_pteRw, smallEntry]
    omega
  have bits : smallEntry frame flags &&& (pteWt ||| pteCd) = flags := by
    rw [and_cache, smallEntry]
    omega
  have base : entryFrame (smallEntry frame flags) pageSize = frame % 2 ^ 40 := by
    rw [entryFrame, smallEntry, pageSize]
    omega
  rw [pteTranslation, if_neg present, bits, base, decide_eq_true writable]
  rfl

theorem pteTranslation_smallEntry (small : frame < 2 ^ 40) (cache : CacheFlags flags) (va : ℕ) :
    pteTranslation (smallEntry frame flags) va = some ⟨frame * 2 ^ 12 + va % 2 ^ 12, true, flags⟩ := by
  rw [pteTranslation_smallEntry_mod cache, Nat.mod_eq_of_lt small]

/-- A large page translates as its pages do once it is broken up. -/
theorem IsLarge.translation (isLarge : IsLarge entry) (va : ℕ) :
    pteTranslation (bigPte entry (va / 2 ^ 12)) va = if entry &&& pteP = 0 then none
      else some ⟨entryFrame entry largePageSize * largePageSize + va % largePageSize,
        decide (entry &&& pteRw ≠ 0), entry &&& (pteWt ||| pteCd)⟩ := by
  have ⟨large, aligned, word⟩ := isLarge
  rw [and_pdePs] at large
  have inside : va / 2 ^ 12 % 512 < 512 := Nat.mod_lt _ (by decide)
  have sum := isLarge.bigPte_eq (va / 2 ^ 12)
  generalize bigPte entry (va / 2 ^ 12) = pte at sum
  have present : pte &&& pteP = entry &&& pteP := by
    rw [and_pteP, and_pteP]
    omega
  have writable : pte &&& pteRw = entry &&& pteRw := by
    rw [and_pteRw, and_pteRw]
    omega
  have bits : pte &&& (pteWt ||| pteCd) = entry &&& (pteWt ||| pteCd) := by
    rw [and_cache, and_cache]
    omega
  have base : entryFrame pte pageSize * pageSize + va % pageSize =
      entryFrame entry largePageSize * largePageSize + va % largePageSize := by
    simp only [entryFrame, pageSize, largePageSize]
    omega
  rw [pteTranslation, present, writable, bits, base]

end

end Biefircate
