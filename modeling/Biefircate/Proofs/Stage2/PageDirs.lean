import Biefircate.Model.Stage2.VaMap
import Biefircate.Proofs.Stage2.PageMap

/-! # The page directories

`va_init` takes memory for the page-directory-pointer table, and then a page for each of the four page
directories, which it clears. Once all four are there the tables are well formed and map nothing.
-/

namespace Biefircate

/-- The first `i` page directories are there, each blank and in a page of its own. -/
structure PdsDone (p : Paging) (i : ℕ) : Prop where
  map : p.map.Ok
  root : 32 ∣ p.pdpt
  rootReserved : Reserved p.map.ranges p.pdpt (p.pdpt + 32)
  pdptes : ∀ j < i, ∃ pd < 2 ^ 20, p.words (p.pdpt + 8 * j) = pd * 2 ^ 12 + 1
  reserved : ∀ j < i, Reserved p.map.ranges (p.pdOf j) (p.pdOf j + pageSize)
  entries : ∀ j < i, ∃ mr ∈ p.map.ranges, mr.e820Type ≠ e820Ram ∧ mr.start = p.pdOf j
  blank : ∀ j < i, ∀ k < 512, p.words (p.pdOf j + 8 * k) = 0
  rootApart : ∀ j < i, p.pdpt + 32 ≤ p.pdOf j ∨ p.pdOf j + pageSize ≤ p.pdpt
  apart : ∀ j < i, ∀ k < j, p.pdOf k + pageSize ≤ p.pdOf j ∨ p.pdOf j + pageSize ≤ p.pdOf k

section

variable {p p' : Paging} {i : ℕ}

/-- The state once the page at `pd` is the next page directory. -/
def Paging.withPd (p : Paging) (i pd : ℕ) (map : MemMap) : Paging :=
  Paging.setWord { p with map := map, words := fillPage p.words pd fun _ => 0 } (p.pdpt + 8 * i) (pd ||| pteP)

theorem PdsDone.start {map : MemMap} {words : ℕ → ℕ} {pdpt : ℕ} (ok : map.Ok) (aligned : 32 ∣ pdpt)
    (reserved : Reserved map.ranges pdpt (pdpt + 32)) : PdsDone ⟨map, words, pdpt⟩ 0 := by
  refine ⟨ok, aligned, reserved, ?_, ?_, ?_, ?_, ?_, ?_⟩
  all_goals exact fun j none => absurd none (Nat.not_lt_zero j)

theorem PdsDone.next (done : PdsDone p i) (below : i < 4) {pd : ℕ} {map : MemMap}
    (allocated : memAlloc p.map pageSize pageSize 0 = .ok (pd, map)) :
    PdsDone (p.withPd i pd map) (i + 1) ∧ p.map.Grown map := by
  obtain ⟨grown, fresh⟩ := memAlloc_grown done.map pageReq_valid allocated
  obtain ⟨q, small, rfl⟩ := memAlloc_page allocated
  have rootClear : q * 2 ^ 12 + pageSize ≤ p.pdpt ∨ p.pdpt + 32 ≤ q * 2 ^ 12 :=
    fresh.apart _ _ (by omega) done.rootReserved
  have positive : 0 < pageSize := by decide
  have pdClear : ∀ j < i, q * 2 ^ 12 + pageSize ≤ p.pdOf j ∨ p.pdOf j + pageSize ≤ q * 2 ^ 12 := by
    intro j earlier
    exact fresh.apart _ _ (Nat.lt_add_of_pos_right positive) (done.reserved j earlier)
  have words : ∀ x, x < q * 2 ^ 12 ∨ q * 2 ^ 12 + pageSize ≤ x → x ≠ p.pdpt + 8 * i →
      (p.withPd i (q * 2 ^ 12) map).words x = p.words x := by
    intro x outside other
    rw [Paging.withPd, setWord_words, if_neg other]
    exact if_neg (by omega)
  have cleared : ∀ x, q * 2 ^ 12 ≤ x → x < q * 2 ^ 12 + pageSize → (p.withPd i (q * 2 ^ 12) map).words x = 0 := by
    intro x low high
    rw [Paging.withPd, setWord_words, if_neg (by omega)]
    exact if_pos ⟨low, high⟩
  have same : ∀ j < i, (p.withPd i (q * 2 ^ 12) map).words (p.pdpt + 8 * j) = p.words (p.pdpt + 8 * j) :=
    fun j earlier => words _ (by omega) (by omega)
  have entry : (p.withPd i (q * 2 ^ 12) map).words (p.pdpt + 8 * i) = q * 2 ^ 12 + 1 := by
    rw [Paging.withPd, setWord_words, if_pos rfl]
    exact Word.or_of_dvd (Dvd.intro_left q rfl) (by decide)
  have here : (p.withPd i (q * 2 ^ 12) map).pdOf i = q * 2 ^ 12 := pdOf_eq small entry
  have there : ∀ j < i, (p.withPd i (q * 2 ^ 12) map).pdOf j = p.pdOf j := fun j earlier =>
    pdOf_congr rfl (same j earlier)
  have cases : ∀ j < i + 1, j < i ∨ j = i := fun j earlier => by omega
  refine ⟨⟨grown.ok, done.root, grown.reserved _ _ done.rootReserved, ?_, ?_, ?_, ?_, ?_, ?_⟩, grown⟩
  · intro j late
    rcases cases j late with earlier | rfl
    · obtain ⟨pd, low, found⟩ := done.pdptes j earlier
      exact ⟨pd, low, (same j earlier).trans found⟩
    · exact ⟨q, small, entry⟩
  · intro j late
    rcases cases j late with earlier | rfl
    · rw [there j earlier]
      exact grown.reserved _ _ (done.reserved j earlier)
    · rw [here]
      exact fresh.reserved
  · intro j late
    rcases cases j late with earlier | rfl
    · obtain ⟨mr, member, type, start⟩ := done.entries j earlier
      exact ⟨mr, grown.firm mr member type, type, start.trans (there j earlier).symm⟩
    · obtain ⟨mr, member, type, start, _⟩ := fresh.entry
      exact ⟨mr, member, by rw [type]; decide, start.trans here.symm⟩
  · intro j late k inside
    rcases cases j late with earlier | rfl
    · have rootApart := done.rootApart j earlier
      have clear := pdClear j earlier
      rw [there j earlier, words _ ?_ ?_]
      · exact done.blank j earlier k inside
      all_goals
        rw [pageSize] at *
        omega
    · rw [here]
      exact cleared _ (by omega) (by rw [pageSize]; omega)
  · intro j late
    change p.pdpt + 32 ≤ _ ∨ _ + pageSize ≤ p.pdpt
    rcases cases j late with earlier | rfl
    · rw [there j earlier]
      exact done.rootApart j earlier
    · rw [here]
      exact rootClear.symm
  · intro j late k under
    rcases cases j late with earlier | rfl
    · rw [there j earlier, there k (under.trans earlier)]
      exact done.apart j earlier k under
    · rw [here, there k under]
      exact (pdClear k under).symm

/-- The loop that allocates the page directories. -/
theorem addPds_ok {left : ℕ} (done : PdsDone p i) (sum : i + left = 4) (ran : addPds p left i = .ok p') :
    PdsDone p' 4 ∧ p.map.Grown p'.map := by
  induction left generalizing p i with
  | zero =>
    cases ran
    rw [Nat.add_zero] at sum
    exact ⟨sum ▸ done, .refl done.map⟩
  | succ left ih =>
    obtain ⟨⟨pd, map⟩, allocated, ran⟩ := bind_eq_ok.mp ran
    obtain ⟨next, grown⟩ := done.next (by omega) allocated
    obtain ⟨last, later⟩ := ih next (by omega) ran
    exact ⟨last, grown.trans later⟩

theorem PdsDone.slot_eq (done : PdsDone p 4) {d : ℕ} (low : d < 2048) : p.slot d = 0 :=
  done.blank _ (by omega) _ (Nat.mod_lt d (by decide))

/-- The tables are all in reserved memory. -/
theorem PdsDone.held (done : PdsDone p 4) : p.Held := by
  refine ⟨done.map, fun t a present => ?_⟩
  cases t with
  | pdpt =>
    cases present
    exact done.rootReserved
  | pd i =>
    obtain ⟨low, rfl⟩ := present
    exact done.reserved i low
  | pt d =>
    obtain ⟨low, pt, refers, _⟩ := present
    rw [done.slot_eq low] at refers
    exact absurd (Nat.zero_and _) refers.present

/-- With all four page directories the tables are well formed, and nothing is mapped. -/
theorem PdsDone.ok (done : PdsDone p 4) : p.Ok ∧ ∀ page < 2 ^ 20, p.pteOf page = 0 := by
  have noTable : ∀ d a, ¬ p.At (.pt d) a := by
    rintro d a ⟨low, pt, refers, _⟩
    rw [done.slot_eq low] at refers
    exact refers.present (Nat.zero_and _)
  refine ⟨⟨done.root, done.pdptes, fun d low => Or.inl (Or.inl (done.slot_eq low)), ?_, ?_⟩, ?_⟩
  · intro t t' a a' different first second
    cases t with
    | pt d => exact absurd first (noTable d a)
    | pdpt =>
      cases first
      cases t' with
      | pdpt => exact absurd rfl different
      | pd j =>
        obtain ⟨low, rfl⟩ := second
        exact done.rootApart j low
      | pt d => exact absurd second (noTable d a')
    | pd i =>
      obtain ⟨low, rfl⟩ := first
      cases t' with
      | pdpt =>
        cases second
        exact (done.rootApart i low).symm
      | pd j =>
        obtain ⟨low', rfl⟩ := second
        rcases Nat.lt_or_gt_of_ne (fun same : i = j => different (by rw [same])) with before | after
        · exact done.apart j low' i before
        · exact (done.apart i low j after).symm
      | pt d => exact absurd second (noTable d a')
  · exact fun as m' allocs => done.held.spare allocs
  · intro page low
    rw [Paging.pteOf, done.slot_eq (by omega)]
    rfl

/-- An entry of the map starts at a page that is neither the first nor above 4 GiB: that of a directory. -/
theorem PdsDone.high_start (done : PdsDone p 4) :
    ∃ mr ∈ p.map.ranges, 2 ^ 12 ≤ mr.start ∧ mr.start ≤ 2 ^ 32 - 2 ^ 12 := by
  obtain ⟨pd0, low0, word0⟩ := done.pdptes 0 (by decide)
  obtain ⟨pd1, low1, word1⟩ := done.pdptes 1 (by decide)
  obtain ⟨mr0, member0, _, start0⟩ := done.entries 0 (by decide)
  obtain ⟨mr1, member1, _, start1⟩ := done.entries 1 (by decide)
  have apart := done.apart 1 (by decide) 0 (by decide)
  rw [pdOf_eq low0 word0] at start0 apart
  rw [pdOf_eq low1 word1] at start1 apart
  rw [pageSize] at apart
  rcases Nat.eq_zero_or_pos pd0 with zero | positive
  · exact ⟨mr1, member1, by omega, by omega⟩
  · exact ⟨mr0, member0, by omega, by omega⟩

end

end Biefircate
