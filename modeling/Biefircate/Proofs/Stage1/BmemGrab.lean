import Biefircate.Model.Stage1.Bmem
import Mathlib.Data.Finset.Card
import Mathlib.Data.Finset.Range

/-! # The grabbing loop of `bmem_init`

A request that the firmware grants takes pages off the free ones, and one that it refuses halves the next. After a grant
the count has wrapped, and 64 halvings bring it back down, so the loop makes 65 requests at most for every free page.
-/

namespace Biefircate

/-- The page lies in the memory granted. -/
def Grant.Has (grant : Grant) (page : ℕ) : Prop :=
  grant.start / efiPageSize ≤ page ∧ page < grant.start / efiPageSize + grant.pageCount

variable {σ : Type} {bs : BootServices σ} {origin firmware firmware' : σ} {avail : ℕ → Bool} {s : Grabbed σ}
  {page pageCount idx start fuel width : ℕ}

/-- How the firmware answers a request for pages below 1 MiB: with a run of free pages, aligned and wholly below, unless
there is none. Nothing that a request does makes a page free. -/
structure BootServices.Honours (bs : BootServices σ) : Prop where
  grants : ∀ firmware pageCount start firmware', 0 < pageCount →
    bs.allocatePages firmware pageCount bmemMaxAddr = (some start, firmware') →
    efiPageSize ∣ start ∧ start + pageCount * efiPageSize ≤ bmemMaxAddr ∧ ∀ page, (Grant.mk start pageCount).Has page →
      bs.free firmware page = true ∧ bs.free firmware' page = false
  refuses : ∀ firmware pageCount firmware', 0 < pageCount →
    bs.allocatePages firmware pageCount bmemMaxAddr = (none, firmware') →
    ¬ ∃ first, (first + pageCount) * efiPageSize ≤ bmemMaxAddr ∧
      ∀ page, first ≤ page → page < first + pageCount → bs.free firmware page = true
  keeps : ∀ firmware pageCount page, bs.free (bs.allocatePages firmware pageCount bmemMaxAddr).2 page = true →
    bs.free firmware page = true

/-- The free pages below 1 MiB. -/
def BootServices.freePages (bs : BootServices σ) (firmware : σ) : Finset ℕ := (Finset.range 256).filter fun page => bs.free firmware page

theorem BootServices.mem_freePages : page ∈ bs.freePages firmware ↔ page < 256 ∧ bs.free firmware page = true := by
  rw [BootServices.freePages, Finset.mem_filter, Finset.mem_range]

theorem BootServices.card_freePages_le (bs : BootServices σ) (firmware : σ) : (bs.freePages firmware).card ≤ 256 :=
  (Finset.card_filter_le _ _).trans_eq (Finset.card_range 256)

namespace BootServices.Honours

theorem freePages_subset (honours : bs.Honours)
    (answered : (bs.allocatePages firmware pageCount bmemMaxAddr).2 = firmware') :
    bs.freePages firmware' ⊆ bs.freePages firmware := by
  intro page member
  obtain ⟨low, free⟩ := mem_freePages.mp member
  rw [← answered] at free
  exact mem_freePages.mpr ⟨low, honours.keeps firmware pageCount page free⟩

/-- A grant leaves fewer free pages. -/
theorem card_lt (honours : bs.Honours) (positive : 0 < pageCount)
    (granted : bs.allocatePages firmware pageCount bmemMaxAddr = (some start, firmware')) :
    (bs.freePages firmware').card < (bs.freePages firmware).card := by
  obtain ⟨aligned, high, taken⟩ := honours.grants _ _ _ _ positive granted
  obtain ⟨was, isnt⟩ := taken (start / efiPageSize) ⟨le_rfl, Nat.lt_add_of_pos_right positive⟩
  have low : start / efiPageSize < 256 := by
    simp only [efiPageSize, bmemMaxAddr] at high ⊢
    omega
  apply Finset.card_lt_card
  refine Finset.ssubset_iff_subset_ne.mpr ⟨honours.freePages_subset (congrArg Prod.snd granted), ?_⟩
  intro same
  have still := mem_freePages.mpr ⟨low, was⟩
  rw [← same, mem_freePages, isnt] at still
  exact absurd still.2 (by decide)

/-- Where a request for one page is refused, no page is free. -/
theorem none_free (honours : bs.Honours) (refused : bs.allocatePages firmware 1 bmemMaxAddr = (none, firmware')) :
    ∀ page < 256, bs.free firmware' page = false := by
  intro page low
  apply Bool.eq_false_iff.mpr
  intro free
  have was : bs.free firmware page = true := honours.keeps firmware 1 page (by rw [refused]; exact free)
  refine honours.refuses _ _ _ Nat.one_pos refused ⟨page, ?_, ?_⟩
  · simp only [efiPageSize, bmemMaxAddr]
    omega
  · intro other above below
    rwa [show other = page by omega]

end BootServices.Honours

/-- The countdown sets the bits of the pages, and nothing else. -/
theorem markPages_ok (high : idx + pageCount ≤ 256) : ∃ marked, markPages pageCount idx avail = .ok (marked, 2 ^ 64 - 1) ∧
    ∀ page, marked page = true ↔ avail page = true ∨ (idx ≤ page ∧ page < idx + pageCount) := by
  induction pageCount generalizing idx avail with
  | zero =>
    refine ⟨avail, rfl, fun page => ?_⟩
    exact (or_iff_left (by omega)).symm
  | succ pageCount ih =>
    have inside : bvecSet avail idx = .ok (Function.update avail idx true) :=
      if_pos (by simp only [bmemMaxAddr, efiPageSize]; omega)
    obtain ⟨marked, ran, bits⟩ := @ih (Function.update avail idx true) (idx + 1) (by omega)
    refine ⟨marked, ?_, fun page => ?_⟩
    · rw [markPages, inside, ok_bind, Word.add_of_lt (by omega), ran]
    · rw [bits, Function.update_apply]
      split
      · next same =>
        subst same
        exact iff_of_true (.inl rfl) (.inr ⟨le_rfl, by omega⟩)
      · next other => exact or_congr_right (by omega)

/-- What the loop keeps, from the state `origin` of the firmware on. -/
structure Grabbed.Inv (bs : BootServices σ) (origin : σ) (s : Grabbed σ) : Prop where
  bits : ∀ page, s.avail page = true ↔ ∃ grant ∈ s.grants, grant.Has page
  low : ∀ page, s.avail page = true → page < 256
  free : ∀ page, s.avail page = true → bs.free origin page = true
  keeps : ∀ page, bs.free s.firmware page = true → bs.free origin page = true

namespace Grabbed.Inv

theorem initial (bs : BootServices σ) (origin : σ) : Grabbed.Inv bs origin ⟨origin, fun _ => false, []⟩ where
  bits := by simp
  low := by simp
  free := by simp
  keeps _ := id

/-- A request that is refused leaves the pages as they are. -/
theorem refused (inv : s.Inv bs origin) (honours : bs.Honours)
    (answered : bs.allocatePages s.firmware pageCount bmemMaxAddr = (none, firmware')) :
    Grabbed.Inv bs origin { s with firmware := firmware' } where
  bits := inv.bits
  low := inv.low
  free := inv.free
  keeps page free := inv.keeps page (honours.keeps s.firmware pageCount page (by rw [answered]; exact free))

/-- The pages of a request that is granted are marked. -/
theorem granted (inv : s.Inv bs origin) (honours : bs.Honours) (positive : 0 < pageCount)
    (answered : bs.allocatePages s.firmware pageCount bmemMaxAddr = (some start, firmware')) :
    ∃ marked, markPages pageCount (start / efiPageSize % 2 ^ 32) s.avail = .ok (marked, 2 ^ 64 - 1) ∧
      Grabbed.Inv bs origin ⟨firmware', marked, ⟨start, pageCount⟩ :: s.grants⟩ := by
  obtain ⟨⟨first, rfl⟩, high, taken⟩ := honours.grants _ _ _ _ positive answered
  have first_eq : efiPageSize * first / efiPageSize = first := Nat.mul_div_cancel_left first (by decide)
  have top : first + pageCount ≤ 256 := by
    simp only [efiPageSize, bmemMaxAddr] at high
    omega
  obtain ⟨marked, ran, bits⟩ := @markPages_ok s.avail pageCount first top
  rw [first_eq, Nat.mod_eq_of_lt (by omega)]
  simp only [Grant.Has, first_eq] at taken
  refine ⟨marked, ran, ?_, ?_, ?_, ?_⟩
  · intro page
    simp only [bits, inv.bits, List.exists_mem_cons_iff, Grant.Has, first_eq]
    exact Or.comm
  · intro page set
    rcases (bits page).mp set with old | new
    · exact inv.low page old
    · omega
  · intro page set
    rcases (bits page).mp set with old | new
    · exact inv.free page old
    · exact inv.keeps page (taken page new).1
  · intro page free
    exact inv.keeps page (honours.keeps s.firmware pageCount page (by rw [answered]; exact free))

end Grabbed.Inv

/-- The loop ends: a grant leaves fewer free pages, a refusal a shorter count. -/
theorem grabFrom_ok (honours : bs.Honours) (inv : s.Inv bs origin) (positive : 0 < pageCount) (fits : pageCount < 2 ^ width)
    (narrow : width ≤ 64) (enough : 65 * (bs.freePages s.firmware).card + width ≤ fuel) :
    ∃ left, grabFrom bs fuel pageCount s = .ok left ∧ left.Inv bs origin ∧
      ∀ page < 256, bs.free left.firmware page = false := by
  induction fuel generalizing s pageCount width with
  | zero =>
    obtain rfl : width = 0 := by omega
    omega
  | succ fuel ih =>
    cases width with
    | zero => omega
    | succ width =>
      rcases answered : bs.allocatePages s.firmware pageCount bmemMaxAddr with ⟨_ | start, firmware'⟩
      · rw [grabFrom, answered]
        dsimp only
        split
        · next more =>
          have fewer : (bs.freePages firmware').card ≤ (bs.freePages s.firmware).card :=
            Finset.card_le_card (honours.freePages_subset (congrArg Prod.snd answered))
          have half : pageCount / 2 < 2 ^ width := by omega
          exact ih (inv.refused honours answered) (Nat.pos_of_ne_zero more) half (by omega) (by dsimp only; omega)
        · next last =>
          obtain rfl : pageCount = 1 := by omega
          exact ⟨_, rfl, inv.refused honours answered, honours.none_free answered⟩
      · obtain ⟨marked, ran, inv'⟩ := inv.granted honours positive answered
        have fewer := honours.card_lt positive answered
        have wrapped : 2 ^ 64 - 1 < 2 ^ 64 := by decide
        rw [grabFrom, answered]
        dsimp only
        rw [ran, ok_bind]
        exact ih inv' (Nat.lt_of_sub_eq_succ rfl) wrapped le_rfl (by dsimp only; omega)

/-- Enough requests for 256 free pages. -/
def grabRounds : ℕ := 65 * 256 + 8

theorem grabBmem_ok (honours : bs.Honours) (enough : grabRounds ≤ fuel) : ∃ left, grabBmem bs fuel firmware = .ok left ∧
    left.Inv bs firmware ∧ ∀ page < 256, bs.free left.firmware page = false := by
  have few := bs.card_freePages_le firmware
  have rounds : 65 * (bs.freePages firmware).card + 8 ≤ fuel := by
    rw [grabRounds] at enough
    omega
  have first : bmemMaxAddr / efiPageSize / 2 < 2 ^ 8 := by decide
  exact grabFrom_ok honours (Grabbed.Inv.initial bs firmware) (by decide) first (by decide) rounds

end Biefircate
