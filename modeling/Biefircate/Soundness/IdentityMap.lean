import Biefircate.Proofs.Stage2.VaInit
import Biefircate.Soundness.MemoryMap

/-! # Which pages are mapped to themselves

`va_init` maps what lies below an unused range, and the ranges that are not to be cached. Where no range is
unused it maps up to whatever `unused_va_ranges` happens to begin with.
-/

namespace Biefircate

/-- Base memory and all entries of the map are mapped to themselves, and unused ranges are not mapped. -/
def Va.IdMapped (s : Va) : Prop :=
  (∀ va < 2 ^ 32, (va < bmemMaxAddr ∨ ∃ mr ∈ s.paging.map.ranges, mr.Meets (va / 2 ^ 12)) →
    ∃ cache, s.paging.translate va = some ⟨va, true, cache⟩) ∧
  ∀ va < 2 ^ 32, s.HasUnused (va / 2 ^ 12) → s.paging.translate va = none

/-- The page meets a range that is not to be cached, or an unused page lies above it, or, where no page is
unused, the word that `unused_va_ranges` begins with is above it. -/
def Reached (mrs : List MemRange) (stale page : ℕ) : Prop :=
  (∃ mr ∈ mrs, mr.Meets page ∧ uefiAttrToPteFlags mr.uefiAttr ≠ 0) ∨
    (∃ q, page < q ∧ UnusedPage mrs q) ∨ (∀ q, ¬ UnusedPage mrs q) ∧ page * 2 ^ 12 < stale

/-- Base memory and all entries are reached. -/
def AllReached (mrs : List MemRange) (stale : ℕ) : Prop :=
  ∀ page < 2 ^ 20, (page < 256 ∨ ∃ mr ∈ mrs, mr.Meets page) → Reached mrs stale page

section

variable {mrs : List MemRange} {stale page : ℕ} {s : Va}

/-- The regions reach the pages below an unused page. -/
theorem Va.Started.region_iff (started : s.Started mrs stale) (used : ¬ UnusedPage mrs page) :
    page * 2 ^ 12 < firstStop s.unused stale ∨ InGap s.unused page ↔
      (∃ q, page < q ∧ UnusedPage mrs q) ∨ (∀ q, ¬ UnusedPage mrs q) ∧ page * 2 ^ 12 < stale :=
  regions_iff started.pages started.apart started.unused used

/-- A page is mapped to itself if it is reached, and blank otherwise. -/
theorem Va.Started.pteOf_cases (started : s.Started mrs stale) (small : page < 2 ^ 20) (used : ¬ UnusedPage mrs page) :
    (Reached mrs stale page → ∃ flags, CacheFlags flags ∧ s.paging.pteOf page = smallEntry page flags) ∧
      (¬ Reached mrs stale page → s.paging.pteOf page = 0) := by
  obtain ⟨low, p, _, laid, kept⟩ := started.laid
  have entries := started.same.old
  have region := started.region_iff used
  have remapped : Remapped mrs s.paging page → (∃ mr ∈ mrs, mr.Meets page ∧ uefiAttrToPteFlags mr.uefiAttr ≠ 0) ∧
      ∃ flags, CacheFlags flags ∧ s.paging.pteOf page = smallEntry page flags := by
    rintro ⟨x, flags, inside, found, nonzero, entry⟩
    obtain ⟨mr, member, covers, rfl⟩ := entries.flagsAt_eq_some_iff.mp found
    have meets : mr.Meets page := (entries.valid mr member).meets_iff.mpr ⟨x, by omega, covers⟩
    exact ⟨⟨mr, member, meets, nonzero⟩, _, uefiAttrToPteFlags_cache _, entry⟩
  constructor
  · rintro (⟨mr, member, meets, nonzero⟩ | reached)
    · obtain ⟨x, inside, covers⟩ := (entries.valid mr member).meets_iff.mp meets
      have here : x / 2 ^ 12 = page := by omega
      have again := started.remapped x (by omega) _ (entries.flagsAt_eq_some_iff.mpr ⟨mr, member, covers, rfl⟩) nonzero
      rw [here] at again
      exact (remapped again).2
    · rcases kept page small with same | again
      · rw [same]
        rcases lt_or_ge (page * 2 ^ 12) (firstStop s.unused stale) with under | beyond
        · exact ⟨_, uefiAttrToPteFlags_cache _, laid.first page small under⟩
        · have gap := (region.mpr reached).resolve_left (not_lt.mpr beyond)
          exact ⟨0, by decide, laid.gaps page small beyond gap⟩
      · exact (remapped again).2
  · intro missed
    obtain ⟨cached, none⟩ := not_or.mp missed
    obtain ⟨beyond, gap⟩ := not_or.mp (mt region.mp none)
    rcases kept page small with same | again
    · exact same.trans (laid.blank page small (not_lt.mp beyond) gap)
    · exact absurd (remapped again).1 cached

/-- The identity map is complete exactly when everything is reached. -/
theorem Va.Started.idMapped_iff (started : s.Started mrs stale) : s.IdMapped ↔ AllReached mrs stale := by
  have ready := started.ready
  have present : ∀ page, (∃ mr ∈ s.paging.map.ranges, mr.Meets page) ↔ ∃ mr ∈ mrs, mr.Meets page := by
    intro page
    constructor
    · rintro ⟨mr', member, meets⟩
      obtain ⟨mr, member, meets, _⟩ := started.same.meets_iff.mp ⟨mr', member, meets, rfl⟩
      exact ⟨mr, member, meets⟩
    · rintro ⟨mr, member, meets⟩
      obtain ⟨mr', member, meets, _⟩ := started.same.meets_iff.mpr ⟨mr, member, meets, rfl⟩
      exact ⟨mr', member, meets⟩
  have used : ∀ page, (page < 256 ∨ ∃ mr ∈ mrs, mr.Meets page) → ¬ UnusedPage mrs page := by
    rintro page (base | ⟨mr, member, meets⟩) ⟨high, _, clear, _⟩
    · omega
    · exact clear mr member meets
  constructor
  · rintro ⟨mapped, _⟩ page small wanted
    by_contra missed
    have here : page * 2 ^ 12 / 2 ^ 12 = page := Nat.mul_div_cancel _ (by decide)
    have want : page * 2 ^ 12 < bmemMaxAddr ∨ ∃ mr ∈ s.paging.map.ranges, mr.Meets (page * 2 ^ 12 / 2 ^ 12) := by
      rw [here, present, bmemMaxAddr]
      exact wanted.imp_left fun base => by omega
    obtain ⟨cache, translated⟩ := mapped (page * 2 ^ 12) (by omega) want
    rw [translate_eq started.ok (by omega), here, (started.pteOf_cases small (used page wanted)).2 missed,
      pteTranslation_zero] at translated
    cases translated
  · intro reached
    refine ⟨fun va small wanted => ?_, fun va small unused => ?_⟩
    · have low : va / 2 ^ 12 < 2 ^ 20 := by omega
      have want : va / 2 ^ 12 < 256 ∨ ∃ mr ∈ mrs, mr.Meets (va / 2 ^ 12) := by
        rw [present, bmemMaxAddr] at wanted
        exact wanted.imp_left fun base => by omega
      obtain ⟨flags, cache, entry⟩ := (started.pteOf_cases low (used _ want)).1 (reached _ low want)
      refine ⟨flags, ?_⟩
      rw [translate_eq started.ok small, entry, pteTranslation_smallEntry (by omega) cache, Nat.div_add_mod']
    · rw [translate_eq started.ok small, ready.ok.blank _ unused, pteTranslation_zero]

/-- Whenever `mem_init` returns, base memory and all ranges are mapped to themselves, and unused ranges are not
mapped, exactly when everything is reached. -/
theorem memInit_idMapped_iff {bps : BootParams} {words : ℕ → ℕ} (apart : RangesApart bps.nodes) (typed : stale < 2 ^ 32)
    (ran : memInit bps.nodes words stale = .ok s) : s.IdMapped ↔ AllReached (givenRanges bps.nodes) stale :=
  (memInit_ok apart typed ran).idMapped_iff

theorem memInit_idMapped_iff_sample : ∃ s, memInit sampleParams.nodes (fun _ => 0) 0 = .ok s ∧
    (s.IdMapped ↔ AllReached (givenRanges sampleParams.nodes) 0) := by
  obtain ⟨s, ran⟩ := exists_of_isOk (x := memInit sampleParams.nodes (fun _ => 0) 0) (by decide +kernel)
  exact ⟨s, ran, memInit_idMapped_iff (by decide) (by decide) ran⟩

end

/-- A reserved range with write-back just below 4 GiB, above all unused addresses. -/
def cachedTop : BootParams where
  nodes := [.mrng ⟨0x100000, 0x3f00000, e820Ram, 1, 15⟩, .mrng ⟨0xff000000, 0x1000000, e820Reserved, 1, 15⟩,
    .bmem ⟨0x110, 0x9f00⟩, .mrng ⟨0, 0x9f000, e820Ram, 1, 15⟩]
  typed := by decide
  fits := by decide

/-- It is an entry of the map, but is not mapped. -/
theorem cachedTop_unmapped : RangesApart cachedTop.nodes ∧
    ∃ s, memInit cachedTop.nodes (fun _ => 0) 0 = .ok s ∧ ¬ s.IdMapped := by
  have evaluated : (fun s : Va => decide (⟨0xff000000, 0x1000000, e820Reserved, 1, 15⟩ ∈ s.paging.map.ranges ∧
      s.paging.translate 0xff000000 = none)) <$> memInit cachedTop.nodes (fun _ => 0) 0 = .ok true := by decide +kernel
  obtain ⟨s, ran, facts⟩ := map_eq_ok.mp evaluated
  obtain ⟨entry, unmapped⟩ := of_decide_eq_true facts
  refine ⟨by decide, s, ran, fun mapped => ?_⟩
  obtain ⟨cache, translated⟩ := mapped.1 0xff000000 (by decide) (Or.inr ⟨_, entry, by decide⟩)
  rw [unmapped] at translated
  cases translated

end Biefircate
