import Biefircate.Proofs.Stage2.VaInit
import Biefircate.Soundness.MemoryMap

/-! # Which pages have the cache flags of their range

`va_init` gives the whole region below the first unused range the flags of the lowest range, and then maps
only those ranges once more that are not to be cached. So the flags of the lowest range leak into the ranges
of that region that are to be cached, and nowhere else.
-/

namespace Biefircate

/-- Entries made of whole pages. -/
def WholePages (mrs : List MemRange) : Prop := ∀ mr ∈ mrs, 2 ^ 12 ∣ mr.start ∧ 2 ^ 12 ∣ mr.len

instance (mrs : List MemRange) : Decidable (WholePages mrs) := inferInstanceAs (Decidable (∀ mr ∈ mrs, _))

/-- Every address that is mapped has the cache flags of an entry that its page meets. -/
def Va.AttrsKept (s : Va) : Prop := ∀ mr ∈ s.paging.map.ranges, ∀ va < 2 ^ 32, mr.Meets (va / 2 ^ 12) →
  ∀ t, s.paging.translate va = some t → t.cache = uefiAttrToPteFlags mr.uefiAttr

/-- An unused page lies below the page, or, where no page is unused, the word that `unused_va_ranges` begins
with is not above it. -/
def BeyondFirst (mrs : List MemRange) (stale page : ℕ) : Prop :=
  (∃ q < page, UnusedPage mrs q) ∨ (∀ q, ¬ UnusedPage mrs q) ∧ stale ≤ page * 2 ^ 12

/-- The lowest entry is to be cached, or all that are lie beyond the first region. -/
def FirstRegionAgrees (mrs : List MemRange) (stale : ℕ) : Prop := ∀ low, Lowest mrs low →
  uefiAttrToPteFlags low.uefiAttr = 0 ∨ ∀ mr ∈ mrs, uefiAttrToPteFlags mr.uefiAttr = 0 →
    ∀ page < 2 ^ 20, mr.Meets page → BeyondFirst mrs stale page

section

variable {mrs : List MemRange} {mr : MemRange} {stale page x : ℕ} {s : Va}

/-- An entry of whole pages covers every address of a page that it meets. -/
theorem WholePages.covers (whole : WholePages mrs) (member : mr ∈ mrs) (meets : mr.Meets page) (inside : x / 2 ^ 12 = page) :
    mr.start ≤ x ∧ x < mr.stop := by
  obtain ⟨⟨a, start⟩, ⟨n, len⟩⟩ := whole mr member
  obtain ⟨before, after⟩ := meets
  rw [MemRange.stop] at after ⊢
  omega

theorem Va.Started.beyondFirst_iff (started : s.Started mrs stale) (met : ¬ UnusedPage mrs page) :
    BeyondFirst mrs stale page ↔ firstStop s.unused stale ≤ page * 2 ^ 12 := by
  have unused := started.unused
  have pages := started.pages
  have apart := started.apart
  cases ranges : s.unused with
  | nil =>
    have none : ∀ q, ¬ UnusedPage mrs q := by
      intro q isUnused
      obtain ⟨vr, member, _⟩ := (unused q).mp isUnused
      rw [ranges] at member
      cases member
    rw [show firstStop [] stale = stale from rfl]
    constructor
    · rintro (⟨q, _, isUnused⟩ | ⟨_, above⟩)
      · exact absurd isUnused (none q)
      · exact above
    · exact fun above => Or.inr ⟨none, above⟩
  | cons vr rest =>
    rw [ranges] at pages apart
    obtain ⟨vrOk, nonempty⟩ := pages vr (List.mem_cons_self ..)
    obtain ⟨a, start⟩ := vrOk.start
    have first : UnusedPage mrs a := by
      refine (unused a).mpr ⟨vr, by rw [ranges]; exact List.mem_cons_self .., by omega, ?_⟩
      rw [VaRange.stop]
      omega
    rw [show firstStop (vr :: rest) stale = vr.start from rfl]
    constructor
    · rintro (⟨q, below, isUnused⟩ | ⟨none, _⟩)
      · obtain ⟨other, member, low, _⟩ := (unused q).mp isUnused
        rw [ranges] at member
        have bound : q * 2 ^ 12 ≤ page * 2 ^ 12 := Nat.mul_le_mul_right _ below.le
        rcases List.mem_cons.mp member with rfl | later
        · exact low.trans bound
        · have order := (List.pairwise_cons.mp apart).1 other later
          rw [VaRange.stop] at order
          omega
      · exact absurd first (none a)
    · intro above
      have other : a ≠ page := fun same => met (same ▸ first)
      exact Or.inl ⟨a, by omega, first⟩

/-- A page that meets an entry is mapped as the entry wants it, or as the regions were laid out. -/
theorem Va.Started.pteOf_of_meets (started : s.Started mrs stale) (whole : WholePages mrs) (member : mr ∈ mrs)
    (small : page < 2 ^ 20) (meets : mr.Meets page) {p : Paging}
    (kept : s.paging.pteOf page = p.pteOf page ∨ Remapped mrs s.paging page) :
    s.paging.pteOf page = if uefiAttrToPteFlags mr.uefiAttr = 0 then p.pteOf page
      else smallEntry page (uefiAttrToPteFlags mr.uefiAttr) := by
  have found : ∀ y, y / 2 ^ 12 = page → flagsAt mrs y = some (uefiAttrToPteFlags mr.uefiAttr) := fun y inside =>
    started.same.old.flagsAt_eq_some_iff.mpr ⟨mr, member, whole.covers member meets inside, rfl⟩
  have own : Remapped mrs s.paging page → uefiAttrToPteFlags mr.uefiAttr ≠ 0 ∧
      s.paging.pteOf page = smallEntry page (uefiAttrToPteFlags mr.uefiAttr) := by
    rintro ⟨y, flags, inside, wanted, nonzero, entry⟩
    obtain rfl := Option.some.inj ((found y inside).symm.trans wanted)
    exact ⟨nonzero, entry⟩
  split
  · next cached => exact kept.resolve_right fun remapped => (own remapped).1 cached
  · next nonzero =>
    have here : page * 2 ^ 12 / 2 ^ 12 = page := Nat.mul_div_cancel _ (by decide)
    have remapped := started.remapped (page * 2 ^ 12) (by omega) _ (found _ here) nonzero
    rw [here] at remapped
    exact (own remapped).2

/-- The flags are kept exactly when the first region agrees with its lowest entry. -/
theorem Va.Started.attrsKept_iff (started : s.Started mrs stale) (whole : WholePages mrs) :
    s.AttrsKept ↔ FirstRegionAgrees mrs stale := by
  obtain ⟨low, p, lowest, laid, kept⟩ := started.laid
  have found : ∀ mr ∈ mrs, ∀ page < 2 ^ 20, mr.Meets page → ∀ va, va / 2 ^ 12 = page → s.paging.translate va =
      pteTranslation (if uefiAttrToPteFlags mr.uefiAttr = 0 then p.pteOf page
        else smallEntry page (uefiAttrToPteFlags mr.uefiAttr)) va := by
    intro mr member page small meets va inside
    rw [translate_eq started.ok (by omega), inside, started.pteOf_of_meets whole member small meets (kept page small)]
  constructor
  · intro attrs low' lowest'
    have same : low'.start = low.start := le_antisymm (lowest'.least low lowest.member) (lowest.least low' lowest'.member)
    have positive : ∀ mr ∈ mrs, mr.start < mr.stop := fun mr member =>
      Nat.lt_add_of_pos_right (started.same.old.valid mr member).nonempty
    obtain rfl : low' = low := Span.eq_of_covers started.same.old.apart lowest'.member lowest.member
      ⟨le_rfl, positive _ lowest'.member⟩ ⟨same.ge, same ▸ positive _ lowest.member⟩
    by_contra disagree
    obtain ⟨nonzero, disagree⟩ := not_or.mp disagree
    push Not at disagree
    obtain ⟨mr, member, cached, page, small, meets, within⟩ := disagree
    have met : ¬ UnusedPage mrs page := fun unused => unused.2.2.1 mr member meets
    rw [started.beyondFirst_iff met, not_le] at within
    -- The page has the flags of the lowest entry, but meets an entry that calls for none.
    have here : page * 2 ^ 12 / 2 ^ 12 = page := Nat.mul_div_cancel _ (by decide)
    have translated := found mr member page small meets (page * 2 ^ 12) here
    rw [if_pos cached, laid.first page small within,
      pteTranslation_smallEntry (by omega) (uefiAttrToPteFlags_cache _)] at translated
    obtain ⟨mr', member', meets', attr⟩ := started.same.meets_iff.mpr ⟨mr, member, meets, rfl⟩
    have flags := attrs mr' member' (page * 2 ^ 12) (by omega) (here.symm ▸ meets') _ translated
    have attr : mr'.uefiAttr = mr.uefiAttr := (Prod.ext_iff.mp attr).2
    dsimp only at flags
    rw [attr, cached] at flags
    exact nonzero flags
  · intro agrees mr' member' va below meets' t translated
    obtain ⟨mr, member, meets, attr⟩ := started.same.meets_iff.mp ⟨mr', member', meets', rfl⟩
    obtain ⟨-, attr⟩ := Prod.ext_iff.mp attr
    have small : va / 2 ^ 12 < 2 ^ 20 := by omega
    dsimp only at attr
    rw [found mr member _ small meets va rfl] at translated
    rw [← attr]
    by_cases cached : uefiAttrToPteFlags mr.uefiAttr = 0
    · rw [if_pos cached] at translated
      rw [cached]
      have met : ¬ UnusedPage mrs (va / 2 ^ 12) := fun unused => unused.2.2.1 mr member meets
      by_cases within : va / 2 ^ 12 * 2 ^ 12 < firstStop s.unused stale
      · have none : uefiAttrToPteFlags low.uefiAttr = 0 := by
          apply (agrees low lowest).resolve_right
          intro beyond
          have past := (started.beyondFirst_iff met).mp (beyond mr member cached _ small meets)
          omega
        rw [laid.first _ small within, none, pteTranslation_smallEntry (by omega) (by decide)] at translated
        cases translated
        rfl
      · by_cases gap : InGap s.unused (va / 2 ^ 12)
        · rw [laid.gaps _ small (not_lt.mp within) gap, pteTranslation_smallEntry (by omega) (by decide)] at translated
          cases translated
          rfl
        · rw [laid.blank _ small (not_lt.mp within) gap, pteTranslation_zero] at translated
          cases translated
    · rw [if_neg cached, pteTranslation_smallEntry (by omega) (uefiAttrToPteFlags_cache _)] at translated
      cases translated
      rfl

/-- Whenever `mem_init` returns, the pages have the cache flags of their ranges exactly when the lowest range
is to be cached, or all that are lie beyond the first unused page. -/
theorem memInit_attrsKept_iff {bps : BootParams} {words : ℕ → ℕ} (apart : RangesApart bps.nodes)
    (whole : WholePages (givenRanges bps.nodes)) (typed : stale < 2 ^ 32)
    (ran : memInit bps.nodes words stale = .ok s) :
    s.AttrsKept ↔ FirstRegionAgrees (givenRanges bps.nodes) stale :=
  (memInit_ok apart typed ran).attrsKept_iff whole

theorem memInit_attrsKept_iff_sample : ∃ s, memInit sampleParams.nodes (fun _ => 0) 0 = .ok s ∧
    (s.AttrsKept ↔ FirstRegionAgrees (givenRanges sampleParams.nodes) 0) := by
  obtain ⟨s, ran⟩ := exists_of_isOk (x := memInit sampleParams.nodes (fun _ => 0) 0) (by decide +kernel)
  exact ⟨s, ran, memInit_attrsKept_iff (by decide) (by decide) (by decide) ran⟩

end

/-- A reserved page at address zero that is not to be cached, below memory that is. -/
def uncachedFirst : BootParams where
  nodes := [.mrng ⟨0x1000, 0x3fff000, e820Ram, 1, 15⟩, .bmem ⟨0x110, 0x9f00⟩, .mrng ⟨0, 0x1000, e820Reserved, 1, 1⟩]
  typed := by decide
  fits := by decide

/-- The memory above the reserved page is mapped with that page's flags. -/
theorem uncachedFirst_leaks : RangesApart uncachedFirst.nodes ∧ WholePages (givenRanges uncachedFirst.nodes) ∧
    ∃ s, memInit uncachedFirst.nodes (fun _ => 0) 0 = .ok s ∧ ¬ s.AttrsKept := by
  have evaluated : (fun s : Va => decide (s.paging.map.ranges[1]? = some ⟨0x1000, 0x3ff9000, e820Ram, 1, 15⟩ ∧
      s.paging.translate 0x200000 = some ⟨0x200000, true, pteCd⟩)) <$>
        memInit uncachedFirst.nodes (fun _ => 0) 0 = .ok true := by decide +kernel
  obtain ⟨s, ran, facts⟩ := map_eq_ok.mp evaluated
  obtain ⟨entry, translated⟩ := of_decide_eq_true facts
  refine ⟨by decide, by decide, s, ran, fun kept => ?_⟩
  have flags := kept _ (List.mem_of_getElem? entry) 0x200000 (by decide) (by decide) _ translated
  revert flags
  decide

end Biefircate
