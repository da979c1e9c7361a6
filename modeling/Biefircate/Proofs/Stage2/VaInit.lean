import Biefircate.Proofs.Stage2.MemMapInit
import Biefircate.Proofs.Stage2.Remap
import Biefircate.Proofs.Stage2.VaBlocks

/-! # What `va_init` leaves

Up to the first unused range everything is mapped with the flags of the first entry of the map, and between
unused ranges everything without flags. The pages that are not to be cached are then mapped once more.
-/

namespace Biefircate

/-! ## The regions between unused ranges -/

/-- The page lies between two neighbours in the list. -/
def InGap : List VaRange → ℕ → Prop
  | prev :: next :: rest, page =>
    prev.stop ≤ page * 2 ^ 12 ∧ page * 2 ^ 12 < next.start ∨ InGap (next :: rest) page
  | _, _ => False

section

variable {p p' : Paging} {unused : List VaRange} {page stale : ℕ}

/-- The pages between ranges lie past some range and before some range, in none of them. -/
theorem inGap_iff (pages : ∀ vr ∈ unused, vr.Ok ∧ 0 < vr.len)
    (apart : unused.Pairwise fun low high => low.stop < high.start) : InGap unused page ↔
      (∃ vr ∈ unused, vr.stop ≤ page * 2 ^ 12) ∧ (∃ vr ∈ unused, page * 2 ^ 12 < vr.start) ∧
        ∀ vr ∈ unused, ¬ vr.HasPage page := by
  induction unused with
  | nil => simp [InGap]
  | cons prev rest ih =>
    obtain ⟨first, tail⟩ := List.pairwise_cons.mp apart
    have ih := ih (fun vr member => pages vr (List.mem_cons_of_mem _ member)) tail
    have start : prev.start ≤ prev.stop := Nat.le_add_right ..
    cases rest with
    | nil =>
      apply iff_of_false id
      rintro ⟨⟨low, memberL, past⟩, ⟨high, memberH, before⟩, _⟩
      rw [List.mem_singleton.mp memberL] at past
      rw [List.mem_singleton.mp memberH] at before
      omega
    | cons next rest =>
      have order := first next (List.mem_cons_self ..)
      have extent : next.start ≤ next.stop := Nat.le_add_right ..
      rw [InGap, ih]
      constructor
      · rintro (⟨past, before⟩ | ⟨⟨low, memberL, past⟩, ⟨high, memberH, before⟩, none⟩)
        · refine ⟨⟨prev, List.mem_cons_self .., past⟩, ⟨next, by simp, before⟩, ?_⟩
          intro vr member has
          rcases List.mem_cons.mp member with rfl | later
          · exact absurd has.2 (not_lt.mpr past)
          · rcases List.mem_cons.mp later with rfl | last
            · exact absurd has.1 (not_le.mpr before)
            · have beyond := (List.pairwise_cons.mp tail).1 vr last
              have inside := has.1
              omega
        · refine ⟨⟨low, List.mem_cons_of_mem _ memberL, past⟩, ⟨high, List.mem_cons_of_mem _ memberH, before⟩, ?_⟩
          refine List.forall_mem_cons.mpr ⟨fun has => ?_, none⟩
          have under := first low memberL
          have size : low.start ≤ low.stop := Nat.le_add_right ..
          have inside := has.2
          omega
      · rintro ⟨⟨low, memberL, past⟩, ⟨high, memberH, before⟩, none⟩
        by_cases early : page * 2 ^ 12 < next.start
        · left
          refine ⟨?_, early⟩
          rcases List.mem_cons.mp memberL with rfl | later
          · exact past
          · rcases List.mem_cons.mp later with rfl | last
            · omega
            · have beyond := (List.pairwise_cons.mp tail).1 low last
              have size : low.start ≤ low.stop := Nat.le_add_right ..
              omega
        · right
          have misses := none next (by simp)
          rw [VaRange.HasPage] at misses
          refine ⟨⟨next, List.mem_cons_self .., by omega⟩, ⟨high, ?_, before⟩,
            fun vr member => none vr (List.mem_cons_of_mem _ member)⟩
          rcases List.mem_cons.mp memberH with rfl | later
          · omega
          · exact later

/-- Between two neighbours there is a span of whole pages. -/
theorem gap_pages {prev next : VaRange} {rest : List VaRange} (pages : ∀ vr ∈ prev :: next :: rest, vr.Ok ∧ 0 < vr.len)
    (order : prev.stop < next.start) : ∃ k n, Word.add 32 prev.start prev.len = k * 2 ^ 12 ∧
      Word.sub 32 next.start (k * 2 ^ 12) = n * 2 ^ 12 ∧ k + n ≤ 2 ^ 20 ∧ next.start = (k + n) * 2 ^ 12 ∧
      ∀ page, InGap (prev :: next :: rest) page ↔ (k ≤ page ∧ page < k + n) ∨ InGap (next :: rest) page := by
  have prevOk := (pages prev (by simp)).1
  obtain ⟨nextOk, nonempty⟩ := pages next (by simp)
  have top := nextOk.high
  have extent : next.stop = next.start + next.len := rfl
  obtain ⟨k, stop⟩ := Nat.dvd_add prevOk.start prevOk.len
  obtain ⟨n, start⟩ := nextOk.start
  have stopIs : prev.stop = k * 2 ^ 12 := stop.trans (Nat.mul_comm ..)
  refine ⟨k, n - k, ?_, ?_, by omega, by omega, fun page => ?_⟩
  · rw [Word.add_of_lt (by rw [VaRange.stop] at order; omega), stop, Nat.mul_comm]
  · rw [Word.sub_of_le (by omega) (by omega)]
    omega
  · rw [InGap, stopIs, start]
    exact or_congr_left (by omega)

/-- The loop that maps what lies between the unused ranges. -/
theorem mapBetween_ok (ok : p.Ok) (pages : ∀ vr ∈ unused, vr.Ok ∧ 0 < vr.len)
    (apart : unused.Pairwise fun low high => low.stop < high.start) (ran : mapBetween p unused = .ok p') :
    p'.Ok ∧ (p.Held → p'.Held) ∧ (∃ as, PageAllocs p.map as p'.map) ∧ ∀ page < 2 ^ 20,
      (InGap unused page → p'.pteOf page = smallEntry page 0) ∧
        (¬ InGap unused page → p'.pteOf page = p.pteOf page) := by
  induction unused generalizing p with
  | nil =>
    cases ran
    exact ⟨ok, id, ⟨[], .nil _⟩, fun page _ => ⟨False.elim, fun _ => rfl⟩⟩
  | cons prev rest ih =>
    cases rest with
    | nil =>
      cases ran
      exact ⟨ok, id, ⟨[], .nil _⟩, fun page _ => ⟨False.elim, fun _ => rfl⟩⟩
    | cons next rest =>
      obtain ⟨first, tail⟩ := List.pairwise_cons.mp apart
      obtain ⟨k, n, prevEnd, size, bound, _, cut⟩ := gap_pages pages (first next (List.mem_cons_self ..))
      rw [mapBetween, prevEnd, size] at ran
      obtain ⟨p1, mapped, ran⟩ := bind_eq_ok.mp ran
      have mapped := doVaMap_ok ok rfl rfl rfl bound (by omega) (by decide) mapped
      obtain ⟨ok', held, ⟨bs, later⟩, entries⟩ :=
        ih mapped.ok (fun vr member => pages vr (List.mem_cons_of_mem _ member)) tail ran
      obtain ⟨as, early⟩ := mapped.allocs
      refine ⟨ok', fun was => held (mapped.held was), ⟨as ++ bs, early.append later⟩, fun page low => ?_⟩
      obtain ⟨inside, outside⟩ := entries page low
      have here := mapped.ptes page low
      rw [cut]
      by_cases gap : InGap (next :: rest) page
      · exact ⟨fun _ => inside gap, fun none => absurd (Or.inr gap) none⟩
      · rw [outside gap, here]
        constructor
        · intro within
          have within := within.resolve_right gap
          rw [if_pos within]
          congr 1
          omega
        · intro none
          exact if_neg fun within => none (Or.inl within)

/-! ## The first region -/

/-- A length that is not made of whole pages never comes down to zero. -/
theorem doVaMapFrom_whole {flags fuel vstart pstart len : ℕ} (small : len < 2 ^ 32)
    (ran : doVaMapFrom flags fuel p vstart pstart len = .ok p') : 2 ^ 12 ∣ len := by
  induction fuel generalizing p vstart pstart len with
  | zero => cases ran
  | succ fuel ih =>
    have shrink : ∀ k, 2 ^ 12 ∣ k → k ≤ 2 ^ 32 → 2 ^ 12 ∣ Word.sub 32 len k → 2 ^ 12 ∣ len := by
      intro k whole fits rest
      rw [Word.sub] at rest
      omega
    rw [doVaMapFrom] at ran
    by_cases done : len = 0
    · rw [done]
      exact Nat.dvd_zero _
    · rw [if_neg done] at ran
      dsimp only at ran
      split at ran
      · exact shrink _ (by decide) (by decide) (ih (Word.sub_lt ..) ran)
      · obtain ⟨⟨pt, p1⟩, _, ran⟩ := bind_eq_ok.mp ran
        exact shrink _ (by decide) (by decide) (ih (Word.sub_lt ..) ran)

/-- Where the first region stops: the word at the start of `unused_va_ranges`. -/
def firstStop (unused : List VaRange) (stale : ℕ) : ℕ :=
  match unused with
  | [] => stale
  | vr :: _ => vr.start

/-- What is mapped before the attributes of single entries count. -/
structure Laid (flags stop : ℕ) (unused : List VaRange) (p : Paging) : Prop where
  first : ∀ page < 2 ^ 20, page * 2 ^ 12 < stop → p.pteOf page = smallEntry page flags
  gaps : ∀ page < 2 ^ 20, stop ≤ page * 2 ^ 12 → InGap unused page → p.pteOf page = smallEntry page 0
  blank : ∀ page < 2 ^ 20, stop ≤ page * 2 ^ 12 → ¬ InGap unused page → p.pteOf page = 0

theorem firstRegion_ok {flags stop : ℕ} (ok : p.Ok) (none : ∀ page < 2 ^ 20, p.pteOf page = 0) (typed : stop < 2 ^ 32)
    (cache : CacheFlags flags) (ran : doVaIdMap p 0 stop flags = .ok p') :
    2 ^ 12 ∣ stop ∧ p'.Ok ∧ (p.Held → p'.Held) ∧ (∃ as, PageAllocs p.map as p'.map) ∧ ∀ page < 2 ^ 20,
      p'.pteOf page = if page * 2 ^ 12 < stop then smallEntry page flags else 0 := by
  obtain ⟨n, rfl⟩ := doVaMapFrom_whole typed ran
  have mapped := doVaMap_ok (q := 0) (f := 0) (n := n) ok rfl rfl (Nat.mul_comm ..) (by omega) (by omega) cache ran
  refine ⟨Dvd.intro n rfl, mapped.ok, mapped.held, mapped.allocs, fun page low => ?_⟩
  rw [mapped.ptes_of_fits (by omega) low, none page low]
  exact if_congr (by omega) (by rw [Nat.zero_add, Nat.sub_zero]) rfl

/-- The first two loops lay out the regions. -/
theorem laid_of_regions {flags stop : ℕ} {p1 : Paging} (first : ∀ page < 2 ^ 20, p1.pteOf page =
      if page * 2 ^ 12 < stop then smallEntry page flags else 0)
    (between : ∀ page < 2 ^ 20, (InGap unused page → p.pteOf page = smallEntry page 0) ∧
      (¬ InGap unused page → p.pteOf page = p1.pteOf page))
    (above : ∀ page, InGap unused page → stop ≤ page * 2 ^ 12) : Laid flags stop unused p := by
  refine ⟨?_, ?_, ?_⟩
  · intro page low under
    rw [(between page low).2 fun gap => absurd (above page gap) (not_le.mpr under), first page low, if_pos under]
  · intro page low _ gap
    exact (between page low).1 gap
  · intro page low beyond none
    rw [(between page low).2 none, first page low, if_neg (not_lt.mpr beyond)]

theorem firstStop_le_of_inGap (apart : unused.Pairwise fun low high => low.stop < high.start)
    (pages : ∀ vr ∈ unused, vr.Ok ∧ 0 < vr.len) (gap : InGap unused page) : firstStop unused stale ≤ page * 2 ^ 12 := by
  obtain ⟨⟨low, member, past⟩, _⟩ := (inGap_iff pages apart).mp gap
  have size : low.start ≤ low.stop := Nat.le_add_right ..
  cases unused with
  | nil => cases member
  | cons first rest =>
    change first.start ≤ _
    rcases List.mem_cons.mp member with rfl | later
    · omega
    · have order := (List.pairwise_cons.mp apart).1 low later
      have extent : first.start ≤ first.stop := Nat.le_add_right ..
      omega

/-- The regions reach the pages below an unused page. -/
theorem regions_iff {mrs : List MemRange} (pages : ∀ vr ∈ unused, vr.Ok ∧ 0 < vr.len)
    (apart : unused.Pairwise fun low high => low.stop < high.start)
    (found : ∀ page, UnusedPage mrs page ↔ ∃ vr ∈ unused, vr.HasPage page) (used : ¬ UnusedPage mrs page) :
    page * 2 ^ 12 < firstStop unused stale ∨ InGap unused page ↔
      (∃ q, page < q ∧ UnusedPage mrs q) ∨ (∀ q, ¬ UnusedPage mrs q) ∧ page * 2 ^ 12 < stale := by
  have first : ∀ vr ∈ unused, ∃ q, vr.start = q * 2 ^ 12 ∧ UnusedPage mrs q := by
    intro vr member
    obtain ⟨vrOk, nonempty⟩ := pages vr member
    obtain ⟨q, start⟩ := vrOk.start
    refine ⟨q, start.trans (Nat.mul_comm ..), (found q).mpr ⟨vr, member, by omega, ?_⟩⟩
    rw [VaRange.stop]
    omega
  have outside : ∀ vr ∈ unused, ¬ vr.HasPage page := fun vr member has => used ((found page).mpr ⟨vr, member, has⟩)
  constructor
  · rintro (under | gap)
    · cases ranges : unused with
      | nil =>
        rw [ranges] at under
        refine Or.inr ⟨fun q isUnused => ?_, under⟩
        obtain ⟨vr, member, _⟩ := (found q).mp isUnused
        rw [ranges] at member
        cases member
      | cons vr rest =>
        obtain ⟨q, start, isUnused⟩ := first vr (by rw [ranges]; exact List.mem_cons_self ..)
        rw [ranges, firstStop, start] at under
        exact Or.inl ⟨q, by omega, isUnused⟩
    · obtain ⟨_, ⟨vr, member, before⟩, _⟩ := (inGap_iff pages apart).mp gap
      obtain ⟨q, start, isUnused⟩ := first vr member
      exact Or.inl ⟨q, by omega, isUnused⟩
  · rintro (⟨q, above, isUnused⟩ | ⟨none, under⟩)
    · obtain ⟨vr, member, _, high⟩ := (found q).mp isUnused
      have before : page * 2 ^ 12 < vr.start := by
        by_contra inside
        exact outside vr member ⟨not_lt.mp inside, (Nat.mul_le_mul_right _ above.le).trans_lt high⟩
      refine or_iff_not_imp_left.mpr fun beyond => (inGap_iff pages apart).mpr ⟨?_, ⟨vr, member, before⟩, outside⟩
      cases ranges : unused with
      | nil =>
        rw [ranges] at member
        cases member
      | cons low rest =>
        rw [ranges, firstStop, not_lt] at beyond
        have there : low ∈ unused := by
          rw [ranges]
          exact List.mem_cons_self ..
        refine ⟨low, List.mem_cons_self .., ?_⟩
        by_contra inside
        exact outside low there ⟨beyond, not_le.mp inside⟩
    · left
      cases ranges : unused with
      | nil => exact under
      | cons vr rest =>
        obtain ⟨q, _, isUnused⟩ := first vr (by rw [ranges]; exact List.mem_cons_self ..)
        exact absurd isUnused (none q)

end

/-! ## All of it -/

/-- An entry from which the flags of the first region are taken. -/
structure Lowest (mrs : List MemRange) (low : MemRange) : Prop where
  member : low ∈ mrs
  least : ∀ mr ∈ mrs, low.start ≤ mr.start

/-- A table in order has its lowest entry first. -/
theorem TableOk.lowest {mrs : List MemRange} (table : TableOk mrs) {low : MemRange} (first : mrs[0]? = some low) :
    Lowest mrs low := by
  cases mrs with
  | nil => cases first
  | cons mr rest =>
    cases first
    refine ⟨List.mem_cons_self .., List.forall_mem_cons.mpr ⟨le_rfl, fun other member => ?_⟩⟩
    exact (Nat.le_add_right ..).trans ((List.pairwise_cons.mp table.ordered).1 other member)

/-- The lowest entries of lists that say the same have the same attributes. -/
theorem SameAttrs.lowest {mrs mrs' : List MemRange} (same : SameAttrs mrs mrs') {low' : MemRange}
    (lowest : Lowest mrs' low') : ∃ low, Lowest mrs low ∧ low.uefiAttr = low'.uefiAttr := by
  have start : ∀ mr : MemRange, mr.Valid → mr.start ≤ mr.start ∧ mr.start < mr.stop := fun mr valid =>
    ⟨le_rfl, Nat.lt_add_of_pos_right valid.nonempty⟩
  obtain ⟨low, member, covers, attrs⟩ :=
    same.covers_iff.mp ⟨low', lowest.member, start _ (same.new.valid _ lowest.member), rfl⟩
  refine ⟨low, ⟨member, fun mr there => ?_⟩, (Prod.ext_iff.mp attrs).2⟩
  obtain ⟨mr', there', covers', _⟩ := same.covers_iff.mpr ⟨mr, there, start _ (same.old.valid _ there), rfl⟩
  calc low.start ≤ low'.start := covers.1
    _ ≤ mr'.start := lowest.least mr' there'
    _ ≤ mr.start := covers'.1

/-- What `va_init` leaves, for a map that describes `mrs`: the unused ranges are the pages that no entry
meets; each page that is not to be cached is mapped so, and the others as the regions were laid out. -/
structure Va.Started (mrs : List MemRange) (stale : ℕ) (s : Va) : Prop where
  ok : s.paging.Ok
  held : s.paging.Held
  map : s.paging.map.Ok
  same : SameAttrs mrs s.paging.map.ranges
  pages : ∀ vr ∈ s.unused, vr.Ok ∧ 0 < vr.len
  apart : s.unused.Pairwise fun low high => low.stop < high.start
  room : s.unused.length ≤ s.maxUnused
  unused : ∀ page, UnusedPage mrs page ↔ ∃ vr ∈ s.unused, vr.HasPage page
  whole : 2 ^ 12 ∣ firstStop s.unused stale
  laid : ∃ low p, Lowest mrs low ∧ Laid (uefiAttrToPteFlags low.uefiAttr) (firstStop s.unused stale) s.unused p ∧
    ∀ page < 2 ^ 20, s.paging.pteOf page = p.pteOf page ∨ Remapped mrs s.paging page
  remapped : ∀ x < 2 ^ 32, ∀ flags, flagsAt mrs x = some flags → flags ≠ 0 → Remapped mrs s.paging (x / 2 ^ 12)

theorem Remapped.congr {mrs mrs' : List MemRange} (same : ∀ x, flagsAt mrs' x = flagsAt mrs x) {p : Paging} {page : ℕ}
    (remapped : Remapped mrs' p page) : Remapped mrs p page := by
  obtain ⟨x, flags, inside, found, rest⟩ := remapped
  exact ⟨x, flags, inside, (same x).symm.trans found, rest⟩

section

variable {mrs : List MemRange} {stale page : ℕ} {s : Va}

/-- No unused page lies below the end of the first region. -/
theorem Va.Started.firstStop_le (started : s.Started mrs stale) (unused : s.HasUnused page) :
    firstStop s.unused stale ≤ page * 2 ^ 12 := by
  obtain ⟨vr, member, low, _⟩ := unused
  have apart := started.apart
  cases ranges : s.unused with
  | nil =>
    rw [ranges] at member
    cases member
  | cons first rest =>
    rw [ranges] at member apart
    rw [firstStop]
    rcases List.mem_cons.mp member with rfl | later
    · exact low
    · have order := (List.pairwise_cons.mp apart).1 vr later
      have extent : first.start ≤ first.stop := Nat.le_add_right ..
      exact (extent.trans order.le).trans low

/-- An unused page is in no gap, and was not remapped. -/
theorem Va.Started.blank (started : s.Started mrs stale) (small : page < 2 ^ 20) (unused : s.HasUnused page) :
    s.paging.pteOf page = 0 := by
  obtain ⟨low, p, _, laid, kept⟩ := started.laid
  have isUnused := (started.unused page).mpr unused
  rcases kept page small with same | ⟨x, flags, inside, found, _⟩
  · rw [same]
    apply laid.blank page small (started.firstStop_le unused)
    intro gap
    obtain ⟨_, _, none⟩ := (inGap_iff started.pages started.apart).mp gap
    obtain ⟨vr, member, has⟩ := unused
    exact none vr member has
  · obtain ⟨mr, member, covers, _⟩ := started.same.old.flagsAt_eq_some_iff.mp found
    have meets : mr.Meets page := ((started.same.old.valid mr member).meets_iff).mpr ⟨x, by omega, covers⟩
    exact absurd meets (isUnused.2.2.1 mr member)

/-- Every page is blank or has an entry that `do_va_map` writes. -/
theorem Va.Started.entry (started : s.Started mrs stale) (small : page < 2 ^ 20) :
    s.paging.pteOf page = 0 ∨ ∃ frame flags, CacheFlags flags ∧ s.paging.pteOf page = smallEntry frame flags := by
  obtain ⟨low, p, _, laid, kept⟩ := started.laid
  rcases kept page small with same | ⟨x, flags, inside, found, _, entry⟩
  · rw [same]
    by_cases under : page * 2 ^ 12 < firstStop s.unused stale
    · exact Or.inr ⟨page, _, uefiAttrToPteFlags_cache _, laid.first page small under⟩
    · by_cases gap : InGap s.unused page
      · exact Or.inr ⟨page, 0, by decide, laid.gaps page small (not_lt.mp under) gap⟩
      · exact Or.inl (laid.blank page small (not_lt.mp under) gap)
  · obtain ⟨mr, _, _, same⟩ := started.same.old.flagsAt_eq_some_iff.mp found
    exact Or.inr ⟨page, flags, same ▸ uefiAttrToPteFlags_cache _, entry⟩

/-- Virtual memory is in order from the start. -/
theorem Va.Started.ready (started : s.Started mrs stale) : s.Ready := by
  have small : ∀ page, s.HasUnused page → page < 2 ^ 20 := fun page unused => ((started.unused page).mpr unused).2.1
  refine ⟨⟨started.ok, fun vr member => (started.pages vr member).1, started.apart.imp ?_,
    fun page unused => started.blank (small page unused) unused, ?_⟩, started.apart⟩
  · intro vr vr' order page has has'
    have under := has.2
    have above := has'.1
    omega
  · intro page unused
    by_contra large
    have low := small page unused
    have isLarge := started.ok.isLarge (by omega) large
    -- A blank page of a large page: the second page then has an entry that is never written.
    have blank := started.blank low unused
    rw [pteOf_of_large isLarge] at blank
    have slot : (page / 512 * 512 + 1) / 512 = page / 512 := by omega
    have entry := started.entry (show page / 512 * 512 + 1 < 2 ^ 20 by omega)
    rw [pteOf_of_large (slot.symm ▸ isLarge), slot] at entry
    rcases entry with zero | ⟨frame, flags, cache, entry⟩
    · omega
    · have bound := cache.cases
      rw [smallEntry] at entry
      omega

end

/-- Starting from a description of the same memory. -/
theorem Va.Started.of_same {mrs mrs' : List MemRange} {stale : ℕ} {s : Va} (same : SameAttrs mrs mrs')
    (started : s.Started mrs' stale) : s.Started mrs stale := by
  obtain ⟨ok, held, map, same', pages, apart, room, unused, whole, ⟨low', p, lowest', laid, kept⟩, remapped⟩ := started
  obtain ⟨low, lowest, attr⟩ := same.lowest lowest'
  refine ⟨ok, held, map, same.trans same', pages, apart, room, fun page => ?_, whole,
    ⟨low, p, lowest, attr ▸ laid, fun page small => (kept page small).imp_right (·.congr same.flagsAt)⟩, ?_⟩
  · rw [← unused, same.unusedPage_iff]
  · intro x small flags found nonzero
    exact (remapped x small flags (same.flagsAt x ▸ found) nonzero).congr same.flagsAt

/-- A start of an entry is never lost. -/
theorem MemMap.Grown.start_mem {m m' : MemMap} (grown : m.Grown m') {mr : MemRange} (member : mr ∈ m.ranges) :
    ∃ mr' ∈ m'.ranges, mr'.start = mr.start :=
  List.mem_map.mp (grown.starts.subset (List.mem_map_of_mem member))

/-- Where the remapping starts. -/
theorem PdsDone.remapInv {p p' : Paging} {as : List ℕ} (done : PdsDone p 4) (ok : p'.Ok) (allocs : PageAllocs p.map as p'.map) :
    RemapInv p' p' 0 := by
  have grown := (allocs.fresh done.map).1
  obtain ⟨mr, member, above, below⟩ := done.high_start
  obtain ⟨mr', member', start⟩ := grown.start_mem member
  exact .start ok grown.ok ⟨mr', member', start ▸ above, start ▸ below⟩

/-- What `va_init` has when it starts to map: blank page directories, and the unused ranges noted. -/
theorem vaInit_start {m m₁ m₂ : MemMap} {words : ℕ → ℕ} {unused : List VaRange} {pdpt : ℕ} {p : Paging} (ok : m.Ok)
    (noted : initUnusedVaRanges m = .ok (unused, m₁)) (allocated : memAlloc m₁ (4 * 8) pdptAlign 0 = .ok (pdpt, m₂))
    (added : addPds ⟨m₂, words, pdpt⟩ 4 0 = .ok p) :
    PdsDone p 4 ∧ m.Grown p.map ∧ m.Grown m₁ ∧ unused = findUnused m₁.ranges := by
  obtain ⟨grown₁, same⟩ := initUnusedVaRanges_ok ok noted
  have valid : AllocReq.Valid ⟨4 * 8, pdptAlign, 0⟩ := ⟨by decide, by decide, ⟨5, by decide⟩, by decide⟩
  obtain ⟨grown₂, fresh⟩ := memAlloc_grown grown₁.ok valid allocated
  obtain ⟨done, grown₃⟩ := addPds_ok (.start grown₂.ok fresh.aligned fresh.reserved) rfl added
  exact ⟨done, (grown₁.trans grown₂).trans grown₃, grown₁, same⟩

/-- Whenever `va_init` returns, it left everything as it should. -/
theorem vaInit_ok {m : MemMap} {words : ℕ → ℕ} {stale : ℕ} {s : Va} (ok : m.Ok) (typed : stale < 2 ^ 32)
    (ran : vaInit m words stale = .ok s) : s.Started m.ranges stale ∧ m.Grown s.paging.map ∧ s.maxUnused = m.maxRanges := by
  obtain ⟨⟨unused, m1⟩, noted, ran⟩ := bind_eq_ok.mp ran
  obtain ⟨⟨pdpt, m2⟩, allocated, ran⟩ := bind_eq_ok.mp ran
  obtain ⟨p0, added, ran⟩ := bind_eq_ok.mp ran
  obtain ⟨first, loaded, ran⟩ := bind_eq_ok.mp ran
  obtain ⟨p1, firstRegion, ran⟩ := bind_eq_ok.mp ran
  obtain ⟨p2, between, ran⟩ := bind_eq_ok.mp ran
  obtain ⟨p3, remap, same⟩ := bind_eq_ok.mp ran
  cases same
  obtain ⟨done, grown0, grown1, rfl⟩ := vaInit_start ok noted allocated added
  obtain ⟨pages, apart, found⟩ := grown1.findUnused_spec ok
  obtain ⟨ok0, blank⟩ := done.ok
  have stop : firstStop (findUnused m1.ranges) stale < 2 ^ 32 := by
    cases ranges : findUnused m1.ranges with
    | nil => exact typed
    | cons vr rest =>
      obtain ⟨vrOk, nonempty⟩ := pages vr (by rw [ranges]; exact List.mem_cons_self ..)
      have top := vrOk.high
      change vr.start < 2 ^ 32
      rw [VaRange.stop] at top
      omega
  obtain ⟨whole, ok1, held1, ⟨as, allocs1⟩, entries1⟩ :=
    firstRegion_ok ok0 blank stop (uefiAttrToPteFlags_cache _) firstRegion
  obtain ⟨ok2, held2, ⟨bs, allocs2⟩, entries2⟩ := mapBetween_ok ok1 pages apart between
  have grown : m.Grown p2.map := grown0.trans ((allocs1.append allocs2).fresh done.map).1
  obtain ⟨ok3, held3, later, kept, remapped⟩ := remapFrom_ok (done.remapInv ok2 (allocs1.append allocs2)) remap
  obtain ⟨low, lowest, attr⟩ := (grown0.same ok).lowest (done.map.table.lowest (load_eq_ok.mp loaded))
  have all : m.Grown p3.map := grown.trans later
  refine ⟨⟨ok3, held3 (held2 (held1 done.held)), all.ok, all.same ok, pages, apart, ?_, found, whole,
    ⟨low, p2, lowest, ?_, ?_⟩, ?_⟩, all, rfl⟩
  · calc (findUnused m1.ranges).length ≤ m1.ranges.length := findUnused_length_le _
      _ ≤ m1.maxRanges := grown1.ok.room
      _ = m.maxRanges := grown1.capacity
  · rw [attr]
    exact laid_of_regions entries1 entries2 fun page gap => firstStop_le_of_inGap apart pages gap
  · exact fun page small => (kept page small).imp_right (·.congr grown.flagsAt)
  · intro x small flags wanted nonzero
    exact (remapped x small flags (grown.flagsAt x ▸ wanted) nonzero).congr grown.flagsAt

/-- The map that `mem_map_init` leaves is in order and within its capacity. -/
theorem memMapInit_mapOk {bps : BootParams} {m : MemMap} (apart : RangesApart bps.nodes)
    (ran : memMapInit bps.nodes = .ok m) : m.Ok := by
  obtain ⟨_, _, _, _, _, _, _, _, _, room⟩ := memMapInit_ok ran
  exact ⟨memMapInit_table apart ran, room⟩

/-- The map says of attributes what the given ranges say. -/
theorem memMapInit_same {bps : BootParams} {m : MemMap} (apart : RangesApart bps.nodes)
    (init : memMapInit bps.nodes = .ok m) : SameAttrs (givenRanges bps.nodes) m.ranges :=
  ⟨⟨apart.givenRanges_valid, givenRanges_apart apart.apart⟩, (memMapInit_table apart init).entries,
    memMapInit_attrs apart.apart init⟩

/-- Whenever `mem_init` returns, it left everything as the given ranges want it. -/
theorem memInit_ok {bps : BootParams} {words : ℕ → ℕ} {stale : ℕ} {s : Va} (apart : RangesApart bps.nodes)
    (typed : stale < 2 ^ 32) (ran : memInit bps.nodes words stale = .ok s) :
    s.Started (givenRanges bps.nodes) stale := by
  obtain ⟨m, init, ran⟩ := bind_eq_ok.mp ran
  exact (vaInit_ok (memMapInit_mapOk apart init) typed ran).1.of_same (memMapInit_same apart init)

end Biefircate
