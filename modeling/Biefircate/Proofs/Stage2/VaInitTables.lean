import Biefircate.Proofs.Stage2.TableSlots
import Biefircate.Proofs.Stage2.VaInit

/-! # How many page tables `va_init` builds

A slot gets a page table if the regions between unused ranges cover some of its pages but not all, or if the
pages of a range that is not to be cached do. As long as `mem_alloc` has a page for each such slot, `va_init`
ends.
-/

namespace Biefircate

/-- The page is in a region: it is not unused, and an unused page lies above it. -/
def InRegion (mrs : List MemRange) (page : ℕ) : Prop := ¬ UnusedPage mrs page ∧ ∃ q, page < q ∧ UnusedPage mrs q

/-- The slot needs a page table: it is divided by the regions, or by a range that is not to be cached. -/
def TableSlot (mrs : List MemRange) (d : ℕ) : Prop :=
  d < 2048 ∧ (Divided (InRegion mrs) d ∨ ∃ mr ∈ mrs, uefiAttrToPteFlags mr.uefiAttr ≠ 0 ∧ Divided mr.Meets d)

section

variable {p p' p₀ : Paging} {unused : List VaRange} {mrs : List MemRange} {all : Finset ℕ} {m m' last : MemMap}
  {mr e : MemRange} {d i x : ℕ}

/-! ## The regions -/

/-- Pages below an unused range and pages in the gaps above it are apart. -/
theorem divided_below_gap_iff {P : ℕ → Prop} {next : VaRange} {rest : List VaRange}
    (pages : ∀ vr ∈ next :: rest, vr.Ok ∧ 0 < vr.len)
    (apart : (next :: rest).Pairwise fun low high => low.stop < high.start) (below : ∀ x, P x → x * 2 ^ 12 < next.start) :
    Divided (fun page => P page ∨ InGap (next :: rest) page) d ↔ Divided P d ∨ Divided (InGap (next :: rest)) d := by
  obtain ⟨nextOk, nonempty⟩ := pages next (List.mem_cons_self ..)
  obtain ⟨j, start⟩ := nextOk.start
  apply divided_or_iff
  intro x y under gap same
  have low := below x under
  have high : next.start ≤ y * 2 ^ 12 := @firstStop_le_of_inGap (next :: rest) y 0 apart pages gap
  refine ⟨j, by omega, fun has => ?_, fun inside => ?_⟩
  · have under := below j has
    omega
  · have clear := ((inGap_iff pages apart).mp inside).2.2 next (List.mem_cons_self ..)
    rw [VaRange.HasPage, VaRange.stop] at clear
    omega

/-- The loop that maps what lies between the unused ranges. -/
theorem mapBetween_tabled (ok : p.Ok) (pages : ∀ vr ∈ unused, vr.Ok ∧ 0 < vr.len)
    (apart : unused.Pairwise fun low high => low.stop < high.start) :
    (∃ p', mapBetween p unused = .ok p' ∧ Tabled (Divided (InGap unused)) p p') ∨
      ∃ stop, mapBetween p unused = .error stop ∧ TablesFail (Divided (InGap unused)) p := by
  have none : ∀ p unused, (∀ page, ¬ InGap unused page) → Tabled (Divided (InGap unused)) p p := by
    intro p unused empty
    apply (Tabled.refl p).congr
    intro d _ _
    exact iff_of_false id fun ⟨⟨page, _, inside⟩, _⟩ => empty page inside
  induction unused generalizing p with
  | nil => exact Or.inl ⟨p, rfl, none p [] fun _ => id⟩
  | cons prev rest ih =>
    cases rest with
    | nil => exact Or.inl ⟨p, rfl, none p [prev] fun _ => id⟩
    | cons next rest =>
      obtain ⟨first, tail⟩ := List.pairwise_cons.mp apart
      have pagesTail : ∀ vr ∈ next :: rest, vr.Ok ∧ 0 < vr.len := fun vr member => pages vr (List.mem_cons_of_mem _ member)
      obtain ⟨k, n, prevEnd, size, bound, start, cut⟩ := gap_pages pages (first next (List.mem_cons_self ..))
      have slots : ∀ d, Divided (InSpan k n) d ∨ Divided (InGap (next :: rest)) d ↔
          Divided (InGap (prev :: next :: rest)) d := by
        intro d
        rw [divided_congr fun page _ => cut page]
        refine (divided_below_gap_iff pagesTail tail fun x inside => ?_).symm
        have high := inside.2
        omega
      rw [mapBetween, prevEnd, size]
      rcases doVaIdMap_tabled ok rfl rfl bound (show CacheFlags 0 by decide) with ⟨p1, ran, mapped, tabled⟩ | ⟨stop, ran, fails⟩
      · rw [ran, ok_bind]
        apply (ih mapped.ok pagesTail tail).imp
        · rintro ⟨p', ran, later⟩
          exact ⟨p', ran, (tabled.trans later).congr fun d _ _ => slots d⟩
        · rintro ⟨stop, ran, fails⟩
          exact ⟨stop, ran, (tabled.fails fails).mono fun d _ asked => Or.inr ((slots d).mp asked)⟩
      · rw [ran, error_bind]
        exact Or.inr ⟨stop, rfl, fails.mono fun d _ asked => Or.inr ((slots d).mp (Or.inl asked))⟩

/-- The regions are what the first two loops map. -/
theorem inRegion_iff {first : VaRange} {rest : List VaRange} {page : ℕ}
    (pages : ∀ vr ∈ first :: rest, vr.Ok ∧ 0 < vr.len)
    (apart : (first :: rest).Pairwise fun low high => low.stop < high.start)
    (found : ∀ page, UnusedPage mrs page ↔ ∃ vr ∈ first :: rest, vr.HasPage page) :
    InRegion mrs page ↔ page * 2 ^ 12 < first.start ∨ InGap (first :: rest) page := by
  obtain ⟨firstOk, nonempty⟩ := pages first (List.mem_cons_self ..)
  obtain ⟨j, start⟩ := firstOk.start
  have hole : UnusedPage mrs j := by
    refine (found j).mpr ⟨first, List.mem_cons_self .., by omega, ?_⟩
    rw [VaRange.stop]
    omega
  by_cases unused : UnusedPage mrs page
  · obtain ⟨vr, member, has⟩ := (found page).mp unused
    refine iff_of_false (fun region => region.1 unused) (not_or.mpr ⟨?_, fun gap => ?_⟩)
    · have low := has.1
      rcases List.mem_cons.mp member with rfl | later
      · exact not_lt.mpr low
      · have order := (List.pairwise_cons.mp apart).1 vr later
        rw [VaRange.stop] at order
        omega
    · exact ((inGap_iff pages apart).mp gap).2.2 vr member has
  · rw [InRegion, and_iff_right unused]
    have region := @regions_iff _ page 0 _ pages apart found unused
    have below : ¬ ((∀ q, ¬ UnusedPage mrs q) ∧ page * 2 ^ 12 < 0) := fun none => none.1 j hole
    rw [or_iff_left below] at region
    exact region.symm

/-- The two loops together. -/
theorem regions_tabled {first : VaRange} {rest : List VaRange} {flags : ℕ} (ok : p.Ok)
    (pages : ∀ vr ∈ first :: rest, vr.Ok ∧ 0 < vr.len)
    (apart : (first :: rest).Pairwise fun low high => low.stop < high.start)
    (found : ∀ page, UnusedPage mrs page ↔ ∃ vr ∈ first :: rest, vr.HasPage page) (cache : CacheFlags flags) :
    (∃ p₁ p₂, doVaIdMap p 0 first.start flags = .ok p₁ ∧ mapBetween p₁ (first :: rest) = .ok p₂ ∧ p₂.Ok ∧
        Tabled (Divided (InRegion mrs)) p p₂) ∨
      ∃ stop, (doVaIdMap p 0 first.start flags >>= fun p₁ => mapBetween p₁ (first :: rest)) = .error stop ∧
        TablesFail (Divided (InRegion mrs)) p := by
  obtain ⟨firstOk, nonempty⟩ := pages first (List.mem_cons_self ..)
  obtain ⟨j, start⟩ := firstOk.start
  have high := firstOk.high
  rw [VaRange.stop] at high
  have slots : ∀ d, Divided (InSpan 0 j) d ∨ Divided (InGap (first :: rest)) d ↔ Divided (InRegion mrs) d := by
    intro d
    have under : ∀ x, InSpan 0 j x ↔ x * 2 ^ 12 < first.start := by
      intro x
      rw [InSpan]
      omega
    rw [← divided_below_gap_iff pages apart fun x inside => (under x).mp inside]
    apply divided_congr
    intro page _
    rw [inRegion_iff pages apart found, under]
  rcases doVaIdMap_tabled ok (Nat.zero_mul _).symm (start.trans (Nat.mul_comm ..)) (by omega) cache with
    ⟨p₁, ran, mapped, tabled⟩ | ⟨stop, ran, fails⟩
  · rw [ran, ok_bind]
    apply (mapBetween_tabled mapped.ok pages apart).imp
    · rintro ⟨p₂, ran', later⟩
      exact ⟨p₁, p₂, rfl, ran', (mapBetween_ok mapped.ok pages apart ran').1, (tabled.trans later).congr fun d _ _ => slots d⟩
    · rintro ⟨stop, ran', fails⟩
      exact ⟨stop, ran', (tabled.fails fails).mono fun d _ asked => Or.inr ((slots d).mp asked)⟩
  · rw [ran, error_bind]
    exact Or.inr ⟨stop, rfl, fails.mono fun d _ asked => Or.inr ((slots d).mp (Or.inl asked))⟩

/-! ## The ranges that are not to be cached -/

/-- What is left of an entry once the map has grown lies within it. -/
theorem MemMap.Grown.inside (ok : m.Ok) (grown : m.Grown m') (member : mr ∈ m.ranges) (member' : e ∈ m'.ranges)
    (covers : mr.start ≤ x ∧ x < mr.stop) (covers' : e.start ≤ x ∧ x < e.stop) :
    mr.start ≤ e.start ∧ e.stop ≤ mr.stop := by
  have apart := ok.table.ordered.pairwise_apart
  have apart' := grown.ok.table.ordered.pairwise_apart
  -- An entry that starts where one did before is the one that covers that address.
  have starts : ∀ other ∈ m.ranges, e.start ≤ other.start → other.start < e.stop → e.start = other.start := by
    intro other there low high
    obtain ⟨e', there', start⟩ := grown.start_mem there
    have nonempty := (grown.ok.table.valid e' there').nonempty
    have here : Span.Covers MemRange.start MemRange.stop e' other.start := ⟨start.le, by rw [MemRange.stop]; omega⟩
    exact (congrArg MemRange.start (Span.eq_of_covers apart' member' there' ⟨low, high⟩ here)).trans start
  have nonempty := (ok.table.valid mr member).nonempty
  have extent : mr.stop = mr.start + mr.len := rfl
  constructor
  · by_contra before
    have same := starts mr member (by omega) (by omega)
    omega
  · by_contra beyond
    obtain ⟨next, there, ⟨low, high⟩, _⟩ := (grown.same ok).covers_iff.mp ⟨e, member', ⟨by omega, not_le.mp beyond⟩, rfl⟩
    have start : next.start = mr.stop := by
      by_contra other
      have shared : Span.Covers MemRange.start MemRange.stop next (mr.stop - 1) := ⟨by omega, by omega⟩
      have same := Span.eq_of_covers apart member there ⟨by omega, by omega⟩ shared
      rw [same] at high
      exact lt_irrefl _ high
    have same := starts next there (by omega) (by omega)
    omega

/-- A slot that an entry divides is still divided by what is left of it. -/
theorem MemMap.Grown.divided (ok : m.Ok) (grown : m.Grown m') (member : mr ∈ m.ranges) (divided : Divided mr.Meets d) :
    ∃ e ∈ m'.ranges, e.uefiAttr = mr.uefiAttr ∧ Divided e.Meets d := by
  obtain ⟨⟨c, inside, meets⟩, u, inside', misses⟩ := divided
  have valid := ok.table.valid mr member
  obtain ⟨x, within, covers⟩ := valid.meets_iff.mp meets
  obtain ⟨e, member', covers', attrs⟩ := (grown.same ok).covers_iff.mpr ⟨mr, member, covers, rfl⟩
  have valid' := grown.ok.table.valid e member'
  obtain ⟨low, high⟩ := grown.inside ok member member' covers covers'
  refine ⟨e, member', (Prod.ext_iff.mp attrs).2, ⟨c, inside, valid'.meets_iff.mpr ⟨x, within, covers'⟩⟩, u, inside', ?_⟩
  intro meets'
  obtain ⟨y, within', above, below⟩ := valid'.meets_iff.mp meets'
  exact misses (valid.meets_iff.mpr ⟨y, within', low.trans above, below.trans_le high⟩)

/-- The span that the loop remaps divides the slots that its entry divides. -/
theorem divided_span_iff {q n : ℕ} (pages : ∀ page < 2 ^ 20, (q ≤ page ∧ page < q + n) ↔ mr.Meets page) (below : d < 2048) :
    Divided (InSpan q n) d ↔ Divided mr.Meets d :=
  divided_congr fun page inside => pages page (by omega)

/-- While there is a page for every slot that needs a page table, the loop ends. -/
theorem remapFrom_total {fuel : ℕ} (inv : RemapInv p₀ p i) (supply : Supply all last p)
    (wanted : ∀ d, TableSlot last.ranges d → d ∈ all) (inside : i ≤ p.map.ranges.length)
    (enough : p.map.maxRanges < fuel + i) : ∃ p', remapFrom fuel p i = .ok p' := by
  induction fuel generalizing p i with
  | zero =>
    have room := inv.grown.ok.room
    omega
  | succ fuel ih =>
    rw [remapFrom]
    by_cases more : i < p.map.ranges.length
    · have present := List.getElem?_eq_getElem more
      rw [if_pos more, load_eq_ok.mpr present, ok_bind]
      dsimp only
      split
      · next nothing => exact ih (inv.skip present nothing) supply more (by omega)
      · next something =>
        obtain ⟨nonzero, low⟩ := not_or.mp something
        rw [xm32MaxAddr, not_le] at low
        obtain ⟨q, n, span, bound, pages⟩ := inv.span present low
        have slots : ∀ d < 2048, Divided (InSpan q n) d → d ∈ all := by
          intro d below divided
          rw [divided_span_iff pages below] at divided
          obtain ⟨as, allocs, _⟩ := supply.allocs
          obtain ⟨e, member, attr, divided⟩ := (allocs.fresh inv.grown.ok).1.divided inv.grown.ok
            (List.mem_of_getElem? present) divided
          exact wanted d ⟨below, Or.inr ⟨e, member, attr ▸ nonzero, divided⟩⟩
        rcases doVaIdMap_tabled inv.ok rfl rfl bound (uefiAttrToPteFlags_cache _) with
          ⟨p₁, ran, mapped, tabled⟩ | ⟨stop, _, fails⟩
        · rw [span, ran, ok_bind]
          have next := inv.remap present nonzero pages mapped
          obtain ⟨as, allocs⟩ := mapped.allocs
          have grown := (allocs.fresh inv.grown.ok).1
          have forward := grown.passed_pos present
          have length : p.map.ranges.length ≤ p₁.map.ranges.length := by
            simpa using grown.starts.length_le
          apply ih next (supply.next tabled slots)
          · have passed : _ ≤ (p₁.map.ranges.drop i).length :=
              (List.takeWhile_prefix fun other : MemRange => decide (other.start ≤ p.map.ranges[i].start)).length_le
            rw [List.length_drop] at passed
            omega
          · rw [grown.capacity]
            omega
        · exact absurd fails (supply.suffices slots)
    · rw [if_neg more]
      exact ⟨p, rfl⟩

/-- Whenever the loop ends, there are page tables for the slots that its entries divide, as far as these cannot
be cut in two. -/
theorem remapFrom_tabled {fuel : ℕ} (inv : RemapInv p₀ p i) (ran : remapFrom fuel p i = .ok p') :
    ∃ slots, Tabled slots p p' ∧ ∀ e ∈ p.map.ranges.drop i, e.e820Type ≠ e820Ram →
      uefiAttrToPteFlags e.uefiAttr ≠ 0 → ∀ d < 2048, Divided e.Meets d → slots d := by
  induction fuel generalizing p i with
  | zero => cases ran
  | succ fuel ih =>
    rw [remapFrom] at ran
    by_cases more : i < p.map.ranges.length
    · have present := List.getElem?_eq_getElem more
      rw [if_pos more, load_eq_ok.mpr present, ok_bind] at ran
      dsimp only at ran
      rw [List.drop_eq_getElem_cons more]
      split at ran
      · next nothing =>
        obtain ⟨slots, tabled, later⟩ := ih (inv.skip present nothing) ran
        refine ⟨slots, tabled, List.forall_mem_cons.mpr ⟨fun _ nonzero d below divided => ?_, later⟩⟩
        obtain ⟨⟨c, inside, meets⟩, _⟩ := divided
        have low := meets.1
        rw [xm32MaxAddr] at nothing
        exact nothing.elim (fun cached => absurd cached nonzero) fun above => by omega
      · next something =>
        obtain ⟨nonzero, low⟩ := not_or.mp something
        rw [xm32MaxAddr, not_le] at low
        obtain ⟨q, n, span, bound, pages⟩ := inv.span present low
        rw [span] at ran
        rcases doVaIdMap_tabled inv.ok rfl rfl bound (uefiAttrToPteFlags_cache _) with
          ⟨p₁, ran', mapped, tabled⟩ | ⟨stop, ran', _⟩
        · rw [ran', ok_bind] at ran
          obtain ⟨slots, last, later⟩ := ih (inv.remap present nonzero pages mapped) ran
          obtain ⟨as, allocs⟩ := mapped.allocs
          have grown := (allocs.fresh inv.grown.ok).1
          refine ⟨_, tabled.trans last, List.forall_mem_cons.mpr ⟨fun _ _ d below divided => ?_, ?_⟩⟩
          · exact Or.inl ((divided_span_iff pages below).mpr divided)
          · intro e member type other d below divided
            have above : p.map.ranges[i].start < e.start := by
              have ordered := inv.grown.ok.table.ordered.sublist (List.drop_sublist i p.map.ranges)
              rw [List.drop_eq_getElem_cons more] at ordered
              have stops : _ + _ ≤ _ := (List.pairwise_cons.mp ordered).1 e member
              have nonempty := (inv.grown.ok.table.valid _ (List.getElem_mem more)).nonempty
              omega
            have kept := grown.firm e (List.mem_of_mem_drop member) type
            exact Or.inr (later e (grown.mem_drop_passed present kept above) type other d below divided)
        · rw [ran', error_bind] at ran
          cases ran
    · rw [List.drop_eq_nil_of_le (not_lt.mp more)]
      rw [if_neg more] at ran
      cases ran
      exact ⟨_, .refl _, fun e none => absurd none List.not_mem_nil⟩

/-! ## All of it -/

/-- The page directories take a page each. -/
theorem addPds_allocs {left : ℕ} (ran : addPds p left i = .ok p') : ∃ as, PageAllocs p.map as p'.map ∧ as.length = left := by
  induction left generalizing p i with
  | zero =>
    cases ran
    exact ⟨[], .nil _, rfl⟩
  | succ left ih =>
    obtain ⟨⟨pd, map⟩, allocated, ran⟩ := bind_eq_ok.mp ran
    obtain ⟨as, allocs, count⟩ := ih ran
    exact ⟨pd :: as, .cons allocated allocs, congrArg Nat.succ count⟩

theorem addPds_total {left : ℕ} {as : List ℕ} (allocs : PageAllocs p.map as last) (enough : left ≤ as.length) :
    ∃ p', addPds p left i = .ok p' := by
  induction left generalizing p as i with
  | zero => exact ⟨p, rfl⟩
  | succ left ih =>
    cases allocs with
    | nil => exact absurd enough (Nat.not_succ_le_zero _)
    | @cons _ map _ pd _ allocated allocs =>
      obtain ⟨p', ran⟩ := ih (p := p.withPd i pd map) allocs (Nat.le_of_succ_le_succ enough)
      exact ⟨p', bind_eq_ok.mpr ⟨_, allocated, ran⟩⟩

theorem PdsDone.tables_eq (done : PdsDone p 4) : p.tables = ∅ := by
  rw [Paging.tables, Finset.filter_eq_empty_iff]
  intro d low table
  exact table.1 (done.slot_eq (Finset.mem_range.mp low))

/-- The calls of `mem_alloc` that `va_init` makes when it builds `k` page tables: for `unused_va_ranges`, for the
page-directory-pointer table, for four page directories, and for the page tables. -/
def vaInitReqs (m : MemMap) (k : ℕ) : List AllocReq :=
  ⟨Word.mul 32 m.maxRanges sizeofVaRange, alignofVaRange, 0⟩ :: ⟨4 * 8, pdptAlign, 0⟩ :: List.replicate (4 + k) pageReq

/-- Regions are the same in lists that say the same. -/
theorem SameAttrs.divided_inRegion_iff {mrs mrs' : List MemRange} (same : SameAttrs mrs mrs') :
    Divided (InRegion mrs') d ↔ Divided (InRegion mrs) d := by
  apply divided_congr
  intro page _
  exact and_congr (not_congr same.unusedPage_iff) (exists_congr fun q => and_congr_right fun _ => same.unusedPage_iff)

/-- With memory for all its calls, `va_init` ends. -/
theorem vaInit_total {slots : Finset ℕ} {t : Allocs} (ok : m.Ok) (hole : ∃ page, UnusedPage m.ranges page)
    (served : Run.run Allocs.step ⟨m, []⟩ (vaInitReqs m slots.card) = .ok t)
    (wanted : ∀ d, TableSlot t.map.ranges d → d ∈ slots) (words : ℕ → ℕ) (stale : ℕ) :
    ∃ s, vaInit m words stale = .ok s := by
  obtain ⟨_, step₁, served⟩ := Run.run_cons_eq_ok.mp served
  obtain ⟨⟨a, m₁⟩, allocated₁, same⟩ := bind_eq_ok.mp step₁
  cases same
  obtain ⟨_, step₂, served⟩ := Run.run_cons_eq_ok.mp served
  obtain ⟨⟨pdpt, m₂⟩, allocated₂, same⟩ := bind_eq_ok.mp step₂
  cases same
  obtain ⟨as, whole, count⟩ := PageAllocs.of_run served
  have noted : initUnusedVaRanges m = .ok (findUnused m₁.ranges, m₁) := bind_eq_ok.mpr ⟨_, allocated₁, rfl⟩
  obtain ⟨p₀, added⟩ := @addPds_total ⟨m₂, words, pdpt⟩ _ 0 4 as whole (by omega)
  obtain ⟨done, grown₀, grown₁, _⟩ := vaInit_start ok noted allocated₂ added
  obtain ⟨bs, early, four⟩ := addPds_allocs added
  obtain ⟨cs, rest, sum⟩ := whole.rest early (by omega)
  have same := (grown₀.trans (rest.fresh done.map).1).same ok
  have supply : Supply slots t.map p₀ := by
    refine ⟨?_, cs, rest, ?_⟩
    · rw [done.tables_eq]
      exact Finset.empty_subset _
    · rw [done.tables_eq, Finset.card_empty]
      omega
  obtain ⟨pages, apart, found⟩ := grown₁.findUnused_spec ok
  obtain ⟨page, unused⟩ := hole
  obtain ⟨mr, member, _⟩ := unused.2.2.2
  obtain ⟨vr, there, _⟩ := (found page).mp unused
  obtain ⟨mr₀, member₀, _⟩ := grown₀.start_mem member
  obtain ⟨low, loaded⟩ : ∃ low, load p₀.map.ranges 0 = .ok low := ⟨_, load_of_lt (List.length_pos_of_mem member₀)⟩
  cases ranges : findUnused m₁.ranges with
  | nil =>
    rw [ranges] at there
    cases there
  | cons first others =>
    rw [ranges] at pages apart found noted
    have regions : ∀ d < 2048, Divided (InRegion m.ranges) d → d ∈ slots := fun d below divided =>
      wanted d ⟨below, Or.inl (same.divided_inRegion_iff.mpr divided)⟩
    rcases regions_tabled done.ok.1 pages apart found (uefiAttrToPteFlags_cache low.uefiAttr) with
      ⟨p₁, p₂, firstRegion, between, ok₂, tabled⟩ | ⟨stop, _, fails⟩
    · obtain ⟨ds, allocs, _⟩ := tabled.allocs
      have supply := supply.next tabled regions
      obtain ⟨p₃, remap⟩ := remapFrom_total (done.remapInv ok₂ allocs) supply wanted (Nat.zero_le _)
        (show p₂.map.maxRanges < p₂.map.maxRanges + 1 + 0 by omega)
      exact ⟨⟨p₃, first :: others, m.maxRanges⟩, bind_eq_ok.mpr ⟨_, noted, bind_eq_ok.mpr ⟨_, allocated₂, bind_eq_ok.mpr
        ⟨_, added, bind_eq_ok.mpr ⟨_, loaded, bind_eq_ok.mpr ⟨_, firstRegion, bind_eq_ok.mpr ⟨_, between,
          bind_eq_ok.mpr ⟨_, remap, rfl⟩⟩⟩⟩⟩⟩⟩⟩
    · exact absurd fails (supply.suffices regions)

/-- All available memory below 4 GiB is to be cached. -/
def CachedRam (mrs : List MemRange) : Prop :=
  ∀ mr ∈ mrs, mr.e820Type = e820Ram → mr.start < xm32MaxAddr → uefiAttrToPteFlags mr.uefiAttr = 0

/-- What is cut from it is still to be cached. -/
theorem MemMap.Grown.cachedRam (ok : m.Ok) (grown : m.Grown m') (cached : CachedRam m.ranges) : CachedRam m'.ranges := by
  intro e member' ram low
  have start : Span.Covers MemRange.start MemRange.stop e e.start :=
    ⟨le_rfl, Nat.lt_add_of_pos_right (grown.ok.table.valid e member').nonempty⟩
  obtain ⟨mr, member, covers, attrs⟩ := (grown.same ok).covers_iff.mp ⟨e, member', start, rfl⟩
  have attr : mr.uefiAttr = e.uefiAttr := (Prod.ext_iff.mp attrs).2
  rw [← attr]
  by_cases type : mr.e820Type = e820Ram
  · exact cached mr member type (covers.1.trans_lt low)
  · -- An entry of any other type is never cut, so it would be the same.
    have same := Span.eq_of_covers grown.ok.table.ordered.pairwise_apart member' (grown.firm mr member type) start covers
    exact absurd (same ▸ ram) type

/-- So an entry that is not to be cached was there from the start. -/
theorem MemMap.Grown.uncached (ok : m.Ok) (grown : m.Grown m') (cached : CachedRam m.ranges) (member : mr ∈ m'.ranges)
    (nonzero : uefiAttrToPteFlags mr.uefiAttr ≠ 0) (low : mr.start < xm32MaxAddr) :
    mr ∈ m.ranges ∧ mr.e820Type ≠ e820Ram := by
  have start : Span.Covers MemRange.start MemRange.stop mr mr.start :=
    ⟨le_rfl, Nat.lt_add_of_pos_right (grown.ok.table.valid mr member).nonempty⟩
  obtain ⟨e, there, covers, attrs⟩ := (grown.same ok).covers_iff.mp ⟨mr, member, start, rfl⟩
  have attr : e.uefiAttr = mr.uefiAttr := (Prod.ext_iff.mp attrs).2
  have type : e.e820Type ≠ e820Ram := fun ram => nonzero (attr ▸ cached e there ram (covers.1.trans_lt low))
  have same := Span.eq_of_covers grown.ok.table.ordered.pairwise_apart member (grown.firm e there type) start covers
  exact same ▸ ⟨there, type⟩

/-- What the first two loops leave when they end. -/
theorem regions_ok {p₁ p₂ : Paging} {stale flags : ℕ} (ok : p.Ok) (pages : ∀ vr ∈ unused, vr.Ok ∧ 0 < vr.len)
    (apart : unused.Pairwise fun low high => low.stop < high.start)
    (found : ∀ page, UnusedPage mrs page ↔ ∃ vr ∈ unused, vr.HasPage page) (hole : ∃ page, UnusedPage mrs page)
    (cache : CacheFlags flags) (first : doVaIdMap p 0 (firstStop unused stale) flags = .ok p₁)
    (between : mapBetween p₁ unused = .ok p₂) : p₂.Ok ∧ Tabled (Divided (InRegion mrs)) p p₂ := by
  obtain ⟨page, isUnused⟩ := hole
  obtain ⟨vr, there, _⟩ := (found page).mp isUnused
  cases unused with
  | nil => cases there
  | cons vr₀ rest =>
    rw [firstStop] at first
    rcases regions_tabled ok pages apart found cache with ⟨p₁', p₂', first', between', ok₂, tabled⟩ | ⟨stop, failed, _⟩
    · cases first.symm.trans first'
      cases between.symm.trans between'
      exact ⟨ok₂, tabled⟩
    · rw [first, ok_bind, between] at failed
      cases failed

/-- Whenever `va_init` returns, `mem_alloc` had memory for all the page tables that are needed. -/
theorem vaInit_served {words : ℕ → ℕ} {stale : ℕ} {s : Va} (ok : m.Ok) (hole : ∃ page, UnusedPage m.ranges page)
    (cached : CachedRam m.ranges) (ran : vaInit m words stale = .ok s) :
    ∃ t, Run.run Allocs.step ⟨m, []⟩ (vaInitReqs m s.paging.tables.card) = .ok t ∧
      ∀ d, TableSlot t.map.ranges d → d ∈ s.paging.tables := by
  obtain ⟨⟨unused, m₁⟩, noted, ran⟩ := bind_eq_ok.mp ran
  obtain ⟨⟨pdpt, m₂⟩, allocated₂, ran⟩ := bind_eq_ok.mp ran
  obtain ⟨p₀, added, ran⟩ := bind_eq_ok.mp ran
  obtain ⟨low, loaded, ran⟩ := bind_eq_ok.mp ran
  obtain ⟨p₁, firstRegion, ran⟩ := bind_eq_ok.mp ran
  obtain ⟨p₂, between, ran⟩ := bind_eq_ok.mp ran
  obtain ⟨p₃, remap, same⟩ := bind_eq_ok.mp ran
  cases same
  obtain ⟨⟨a, _⟩, allocated₁, same⟩ := bind_eq_ok.mp noted
  cases same
  obtain ⟨done, grown₀, grown₁, _⟩ := vaInit_start ok noted allocated₂ added
  obtain ⟨as, allocs₀, four⟩ := addPds_allocs added
  obtain ⟨pages, apart, found⟩ := grown₁.findUnused_spec ok
  obtain ⟨ok₂, tabled⟩ := regions_ok done.ok.1 pages apart found hole (uefiAttrToPteFlags_cache _) firstRegion between
  obtain ⟨bs, allocs₂, count₂⟩ := tabled.allocs
  obtain ⟨slots, last, divided⟩ := remapFrom_tabled (done.remapInv ok₂ allocs₂) remap
  obtain ⟨cs, allocs₃, count₃⟩ := last.allocs
  obtain ⟨t, served, end_⟩ := ((allocs₀.append allocs₂).append allocs₃).run
    [⟨m₁, ⟨4 * 8, pdptAlign, 0⟩, pdpt, m₂⟩, ⟨m, ⟨Word.mul 32 m.maxRanges sizeofVaRange, alignofVaRange, 0⟩, a, m₁⟩]
  have grown₂ := grown₀.trans (allocs₂.fresh done.map).1
  have grown₃ := (allocs₃.fresh grown₂.ok).1
  refine ⟨t, Run.run_cons_eq_ok.mpr ⟨_, bind_eq_ok.mpr ⟨_, allocated₁, rfl⟩, Run.run_cons_eq_ok.mpr
    ⟨_, bind_eq_ok.mpr ⟨_, allocated₂, rfl⟩, ?_⟩⟩, ?_⟩
  · have count : 4 + p₃.tables.card = (as ++ bs ++ cs).length := by
      rw [done.tables_eq, Finset.card_empty] at count₂
      simp only [List.length_append]
      omega
    rw [count]
    exact served
  · rintro d ⟨below, table⟩
    rw [end_] at table
    rcases table with region | ⟨mr, member, nonzero, split⟩
    · have region := ((grown₂.trans grown₃).same ok).divided_inRegion_iff.mp region
      exact last.subset ((tabled.tables d).mpr (Or.inr ⟨below, region⟩))
    · -- The entry was not cut from available memory, so the loop came to it as it is.
      have start : mr.start < xm32MaxAddr := by
        obtain ⟨⟨c, inside, meets⟩, _⟩ := split
        have low := meets.1
        rw [xm32MaxAddr]
        omega
      obtain ⟨there, type⟩ := grown₃.uncached grown₂.ok (grown₂.cachedRam ok cached) member nonzero start
      rw [List.drop_zero] at divided
      exact (last.tables d).mpr (Or.inr ⟨below, divided mr there type nonzero d below split⟩)

end

end Biefircate
