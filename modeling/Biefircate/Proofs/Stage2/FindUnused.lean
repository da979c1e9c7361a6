import Biefircate.Proofs.Stage2.MemGrown
import Biefircate.Model.Stage2.VaMap

/-! # The unused ranges

The ranges that `va_init` notes are made of whole pages: those from 1 MiB to 4 GiB that no entry of the
map meets, with some entry below them. They come in order, and never one right after the other.
-/

namespace Biefircate

/-- The entry has an address in the page. -/
def MemRange.Meets (mr : MemRange) (page : ℕ) : Prop := mr.start < (page + 1) * 2 ^ 12 ∧ page * 2 ^ 12 < mr.stop

instance (mr : MemRange) (page : ℕ) : Decidable (mr.Meets page) := inferInstanceAs (Decidable (_ ∧ _))

/-- One past the last address of the range. -/
def VaRange.stop (vr : VaRange) : ℕ := vr.start + vr.len

/-- The range contains the page. -/
def VaRange.HasPage (vr : VaRange) (page : ℕ) : Prop := vr.start ≤ page * 2 ^ 12 ∧ page * 2 ^ 12 < vr.stop

instance (vr : VaRange) (page : ℕ) : Decidable (vr.HasPage page) := inferInstanceAs (Decidable (_ ∧ _))

/-- Two different ranges of a list are apart, in one of the two orders. -/
theorem apart_or_of_mem {unused : List VaRange} (apart : unused.Pairwise fun low high => low.stop < high.start)
    {vr other : VaRange} (member : vr ∈ unused) (member' : other ∈ unused) :
    vr = other ∨ vr.stop < other.start ∨ other.stop < vr.start := by
  induction unused with
  | nil => cases member
  | cons head rest ih =>
    obtain ⟨first, tail⟩ := List.pairwise_cons.mp apart
    rcases List.mem_cons.mp member with rfl | later
    · rcases List.mem_cons.mp member' with rfl | later'
      · exact Or.inl rfl
      · exact Or.inr (Or.inl (first other later'))
    · rcases List.mem_cons.mp member' with rfl | later'
      · exact Or.inr (Or.inr (first vr later))
      · exact ih tail later later'

/-- A range of whole pages from 1 MiB to 4 GiB. -/
structure VaRange.Ok (vr : VaRange) : Prop where
  start : 2 ^ 12 ∣ vr.start
  len : 2 ^ 12 ∣ vr.len
  low : bmemMaxAddr ≤ vr.start
  high : vr.stop ≤ 2 ^ 32

/-- A page that no entry meets, from 1 MiB to 4 GiB, with an entry below. -/
def UnusedPage (mrs : List MemRange) (page : ℕ) : Prop :=
  256 ≤ page ∧ page < 2 ^ 20 ∧ (∀ mr ∈ mrs, ¬ mr.Meets page) ∧ ∃ mr ∈ mrs, mr.start < page * 2 ^ 12

section

variable {mr : MemRange} {rest : List MemRange} {page prevEnd : ℕ}

/-! ## One gap -/

/-- Where the gap starts, in plain terms: at a page, past the entry and base memory. -/
theorem gapStart_eq (valid : mr.Valid) : gapStart mr =
    if 2 ^ 32 ≤ Word.alignUp mr.stop (2 ^ 12) then none else some (max bmemMaxAddr (Word.alignUp mr.stop (2 ^ 12))) := by
  have nonempty := valid.nonempty
  have bounded := valid.bounded
  have above := Word.le_alignUp (show 0 < 2 ^ 12 by decide) mr.stop
  have within := Word.alignUp_lt_add (show 0 < 2 ^ 12 by decide) mr.stop
  have first : Word.sub 64 (Word.add 64 mr.start mr.len) 1 = mr.stop - 1 :=
    Word.sub_one_add (by omega) bounded
  unfold gapStart
  dsimp only
  rw [first]
  have start : mr.stop = mr.start + mr.len := rfl
  by_cases high : 2 ^ 32 ≤ mr.stop
  · rw [if_pos (by rw [xm32MaxAddr]; omega), if_pos (by omega)]
  · have exact_ : Word.add 64 mr.start mr.len = mr.stop := Word.add_of_lt (by omega)
    have rounded : Word.sub 64 (Word.add 64 mr.stop pageSize) 1 &&& Word.mask 64 pageSize =
        Word.alignUp mr.stop (2 ^ 12) := by
      have wide : mr.stop + pageSize < 2 ^ 64 := by
        rw [pageSize]
        omega
      exact Word.add_sub_one_and_mask_eq (k := 12) rfl (by decide) wide
    have second : Word.sub 64 (Word.alignUp mr.stop (2 ^ 12)) 1 = Word.alignUp mr.stop (2 ^ 12) - 1 :=
      Word.sub_of_le (by omega) (by omega)
    rw [if_neg (by rw [xm32MaxAddr]; omega), exact_, rounded, second]
    by_cases top : 2 ^ 32 ≤ Word.alignUp mr.stop (2 ^ 12)
    · rw [if_pos (by rw [xm32MaxAddr]; omega), if_pos top]
    · have pick : ∀ up, (if up < bmemMaxAddr then bmemMaxAddr else up) = max bmemMaxAddr up := by
        intro up
        rw [max_def]
        split <;> split <;> omega
      rw [if_neg (by rw [xm32MaxAddr]; omega), if_neg top, pick]

/-- Where the gap stops: at the page of the next entry. -/
theorem gapStop_cons (valid : mr.Valid) : gapStop (mr :: rest) = min (2 ^ 32) (Word.alignDown mr.start (2 ^ 12)) := by
  have nonempty := valid.nonempty
  have bounded := valid.bounded
  have rounded : mr.start &&& Word.mask 64 pageSize = Word.alignDown mr.start (2 ^ 12) :=
    Word.and_mask_eq (k := 12) rfl (by decide) (by omega)
  have pick : ∀ down, (if 2 ^ 32 < down then 2 ^ 32 else down) = min (2 ^ 32) down := by
    intro down
    rw [min_def]
    split <;> split <;> omega
  rw [← pick, ← rounded]
  rfl

theorem gapStop_le (valid : ∀ mr ∈ rest, mr.Valid) : gapStop rest ≤ 2 ^ 32 ∧ 2 ^ 12 ∣ gapStop rest := by
  cases rest with
  | nil => exact ⟨le_rfl, by decide⟩
  | cons mr rest =>
    rw [gapStop_cons (valid mr (List.mem_cons_self ..))]
    refine ⟨min_le_left .., ?_⟩
    rcases min_choice (2 ^ 32) (Word.alignDown mr.start (2 ^ 12)) with eq | eq
    · rw [eq]
      decide
    · rw [eq]
      exact Word.dvd_alignDown _ _

theorem findUnused_of_none (shut : gapStart mr = none) : findUnused (mr :: rest) = [] := by
  rw [findUnused, shut, Option.elim_none]

theorem findUnused_of_some (start : gapStart mr = some prevEnd) : findUnused (mr :: rest) =
    if gapStop rest ≤ prevEnd then findUnused rest
    else vaRangeBetween prevEnd (gapStop rest) :: findUnused rest := by
  rw [findUnused, start, Option.elim_some]

theorem vaRangeBetween_eq {start stop : ℕ} (positive : 0 < start) (below : start < stop) (bound : stop ≤ 2 ^ 32) :
    vaRangeBetween start stop = ⟨start, stop - start⟩ := by
  have length : Word.sub 32 (stop % 2 ^ 32) start = stop - start := by
    rw [Word.sub]
    omega
  rw [vaRangeBetween, Nat.mod_eq_of_lt (below.trans_le bound), length]

/-! ## All of them -/

/-- Entries that end past 4 GiB leave no unused pages above them. -/
theorem UnusedPage.below (ordered : Span.Ordered MemRange.start MemRange.stop (mr :: rest))
    (valid : ∀ other ∈ mr :: rest, other.Valid) (unused : UnusedPage (mr :: rest) page) :
    Word.alignUp mr.stop (2 ^ 12) ≤ page * 2 ^ 12 := by
  obtain ⟨_, _, clear, other, member, below⟩ := unused
  have apart := clear other member
  have positive := (valid other member).nonempty
  apply Word.alignUp_le (Dvd.intro_left page rfl)
  simp only [MemRange.Meets, MemRange.stop] at apart ⊢
  rcases List.mem_cons.mp member with rfl | later
  · omega
  · have order := (List.pairwise_cons.mp ordered).1 other later
    rw [MemRange.stop] at order
    omega

/-- Either the page is in the gap above the first entry, or it is unused without that entry. -/
theorem unusedPage_cons (ordered : Span.Ordered MemRange.start MemRange.stop (mr :: rest))
    (valid : ∀ other ∈ mr :: rest, other.Valid) : UnusedPage (mr :: rest) page ↔
      max bmemMaxAddr (Word.alignUp mr.stop (2 ^ 12)) ≤ page * 2 ^ 12 ∧ page * 2 ^ 12 < gapStop rest ∨
        UnusedPage rest page := by
  have head := valid mr (List.mem_cons_self ..)
  have nonempty := head.nonempty
  have order := (List.pairwise_cons.mp ordered).1
  have stop : mr.stop = mr.start + mr.len := rfl
  constructor
  · intro unused
    have up := UnusedPage.below ordered valid unused
    obtain ⟨low, high, clear, other, member, below⟩ := unused
    have clearRest : ∀ other ∈ rest, ¬ other.Meets page := fun other later => clear other (List.mem_cons_of_mem _ later)
    by_cases later : ∃ other ∈ rest, other.start < page * 2 ^ 12
    · exact Or.inr ⟨low, high, clearRest, later⟩
    · refine Or.inl ⟨max_le (by rw [bmemMaxAddr]; omega) up, ?_⟩
      cases rest with
      | nil =>
        rw [gapStop, xm32MaxAddr]
        omega
      | cons next tail =>
        have first : ¬ next.Meets page := clearRest next (List.mem_cons_self ..)
        have start : ¬ next.start < page * 2 ^ 12 := fun under => later ⟨next, List.mem_cons_self .., under⟩
        have positive := (valid next (by simp)).nonempty
        have above : (page + 1) * 2 ^ 12 ≤ next.start := by
          simp only [MemRange.Meets, MemRange.stop] at first
          omega
        have down := Word.le_alignDown (Dvd.intro_left (page + 1) rfl) above
        rw [gapStop_cons (valid next (by simp))]
        exact lt_min (by omega) (by omega)
  · rintro (⟨above, below⟩ | ⟨low, high, clear, other, member, under⟩)
    · have reach := Word.le_alignUp (show 0 < 2 ^ 12 by decide) mr.stop
      have past := (le_max_right bmemMaxAddr (Word.alignUp mr.stop (2 ^ 12))).trans above
      have base := (le_max_left bmemMaxAddr (Word.alignUp mr.stop (2 ^ 12))).trans above
      have top := (gapStop_le fun other member => valid other (List.mem_cons_of_mem _ member)).1
      have atLeast : mr.stop ≤ page * 2 ^ 12 := reach.trans past
      refine ⟨?_, ?_, ?_, mr, List.mem_cons_self .., by omega⟩
      · rw [bmemMaxAddr] at base
        omega
      · omega
      · refine List.forall_mem_cons.mpr ⟨fun meets => absurd meets.2 (not_lt.mpr atLeast), ?_⟩
        intro other later meets
        cases rest with
        | nil => cases later
        | cons next tail =>
          have firstOf : next.start ≤ other.start := by
            rcases List.mem_cons.mp later with rfl | deeper
            · exact le_rfl
            · have step := (List.pairwise_cons.mp (List.pairwise_cons.mp ordered).2).1 other deeper
              rw [MemRange.stop] at step
              omega
          rw [gapStop_cons (valid next (by simp))] at below
          have page' := below.trans_le (min_le_right ..)
          obtain ⟨k, down⟩ := Word.dvd_alignDown next.start (2 ^ 12)
          have under := Word.alignDown_le next.start (2 ^ 12)
          have start := meets.1
          rw [down] at page' under
          omega
    · refine ⟨low, high, List.forall_mem_cons.mpr ⟨?_, clear⟩, other, List.mem_cons_of_mem _ member, under⟩
      intro meets
      have before := order other member
      have apart := clear other member
      have positive := (valid other (List.mem_cons_of_mem _ member)).nonempty
      have upper := meets.2
      omega

/-- The first entry either ends all gaps, or starts one at a page below 4 GiB. -/
theorem gapStart_cases (valid : mr.Valid) :
    gapStart mr = none ∧ 2 ^ 32 ≤ Word.alignUp mr.stop (2 ^ 12) ∨
      ∃ prevEnd, gapStart mr = some prevEnd ∧ prevEnd = max bmemMaxAddr (Word.alignUp mr.stop (2 ^ 12)) ∧
        2 ^ 12 ∣ prevEnd ∧ bmemMaxAddr ≤ prevEnd ∧ mr.stop ≤ prevEnd ∧ prevEnd < 2 ^ 32 := by
  rw [gapStart_eq valid]
  by_cases high : 2 ^ 32 ≤ Word.alignUp mr.stop (2 ^ 12)
  · exact Or.inl ⟨if_pos high, high⟩
  · refine Or.inr ⟨_, if_neg high, rfl, ?_, le_max_left .., ?_, max_lt (by decide) (not_le.mp high)⟩
    · rcases max_choice bmemMaxAddr (Word.alignUp mr.stop (2 ^ 12)) with eq | eq
      · rw [eq]
        decide
      · rw [eq]
        exact Word.dvd_alignUp _ _
    · exact (Word.le_alignUp (by decide) _).trans (le_max_right ..)

/-- What the loop finds: whole pages, in order and with something between any two, and exactly those that
are unused. -/
theorem findUnused_spec {mrs : List MemRange} (table : TableOk mrs) :
    (∀ vr ∈ findUnused mrs, vr.Ok ∧ 0 < vr.len) ∧
      (findUnused mrs).Pairwise (fun low high => low.stop < high.start) ∧
      ∀ page, UnusedPage mrs page ↔ ∃ vr ∈ findUnused mrs, vr.HasPage page := by
  obtain ⟨valid, ordered⟩ := table
  induction mrs with
  | nil => simp [findUnused, UnusedPage]
  | cons mr rest ih =>
    have validRest : ∀ other ∈ rest, other.Valid := fun other member => valid other (List.mem_cons_of_mem _ member)
    obtain ⟨ranges, apart, pages⟩ := ih validRest (List.pairwise_cons.mp ordered).2
    obtain ⟨top, aligned⟩ := gapStop_le validRest
    rcases gapStart_cases (valid mr (List.mem_cons_self ..)) with ⟨none, high⟩ | ⟨prevEnd, some, start, whole, low, past, below⟩
    · rw [findUnused_of_none none]
      refine ⟨by simp, List.Pairwise.nil, ?_⟩
      intro page
      simp only [List.not_mem_nil, false_and, exists_false, iff_false]
      intro unused
      have under := UnusedPage.below ordered valid unused
      have inside := unused.2.1
      omega
    · have positive : 0 < prevEnd := lt_of_lt_of_le (by decide) low
      have split : ∀ page, UnusedPage (mr :: rest) page ↔ _ := fun page => unusedPage_cons ordered valid
      rw [findUnused_of_some some]
      by_cases shut : gapStop rest ≤ prevEnd
      · rw [if_pos shut]
        refine ⟨ranges, apart, fun page => ?_⟩
        rw [split, ← start, pages]
        exact or_iff_right fun inside => absurd (inside.1.trans_lt inside.2) (not_lt.mpr shut)
      · rw [if_neg shut, vaRangeBetween_eq positive (not_le.mp shut) top]
        have stop : prevEnd + (gapStop rest - prevEnd) = gapStop rest := Nat.add_sub_cancel' (not_le.mp shut).le
        refine ⟨List.forall_mem_cons.mpr ⟨⟨⟨whole, Nat.dvd_sub aligned whole, low, ?_⟩, ?_⟩, ranges⟩,
          List.pairwise_cons.mpr ⟨?_, apart⟩, fun page => ?_⟩
        · rw [VaRange.stop, stop]
          exact top
        · exact Nat.sub_pos_of_lt (not_le.mp shut)
        · intro vr member
          rw [VaRange.stop, stop]
          obtain ⟨ok, nonempty⟩ := ranges vr member
          obtain ⟨page, place⟩ := ok.start
          have unused : UnusedPage rest page := by
            refine (pages page).mpr ⟨vr, member, ?_, ?_⟩
            · omega
            · rw [VaRange.stop]
              omega
          cases rest with
          | nil => cases member
          | cons next tail =>
            have under := UnusedPage.below (List.pairwise_cons.mp ordered).2 validRest unused
            have validNext := validRest next (List.mem_cons_self ..)
            have more := validNext.nonempty
            have reach := Word.le_alignUp (show 0 < 2 ^ 12 by decide) next.stop
            have back := Word.alignDown_le next.start (2 ^ 12)
            have room : next.stop = next.start + next.len := rfl
            rw [gapStop_cons validNext]
            exact (min_le_right ..).trans_lt (by omega)
        · rw [split, ← start, pages]
          simp only [List.mem_cons, exists_eq_or_imp]
          refine or_congr ?_ Iff.rfl
          rw [VaRange.HasPage, VaRange.stop, stop]

theorem findUnused_length_le (mrs : List MemRange) : (findUnused mrs).length ≤ mrs.length := by
  induction mrs with
  | nil => exact le_rfl
  | cons mr rest ih =>
    rw [List.length_cons]
    cases start : gapStart mr with
    | none =>
      rw [findUnused_of_none start]
      exact Nat.zero_le _
    | some prevEnd =>
      rw [findUnused_of_some start]
      split
      · exact ih.trans (Nat.le_succ _)
      · exact Nat.succ_le_succ ih

/-! ## The map may grow -/

theorem MemRange.Valid.meets_iff (valid : mr.Valid) : mr.Meets page ↔
    ∃ x, (page * 2 ^ 12 ≤ x ∧ x < (page + 1) * 2 ^ 12) ∧ mr.start ≤ x ∧ x < mr.stop := by
  have nonempty := valid.nonempty
  have stop : mr.stop = mr.start + mr.len := rfl
  constructor
  · rintro ⟨before, after⟩
    exact ⟨max mr.start (page * 2 ^ 12), by omega, by omega⟩
  · rintro ⟨x, ⟨low, high⟩, above, below⟩
    exact ⟨above.trans_lt high, low.trans_lt below⟩

/-- A page meets an entry with some attributes in one list if and only if it does in the other. -/
theorem SameAttrs.meets_iff {mrs mrs' : List MemRange} (same : SameAttrs mrs mrs') {attrs : ℕ × ℕ} :
    (∃ mr ∈ mrs', mr.Meets page ∧ (mr.e820ExtAttr, mr.uefiAttr) = attrs) ↔
      ∃ mr ∈ mrs, mr.Meets page ∧ (mr.e820ExtAttr, mr.uefiAttr) = attrs := by
  have pointwise : ∀ mrs : List MemRange, (∀ mr ∈ mrs, mr.Valid) →
      ((∃ mr ∈ mrs, mr.Meets page ∧ (mr.e820ExtAttr, mr.uefiAttr) = attrs) ↔
        ∃ x, (page * 2 ^ 12 ≤ x ∧ x < (page + 1) * 2 ^ 12) ∧
          ∃ mr ∈ mrs, (mr.start ≤ x ∧ x < mr.stop) ∧ (mr.e820ExtAttr, mr.uefiAttr) = attrs) := by
    intro mrs valid
    constructor
    · rintro ⟨mr, member, meets, same⟩
      obtain ⟨x, inside, covers⟩ := (valid mr member).meets_iff.mp meets
      exact ⟨x, inside, mr, member, covers, same⟩
    · rintro ⟨x, inside, mr, member, covers, same⟩
      exact ⟨mr, member, (valid mr member).meets_iff.mpr ⟨x, inside, covers⟩, same⟩
  rw [pointwise _ same.new.valid, pointwise _ same.old.valid]
  exact exists_congr fun x => and_congr_right fun _ => same.covers_iff

theorem SameAttrs.unusedPage_iff {mrs mrs' : List MemRange} (same : SameAttrs mrs mrs') :
    UnusedPage mrs' page ↔ UnusedPage mrs page := by
  have meets : (∀ mr ∈ mrs', ¬ mr.Meets page) ↔ ∀ mr ∈ mrs, ¬ mr.Meets page := by
    constructor
    · intro clear mr member touches
      obtain ⟨other, member', touches', _⟩ := same.meets_iff.mpr ⟨mr, member, touches, rfl⟩
      exact clear other member' touches'
    · intro clear mr member touches
      obtain ⟨other, member', touches', _⟩ := same.meets_iff.mp ⟨mr, member, touches, rfl⟩
      exact clear other member' touches'
  have start : ∀ mr : MemRange, mr.Valid → mr.start ≤ mr.start ∧ mr.start < mr.stop := fun mr valid =>
    ⟨le_rfl, Nat.lt_add_of_pos_right valid.nonempty⟩
  have below : (∃ mr ∈ mrs', mr.start < page * 2 ^ 12) ↔ ∃ mr ∈ mrs, mr.start < page * 2 ^ 12 := by
    constructor
    · rintro ⟨mr, member, under⟩
      obtain ⟨other, member', covers, _⟩ := same.covers_iff.mp ⟨mr, member, start mr (same.new.valid mr member), rfl⟩
      exact ⟨other, member', covers.1.trans_lt under⟩
    · rintro ⟨mr, member, under⟩
      obtain ⟨other, member', covers, _⟩ := same.covers_iff.mpr ⟨mr, member, start mr (same.old.valid mr member), rfl⟩
      exact ⟨other, member', covers.1.trans_lt under⟩
  rw [UnusedPage, UnusedPage, meets, below]

/-- The unused ranges of a map that has grown are those of the map as it was. -/
theorem MemMap.Grown.findUnused_spec {m m' : MemMap} (ok : m.Ok) (grown : m.Grown m') :
    (∀ vr ∈ findUnused m'.ranges, vr.Ok ∧ 0 < vr.len) ∧
      ((findUnused m'.ranges).Pairwise fun low high => low.stop < high.start) ∧
        ∀ page, UnusedPage m.ranges page ↔ ∃ vr ∈ findUnused m'.ranges, vr.HasPage page := by
  obtain ⟨pages, apart, found⟩ := Biefircate.findUnused_spec grown.ok.table
  refine ⟨pages, apart, fun page => ?_⟩
  rw [← (grown.same ok).unusedPage_iff, found]

theorem initUnusedVaRanges_ok {m m' : MemMap} {unused : List VaRange} (ok : m.Ok)
    (ran : initUnusedVaRanges m = .ok (unused, m')) : m.Grown m' ∧ unused = findUnused m'.ranges := by
  obtain ⟨⟨a, map⟩, allocated, same⟩ := bind_eq_ok.mp ran
  cases same
  refine ⟨?_, rfl⟩
  rcases Nat.eq_zero_or_pos (Word.mul 32 m.maxRanges sizeofVaRange) with zero | positive
  · rw [zero, memAlloc, if_pos rfl] at allocated
    cases allocated
    exact .refl ok
  · have valid : AllocReq.Valid ⟨Word.mul 32 m.maxRanges sizeofVaRange, alignofVaRange, 0⟩ :=
      ⟨positive, Nat.mod_lt _ (Nat.two_pow_pos 32), ⟨2, by decide, rfl⟩, Nat.two_pow_pos 32⟩
    exact (memAlloc_grown ok valid allocated).1

end

end Biefircate
