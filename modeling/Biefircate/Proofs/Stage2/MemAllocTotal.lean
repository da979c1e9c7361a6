import Biefircate.Proofs.Stage2.MemAlloc

/-! # How every `mem_alloc` ends

On a table in order the binary search finds the highest entry that ends at or below the limit, or halts
when there is none. The scan then takes the highest available range that can hold the block. When there is
none, the scan goes on below the first entry: the test that should stop it is only reached by a range that
starts at address 0, and such a range always has an address to offer.
-/

namespace Biefircate

/-- An available range at or below the limit that can hold an aligned block of the size asked for. -/
def MemRange.Fits (mr : MemRange) (req : AllocReq) : Prop :=
  mr.e820Type = e820Ram ∧ mr.stop ≤ allocLimit req.maxAddr ∧
    ∃ a, req.align ∣ a ∧ mr.start ≤ a ∧ a + req.sz ≤ mr.stop

/-- Where the block goes in a range that can hold it. -/
def MemRange.blockAt (mr : MemRange) (req : AllocReq) : ℕ := Word.alignDown (mr.stop - req.sz) req.align

section

variable {mrs : List MemRange} {mr : MemRange} {req : AllocReq} {limit left right i : ℕ}

/-! ## The search -/

/-- If an entry ends above the limit, so do those after it. -/
theorem TableOk.stop_mono (table : TableOk mrs) {j : ℕ} {mr mr' : MemRange} (present : mrs[i]? = some mr)
    (present' : mrs[j]? = some mr') (before : i ≤ j) : mr.stop ≤ mr'.stop := by
  rcases Nat.lt_or_eq_of_le before with lower | rfl
  · obtain ⟨inside, here⟩ := List.getElem?_eq_some_iff.mp present
    obtain ⟨inside', there⟩ := List.getElem?_eq_some_iff.mp present'
    have apart := List.pairwise_iff_getElem.mp table.ordered i j inside inside' lower
    rw [here, there] at apart
    exact apart.trans (Nat.le_add_right ..)
  · rw [present] at present'
    exact (congrArg MemRange.stop (Option.some.inj present')).le

/-- The binary search ends with neighbours: the left one at the bottom or below the limit, the right one at
the top or above the limit. -/
theorem bisect_spec {fuel : ℕ} (small : mrs.length ≤ 2 ^ 31) (ordered : left < right) (inside : right ≤ mrs.length)
    (enough : right - left ≤ fuel)
    (low : left = 0 ∨ ∃ mr, mrs[left]? = some mr ∧ ¬ mr.EndsAbove limit)
    (high : right = mrs.length ∨ ∃ mr, mrs[right]? = some mr ∧ mr.EndsAbove limit) :
    ∃ i, bisect mrs limit fuel left right = .ok i ∧ i < mrs.length ∧
      (i = 0 ∨ ∃ mr, mrs[i]? = some mr ∧ ¬ mr.EndsAbove limit) ∧
      (i + 1 = mrs.length ∨ ∃ mr, mrs[i + 1]? = some mr ∧ mr.EndsAbove limit) := by
  induction fuel generalizing left right with
  | zero => omega
  | succ fuel ih =>
    have step : Word.sub 32 right 1 = right - 1 := Word.sub_of_le (by omega) (by omega)
    rw [bisect, step]
    by_cases more : left < right - 1
    · have middle : Word.add 32 left right / 2 = (left + right) / 2 := by
        rw [Word.add_of_lt (by omega)]
      have within : (left + right) / 2 < mrs.length := by omega
      rw [if_pos more, middle]
      dsimp only
      rw [load_of_lt within, ok_bind]
      split
      · next above =>
        apply ih (by omega) (by omega) (by omega) low
        exact Or.inr ⟨_, List.getElem?_eq_getElem within, above⟩
      · next below =>
        refine ih (by omega) inside (by omega) ?_ high
        exact Or.inr ⟨_, List.getElem?_eq_getElem within, below⟩
    · obtain rfl : right = left + 1 := by omega
      rw [if_neg more]
      exact ⟨left, rfl, by omega, low, high⟩

/-- The entry that the search finds, or why it halts. -/
theorem findHighestRangeBelow_spec (table : TableOk mrs) (nonempty : mrs ≠ []) (small : mrs.length ≤ 2 ^ 31)
    (positive : 0 < limit) (fits : limit < 2 ^ 64) :
    (∃ top mr, findHighestRangeBelow mrs limit = .ok top ∧ mrs[top]? = some mr ∧ mr.stop ≤ limit ∧
        ∀ j mr', mrs[j]? = some mr' → mr'.stop ≤ limit → j ≤ top) ∨
      findHighestRangeBelow mrs limit = .error .hlt ∧ ∀ mr ∈ mrs, limit < mr.stop := by
  have bottom : 0 < mrs.length := List.length_pos_iff.mpr nonempty
  have above_iff : ∀ {j : ℕ} {mr : MemRange}, mrs[j]? = some mr → (mr.EndsAbove limit ↔ limit < mr.stop) :=
    fun present => (table.valid _ (List.mem_of_getElem? present)).endsAbove_iff positive fits
  obtain ⟨i, searched, inside, low, high⟩ :=
    @bisect_spec mrs limit 0 mrs.length (mrs.length + 1) small bottom le_rfl (by omega) (Or.inl rfl) (Or.inl rfl)
  have last : ∀ j mr', mrs[j]? = some mr' → mr'.stop ≤ limit → j ≤ i := by
    intro j mr' present under
    by_contra beyond
    rcases high with top | ⟨next, present', above⟩
    · have bound := (List.getElem?_eq_some_iff.mp present).1
      omega
    · have order := table.stop_mono present' present (by omega)
      have higher := (above_iff present').mp above
      omega
  have here : mrs[i]? = some mrs[i] := List.getElem?_eq_getElem inside
  rw [findHighestRangeBelow, searched, ok_bind]
  by_cases above : mrs[i].EndsAbove limit
  · right
    obtain rfl : i = 0 := by
      apply low.resolve_right
      rintro ⟨mr, present, below⟩
      rw [here] at present
      cases present
      exact below above
    constructor
    · rw [backOff, load_of_lt inside, ok_bind, if_pos above]
    · intro mr member
      obtain ⟨j, bound, rfl⟩ := List.getElem_of_mem member
      exact ((above_iff here).mp above).trans_le
        (table.stop_mono here (List.getElem?_eq_getElem bound) (Nat.zero_le j))
  · refine Or.inl ⟨i, mrs[i], ?_, here, ?_, last⟩
    · cases i with
      | zero => rw [backOff, load_of_lt inside, ok_bind, if_neg above]
      | succ i => rw [backOff, load_of_lt inside, ok_bind, if_neg above]
    · exact not_lt.mp fun beyond => above ((above_iff here).mpr beyond)

/-! ## The scan -/

/-- In a range at or below the limit, only the highest aligned address matters. -/
theorem MemRange.fits_iff (below : mr.stop ≤ allocLimit req.maxAddr) : mr.Fits req ↔
    mr.e820Type = e820Ram ∧ req.sz ≤ mr.len ∧ mr.start ≤ mr.blockAt req := by
  have stop : mr.stop = mr.start + mr.len := rfl
  constructor
  · rintro ⟨ram, _, a, aligned, above, inside⟩
    refine ⟨ram, by omega, above.trans ?_⟩
    exact Word.le_alignDown aligned (by omega)
  · rintro ⟨ram, large, above⟩
    have under : mr.blockAt req ≤ mr.stop - req.sz := Word.alignDown_le _ _
    exact ⟨ram, below, mr.blockAt req, Word.dvd_alignDown _ _, above, by omega⟩

/-- The scan takes the ranges that fit, and passes the others: it never reaches its halt. -/
theorem scan_eq (valid : req.Valid) (below : mr.stop ≤ allocLimit req.maxAddr) [Decidable (mr.Fits req)] :
    scan mr req.sz req.align = if mr.Fits req then .take (mr.blockAt req) else .next := by
  have fits := MemRange.fits_iff below
  obtain ⟨k, narrow, pow⟩ := valid.pow
  unfold scan
  dsimp only
  by_cases usable : mr.e820Type ≠ e820Ram ∨ mr.len < req.sz
  · rw [if_pos usable, if_neg]
    intro held
    obtain ⟨ram, large, _⟩ := fits.mp held
    exact usable.elim (fun other => other ram) (not_lt.mpr large)
  · obtain ⟨ram, large⟩ := not_or.mp usable
    rw [not_not] at ram
    rw [if_neg usable,
      blockAddr_eq pow narrow (below.trans (allocLimit_le valid.limit)) valid.positive (not_lt.mp large)]
    change (if mr.start ≤ mr.blockAt req then _ else _) = _
    by_cases above : mr.start ≤ mr.blockAt req
    · rw [if_pos above, if_pos (fits.mpr ⟨ram, not_lt.mp large, above⟩)]
      rfl
    · rw [if_neg above, if_neg (by omega), if_neg fun held => above (fits.mp held).2.2]

/-- The scan from entry `top` down finds the highest range that fits, or leaves the table. -/
theorem scanDown_spec {top : ℕ} (valid : req.Valid) (inside : top < mrs.length)
    (below : ∀ j mr, mrs[j]? = some mr → j ≤ top → mr.stop ≤ allocLimit req.maxAddr) :
    (∃ i mr, mrs[i]? = some mr ∧ mr.Fits req ∧ scanDown mrs req.sz req.align top = .ok (i, mr.blockAt req) ∧
        ∀ j mr', mrs[j]? = some mr' → j ≤ top → mr'.Fits req → j ≤ i) ∨
      scanDown mrs req.sz req.align top = .error .outside ∧
        ∀ j mr, mrs[j]? = some mr → j ≤ top → ¬ mr.Fits req := by
  classical
  have here : mrs[top]? = some mrs[top] := List.getElem?_eq_getElem inside
  have scanned := scan_eq valid (below top _ here le_rfl)
  induction top with
  | zero =>
    rw [scanDown, load_of_lt inside, ok_bind]
    by_cases fits : mrs[0].Fits req
    · rw [if_pos fits] at scanned
      rw [scanned]
      exact Or.inl ⟨0, mrs[0], here, fits, rfl, fun j _ _ bound _ => bound⟩
    · rw [if_neg fits] at scanned
      rw [scanned]
      refine Or.inr ⟨rfl, ?_⟩
      intro j mr present bound
      obtain rfl : j = 0 := Nat.le_zero.mp bound
      rw [here] at present
      exact Option.some.inj present ▸ fits
  | succ top ih =>
    rw [scanDown, load_of_lt inside, ok_bind]
    by_cases fits : mrs[top + 1].Fits req
    · rw [if_pos fits] at scanned
      rw [scanned]
      exact Or.inl ⟨top + 1, mrs[top + 1], here, fits, rfl, fun j _ _ bound _ => bound⟩
    · rw [if_neg fits] at scanned
      rw [scanned]
      have inside' : top < mrs.length := by omega
      have here' : mrs[top]? = some mrs[top] := List.getElem?_eq_getElem inside'
      have skip : ∀ {j mr}, mrs[j]? = some mr → j ≤ top + 1 → mr.Fits req → j ≤ top := by
        intro j mr present bound held
        by_contra beyond
        obtain rfl : j = top + 1 := by omega
        rw [here] at present
        exact fits (Option.some.inj present ▸ held)
      rcases ih inside' (fun j mr present bound => below j mr present (by omega)) here'
          (scan_eq valid (below top _ here' (by omega))) with
        ⟨i, mr, present, held, found, last⟩ | ⟨left, none⟩
      · refine Or.inl ⟨i, mr, present, held, found, ?_⟩
        intro j mr' present' bound held'
        exact last j mr' present' (skip present' bound held') held'
      · refine Or.inr ⟨left, ?_⟩
        intro j mr present bound held
        exact none j mr present (skip present bound held) held

end

/-! ## The call -/

/-- A split at the block's address needs a new entry unless the block starts its range. -/
theorem splitRange_total {m : MemMap} {i a : ℕ} {mr : MemRange} (below above : ℕ) (present : m.ranges[i]? = some mr)
    (inside : a < mr.stop) (bounded : mr.stop ≤ 2 ^ 32) :
    (mr.start = a ∨ m.ranges.length < m.maxRanges) ∧ (∃ m', splitRange m i a below above = .ok m') ∨
      ¬ (mr.start = a ∨ m.ranges.length < m.maxRanges) ∧ splitRange m i a below above = .error .hlt := by
  have noEnd : Word.add 64 mr.start mr.len ≠ a := by
    rw [Word.add_of_lt (by simp only [MemRange.stop] at bounded; omega)]
    exact inside.ne'
  rw [splitRange, load_eq_ok.mpr present, ok_bind]
  by_cases atStart : mr.start = a
  · rw [if_pos atStart]
    exact Or.inl ⟨Or.inl atStart, _, rfl⟩
  · rw [if_neg atStart, if_neg noEnd]
    by_cases full : m.maxRanges ≤ m.ranges.length
    · rw [if_pos full]
      exact Or.inr ⟨not_or.mpr ⟨atStart, not_lt.mpr full⟩, rfl⟩
    · rw [if_neg full]
      exact Or.inl ⟨Or.inr (not_le.mp full), _, rfl⟩

/-- The highest of the ranges that fit. -/
structure HighestFit (mrs : List MemRange) (req : AllocReq) (mr : MemRange) : Prop where
  member : mr ∈ mrs
  fits : mr.Fits req
  highest : ∀ other ∈ mrs, other.Fits req → other.start ≤ mr.start

/-- The ways a call can end: in the highest range that fits, if there is one, or else by halting when no
entry is below the limit, and outside the table when one is. -/
theorem memAlloc_cases {m : MemMap} {req : AllocReq} (table : TableOk m.ranges) (nonempty : m.ranges ≠ [])
    (small : m.ranges.length ≤ 2 ^ 31) (valid : req.Valid) :
    (∃ mr, HighestFit m.ranges req mr ∧
        ((mr.start = mr.blockAt req ∨ m.ranges.length < m.maxRanges) ∧
            (∃ m', memAlloc m req.sz req.align req.maxAddr = .ok (mr.blockAt req, m')) ∨
          ¬ (mr.start = mr.blockAt req ∨ m.ranges.length < m.maxRanges) ∧
            memAlloc m req.sz req.align req.maxAddr = .error .hlt)) ∨
      (∀ mr ∈ m.ranges, ¬ mr.Fits req) ∧
        ((allocLimit req.maxAddr < req.sz ∨ ∀ mr ∈ m.ranges, allocLimit req.maxAddr < mr.stop) ∧
            memAlloc m req.sz req.align req.maxAddr = .error .hlt ∨
          ¬ (allocLimit req.maxAddr < req.sz ∨ ∀ mr ∈ m.ranges, allocLimit req.maxAddr < mr.stop) ∧
            memAlloc m req.sz req.align req.maxAddr = .error .outside) := by
  rw [memAlloc, if_neg valid.positive.ne']
  by_cases tooLarge : allocLimit req.maxAddr < req.sz
  · refine Or.inr ⟨?_, Or.inl ⟨Or.inl tooLarge, if_pos tooLarge⟩⟩
    rintro mr _ ⟨_, below, a, _, _, inside⟩
    omega
  rw [if_neg tooLarge]
  rcases findHighestRangeBelow_spec table nonempty small (allocLimit_pos req.maxAddr)
      ((allocLimit_le valid.limit).trans_lt (by decide)) with ⟨top, high, searched, atTop, under, last⟩ | ⟨halted, above⟩
  · rw [searched, ok_bind]
    have insideTop := (List.getElem?_eq_some_iff.mp atTop).1
    have below : ∀ j mr, m.ranges[j]? = some mr → j ≤ top → mr.stop ≤ allocLimit req.maxAddr :=
      fun j mr present bound => (table.stop_mono present atTop bound).trans under
    have someBelow : ¬ (allocLimit req.maxAddr < req.sz ∨ ∀ mr ∈ m.ranges, allocLimit req.maxAddr < mr.stop) :=
      not_or.mpr ⟨tooLarge, fun all => absurd under (not_le.mpr (all high (List.mem_of_getElem? atTop)))⟩
    rcases scanDown_spec valid insideTop below with ⟨i, mr, present, fits, scanned, best⟩ | ⟨left, none⟩
    · have highest : HighestFit m.ranges req mr := by
        refine ⟨List.mem_of_getElem? present, fits, ?_⟩
        intro other member held
        obtain ⟨j, bound, rfl⟩ := List.getElem_of_mem member
        have here := List.getElem?_eq_getElem bound
        have order := best j _ here (last j _ here held.2.1) held
        rcases Nat.lt_or_eq_of_le order with lower | rfl
        · obtain ⟨insideI, atI⟩ := List.getElem?_eq_some_iff.mp present
          have apart := List.pairwise_iff_getElem.mp table.ordered j i bound insideI lower
          rw [atI] at apart
          exact (Nat.le_add_right _ _).trans apart
        · rw [here] at present
          exact (congrArg MemRange.start (Option.some.inj present)).le
      refine Or.inl ⟨mr, highest, ?_⟩
      have held := fits.2.1
      have large := ((MemRange.fits_iff held).mp fits).2.1
      have start := Word.alignDown_le (mr.stop - req.sz) req.align
      have positive := valid.positive
      have inside : mr.blockAt req < mr.stop := by
        rw [MemRange.blockAt]
        simp only [MemRange.stop] at start ⊢
        omega
      rw [scanned, ok_bind]
      dsimp only
      rcases splitRange_total e820Ram e820Reserved present inside
          (held.trans (allocLimit_le valid.limit)) with ⟨room, m', split⟩ | ⟨full, split⟩
      · exact Or.inl ⟨room, m', by rw [split]; rfl⟩
      · exact Or.inr ⟨full, by rw [split]; rfl⟩
    · refine Or.inr ⟨?_, Or.inr ⟨someBelow, ?_⟩⟩
      · intro mr member held
        obtain ⟨j, bound, rfl⟩ := List.getElem_of_mem member
        have here := List.getElem?_eq_getElem bound
        exact none j _ here (last j _ here held.2.1) held
      · rw [left, error_bind]
  · rw [halted, error_bind]
    refine Or.inr ⟨?_, Or.inl ⟨Or.inr above, rfl⟩⟩
    intro mr member held
    exact absurd held.2.1 (not_le.mpr (above mr member))

end Biefircate
