import Biefircate.Proofs.Stage2.VaBlocks

/-! # Blocks given back in any order

Wherever `mem_va_unmap` puts a block, the unused ranges have the pages of the block in addition, and share
none. Nothing here depends on the order of the ranges.
-/

namespace Biefircate

/-! ## The unused ranges -/

/-- The ranges have in addition the pages from `q` on, `n` of them. -/
structure GivenBack (q n : ℕ) (unused unused' : List VaRange) : Prop where
  ranges : ∀ vr ∈ unused', vr.Ok
  apart : unused'.Pairwise fun vr vr' => ∀ page, vr.HasPage page → ¬ vr'.HasPage page
  pages : ∀ page, (∃ vr ∈ unused', vr.HasPage page) ↔ (∃ vr ∈ unused, vr.HasPage page) ∨ q ≤ page ∧ page < q + n

/-- The range is that of the pages from `a` on, `l` of them. -/
structure VaRange.Spans (vr : VaRange) (a l : ℕ) : Prop where
  start : vr.start = a * 2 ^ 12
  len : vr.len = l * 2 ^ 12

theorem VaRange.Spans.ok {vr : VaRange} {a l : ℕ} (spans : vr.Spans a l) (low : 256 ≤ a) (high : a + l ≤ 2 ^ 20) :
    vr.Ok := by
  obtain ⟨start, len⟩ := spans
  refine ⟨start ▸ Nat.dvd_mul_left .., len ▸ Nat.dvd_mul_left .., ?_, ?_⟩
  · rw [bmemMaxAddr]
    omega
  · rw [VaRange.stop]
    omega

theorem VaRange.Spans.hasPage_iff {vr : VaRange} {a l page : ℕ} (spans : vr.Spans a l) :
    vr.HasPage page ↔ a ≤ page ∧ page < a + l := by
  obtain ⟨start, len⟩ := spans
  rw [VaRange.HasPage, VaRange.stop]
  omega

/-- Each range is one of pages. -/
theorem VaRange.Ok.spans {vr : VaRange} (ok : vr.Ok) : ∃ a l, vr.Spans a l ∧ 256 ≤ a ∧ a + l ≤ 2 ^ 20 := by
  obtain ⟨⟨a, start⟩, ⟨l, len⟩, low, high⟩ := ok
  rw [bmemMaxAddr] at low
  rw [VaRange.stop] at high
  exact ⟨a, l, ⟨start.trans (Nat.mul_comm ..), len.trans (Nat.mul_comm ..)⟩, by omega, by omega⟩

/-- A list has a last element without a property, unless all elements have it. -/
theorem exists_last_not {α : Type} (P : α → Prop) [DecidablePred P] (items : List α) :
    (∃ before a after, items = before ++ a :: after ∧ ¬ P a ∧ ∀ b ∈ after, P b) ∨ ∀ a ∈ items, P a := by
  induction items with
  | nil => exact Or.inr (by simp)
  | cons a rest ih =>
    rcases ih with ⟨before, b, after, rfl, last, above⟩ | all
    · exact Or.inl ⟨a :: before, b, after, rfl, last, above⟩
    · by_cases here : P a
      · exact Or.inr (List.forall_mem_cons.mpr ⟨here, all⟩)
      · exact Or.inl ⟨[], a, rest, rfl, here, all⟩

section

variable {q n maxUnused : ℕ} {before after unused unused' : List VaRange} {vr new : VaRange}

/-- A range that grows by the block. -/
theorem GivenBack.grow (ranges : ∀ other ∈ before ++ vr :: after, other.Ok)
    (apart : (before ++ vr :: after).Pairwise fun vr vr' => ∀ page, vr.HasPage page → ¬ vr'.HasPage page)
    (clear : ∀ other ∈ before ++ vr :: after, ∀ page, q ≤ page ∧ page < q + n → ¬ other.HasPage page) (ok : new.Ok)
    (has : ∀ page, new.HasPage page ↔ vr.HasPage page ∨ q ≤ page ∧ page < q + n) :
    GivenBack q n (before ++ vr :: after) (before ++ new :: after) := by
  obtain ⟨first, tail, cross⟩ := List.pairwise_append.mp apart
  obtain ⟨later, rest⟩ := List.pairwise_cons.mp tail
  refine ⟨?_, List.pairwise_append.mpr ⟨first, List.pairwise_cons.mpr ⟨?_, rest⟩, ?_⟩, fun page => ?_⟩
  · intro other member
    simp only [List.mem_append, List.mem_cons] at member
    rcases member with early | rfl | late
    · exact ranges other (by simp [early])
    · exact ok
    · exact ranges other (by simp [late])
  · intro other late page inside
    rcases (has page).mp inside with was | block
    · exact later other late page was
    · exact clear other (by simp [late]) page block
  · intro other early high member page inside
    rcases List.mem_cons.mp member with rfl | late
    · intro again
      rcases (has page).mp again with was | block
      · exact cross other early vr (List.mem_cons_self ..) page inside was
      · exact clear other (by simp [early]) page block inside
    · exact cross other early high (List.mem_cons_of_mem _ late) page inside
  · simp only [List.mem_append, List.mem_cons, or_and_right, exists_or, exists_eq_left, has]
    exact (or_congr_right or_right_comm).trans or_assoc.symm

/-- A range of its own for the block. -/
theorem GivenBack.insert (ranges : ∀ other ∈ before ++ after, other.Ok)
    (apart : (before ++ after).Pairwise fun vr vr' => ∀ page, vr.HasPage page → ¬ vr'.HasPage page)
    (clear : ∀ other ∈ before ++ after, ∀ page, q ≤ page ∧ page < q + n → ¬ other.HasPage page) (ok : new.Ok)
    (has : ∀ page, new.HasPage page ↔ q ≤ page ∧ page < q + n) :
    GivenBack q n (before ++ after) (before ++ new :: after) := by
  obtain ⟨first, rest, cross⟩ := List.pairwise_append.mp apart
  refine ⟨?_, List.pairwise_append.mpr ⟨first, List.pairwise_cons.mpr ⟨?_, rest⟩, ?_⟩, fun page => ?_⟩
  · intro other member
    simp only [List.mem_append, List.mem_cons] at member
    rcases member with early | rfl | late
    · exact ranges other (by simp [early])
    · exact ok
    · exact ranges other (by simp [late])
  · exact fun other late page inside => clear other (by simp [late]) page ((has page).mp inside)
  · intro other early high member page inside
    rcases List.mem_cons.mp member with rfl | late
    · exact fun again => clear other (by simp [early]) page ((has page).mp again) inside
    · exact cross other early high late page inside
  · simp only [List.mem_append, List.mem_cons, or_and_right, exists_or, exists_eq_left, has]
    exact or_assoc.symm.trans or_right_comm

theorem pages_mod (fits : n < 2 ^ 20) : n * 2 ^ 12 % 2 ^ 32 = n * 2 ^ 12 := by omega

/-- Wherever the block is put, its pages are unused. -/
theorem putBack_ok (ranges : ∀ other ∈ before ++ vr :: after, other.Ok)
    (apart : (before ++ vr :: after).Pairwise fun vr vr' => ∀ page, vr.HasPage page → ¬ vr'.HasPage page)
    (clear : ∀ other ∈ before ++ vr :: after, ∀ page, q ≤ page ∧ page < q + n → ¬ other.HasPage page)
    (low : 256 ≤ q) (high : q + n ≤ 2 ^ 20)
    (ran : putBack maxUnused (q * 2 ^ 12) ((q + n) * 2 ^ 12 % 2 ^ 32) (n * 2 ^ 12) before vr after = .ok unused') :
    GivenBack q n (before ++ vr :: after) unused' := by
  obtain ⟨a, l, spans, base, top⟩ := (ranges vr (by simp)).spans
  rw [putBack, spans.start, spans.len, add_pages, add_pages] at ran
  split at ran
  · next meets =>
    cases ran
    have grown : (l + n) * 2 ^ 12 % 2 ^ 32 = (l + n) * 2 ^ 12 := pages_mod (by omega)
    have new : VaRange.Spans ⟨q * 2 ^ 12, (l + n) * 2 ^ 12 % 2 ^ 32⟩ q (l + n) := ⟨rfl, grown⟩
    refine .grow ranges apart clear (new.ok low (by omega)) fun page => ?_
    rw [new.hasPage_iff, spans.hasPage_iff]
    omega
  · split at ran
    · next meets =>
      cases ran
      have joins : a + l = q := by omega
      have grown : (l + n) * 2 ^ 12 % 2 ^ 32 = (l + n) * 2 ^ 12 := pages_mod (by omega)
      have new : VaRange.Spans ⟨a * 2 ^ 12, (l + n) * 2 ^ 12 % 2 ^ 32⟩ a (l + n) := ⟨rfl, grown⟩
      refine .grow ranges apart clear (new.ok base (by omega)) fun page => ?_
      rw [new.hasPage_iff, spans.hasPage_iff]
      omega
    · split at ran
      · cases ran
      · cases ran
        have new : VaRange.Spans ⟨q * 2 ^ 12, n * 2 ^ 12⟩ q n := ⟨rfl, rfl⟩
        have cut : before ++ vr :: after = (before ++ [vr]) ++ after := by simp
        rw [cut] at ranges apart clear
        have own := GivenBack.insert ranges apart clear (new.ok low high) fun page => new.hasPage_iff
        rwa [List.append_assoc, List.append_assoc, List.singleton_append, List.singleton_append] at own

/-- The loop of `mem_va_unmap` makes the pages of the block unused. -/
theorem giveBack_ok (ranges : ∀ other ∈ unused, other.Ok)
    (apart : unused.Pairwise fun vr vr' => ∀ page, vr.HasPage page → ¬ vr'.HasPage page)
    (clear : ∀ other ∈ unused, ∀ page, q ≤ page ∧ page < q + n → ¬ other.HasPage page)
    (low : 256 ≤ q) (high : q + n ≤ 2 ^ 20)
    (ran : giveBack unused maxUnused (q * 2 ^ 12) ((q + n) * 2 ^ 12 % 2 ^ 32) (n * 2 ^ 12) unused.length = .ok unused') :
    GivenBack q n unused unused' := by
  rcases exists_last_not (VaRange.Passed (q * 2 ^ 12) ((q + n) * 2 ^ 12 % 2 ^ 32)) unused with
    ⟨before, vr, after, rfl, reached, above⟩ | above
  · rw [giveBack_eq _ _ reached above] at ran
    exact putBack_ok ranges apart clear low high ran
  · rw [giveBack_none _ _ above] at ran
    cases ran

/-- Either the block goes to a range that it touches, or to a new entry. -/
theorem putBack_length {maxUnused vstart vend size : ℕ} {before after unused : List VaRange} {vr : VaRange}
    (ran : putBack maxUnused vstart vend size before vr after = .ok unused) :
    unused.length = (before ++ vr :: after).length ∧ (vr.start = vend ∨ Word.add 32 vr.start vr.len = vstart) ∨
      unused.length = (before ++ vr :: after).length + 1 := by
  unfold putBack at ran
  split at ran
  · next meets =>
    cases ran
    exact Or.inl ⟨by simp, Or.inl meets⟩
  · split at ran
    · next meets =>
      cases ran
      exact Or.inl ⟨by simp, Or.inr meets⟩
    · obtain ⟨_, ran⟩ := ite_error_eq_ok.mp ran
      cases ran
      exact Or.inr (by simp only [List.length_append, List.length_cons]; omega)

theorem giveBack_length {unused unused' : List VaRange} {maxUnused vstart vend size : ℕ}
    (ran : giveBack unused maxUnused vstart vend size unused.length = .ok unused') :
    unused'.length = unused.length ∧ (∃ vr ∈ unused, vr.start = vend ∨ Word.add 32 vr.start vr.len = vstart) ∨
      unused'.length = unused.length + 1 := by
  rcases exists_last_not (VaRange.Passed vstart vend) unused with ⟨before, vr, after, rfl, reached, above⟩ | above
  · rw [giveBack_eq _ _ reached above] at ran
    exact (putBack_length ran).imp_left fun ⟨same, meets⟩ => ⟨same, vr, by simp, meets⟩
  · rw [giveBack_none _ _ above] at ran
    cases ran

end

/-! ## Unmapping -/

/-- The pages from `q` on, `n` of them, were unmapped and given back. -/
structure Va.UnmappedTo (q n : ℕ) (s t : Va) : Prop where
  unmapped : Unmapped q n s.paging t.paging
  given : GivenBack q n s.unused t.unused
  room : t.maxUnused = s.maxUnused

section

variable {s t : Va} {q n va sz page : ℕ}

/-- Whenever `mem_va_unmap` returns, the pages of the block are blank and unused. -/
theorem memVaUnmap_ok (ok : s.Ok) (nonzero : sz ≠ 0) (block : va / 2 ^ 12 = q)
    (pages : (va % 2 ^ 12 + sz + 4095) / 2 ^ 12 = n) (low : 256 ≤ q) (high : q + n ≤ 2 ^ 20) (whole : Whole s.paging q n)
    (clear : ∀ page, q ≤ page ∧ page < q + n → ¬ s.HasUnused page) (ran : memVaUnmap s va sz = .ok t) :
    s.UnmappedTo q n t := by
  obtain ⟨p', unmap, unmapped⟩ := doVaUnmap_total ok.paging rfl rfl high whole
  rw [memVaUnmap_eq s nonzero block pages high (by omega) (by omega), unmap, ok_bind] at ran
  obtain ⟨unused, given, ran⟩ := bind_eq_ok.mp ran
  cases ran
  exact ⟨unmapped, giveBack_ok ok.ranges ok.apart (fun other member page inside has => clear page inside ⟨other, member, has⟩)
    low high given, rfl⟩

theorem Va.UnmappedTo.hasUnused_iff (unmappedTo : s.UnmappedTo q n t) :
    t.HasUnused page ↔ s.HasUnused page ∨ q ≤ page ∧ page < q + n := unmappedTo.given.pages page

/-- Virtual memory stays in order. -/
theorem Va.UnmappedTo.ok (ok : s.Ok) (whole : Whole s.paging q n) (unmappedTo : s.UnmappedTo q n t) : t.Ok := by
  have small : ∀ {page}, t.HasUnused page → page < 2 ^ 20 := by
    rintro page ⟨vr, member, has⟩
    have high := (unmappedTo.given.ranges vr member).high
    have below := has.2
    omega
  refine ⟨unmappedTo.unmapped.ok, unmappedTo.given.ranges, unmappedTo.given.apart, ?_, ?_⟩
  · intro page unused
    rw [unmappedTo.unmapped.ptes page (small unused)]
    split
    · rfl
    · next outside =>
      exact ok.blank page ((unmappedTo.hasUnused_iff.mp unused).resolve_right outside)
  · intro page unused
    have low : page / 512 < 2048 := by
      have bound := small unused
      omega
    rcases unmappedTo.unmapped.slots (page / 512) low with same | ⟨_, zero⟩
    · rcases unmappedTo.hasUnused_iff.mp unused with was | ⟨above, below⟩
      · rw [same]
        exact ok.whole page was
      · by_contra large
        have within := large
        rw [same] at within
        exact large (unmappedTo.unmapped.not_large low (whole page above below within))
    · rw [zero, Nat.zero_and]

end

/-! ## Blocks -/

/-- A page that the block meets. -/
def VaBlock.HasPage (b : VaBlock) (page : ℕ) : Prop :=
  b.sz ≠ 0 ∧ b.va < (page + 1) * 2 ^ 12 ∧ page * 2 ^ 12 < b.va + b.sz

/-- The first page of a block. -/
def VaBlock.first (b : VaBlock) : ℕ := b.va / 2 ^ 12

/-- How many pages a block has. -/
def VaBlock.count (b : VaBlock) : ℕ := (b.va % 2 ^ 12 + b.sz + 4095) / 2 ^ 12

/-- The pages of the block are mapped to what was asked for, and no large page sticks out of them. -/
structure VaBlock.MappedIn (b : VaBlock) (p : Paging) : Prop where
  offset : b.va % 2 ^ 12 = b.pa % 2 ^ 12
  low : 256 ≤ b.first
  high : b.first + b.count ≤ 2 ^ 20
  fits : b.pa + b.sz ≤ 2 ^ 52
  cache : CacheFlags b.pteFlags
  ptes : ∀ page, b.first ≤ page → page < b.first + b.count →
    p.pteOf page = smallEntry ((b.pa / 2 ^ 12 + (page - b.first)) % 2 ^ 52) b.pteFlags
  whole : Whole p b.first b.count

section

variable {s t : Va} {b : VaBlock} {flags q f n page : ℕ}

theorem VaBlock.hasPage_iff : b.HasPage page ↔ b.sz ≠ 0 ∧ b.first ≤ page ∧ page < b.first + b.count := by
  rw [VaBlock.HasPage, VaBlock.first, VaBlock.count]
  omega

theorem VaBlock.count_pos {b : VaBlock} (nonzero : b.sz ≠ 0) : 0 < b.count := by
  rw [VaBlock.count]
  omega

/-- `mem_va_unmap` of a block. -/
theorem memVaUnmap_block (s : Va) {b : VaBlock} (nonzero : b.sz ≠ 0) (low : 256 ≤ b.first) (high : b.first + b.count ≤ 2 ^ 20) :
    memVaUnmap s b.va b.sz = doVaUnmap s.paging (b.first * 2 ^ 12) (b.count * 2 ^ 12) >>= fun paging =>
      giveBack s.unused s.maxUnused (b.first * 2 ^ 12) ((b.first + b.count) * 2 ^ 12 % 2 ^ 32) (b.count * 2 ^ 12)
        s.unused.length >>= fun unused => .ok { s with paging := paging, unused := unused } := by
  have few : b.count < 2 ^ 20 := by omega
  exact memVaUnmap_eq s nonzero rfl rfl high (VaBlock.count_pos nonzero) few

/-- The bytes of the block translate to those that were asked for. -/
theorem VaBlock.MappedIn.translate {p : Paging} (ok : p.Ok) (mapped : b.MappedIn p) {k : ℕ} (inside : k < b.sz) :
    b.va + k < 2 ^ 32 ∧ p.translate (b.va + k) = some ⟨b.pa + k, true, b.pteFlags⟩ := by
  have offset := mapped.offset
  have high := mapped.high
  have fits := mapped.fits
  have entry := mapped.ptes ((b.va + k) / 2 ^ 12)
  rw [VaBlock.first, VaBlock.count] at high entry
  have small : b.va + k < 2 ^ 32 := by omega
  have phys : (b.pa / 2 ^ 12 + ((b.va + k) / 2 ^ 12 - b.va / 2 ^ 12)) % 2 ^ 52 % 2 ^ 40 * 2 ^ 12 + (b.va + k) % 2 ^ 12 =
      b.pa + k := by omega
  refine ⟨small, ?_⟩
  rw [translate_eq ok small, entry (by omega) (by omega), pteTranslation_smallEntry_mod mapped.cache, phys]

/-- Mapping other pages leaves the block as it is. -/
theorem VaBlock.MappedIn.map (ok : s.Ok) (mapped : b.MappedIn s.paging) (mappedTo : s.MappedTo flags q f n t)
    (apart : ∀ page, b.first ≤ page → page < b.first + b.count → ¬ (q ≤ page ∧ page < q + n)) : b.MappedIn t.paging where
  offset := mapped.offset
  low := mapped.low
  high := mapped.high
  fits := mapped.fits
  cache := mapped.cache
  ptes page low high := by
    have top := mapped.high
    rw [mappedTo.mapped.ptes page (by omega), if_neg (apart page low high), mapped.ptes page low high]
  whole page low high large := by
    have small : page < 2 ^ 20 := high.trans_le mapped.high
    rcases mappedTo.large ok small large with ⟨same, _⟩ | inside
    · rw [same] at large
      exact mapped.whole page low high large
    · exact absurd (by omega) (apart page low high)

/-- Unmapping other pages leaves the block as it is. -/
theorem VaBlock.MappedIn.unmap (mapped : b.MappedIn s.paging) (unmappedTo : s.UnmappedTo q n t)
    (apart : ∀ page, b.first ≤ page → page < b.first + b.count → ¬ (q ≤ page ∧ page < q + n)) : b.MappedIn t.paging where
  offset := mapped.offset
  low := mapped.low
  high := mapped.high
  fits := mapped.fits
  cache := mapped.cache
  ptes page low high := by
    have top := mapped.high
    rw [unmappedTo.unmapped.ptes page (by omega), if_neg (apart page low high), mapped.ptes page low high]
  whole page low high large := by
    have top := mapped.high
    rcases unmappedTo.unmapped.slots (page / 512) (by omega) with same | ⟨_, zero⟩
    · rw [same] at large
      exact mapped.whole page low high large
    · rw [zero] at large
      exact absurd (Nat.zero_and _) large

end

/-! ## Runs -/

/-- What holds throughout a run that starts with `start`. -/
structure VaRun.Inv (start : Va) (s : VaRun) : Prop where
  ok : s.va.Ok
  cover : ∀ page, start.HasUnused page ↔ s.va.HasUnused page ∨ ∃ b ∈ s.live, b.HasPage page
  clear : ∀ b ∈ s.live, ∀ page, b.HasPage page → ¬ s.va.HasUnused page
  apart : s.live.Pairwise fun b b' => ∀ page, b.HasPage page → ¬ b'.HasPage page
  mapped : ∀ b ∈ s.live, b.sz ≠ 0 → b.MappedIn s.va.paging

/-- The types of a call's arguments. -/
def VaEvent.Valid : VaEvent → Prop
  | .map pa sz pteFlags => pa + sz ≤ 2 ^ 52 ∧ sz < 2 ^ 32 ∧ CacheFlags pteFlags
  | .unmap _ => True

instance : DecidablePred VaEvent.Valid
  | .map .. => inferInstanceAs (Decidable (_ ∧ _))
  | .unmap _ => inferInstanceAs (Decidable True)

section

variable {start : Va} {s t : VaRun} {pa sz flags i : ℕ}

/-- A call of `mem_va_map` that maps nothing. -/
theorem VaRun.Inv.map_zero (inv : s.Inv start) : VaRun.Inv start ⟨s.va, s.live ++ [⟨0, pa, 0, flags⟩]⟩ := by
  have empty : ∀ page, ¬ VaBlock.HasPage ⟨0, pa, 0, flags⟩ page := fun page has => has.1 rfl
  refine ⟨inv.ok, fun page => ?_, ?_, ?_, ?_⟩
  · rw [inv.cover]
    simp only [List.mem_append, List.mem_singleton, or_and_right, exists_or, exists_eq_left, empty, or_false]
  · intro b member page has
    rcases List.mem_append.mp member with was | new
    · exact inv.clear b was page has
    · rw [List.mem_singleton.mp new] at has
      exact absurd has (empty page)
  · refine List.pairwise_append.mpr ⟨inv.apart, List.pairwise_singleton .., fun b _ b' new page _ => ?_⟩
    rw [List.mem_singleton.mp new]
    exact empty page
  · intro b member nonzero
    rcases List.mem_append.mp member with was | new
    · exact inv.mapped b was nonzero
    · rw [List.mem_singleton.mp new] at nonzero
      exact absurd rfl nonzero

/-- A call of `mem_va_map`. -/
theorem VaRun.Inv.map (inv : s.Inv start) (fits : pa + sz ≤ 2 ^ 52) (typed : sz < 2 ^ 32) (cache : CacheFlags flags)
    (stepped : s.step (.map pa sz flags) = .ok t) : t.Inv start := by
  obtain ⟨⟨va, after⟩, ran, done⟩ := bind_eq_ok.mp stepped
  cases done
  by_cases zero : sz = 0
  · rw [memVaMap, if_pos zero] at ran
    cases ran
    subst zero
    exact inv.map_zero
  obtain ⟨q, offset, mappedTo⟩ := memVaMap_ok inv.ok (by omega) typed zero cache ran
  have first : VaBlock.first ⟨va, pa, sz, flags⟩ = q := show va / 2 ^ 12 = q by omega
  have same : va % 2 ^ 12 = pa % 2 ^ 12 := by omega
  have count : VaBlock.count ⟨va, pa, sz, flags⟩ = (pa % 2 ^ 12 + sz + 4095) / 2 ^ 12 := by rw [VaBlock.count, same]
  rw [← first, ← count] at mappedTo
  have pages : ∀ page, VaBlock.HasPage ⟨va, pa, sz, flags⟩ page ↔
      VaBlock.first ⟨va, pa, sz, flags⟩ ≤ page ∧
        page < VaBlock.first ⟨va, pa, sz, flags⟩ + VaBlock.count ⟨va, pa, sz, flags⟩ :=
    fun page => VaBlock.hasPage_iff.trans (and_iff_right zero)
  have new : VaBlock.MappedIn ⟨va, pa, sz, flags⟩ after.paging := by
    refine ⟨same, mappedTo.low, mappedTo.high, fits, cache, fun page low high => ?_, ?_⟩
    · rw [mappedTo.mapped.ptes page (high.trans_le mappedTo.high), if_pos ⟨low, high⟩]
    · exact mappedTo.whole inv.ok (.refl (mappedTo.ok inv.ok))
  have fresh : ∀ b ∈ s.live, ∀ page, b.HasPage page → ¬ VaBlock.HasPage ⟨va, pa, sz, flags⟩ page :=
    fun b member page has inside => inv.clear b member page has (mappedTo.unused ((pages page).mp inside))
  refine ⟨mappedTo.ok inv.ok, fun page => ?_, ?_, ?_, ?_⟩
  · rw [inv.cover, mappedTo.hasUnused_iff inv.ok, ← pages]
    simp only [List.mem_append, List.mem_singleton, or_and_right, exists_or, exists_eq_left]
    by_cases inside : VaBlock.HasPage ⟨va, pa, sz, flags⟩ page
    · simp [inside, mappedTo.unused ((pages page).mp inside)]
    · simp [inside]
  · intro b member page has unused
    obtain ⟨was, outside⟩ := (mappedTo.hasUnused_iff inv.ok).mp unused
    rcases List.mem_append.mp member with old | new
    · exact inv.clear b old page has was
    · rw [List.mem_singleton.mp new] at has
      exact outside ((pages page).mp has)
  · refine List.pairwise_append.mpr ⟨inv.apart, List.pairwise_singleton .., fun b old b' new => ?_⟩
    rw [List.mem_singleton.mp new]
    exact fresh b old
  · intro b member nonzero
    rcases List.mem_append.mp member with old | last
    · exact (inv.mapped b old nonzero).map inv.ok mappedTo fun page low high inside =>
        fresh b old page (VaBlock.hasPage_iff.mpr ⟨nonzero, low, high⟩) ((pages page).mpr inside)
    · rw [List.mem_singleton.mp last]
      exact new

/-- A call of `mem_va_unmap` for a live block. -/
theorem VaRun.Inv.unmap (inv : s.Inv start) (stepped : s.step (.unmap i) = .ok t) : t.Inv start := by
  obtain ⟨b, loaded, stepped⟩ := bind_eq_ok.mp stepped
  obtain ⟨after, ran, done⟩ := bind_eq_ok.mp stepped
  cases done
  obtain ⟨early, late, live, rfl⟩ := split_of_load loaded
  have member : b ∈ s.live := by rw [live]; simp
  have erased : s.live.eraseIdx early.length = early ++ late := by
    rw [live, List.eraseIdx_append_of_length_le le_rfl, Nat.sub_self, List.eraseIdx_cons_zero]
  rw [erased]
  have still : ∀ other ∈ early ++ late, other ∈ s.live := by
    rw [live]
    exact fun other rest => List.mem_append.mpr ((List.mem_append.mp rest).imp_right (List.mem_cons_of_mem _))
  have split : ∀ page, (∃ other ∈ s.live, other.HasPage page) ↔
      b.HasPage page ∨ ∃ other ∈ early ++ late, other.HasPage page := by
    intro page
    simp only [live, List.mem_append, List.mem_cons, or_and_right, exists_or, exists_eq_left]
    exact or_left_comm
  have apart := inv.apart
  rw [live] at apart
  have rest : (early ++ late).Pairwise fun b b' => ∀ page, b.HasPage page → ¬ b'.HasPage page :=
    apart.sublist (List.Sublist.append_left (List.sublist_cons_self ..) _)
  have others : ∀ other ∈ early ++ late, ∀ page, b.HasPage page → ¬ other.HasPage page := by
    obtain ⟨_, tail, cross⟩ := List.pairwise_append.mp apart
    intro other here page has
    rcases List.mem_append.mp here with before | behind
    · exact fun again => cross other before b (List.mem_cons_self ..) page again has
    · exact (List.pairwise_cons.mp tail).1 other behind page has
  by_cases zero : b.sz = 0
  · rw [memVaUnmap, if_pos zero] at ran
    cases ran
    have empty : ∀ page, ¬ b.HasPage page := fun page has => has.1 zero
    refine ⟨inv.ok, fun page => ?_, fun other here => inv.clear other (still other here), rest, fun other here =>
      inv.mapped other (still other here)⟩
    rw [inv.cover, split]
    simp only [empty, false_or]
  have mapped := inv.mapped b member zero
  have pages : ∀ page, b.HasPage page ↔ b.first ≤ page ∧ page < b.first + b.count :=
    fun page => VaBlock.hasPage_iff.trans (and_iff_right zero)
  have unmappedTo : s.va.UnmappedTo b.first b.count after := memVaUnmap_ok inv.ok zero rfl rfl mapped.low mapped.high mapped.whole
    (fun page inside => inv.clear b member page ((pages page).mpr inside)) ran
  refine ⟨unmappedTo.ok inv.ok mapped.whole, fun page => ?_, ?_, rest, ?_⟩
  · rw [inv.cover, split, unmappedTo.hasUnused_iff, ← pages, or_assoc]
  · intro other here page has unused
    rcases unmappedTo.hasUnused_iff.mp unused with was | inside
    · exact inv.clear other (still other here) page has was
    · exact others other here page ((pages page).mpr inside) has
  · intro other here nonzero
    exact (inv.mapped other (still other here) nonzero).unmap unmappedTo fun page low high inside =>
      others other here page ((pages page).mpr inside) (VaBlock.hasPage_iff.mpr ⟨nonzero, low, high⟩)

/-- The invariant holds throughout every run. -/
theorem VaRun.Inv.run {events : List VaEvent} (inv : s.Inv start) (valid : ∀ event ∈ events, event.Valid)
    (ran : Run.run VaRun.step s events = .ok t) : t.Inv start := by
  refine Run.run_invariant (VaRun.Inv start) (fun u event v member held stepped => ?_) inv ran
  cases event with
  | map pa sz flags =>
    obtain ⟨fits, typed, cache⟩ := valid _ member
    exact held.map fits typed cache stepped
  | unmap i => exact held.unmap stepped

theorem VaRun.Inv.init {s : Va} (ok : s.Ok) : VaRun.Inv s ⟨s, []⟩ :=
  ⟨ok, by simp, by simp, List.Pairwise.nil, by simp⟩

end

end Biefircate
