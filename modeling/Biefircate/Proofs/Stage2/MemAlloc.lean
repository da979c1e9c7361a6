import Biefircate.Lib.Span
import Biefircate.Model.Stage2.MemMap

/-! # What one `mem_alloc` does

A successful allocation takes the top of one available range below the limit: the block and
whatever lies above it in that range become reserved, and nothing else changes. The facts about
the table and about single addresses follow from that alone.
-/

namespace Biefircate

/-- A range of addresses: it is not empty and does not run past the 64-bit address space. -/
structure MemRange.Valid (mr : MemRange) : Prop where
  nonempty : 0 < mr.len
  bounded : mr.start + mr.len ≤ 2 ^ 64

/-- A memory map that the search of `mem.c` can rely on. -/
structure TableOk (mrs : List MemRange) : Prop where
  valid : ∀ mr ∈ mrs, mr.Valid
  ordered : Span.Ordered MemRange.start MemRange.stop mrs

/-- An actual size, a power of two, and 32-bit values throughout. -/
structure AllocReq.Valid (req : AllocReq) : Prop where
  positive : 0 < req.sz
  size : req.sz < 2 ^ 32
  pow : ∃ k < 32, req.align = 2 ^ k
  limit : req.maxAddr < 2 ^ 32

theorem allocLimit_pos (maxAddr : ℕ) : 0 < allocLimit maxAddr := by
  unfold allocLimit xm32MaxAddr
  split <;> omega

theorem allocLimit_le {maxAddr : ℕ} (fits : maxAddr < 2 ^ 32) : allocLimit maxAddr ≤ 2 ^ 32 := by
  unfold allocLimit xm32MaxAddr
  split <;> omega

/-! ## The search and the scan -/

theorem MemRange.Valid.endsAbove_iff {mr : MemRange} (valid : mr.Valid) {maxAddr : ℕ}
    (positive : 0 < maxAddr) (fits : maxAddr < 2 ^ 64) : mr.EndsAbove maxAddr ↔ maxAddr < mr.stop := by
  have nonempty := valid.nonempty
  rw [MemRange.EndsAbove, Word.sub_one_add (by omega) valid.bounded,
    Word.sub_of_le positive fits, MemRange.stop]
  omega

theorem backOff_ok {mrs : List MemRange} {maxAddr left i : ℕ} (ran : backOff mrs maxAddr left = .ok i) :
    i ≤ left ∧ ∃ mr, mrs[i]? = some mr ∧ ¬ mr.EndsAbove maxAddr := by
  induction left with
  | zero =>
    obtain ⟨mr, loaded, ran⟩ := bind_eq_ok.mp ran
    obtain ⟨below, same⟩ := ite_error_eq_ok.mp ran
    cases same
    exact ⟨le_rfl, mr, load_eq_ok.mp loaded, below⟩
  | succ left ih =>
    obtain ⟨mr, loaded, ran⟩ := bind_eq_ok.mp ran
    split at ran
    · obtain ⟨bound, found⟩ := ih ran
      exact ⟨by omega, found⟩
    · next below =>
      cases ran
      exact ⟨le_rfl, mr, load_eq_ok.mp loaded, below⟩

/-- The search returns an entry of the table that ends at or below the limit. -/
theorem findHighestRangeBelow_ok {mrs : List MemRange} {maxAddr i : ℕ}
    (ran : findHighestRangeBelow mrs maxAddr = .ok i) :
    ∃ mr, mrs[i]? = some mr ∧ ¬ mr.EndsAbove maxAddr := by
  obtain ⟨left, _, ran⟩ := bind_eq_ok.mp ran
  exact (backOff_ok ran).2

theorem scan_eq_take {mr : MemRange} {sz align a : ℕ} (taken : scan mr sz align = .take a) :
    mr.e820Type = e820Ram ∧ sz ≤ mr.len ∧ mr.start ≤ a ∧
      a = (Word.sub 32 (Word.add 64 mr.start mr.len % 2 ^ 32) sz &&& Word.mask 32 align) := by
  unfold scan at taken
  dsimp only at taken
  split at taken
  · cases taken
  · next usable =>
    simp only [not_or, not_not, not_lt] at usable
    split at taken
    · next above =>
      cases taken
      exact ⟨usable.1, usable.2, above, rfl⟩
    · split at taken <;> cases taken

/-- On any table, the block lies inside the entry it is taken from. -/
theorem scan_inside {mr : MemRange} {sz align a : ℕ} (fits : sz < 2 ^ 32)
    (taken : scan mr sz align = .take a) : mr.start ≤ a ∧ a + sz ≤ mr.stop := by
  obtain ⟨_, large, above, formula⟩ := scan_eq_take taken
  have rounded := Word.and_mask_le 32 align (Word.sub 32 (Word.add 64 mr.start mr.len % 2 ^ 32) sz)
  rw [← formula, Word.sub, Word.add] at rounded
  rw [MemRange.stop]
  omega

theorem scanDown_ok {mrs : List MemRange} {sz align top i a : ℕ}
    (ran : scanDown mrs sz align top = .ok (i, a)) :
    i ≤ top ∧ ∃ mr, mrs[i]? = some mr ∧ scan mr sz align = .take a := by
  induction top with
  | zero =>
    obtain ⟨mr, loaded, ran⟩ := bind_eq_ok.mp ran
    split at ran
    · next taken =>
      cases ran
      exact ⟨le_rfl, mr, load_eq_ok.mp loaded, taken⟩
    · cases ran
    · cases ran
  | succ top ih =>
    obtain ⟨mr, loaded, ran⟩ := bind_eq_ok.mp ran
    split at ran
    · next taken =>
      cases ran
      exact ⟨le_rfl, mr, load_eq_ok.mp loaded, taken⟩
    · cases ran
    · obtain ⟨bound, found⟩ := ih ran
      exact ⟨by omega, found⟩

/-- In a range that ends at or below 4 GiB, the block is the highest aligned one. At 4 GiB the end
wraps to zero as a pointer, and the subtraction wraps back. -/
theorem blockAddr_eq {mr : MemRange} {sz align k : ℕ} (pow : align = 2 ^ k) (narrow : k < 32)
    (below : mr.stop ≤ 2 ^ 32) (positive : 0 < sz) (fits : sz ≤ mr.len) :
    (Word.sub 32 (Word.add 64 mr.start mr.len % 2 ^ 32) sz &&& Word.mask 32 align) =
      Word.alignDown (mr.stop - sz) align := by
  have wrapped : Word.sub 32 (Word.add 64 mr.start mr.len % 2 ^ 32) sz = mr.stop - sz := by
    simp only [MemRange.stop] at below ⊢
    rw [Word.add_of_lt (by omega), Word.sub]
    omega
  have small : mr.stop - sz < 2 ^ 32 := by omega
  rw [wrapped, Word.and_mask_eq pow (by omega) small]

/-! ## Splitting -/

/-- The entries that replace a range when the block at `a` is taken from its top. -/
def MemRange.carve (mr : MemRange) (a : ℕ) : List MemRange :=
  if mr.start = a then [{ mr with e820Type := e820Reserved }]
  else [{ mr with len := a - mr.start },
    { mr with start := a, len := mr.stop - a, e820Type := e820Reserved }]

/-- The three outcomes of `split_range`, on any table. -/
theorem splitRange_ok {m m' : MemMap} {i p below above : ℕ}
    (ran : splitRange m i p below above = .ok m') :
    ∃ before mr after, m.ranges = before ++ mr :: after ∧ before.length = i ∧
      m'.maxRanges = m.maxRanges ∧ m'.base = m.base ∧
      (mr.start = p ∧ m'.ranges = before ++ { mr with e820Type := above } :: after ∨
        mr.start ≠ p ∧ Word.add 64 mr.start mr.len = p ∧
          m'.ranges = before ++ { mr with e820Type := below } :: after ∨
        mr.start ≠ p ∧ Word.add 64 mr.start mr.len ≠ p ∧ m.ranges.length < m.maxRanges ∧
          m'.ranges = before ++
            { mr with len := Word.sub 64 p mr.start, e820Type := below } ::
            { mr with start := p, len := Word.sub 64 mr.len (Word.sub 64 p mr.start),
                      e820Type := above } :: after) := by
  obtain ⟨mr, loaded, ran⟩ := bind_eq_ok.mp ran
  obtain ⟨inside, at_i⟩ := List.getElem?_eq_some_iff.mp (load_eq_ok.mp loaded)
  have cut : m.ranges = m.ranges.take i ++ mr :: m.ranges.drop (i + 1) := by
    rw [← at_i, List.getElem_cons_drop, List.take_append_drop]
  have size : (m.ranges.take i).length = i := by rw [List.length_take]; omega
  refine ⟨m.ranges.take i, mr, m.ranges.drop (i + 1), cut, size, ?_⟩
  have set (mr' : MemRange) : m.ranges.set i mr' = m.ranges.take i ++ mr' :: m.ranges.drop (i + 1) := by
    rw [List.set_eq_take_append_cons_drop, if_pos inside]
  split at ran
  · next atStart =>
    cases ran
    exact ⟨rfl, rfl, Or.inl ⟨atStart, set _⟩⟩
  · next off =>
    split at ran
    · next atEnd =>
      cases ran
      exact ⟨rfl, rfl, Or.inr (Or.inl ⟨off, atEnd, set _⟩)⟩
    · next inner =>
      obtain ⟨room, ran⟩ := ite_error_eq_ok.mp ran
      cases ran
      refine ⟨rfl, rfl, Or.inr (Or.inr ⟨off, inner, by omega, ?_⟩)⟩
      have shifted : m.ranges.take (i + 1) ++ m.ranges.drop i =
          m.ranges.take i ++ mr :: mr :: m.ranges.drop (i + 1) := by
        rw [List.take_succ_eq_append_getElem inside, at_i, List.drop_eq_getElem_cons inside, at_i,
          List.append_assoc, List.singleton_append]
      simp only [shifted, List.set_append, size, Nat.lt_irrefl, if_false, Nat.sub_self,
        List.set_cons_zero, Nat.add_sub_cancel_left, List.set_cons_succ,
        show ¬ i + 1 < i by omega]

/-- The pieces of a carved range stay inside it, in order. -/
theorem MemRange.carve_ordered {mr : MemRange} {a : ℕ} (above : mr.start ≤ a) (below : a ≤ mr.stop) :
    Span.Ordered MemRange.start MemRange.stop (mr.carve a) ∧
      ∀ piece ∈ mr.carve a, mr.start ≤ piece.start ∧ piece.stop ≤ mr.stop := by
  unfold MemRange.carve
  split
  · simp [Span.Ordered, MemRange.stop]
  · simp only [Span.Ordered, List.pairwise_cons, List.mem_cons, List.not_mem_nil, or_false,
      forall_eq, List.Pairwise.nil, and_true, false_imp_iff, implies_true, forall_eq_or_imp]
    simp only [MemRange.stop] at below ⊢
    omega

theorem MemRange.Valid.carve {mr : MemRange} (valid : mr.Valid) {a : ℕ} (above : mr.start ≤ a)
    (below : a < mr.stop) : ∀ piece ∈ mr.carve a, piece.Valid := by
  have nonempty := valid.nonempty
  have bounded := valid.bounded
  unfold MemRange.carve
  simp only [MemRange.stop] at below ⊢
  split
  · intro piece member
    obtain rfl := List.mem_singleton.mp member
    exact ⟨nonempty, bounded⟩
  · intro piece member
    simp only [List.mem_cons, List.not_mem_nil, or_false] at member
    rcases member with rfl | rfl
    · exact ⟨by simp only; omega, by simp only; omega⟩
    · exact ⟨by simp only; omega, by simp only; omega⟩

/-! ## Allocation -/

/-- The block at `a` lies at the top of the available range `mr`, as the request asks. -/
structure Placed (req : AllocReq) (mr : MemRange) (a : ℕ) : Prop where
  ram : mr.e820Type = e820Ram
  above : mr.start ≤ a
  inside : a + req.sz ≤ mr.stop
  below : mr.stop ≤ allocLimit req.maxAddr
  highest : a = Word.alignDown (mr.stop - req.sz) req.align

theorem Placed.aligned {req : AllocReq} {mr : MemRange} {a : ℕ} (placed : Placed req mr a) :
    req.align ∣ a := by
  rw [placed.highest]
  exact Word.dvd_alignDown _ _

/-- On any table, a call that returns ran its search, its scan and its split. -/
theorem memAlloc_parts {m m' : MemMap} {sz align maxAddr a : ℕ} (positive : sz ≠ 0)
    (ran : memAlloc m sz align maxAddr = .ok (a, m')) :
    ∃ top i mr, findHighestRangeBelow m.ranges (allocLimit maxAddr) = .ok top ∧ i ≤ top ∧
      m.ranges[i]? = some mr ∧ scan mr sz align = .take a ∧
      splitRange m i a e820Ram e820Reserved = .ok m' := by
  rw [memAlloc, if_neg positive] at ran
  obtain ⟨_, ran⟩ := ite_error_eq_ok.mp ran
  obtain ⟨top, searched, ran⟩ := bind_eq_ok.mp ran
  obtain ⟨⟨i, astart⟩, scanned, ran⟩ := bind_eq_ok.mp ran
  obtain ⟨split, cut, same⟩ := bind_eq_ok.mp ran
  cases same
  obtain ⟨bound, mr, present, taken⟩ := scanDown_ok scanned
  exact ⟨top, i, mr, searched, bound, present, taken, cut⟩

/-- Everything a successful allocation does to a well-formed map. -/
theorem memAlloc_ok {m m' : MemMap} {req : AllocReq} {a : ℕ} (table : TableOk m.ranges)
    (valid : req.Valid) (ran : memAlloc m req.sz req.align req.maxAddr = .ok (a, m')) :
    ∃ before mr after, m.ranges = before ++ mr :: after ∧ Placed req mr a ∧
      m'.ranges = before ++ (mr.carve a ++ after) ∧ m'.maxRanges = m.maxRanges ∧ m'.base = m.base ∧
      (mr.start = a ∨ m.ranges.length < m.maxRanges) := by
  obtain ⟨top, i, mr, searched, bound, present, taken, cut⟩ := memAlloc_parts valid.positive.ne' ran
  obtain ⟨before, mr', after, ranges, size, capacity, base, outcome⟩ := splitRange_ok cut
  obtain rfl : mr' = mr := by
    rw [ranges, ← size, List.getElem?_append_right le_rfl, Nat.sub_self] at present
    exact Option.some.inj present
  obtain ⟨highest, atTop, below⟩ := findHighestRangeBelow_ok searched
  have member : mr' ∈ m.ranges := List.mem_of_getElem? present
  have mrValid := table.valid mr' member
  have limitPos := allocLimit_pos req.maxAddr
  have limitLe := allocLimit_le valid.limit
  have highestBelow : highest.stop ≤ allocLimit req.maxAddr := by
    rw [(table.valid highest (List.mem_of_getElem? atTop)).endsAbove_iff limitPos (limitLe.trans_lt (by decide))] at below
    omega
  have stopLe : mr'.stop ≤ allocLimit req.maxAddr := by
    rcases Nat.lt_or_eq_of_le bound with lower | same
    · obtain ⟨insideI, atI⟩ := List.getElem?_eq_some_iff.mp present
      obtain ⟨insideTop, atTop'⟩ := List.getElem?_eq_some_iff.mp atTop
      have apart := List.pairwise_iff_getElem.mp table.ordered i top insideI insideTop lower
      rw [atI, atTop'] at apart
      exact (apart.trans (Nat.le_add_right _ _)).trans highestBelow
    · rw [same, atTop] at present
      exact Option.some.inj present ▸ highestBelow
  obtain ⟨ram, fits, startLe, formula⟩ := scan_eq_take taken
  obtain ⟨k, narrow, pow⟩ := valid.pow
  rw [blockAddr_eq pow narrow (stopLe.trans limitLe) valid.positive fits] at formula
  have rounded := Word.alignDown_le (mr'.stop - req.sz) req.align
  have len := mrValid.nonempty
  have positive := valid.positive
  have stopEq : mr'.stop = mr'.start + mr'.len := rfl
  have placed : Placed req mr' a := ⟨ram, startLe, by omega, stopLe, formula⟩
  have noWrap : Word.add 64 mr'.start mr'.len = mr'.stop := by
    rw [Word.add_of_lt (by omega)]
    rfl
  refine ⟨before, mr', after, ranges, placed, ?_, capacity, base, ?_⟩
  · rcases outcome with ⟨atStart, out⟩ | ⟨_, atEnd, _⟩ | ⟨off, _, _, out⟩
    · rw [out, MemRange.carve, if_pos atStart]
      rfl
    · omega
    · rw [out, MemRange.carve, if_neg off, Word.sub_of_le startLe (by omega),
        Word.sub_of_le (by omega) (by omega), show mr'.len - (a - mr'.start) = mr'.stop - a by omega, ram]
      rfl
  · rcases outcome with ⟨atStart, _⟩ | ⟨_, atEnd, _⟩ | ⟨_, _, room, _⟩
    · exact Or.inl atStart
    · omega
    · exact Or.inr room

/-! ## Address by address -/

/-- The entry that describes an address. -/
def entryAt (mrs : List MemRange) (x : ℕ) : Option MemRange :=
  Span.find MemRange.start MemRange.stop mrs x

/-- The `e820_type` of an address, if the map covers it. -/
def typeAt (mrs : List MemRange) (x : ℕ) : Option ℕ := (entryAt mrs x).map MemRange.e820Type

/-- The `e820_ext_attr` and the `uefi_attr` of an address, if the map covers it. -/
def attrsAt (mrs : List MemRange) (x : ℕ) : Option (ℕ × ℕ) :=
  (entryAt mrs x).map fun mr => (mr.e820ExtAttr, mr.uefiAttr)

theorem TableOk.typeAt_of_mem {mrs : List MemRange} (table : TableOk mrs) {mr : MemRange} {x : ℕ}
    (member : mr ∈ mrs) (covers : Span.Covers MemRange.start MemRange.stop mr x) :
    typeAt mrs x = some mr.e820Type := by
  rw [typeAt, entryAt, (Span.find_eq_some_iff table.ordered.pairwise_apart).mpr ⟨member, covers⟩, Option.map_some]

/-- Carving keeps the addresses of a range and their attributes, and reserves those from `a` on. -/
theorem MemRange.carve_covers {mr : MemRange} {a x : ℕ} (above : mr.start ≤ a)
    (covers : Span.Covers MemRange.start MemRange.stop mr x) :
    ∃ piece ∈ mr.carve a, Span.Covers MemRange.start MemRange.stop piece x ∧
      piece.e820Type = (if a ≤ x then e820Reserved else mr.e820Type) ∧
      piece.e820ExtAttr = mr.e820ExtAttr ∧ piece.uefiAttr = mr.uefiAttr := by
  obtain ⟨low, high⟩ := covers
  unfold MemRange.carve
  split
  · next atStart => exact ⟨_, List.mem_singleton_self _, ⟨low, high⟩, (if_pos (by omega)).symm, rfl, rfl⟩
  · rcases Nat.lt_or_ge x a with lower | upper
    · refine ⟨_, List.mem_cons_self .., ⟨low, ?_⟩, (if_neg (by omega)).symm, rfl, rfl⟩
      simp only [MemRange.stop]
      omega
    · refine ⟨_, List.mem_cons_of_mem _ (List.mem_singleton_self _), ⟨upper, ?_⟩, (if_pos upper).symm,
        rfl, rfl⟩
      simp only [MemRange.stop] at high ⊢
      omega

variable {before after : List MemRange} {mr : MemRange} {a : ℕ}

/-- Away from the carved range nothing changes; within it, some piece describes the address. -/
private theorem entryAt_carve (apart : (before ++ mr :: after).Pairwise (Span.Apart MemRange.start MemRange.stop))
    (above : mr.start ≤ a) (below : a ≤ mr.stop) (x : ℕ) :
    ¬ Span.Covers MemRange.start MemRange.stop mr x ∧
        entryAt (before ++ (mr.carve a ++ after)) x = entryAt (before ++ mr :: after) x ∨
      Span.Covers MemRange.start MemRange.stop mr x ∧ entryAt (before ++ mr :: after) x = some mr ∧
        ∃ piece, entryAt (before ++ (mr.carve a ++ after)) x = some piece ∧
          piece.e820Type = (if a ≤ x then e820Reserved else mr.e820Type) ∧
          piece.e820ExtAttr = mr.e820ExtAttr ∧ piece.uefiAttr = mr.uefiAttr := by
  obtain ⟨cut, inside⟩ := MemRange.carve_ordered above below
  by_cases covers : Span.Covers MemRange.start MemRange.stop mr x
  · obtain ⟨piece, member, piece_covers, type, attrs⟩ := MemRange.carve_covers above covers
    exact Or.inr ⟨covers, (Span.find_eq_some_iff apart).mpr ⟨by simp, covers⟩, piece,
      Span.find_replace_of_covers apart cut.pairwise_apart inside member piece_covers, type, attrs⟩
  · exact Or.inl ⟨covers, Span.find_replace_of_not_covers apart cut.pairwise_apart inside covers⟩

/-- Carving changes the type of the addresses from the block to the end of its range. -/
theorem typeAt_carve (apart : (before ++ mr :: after).Pairwise (Span.Apart MemRange.start MemRange.stop))
    (above : mr.start ≤ a) (below : a ≤ mr.stop) (x : ℕ) :
    typeAt (before ++ (mr.carve a ++ after)) x =
      if a ≤ x ∧ x < mr.stop then some e820Reserved else typeAt (before ++ mr :: after) x := by
  rcases entryAt_carve apart above below x with ⟨outside, same⟩ | ⟨covers, found, piece, now, type, _⟩
  · rw [typeAt, typeAt, same, if_neg]
    exact fun ⟨low, high⟩ => outside ⟨above.trans low, high⟩
  · rw [typeAt, typeAt, now, found, Option.map_some, Option.map_some, type]
    by_cases upper : a ≤ x
    · rw [if_pos upper, if_pos ⟨upper, covers.2⟩]
    · rw [if_neg upper, if_neg (fun both => upper both.1)]

/-- It changes neither the covered addresses nor their attributes. -/
theorem attrsAt_carve (apart : (before ++ mr :: after).Pairwise (Span.Apart MemRange.start MemRange.stop))
    (above : mr.start ≤ a) (below : a ≤ mr.stop) (x : ℕ) :
    attrsAt (before ++ (mr.carve a ++ after)) x = attrsAt (before ++ mr :: after) x := by
  rcases entryAt_carve apart above below x with ⟨_, same⟩ | ⟨_, found, piece, now, _, ext, uefi⟩
  · rw [attrsAt, attrsAt, same]
  · rw [attrsAt, attrsAt, now, found, Option.map_some, Option.map_some, ext, uefi]

end Biefircate
