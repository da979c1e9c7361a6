import Biefircate.Proofs.Stage2.PageDirs
import Biefircate.Proofs.Stage2.FindUnused
import Mathlib.Data.List.NodupEquivFin
import Mathlib.Data.List.TakeWhile
import Mathlib.Order.WellFounded

/-! # Remapping the ranges that are not to be cached

The loop of `va_init` goes up an array that grows under it: a page table takes its page from an entry
anywhere, and the entries above move up. It never passes over an address that it still has to deal with, as
the starts of entries are never lost.
-/

namespace Biefircate

/-- The flags that the map calls for at an address, where an entry covers it. -/
def flagsAt (mrs : List MemRange) (x : ℕ) : Option ℕ :=
  (attrsAt mrs x).map fun attrs => uefiAttrToPteFlags attrs.2

theorem uefiAttrToPteFlags_cache (uefiAttr : ℕ) : CacheFlags (uefiAttrToPteFlags uefiAttr) := by
  unfold uefiAttrToPteFlags
  split
  · decide
  · split <;> decide

section

variable {m m' : MemMap} {mrs : List MemRange} {mr : MemRange} {x flags : ℕ}

theorem SameAttrs.flagsAt {mrs' : List MemRange} (same : SameAttrs mrs mrs') (x : ℕ) :
    flagsAt mrs' x = flagsAt mrs x := by
  rw [Biefircate.flagsAt, Biefircate.flagsAt, same.attrs]

theorem MemMap.Grown.flagsAt (grown : m.Grown m') (x : ℕ) : flagsAt m'.ranges x = flagsAt m.ranges x := by
  rw [Biefircate.flagsAt, Biefircate.flagsAt, grown.attrs]

theorem Entries.flagsAt_eq_some_iff (entries : Entries mrs) : flagsAt mrs x = some flags ↔
    ∃ mr ∈ mrs, (mr.start ≤ x ∧ x < mr.stop) ∧ uefiAttrToPteFlags mr.uefiAttr = flags := by
  rw [flagsAt, Option.map_eq_some_iff]
  constructor
  · rintro ⟨attrs, found, rfl⟩
    obtain ⟨mr, member, covers, rfl⟩ := entries.attrsAt_eq_some_iff.mp found
    exact ⟨mr, member, covers, rfl⟩
  · rintro ⟨mr, member, covers, rfl⟩
    exact ⟨_, entries.attrsAt_eq_some_iff.mpr ⟨mr, member, covers, rfl⟩, rfl⟩

/-! ## The span of an entry -/

/-- Below 4 GiB the span has exactly the pages that the entry meets. -/
theorem remapSpan_eq (valid : mr.Valid) (low : mr.start < 2 ^ 32) (fits : 2 ^ 12 ≤ mr.start ∨ mr.stop ≤ 2 ^ 32 - 2 ^ 12) :
    ∃ q n, remapSpan mr = (q * 2 ^ 12, n * 2 ^ 12) ∧ q + n ≤ 2 ^ 20 ∧
      ∀ page < 2 ^ 20, (q ≤ page ∧ page < q + n) ↔ mr.Meets page := by
  have nonempty := valid.nonempty
  have stop : mr.stop = mr.start + mr.len := rfl
  have start : mr.start % 2 ^ 32 = mr.start := Nat.mod_eq_of_lt low
  have len : (if xm32MaxAddr - mr.start ≤ mr.len then Word.sub 32 0 mr.start else mr.len % 2 ^ 32) =
      min (2 ^ 32) mr.stop - mr.start := by
    rw [xm32MaxAddr, Word.sub]
    split <;> omega
  have rounded : (if mr.start % pageSize ≠ 0 then (mr.start &&& Word.mask 32 pageSize,
        Word.add 32 (min (2 ^ 32) mr.stop - mr.start) (mr.start % pageSize))
      else (mr.start, min (2 ^ 32) mr.stop - mr.start)) =
      (mr.start / 2 ^ 12 * 2 ^ 12, min (2 ^ 32) mr.stop - mr.start / 2 ^ 12 * 2 ^ 12) := by
    have page : pageSize = 2 ^ 12 := rfl
    rw [Word.and_mask_eq page (by decide) low, Word.alignDown, page]
    split
    · have first : mr.start - mr.start % 2 ^ 12 = mr.start / 2 ^ 12 * 2 ^ 12 := by omega
      rw [Word.add_of_lt (by omega), first]
      congr 1
      omega
    · have first : mr.start = mr.start / 2 ^ 12 * 2 ^ 12 := by omega
      rw [← first]
  unfold remapSpan
  dsimp only
  rw [start, len, rounded]
  dsimp only
  generalize total : min (2 ^ 32) mr.stop - mr.start / 2 ^ 12 * 2 ^ 12 = size
  have up : (if size % pageSize ≠ 0 then Word.sub 32 (Word.add 32 size pageSize) 1 &&& Word.mask 32 pageSize
      else size) = (size + 4095) / 2 ^ 12 * 2 ^ 12 := by
    split
    · next ragged =>
      rw [pageSize] at ragged
      rw [Word.add_sub_one_and_mask_eq (a := pageSize) (k := 12) rfl (by decide) (by rw [pageSize]; omega),
        Word.alignUp, Word.alignDown, pageSize]
      omega
    · next whole =>
      rw [pageSize] at whole
      omega
  rw [up]
  refine ⟨_, _, rfl, by omega, ?_⟩
  intro page inside
  rw [MemRange.Meets]
  omega

end

/-! ## The loop -/

/-- The page has the flags that the map calls for at one of its addresses, other than none. -/
def Remapped (mrs : List MemRange) (p : Paging) (page : ℕ) : Prop :=
  ∃ x flags, x / 2 ^ 12 = page ∧ flagsAt mrs x = some flags ∧ flags ≠ 0 ∧ p.pteOf page = smallEntry page flags

/-- The loop has come to entry `i`: it has dealt with every address below the entries that remain, and has
changed no page without reason. -/
structure RemapInv (p₀ p : Paging) (i : ℕ) : Prop where
  ok : p.Ok
  held : p₀.Held → p.Held
  grown : p₀.map.Grown p.map
  high : ∃ mr ∈ p.map.ranges, 2 ^ 12 ≤ mr.start ∧ mr.start ≤ 2 ^ 32 - 2 ^ 12
  kept : ∀ page < 2 ^ 20, p.pteOf page = p₀.pteOf page ∨ Remapped p₀.map.ranges p page
  done : ∀ x < 2 ^ 32, ∀ flags, flagsAt p₀.map.ranges x = some flags → flags ≠ 0 →
    (∀ e ∈ p.map.ranges.drop i, x < e.start) → Remapped p₀.map.ranges p (x / 2 ^ 12)

section

variable {p₀ p p' : Paging} {i x flags : ℕ} {mr e : MemRange}

theorem RemapInv.start (ok : p.Ok) (map : p.map.Ok)
    (high : ∃ mr ∈ p.map.ranges, 2 ^ 12 ≤ mr.start ∧ mr.start ≤ 2 ^ 32 - 2 ^ 12) : RemapInv p p 0 := by
  refine ⟨ok, id, .refl map, high, fun page _ => Or.inl rfl, ?_⟩
  intro x _ flags found _ below
  obtain ⟨mr, member, covers, _⟩ := map.table.entries.flagsAt_eq_some_iff.mp found
  exact absurd (below mr member) (not_lt.mpr covers.1)

/-- The entry that covers an address is the one the loop has come to, unless the address lies below that
entry or a later entry starts at or below the address. -/
theorem TableOk.covered_from {mrs : List MemRange} (table : TableOk mrs) (present : mrs[i]? = some mr)
    (member : e ∈ mrs) (covers : e.start ≤ x ∧ x < e.stop) :
    x < mr.start ∨ e = mr ∨ e ∈ mrs.drop (i + 1) ∧ mr.start < e.start := by
  obtain ⟨before, after, rfl, length⟩ := split_of_load (load_eq_ok.mpr present)
  obtain ⟨_, upper, cross⟩ := List.pairwise_append.mp table.ordered
  have nonempty := (table.valid mr (by simp)).nonempty
  rcases List.mem_append.mp member with early | late
  · have stops := cross e early mr (List.mem_cons_self ..)
    exact Or.inl (covers.2.trans_le stops)
  · rcases List.mem_cons.mp late with same | later
    · exact Or.inr (Or.inl same)
    · have starts : mr.start + mr.len ≤ e.start := (List.pairwise_cons.mp upper).1 e later
      refine Or.inr (Or.inr ⟨?_, by omega⟩)
      rw [← length, List.drop_append, List.drop_eq_nil_of_le (Nat.le_succ _), Nat.add_sub_cancel_left,
        List.drop_one, List.tail_cons, List.nil_append]
      exact later

/-- An address below an entry is below all that follow. -/
theorem TableOk.below_drop {mrs : List MemRange} (table : TableOk mrs) (present : mrs[i]? = some mr)
    (below : x < mr.start) : ∀ e ∈ mrs.drop i, x < e.start := by
  obtain ⟨before, after, rfl, rfl⟩ := split_of_load (load_eq_ok.mpr present)
  obtain ⟨_, upper, _⟩ := List.pairwise_append.mp table.ordered
  rw [List.drop_left]
  refine List.forall_mem_cons.mpr ⟨below, fun e later => ?_⟩
  have starts : mr.start + mr.len ≤ e.start := (List.pairwise_cons.mp upper).1 e later
  omega

/-- Passing over an entry that is to be cached or lies above 4 GiB. -/
theorem RemapInv.skip (inv : RemapInv p₀ p i) (present : p.map.ranges[i]? = some mr)
    (nothing : uefiAttrToPteFlags mr.uefiAttr = 0 ∨ 2 ^ 32 ≤ mr.start) : RemapInv p₀ p (i + 1) := by
  have table := inv.grown.ok.table
  refine ⟨inv.ok, inv.held, inv.grown, inv.high, inv.kept, ?_⟩
  intro x small flags found nonzero below
  obtain ⟨e, member, covers, same⟩ := table.entries.flagsAt_eq_some_iff.mp (inv.grown.flagsAt x ▸ found)
  rcases table.covered_from present member covers with under | rfl | ⟨later, _⟩
  · exact inv.done x small flags found nonzero (table.below_drop present under)
  · rcases nothing with cached | above
    · exact absurd (same.symm.trans cached) nonzero
    · have low := covers.1
      omega
  · exact absurd (below e later) (not_lt.mpr covers.1)

/-- The entries before place `i` start below an entry that was in place `i` before the map grew. -/
theorem MemMap.Grown.start_lt_of_mem_take {m m' : MemMap} (grown : m.Grown m') (present : m.ranges[i]? = some mr)
    (member : e ∈ m'.ranges.take i) : e.start < mr.start := by
  obtain ⟨embed, same⟩ := List.sublist_iff_exists_orderEmbedding_getElem?_eq.mp grown.starts
  have moved : (m'.ranges.map MemRange.start)[embed i]? = some mr.start := by
    rw [← same, List.getElem?_map, present, Option.map_some]
  have later : i ≤ embed i := embed.strictMono.le_apply
  rw [List.getElem?_map, Option.map_eq_some_iff] at moved
  obtain ⟨mr', present', start⟩ := moved
  obtain ⟨before, after, ranges, length⟩ := split_of_load (load_eq_ok.mpr present')
  have ordered := grown.ok.table.ordered
  have valid := grown.ok.table.valid
  rw [ranges] at ordered valid member
  have early : e ∈ before := by
    rw [List.take_append_of_le_length (by omega)] at member
    exact List.mem_of_mem_take member
  have stops : e.start + e.len ≤ mr'.start := (List.pairwise_append.mp ordered).2.2 e early mr' (List.mem_cons_self ..)
  have nonempty := (valid e (List.mem_append_left _ early)).nonempty
  omega

/-- Entries that start above the one just remapped are not passed over. -/
theorem MemMap.Grown.mem_drop_passed {m m' : MemMap} (grown : m.Grown m') (present : m.ranges[i]? = some mr)
    (member : e ∈ m'.ranges) (above : mr.start < e.start) :
    e ∈ m'.ranges.drop (i + ((m'.ranges.drop i).takeWhile fun other => decide (other.start ≤ mr.start)).length) := by
  have split : e ∈ m'.ranges.take i ++ m'.ranges.drop i := by rwa [List.take_append_drop]
  rw [← List.drop_drop]
  rcases List.mem_append.mp split with early | late
  · exact absurd (grown.start_lt_of_mem_take present early) (not_lt.mpr above.le)
  · generalize m'.ranges.drop i = rest at late
    have whole : e ∈ (rest.takeWhile fun other => decide (other.start ≤ mr.start)) ++
        rest.dropWhile fun other => decide (other.start ≤ mr.start) := by
      rwa [List.takeWhile_append_dropWhile]
    rcases List.mem_append.mp whole with passed | stays
    · have under : e.start ≤ mr.start := by simpa using List.mem_takeWhile_imp passed
      omega
    · have cut : ∀ first second : List MemRange, first ++ second = rest → rest.drop first.length = second := by
        rintro first second rfl
        exact List.drop_left
      rwa [cut _ _ List.takeWhile_append_dropWhile]

/-- Remapping an entry, with the page tables that takes. -/
theorem RemapInv.remap {q n : ℕ} (inv : RemapInv p₀ p i) (present : p.map.ranges[i]? = some mr)
    (nonzero : uefiAttrToPteFlags mr.uefiAttr ≠ 0)
    (pages : ∀ page < 2 ^ 20, (q ≤ page ∧ page < q + n) ↔ mr.Meets page)
    (mapped : Mapped (uefiAttrToPteFlags mr.uefiAttr) q q n p p') :
    RemapInv p₀ p' (i + ((p'.map.ranges.drop i).takeWhile fun other => decide (other.start ≤ mr.start)).length) := by
  obtain ⟨as, allocs⟩ := mapped.allocs
  have grown := (allocs.fresh inv.grown.ok).1
  have table := inv.grown.ok.table
  have member : mr ∈ p.map.ranges := List.mem_of_getElem? present
  -- Pages that meet the entry are as it wants them, and the others are as they were.
  have now : ∀ page < 2 ^ 20, mr.Meets page → Remapped p₀.map.ranges p' page := by
    intro page low meets
    obtain ⟨y, inside, covers⟩ := (table.valid mr member).meets_iff.mp meets
    refine ⟨y, _, by omega, ?_, nonzero, ?_⟩
    · rw [← inv.grown.flagsAt]
      exact table.entries.flagsAt_eq_some_iff.mpr ⟨mr, member, covers, rfl⟩
    · have within := (pages page low).mpr meets
      rw [mapped.ptes page low, if_pos within]
      congr 1
      omega
  have still : ∀ page < 2 ^ 20, ¬ mr.Meets page → p'.pteOf page = p.pteOf page := by
    intro page low misses
    rw [mapped.ptes page low, if_neg (mt (pages page low).mp misses)]
  have after : ∀ page < 2 ^ 20, Remapped p₀.map.ranges p page → Remapped p₀.map.ranges p' page := by
    intro page low was
    by_cases meets : mr.Meets page
    · exact now page low meets
    · obtain ⟨y, flags, inside, found, other, entry⟩ := was
      exact ⟨y, flags, inside, found, other, (still page low meets).trans entry⟩
  refine ⟨mapped.ok, fun was => mapped.held (inv.held was), inv.grown.trans grown, ?_, ?_, ?_⟩
  · obtain ⟨e, there, low, high⟩ := inv.high
    obtain ⟨e', there', start⟩ := List.mem_map.mp (grown.starts.subset (List.mem_map_of_mem there))
    exact ⟨e', there', start ▸ low, start ▸ high⟩
  · intro page low
    by_cases meets : mr.Meets page
    · exact Or.inr (now page low meets)
    · rw [still page low meets]
      exact (inv.kept page low).imp_right (after page low)
  · intro x small flags found other below
    obtain ⟨e, there, covers, _⟩ := table.entries.flagsAt_eq_some_iff.mp (inv.grown.flagsAt x ▸ found)
    rcases table.covered_from present there covers with under | rfl | ⟨_, above⟩
    · exact after _ (by omega) (inv.done x small flags found other (table.below_drop present under))
    · refine now _ (by omega) ((table.valid e there).meets_iff.mpr ⟨x, by omega, covers⟩)
    · obtain ⟨e', there', start⟩ := List.mem_map.mp (grown.starts.subset (List.mem_map_of_mem there))
      have later := below e' (grown.mem_drop_passed present there' (start ▸ above))
      have low := covers.1
      omega

/-- The loop moves on: the entry it remapped, or what is left of it, is still in place `i`. -/
theorem MemMap.Grown.passed_pos {m m' : MemMap} (grown : m.Grown m') (present : m.ranges[i]? = some mr) :
    0 < ((m'.ranges.drop i).takeWhile fun other => decide (other.start ≤ mr.start)).length := by
  have known : mr.start ∈ m.ranges.map MemRange.start := List.mem_map_of_mem (List.mem_of_getElem? present)
  obtain ⟨e, member, start⟩ := List.mem_map.mp (grown.starts.subset known)
  have split : e ∈ m'.ranges.take i ++ m'.ranges.drop i := by rwa [List.take_append_drop]
  have ordered := grown.ok.table.ordered.sublist (List.drop_sublist i m'.ranges)
  rcases List.mem_append.mp split with early | late
  · exact absurd (grown.start_lt_of_mem_take present early) (by omega)
  · cases rest : m'.ranges.drop i with
    | nil =>
      rw [rest] at late
      cases late
    | cons head tail =>
      rw [rest] at late ordered
      have low : head.start ≤ mr.start := by
        rcases List.mem_cons.mp late with rfl | later
        · exact start.le
        · have stops : head.start + head.len ≤ e.start := (List.pairwise_cons.mp ordered).1 e later
          omega
      rw [List.takeWhile_cons, if_pos (decide_eq_true low)]
      exact Nat.succ_pos _

/-- The pages that the loop remaps for an entry. -/
theorem RemapInv.span (inv : RemapInv p₀ p i) (present : p.map.ranges[i]? = some mr) (low : mr.start < 2 ^ 32) :
    ∃ q n, remapSpan mr = (q * 2 ^ 12, n * 2 ^ 12) ∧ q + n ≤ 2 ^ 20 ∧
      ∀ page < 2 ^ 20, (q ≤ page ∧ page < q + n) ↔ mr.Meets page := by
  have table := inv.grown.ok.table
  have member : mr ∈ p.map.ranges := List.mem_of_getElem? present
  apply remapSpan_eq (table.valid mr member) low
  obtain ⟨e, there, above, below⟩ := inv.high
  by_contra neither
  have start : Span.Covers MemRange.start MemRange.stop e e.start :=
    ⟨le_rfl, Nat.lt_add_of_pos_right (table.valid e there).nonempty⟩
  have covers : Span.Covers MemRange.start MemRange.stop mr e.start := ⟨by omega, by omega⟩
  have same := Span.eq_of_covers table.ordered.pairwise_apart member there covers start
  rw [same] at neither
  omega

/-- Whenever the loop ends, every page with an address that is not to be cached has the flags of such an
address, and the other pages are as they were. -/
theorem remapFrom_ok {fuel : ℕ} (inv : RemapInv p₀ p i) (ran : remapFrom fuel p i = .ok p') :
    p'.Ok ∧ (p₀.Held → p'.Held) ∧ p₀.map.Grown p'.map ∧
      (∀ page < 2 ^ 20, p'.pteOf page = p₀.pteOf page ∨ Remapped p₀.map.ranges p' page) ∧
      ∀ x < 2 ^ 32, ∀ flags, flagsAt p₀.map.ranges x = some flags → flags ≠ 0 →
        Remapped p₀.map.ranges p' (x / 2 ^ 12) := by
  induction fuel generalizing p i with
  | zero => cases ran
  | succ fuel ih =>
    rw [remapFrom] at ran
    by_cases inside : i < p.map.ranges.length
    · rw [if_pos inside] at ran
      obtain ⟨mr, loaded, ran⟩ := bind_eq_ok.mp ran
      have present := load_eq_ok.mp loaded
      by_cases nothing : uefiAttrToPteFlags mr.uefiAttr = 0 ∨ xm32MaxAddr ≤ mr.start
      · dsimp only at ran
        rw [if_pos nothing] at ran
        exact ih (inv.skip present nothing) ran
      · dsimp only at ran
        rw [if_neg nothing] at ran
        obtain ⟨nonzero, low⟩ := not_or.mp nothing
        rw [xm32MaxAddr, not_le] at low
        obtain ⟨q, n, span, bound, pages⟩ := inv.span present low
        rw [span] at ran
        obtain ⟨p1, mapped, ran⟩ := bind_eq_ok.mp ran
        have mapped := doVaMap_ok inv.ok rfl rfl rfl bound (by omega) (uefiAttrToPteFlags_cache _) mapped
        exact ih (inv.remap present nonzero pages mapped) ran
    · rw [if_neg inside] at ran
      cases ran
      refine ⟨inv.ok, inv.held, inv.grown, inv.kept, ?_⟩
      intro x small flags found nonzero
      apply inv.done x small flags found nonzero
      rw [List.drop_eq_nil_of_le (not_lt.mp inside)]
      exact fun e none => absurd none List.not_mem_nil

end

end Biefircate
