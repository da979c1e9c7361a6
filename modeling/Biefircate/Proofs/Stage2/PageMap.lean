import Biefircate.Proofs.Stage2.PageTable

/-! # What the mapping loops do

A round of `do_va_map` maps one page or one large page and leaves the rest as it was, so the loop maps
exactly the pages asked for, and only a slot that lies within them can become a large page. The loop of
`do_va_unmap` blanks the pages asked for as long as no large page sticks out of them.
-/

namespace Biefircate

/-! ## A page table for a slot -/

/-- A call of `mem_alloc` for a page ends so, after some that returned. -/
def PageAllocFails (m : MemMap) (stop : Stop) : Prop :=
  ∃ as m', PageAllocs m as m' ∧ memAlloc m' pageSize pageSize 0 = .error stop

theorem PageAllocs.fails {m m' : MemMap} {as : List ℕ} {stop : Stop} (allocs : PageAllocs m as m')
    (fails : PageAllocFails m' stop) : PageAllocFails m stop := by
  obtain ⟨bs, m'', later, failed⟩ := fails
  exact ⟨as ++ bs, m'', allocs.append later, failed⟩

section

variable {p p' : Paging} {d a : ℕ}

/-- What `ensure_pt` does: the slot has a page table, and says what it said before. -/
structure Ensured (p : Paging) (d : ℕ) (p' : Paging) (pt : ℕ) : Prop where
  refers : RefersTo (p'.slot d) pt
  ok : p'.Ok
  allocs : ∃ as, PageAllocs p.map as p'.map
  pdpt : p'.pdpt = p.pdpt
  held : p.Held → p'.Held
  ptes : ∀ page < 2 ^ 20, p'.pteOf page = p.pteOf page
  others : ∀ e < 2048, e ≠ d → p'.slot e = p.slot e
  kept : IsTable (p.slot d) → p' = p

theorem ensured_of_table (ok : p.Ok) {pt : ℕ} (refers : RefersTo (p.slot d) pt) :
    ensurePt p (p.slotAddr d) = .ok (pt * 2 ^ 12, p) ∧ Ensured p d p pt := by
  obtain ⟨nonzero, clear⟩ := IsTable.tests ⟨pt, refers⟩
  have place := refers.ptOf
  refine ⟨?_, refers, ok, ⟨[], .nil _⟩, rfl, id, fun _ _ => rfl, fun _ _ _ => rfl, fun _ => rfl⟩
  rw [Paging.slot] at nonzero clear place
  rw [ensurePt]
  dsimp only
  rw [if_pos nonzero, if_pos clear, place]

/-- Where there is no page table, `ensure_pt` makes one of a page it allocates. -/
theorem ensurePt_of_big (big : BigOk (p.slot d)) : ∃ entries, (∀ i < 512, entries i = bigPte (p.slot d) i) ∧
    ensurePt p (p.slotAddr d) = memAlloc p.map pageSize pageSize 0 >>= fun (a, map) =>
      .ok (a, Paging.setWord { p with map := map, words := fillPage p.words a entries } (p.slotAddr d)
        (a ||| pteP ||| pteRw ||| pteUs)) := by
  by_cases zero : p.slot d = 0
  · refine ⟨fun _ => 0, ?_, ?_⟩
    · intro i _
      rw [bigPte, if_pos zero]
    · rw [Paging.slot] at zero
      rw [ensurePt]
      dsimp only
      rw [if_neg (not_not.mpr zero)]
      rfl
  · have set := big.replaceable.resolve_left zero
    refine ⟨fun i => ((p.slot d &&& (2 ^ 64 - 1 - pdePs)) + i * pageSize) % 2 ^ 64, ?_, ?_⟩
    · intro i inside
      rw [bigPte, if_neg zero, Nat.mod_eq_of_lt inside]
    · rw [Paging.slot] at zero set ⊢
      rw [ensurePt]
      dsimp only
      rw [if_pos zero, if_neg set]
      rfl

/-- A page that `mem_alloc` has is made the page table. -/
theorem ensurePt_of_alloc {map : MemMap} (ok : p.Ok) (below : d < 2048) (big : BigOk (p.slot d))
    (allocated : memAlloc p.map pageSize pageSize 0 = .ok (a, map)) :
    ∃ pt p', ensurePt p (p.slotAddr d) = .ok (pt * 2 ^ 12, p') ∧ Ensured p d p' pt ∧ p'.map = map := by
  obtain ⟨entries, same, made⟩ := ensurePt_of_big big
  obtain ⟨pt, small, rfl⟩ := memAlloc_page allocated
  obtain ⟨ok', slots, held, ptes⟩ := ok.withTable below big small allocated same
  refine ⟨pt, p.withTable d pt map entries, ?_, ⟨?_, ok', ⟨_, .single allocated⟩, rfl, held, ptes, ?_,
    fun table => absurd table big.not_table⟩, rfl⟩
  · rw [made, allocated, ok_bind, Paging.withTable, ← tableEntry_eq rfl]
  · rw [slots d below, if_pos rfl]
    exact refersTo_tableEntry small
  · intro e low other
    rw [slots e low, if_neg other]

/-- Without a page for it there is no page table. -/
theorem ensurePt_of_fail {stop : Stop} (big : BigOk (p.slot d)) (failed : memAlloc p.map pageSize pageSize 0 = .error stop) :
    ensurePt p (p.slotAddr d) = .error stop := by
  obtain ⟨entries, _, made⟩ := ensurePt_of_big big
  rw [made, failed, error_bind]

/-- Either `ensure_pt` does what it should, or it needs a page and `mem_alloc` has none. -/
theorem ensurePt_cases (ok : p.Ok) (below : d < 2048) :
    (∃ pt p', ensurePt p (p.slotAddr d) = .ok (pt * 2 ^ 12, p') ∧ Ensured p d p' pt) ∨
      ∃ stop, ensurePt p (p.slotAddr d) = .error stop ∧ memAlloc p.map pageSize pageSize 0 = .error stop := by
  rcases ok.slots d below with big | ⟨pt, refers⟩
  · cases allocated : memAlloc p.map pageSize pageSize 0 with
    | error stop => exact Or.inr ⟨stop, ensurePt_of_fail big allocated, rfl⟩
    | ok result =>
      obtain ⟨pt, p', made, ensured, _⟩ := ensurePt_of_alloc ok below big allocated
      exact Or.inl ⟨pt, p', made, ensured⟩
  · exact Or.inl ⟨pt, p, ensured_of_table ok refers⟩

end

/-! ## `do_va_map` -/

/-- The pages from `q` on, `n` of them, are mapped to the frames from `f` on, as far as these fit a 64-bit
address, and nothing else has changed. A slot becomes a large page only if it lies within them, and none loses
its page table. -/
structure Mapped (flags q f n : ℕ) (p p' : Paging) : Prop where
  ok : p'.Ok
  allocs : ∃ as, PageAllocs p.map as p'.map
  pdpt : p'.pdpt = p.pdpt
  held : p.Held → p'.Held
  ptes : ∀ page < 2 ^ 20, p'.pteOf page =
    if q ≤ page ∧ page < q + n then smallEntry ((f + (page - q)) % 2 ^ 52) flags else p.pteOf page
  large : ∀ d < 2048, BigOk (p'.slot d) → p'.slot d = p.slot d ∨ q ≤ 512 * d ∧ 512 * d + 512 ≤ q + n
  tables : ∀ d < 2048, IsTable (p.slot d) → p'.slot d = p.slot d

section

variable {p p' p'' : Paging} {flags q f n k d : ℕ}

theorem Mapped.refl (ok : p.Ok) : Mapped flags q f 0 p p where
  ok := ok
  allocs := ⟨[], .nil _⟩
  pdpt := rfl
  held := id
  ptes page _ := by rw [if_neg (by omega)]
  large _ _ _ := Or.inl rfl
  tables _ _ _ := rfl

theorem Mapped.trans (first : Mapped flags q f k p p') (second : Mapped flags (q + k) (f + k) n p' p'') :
    Mapped flags q f (k + n) p p'' where
  ok := second.ok
  allocs := by
    obtain ⟨as, early⟩ := first.allocs
    obtain ⟨bs, late⟩ := second.allocs
    exact ⟨as ++ bs, early.append late⟩
  pdpt := second.pdpt.trans first.pdpt
  held was := second.held (first.held was)
  ptes page low := by
    rw [second.ptes page low, first.ptes page low]
    by_cases late : q + k ≤ page ∧ page < q + k + n
    · rw [if_pos late, if_pos (by omega), show f + k + (page - (q + k)) = f + (page - q) by omega]
    · rw [if_neg late]
      exact if_congr (by omega) rfl rfl
  large d low big := by
    rcases second.large d low big with same | inside
    · rw [same] at big ⊢
      exact (first.large d low big).imp_right fun inside => by omega
    · exact Or.inr (by omega)
  tables d low table := by
    have kept := first.tables d low table
    exact (second.tables d low (kept ▸ table)).trans kept

/-- Frames that do not wrap. -/
theorem Mapped.ptes_of_fits (mapped : Mapped flags q f n p p') (fits : f + n ≤ 2 ^ 52) {page : ℕ} (low : page < 2 ^ 20) :
    p'.pteOf page = if q ≤ page ∧ page < q + n then smallEntry (f + (page - q)) flags else p.pteOf page := by
  rw [mapped.ptes page low]
  split
  · rw [Nat.mod_eq_of_lt (by omega)]
  · rfl

/-- A round that maps a large page. -/
theorem Mapped.round_large (ok : p.Ok) (below : d < 2048) (big : BigOk (p.slot d)) (cache : CacheFlags flags) :
    Mapped flags (d * 512) (f * 512) 512 p (p.setWord (p.slotAddr d) (largeEntry (f % 2 ^ 43) flags)) := by
  have small : f % 2 ^ 43 < 2 ^ 43 := Nat.mod_lt _ (by decide)
  have entry : BigOk (largeEntry (f % 2 ^ 43) flags) := Or.inr (isLarge_largeEntry small cache)
  obtain ⟨ok', slots, held, ptes⟩ := ok.setSlot below entry
  refine ⟨ok', ⟨[], .nil _⟩, rfl, held, ?_, ?_, ?_⟩
  · intro page low
    rw [ptes page low]
    by_cases same : page / 512 = d
    · have frame : f % 2 ^ 43 * 512 + page % 512 = (f * 512 + (page - d * 512)) % 2 ^ 52 := by omega
      rw [if_pos same, if_pos (by omega), bigPte_largeEntry small cache, frame]
    · rw [if_neg same, if_neg (by omega)]
  · intro e low _
    rw [slots e low]
    by_cases same : e = d
    · exact Or.inr (by omega)
    · exact Or.inl (if_neg same)
  · intro e low table
    rw [slots e low, if_neg]
    rintro rfl
    exact big.not_table table

/-- A round that maps a page, in a slot that has a page table by now. -/
theorem Mapped.round_small {pt : ℕ} (below : q < 2 ^ 20) (ensured : Ensured p (q / 512) p' pt) :
    Mapped flags q f 1 p (p'.setWord (pt * 2 ^ 12 + 8 * (q % 512)) (smallEntry (f % 2 ^ 52) flags)) := by
  have lowSlot : q / 512 < 2048 := by omega
  obtain ⟨ok', slots, held, ptes⟩ := ensured.ok.setPte lowSlot ensured.refers (Nat.mod_lt q (by decide))
    (smallEntry (f % 2 ^ 52) flags)
  have table : IsTable (p'.slot (q / 512)) := ⟨pt, ensured.refers⟩
  refine ⟨ok', ensured.allocs, ensured.pdpt, fun was => held (ensured.held was), ?_, ?_, ?_⟩
  · intro page low
    rw [ptes page low, ensured.ptes page low]
    by_cases same : page = q
    · rw [if_pos (by omega), if_pos (by omega), show f + (page - q) = f by omega]
    · rw [if_neg (by omega), if_neg (by omega)]
  · intro e low blank
    rw [slots e low] at blank ⊢
    by_cases same : e = q / 512
    · rw [same] at blank
      exact absurd table blank.not_table
    · exact Or.inl (ensured.others e low same)
  · intro e low was
    rw [slots e low]
    by_cases same : e = q / 512
    · rw [same] at was ⊢
      rw [ensured.kept was]
    · exact ensured.others e low same

/-- The condition under which a round maps a large page. -/
def LargeRound (p : Paging) (q f n : ℕ) : Prop :=
  q % 512 = 0 ∧ f % 512 = 0 ∧ 512 ≤ n ∧ BigOk (p.slot (q / 512))

theorem pageSize_eq : pageSize = 1 * 2 ^ 12 := rfl

theorem largePageSize_eq : largePageSize = 512 * 2 ^ 12 := rfl

/-- The three running values of the loops, in units of pages. -/
theorem add_pages (q k : ℕ) : Word.add 32 (q * 2 ^ 12) (k * 2 ^ 12) = (q + k) * 2 ^ 12 % 2 ^ 32 := by
  rw [Word.add, ← Nat.add_mul]

theorem add_frames (f k : ℕ) : Word.add 64 (f * 2 ^ 12 % 2 ^ 64) (k * 2 ^ 12) = (f + k) * 2 ^ 12 % 2 ^ 64 := by
  rw [Word.add, Nat.mod_add_mod, ← Nat.add_mul]

/-- Frames of pages and of large pages that fit a 64-bit address. -/
theorem frame_mod (f : ℕ) : f * 2 ^ 12 % 2 ^ 64 = f % 2 ^ 52 * 2 ^ 12 := by omega

theorem largeFrame_mod (aligned : f % 512 = 0) : f * 2 ^ 12 % 2 ^ 64 = f / 512 % 2 ^ 43 * 2 ^ 21 := by omega

theorem sub_pages (positive : 0 < k) (ordered : k ≤ n) (fits : n ≤ 2 ^ 20) :
    Word.sub 32 (n * 2 ^ 12) (k * 2 ^ 12) = (n - k) * 2 ^ 12 := by
  rw [Word.sub]
  omega

/-- One round, in units of pages. -/
theorem doVaMapFrom_round (ok : p.Ok) (positive : 0 < n) (below : q + n ≤ 2 ^ 20) (cache : CacheFlags flags)
    (fuel : ℕ) :
    LargeRound p q f n ∧ doVaMapFrom flags (fuel + 1) p (q * 2 ^ 12 % 2 ^ 32) (f * 2 ^ 12 % 2 ^ 64) (n * 2 ^ 12) =
        doVaMapFrom flags fuel (p.setWord (p.slotAddr (q / 512)) (largeEntry (f / 512 % 2 ^ 43) flags))
          ((q + 512) * 2 ^ 12 % 2 ^ 32) ((f + 512) * 2 ^ 12 % 2 ^ 64) ((n - 512) * 2 ^ 12) ∨
      ¬ LargeRound p q f n ∧ doVaMapFrom flags (fuel + 1) p (q * 2 ^ 12 % 2 ^ 32) (f * 2 ^ 12 % 2 ^ 64) (n * 2 ^ 12) =
        ensurePt p (p.slotAddr (q / 512)) >>= fun (pt, p') =>
          doVaMapFrom flags fuel (p'.setWord (pt + 8 * (q % 512)) (smallEntry (f % 2 ^ 52) flags))
            ((q + 1) * 2 ^ 12 % 2 ^ 32) ((f + 1) * 2 ^ 12 % 2 ^ 64) ((n - 1) * 2 ^ 12) := by
  have start : q * 2 ^ 12 % 2 ^ 32 = q * 2 ^ 12 := Nat.mod_eq_of_lt (by omega)
  have lowSlot : q / 512 < 2048 := by omega
  have addr : p.pdeAddr (q * 2 ^ 12) = p.slotAddr (q / 512) := by
    rw [pdeAddr_eq]
    congr 1
    omega
  have index : ∀ pt, pteAddr pt (q * 2 ^ 12) = pt + 8 * (q % 512) := by
    intro pt
    rw [pteAddr]
    omega
  have test : (q * 2 ^ 12 % largePageSize = 0 ∧ f * 2 ^ 12 % 2 ^ 64 % largePageSize = 0 ∧ largePageSize ≤ n * 2 ^ 12 ∧
      (p.slot (q / 512) = 0 ∨ p.slot (q / 512) &&& pdePs ≠ 0)) ↔ LargeRound p q f n := by
    have blank : (p.slot (q / 512) = 0 ∨ p.slot (q / 512) &&& pdePs ≠ 0) ↔ BigOk (p.slot (q / 512)) := by
      constructor
      · intro free
        exact (ok.slots _ lowSlot).resolve_right fun table => table.not_replaceable free
      · exact BigOk.replaceable
    rw [LargeRound, largePageSize, frame_mod]
    exact and_congr (by omega) (and_congr (by omega) (and_congr (by omega) blank))
  rw [start, doVaMapFrom, if_neg (by omega)]
  dsimp only
  rw [addr, ← Paging.slot]
  by_cases big : LargeRound p q f n
  · refine Or.inl ⟨big, ?_⟩
    have alignedF := big.2.1
    have wide := big.2.2.1
    rw [if_pos (test.mpr big), largeEntry_eq (largeFrame_mod alignedF) cache,
      largePageSize_eq, add_pages, add_frames, sub_pages (by decide) wide (by omega)]
  · refine Or.inr ⟨big, ?_⟩
    rw [if_neg (mt test.mp big)]
    simp only [index, smallEntry_eq (frame_mod f) cache, pageSize_eq, add_pages, add_frames,
      sub_pages (show 0 < 1 by decide) positive (show n ≤ 2 ^ 20 by omega)]

/-- With rounds enough, the loop maps all pages, unless `mem_alloc` has no page for a table. -/
theorem doVaMapFrom_cases {fuel : ℕ} (ok : p.Ok) (below : q + n ≤ 2 ^ 20) (cache : CacheFlags flags) (enough : n < fuel) :
    (∃ p', doVaMapFrom flags fuel p (q * 2 ^ 12 % 2 ^ 32) (f * 2 ^ 12 % 2 ^ 64) (n * 2 ^ 12) = .ok p' ∧
        Mapped flags q f n p p') ∨
      ∃ stop, doVaMapFrom flags fuel p (q * 2 ^ 12 % 2 ^ 32) (f * 2 ^ 12 % 2 ^ 64) (n * 2 ^ 12) = .error stop ∧
        PageAllocFails p.map stop := by
  induction fuel generalizing p q f n with
  | zero => exact absurd enough (Nat.not_lt_zero _)
  | succ fuel ih =>
    rcases Nat.eq_zero_or_pos n with rfl | positive
    · refine Or.inl ⟨p, ?_, .refl ok⟩
      rw [doVaMapFrom, if_pos (Nat.zero_mul _)]
    · rcases doVaMapFrom_round ok positive below cache fuel with ⟨⟨alignedQ, alignedF, wide, big⟩, step⟩ | ⟨_, step⟩
      · have round := Mapped.round_large (f := f / 512) ok (by omega) big cache
        rw [Nat.div_mul_cancel (Nat.dvd_of_mod_eq_zero alignedQ), Nat.div_mul_cancel (Nat.dvd_of_mod_eq_zero alignedF)]
          at round
        rw [step]
        apply (ih (q := q + 512) (f := f + 512) (n := n - 512) round.ok (by omega) (by omega)).imp_left
        rintro ⟨p', ran, rest⟩
        have whole := round.trans rest
        rw [Nat.add_sub_cancel' wide] at whole
        exact ⟨p', ran, whole⟩
      · rw [step]
        rcases ensurePt_cases ok (show q / 512 < 2048 by omega) with ⟨pt, p1, made, ensured⟩ | ⟨stop, made, failed⟩
        · have round : Mapped flags q f 1 p _ := .round_small (by omega) ensured
          rw [made, ok_bind]
          apply (ih (q := q + 1) (f := f + 1) (n := n - 1) round.ok (by omega) (by omega)).imp
          · rintro ⟨p', ran, rest⟩
            have whole := round.trans rest
            rw [Nat.add_sub_cancel' positive] at whole
            exact ⟨p', ran, whole⟩
          · rintro ⟨stop, ran, fails⟩
            obtain ⟨as, allocs⟩ := round.allocs
            exact ⟨stop, ran, allocs.fails fails⟩
        · rw [made, error_bind]
          exact Or.inr ⟨stop, rfl, [], _, .nil _, failed⟩

/-- What `do_va_map` does with whole pages. -/
theorem doVaMap_cases {vstart pstart len : ℕ} (ok : p.Ok) (startV : vstart = q * 2 ^ 12) (startP : pstart = f * 2 ^ 12)
    (size : len = n * 2 ^ 12) (below : q + n ≤ 2 ^ 20) (word : f < 2 ^ 52) (cache : CacheFlags flags) :
    (∃ p', doVaMap p vstart pstart len flags = .ok p' ∧ Mapped flags q f n p p') ∨
      ∃ stop, doVaMap p vstart pstart len flags = .error stop ∧ PageAllocFails p.map stop := by
  rcases Nat.eq_zero_or_pos n with rfl | positive
  · refine Or.inl ⟨p, ?_, .refl ok⟩
    rw [size, doVaMap, vaRounds, doVaMapFrom, if_pos (Nat.zero_mul _)]
  · rw [startV, startP, size, doVaMap]
    have enough : n < vaRounds := by
      rw [vaRounds, xm32MaxAddr, pageSize]
      omega
    have cases := doVaMapFrom_cases (f := f) ok below cache enough
    rwa [Nat.mod_eq_of_lt (show q * 2 ^ 12 < 2 ^ 32 by omega), Nat.mod_eq_of_lt (show f * 2 ^ 12 < 2 ^ 64 by omega)] at cases

/-- Whenever `do_va_map` returns, it mapped the pages asked for. -/
theorem doVaMap_ok {vstart pstart len : ℕ} (ok : p.Ok) (startV : vstart = q * 2 ^ 12) (startP : pstart = f * 2 ^ 12)
    (size : len = n * 2 ^ 12) (below : q + n ≤ 2 ^ 20) (word : f < 2 ^ 52) (cache : CacheFlags flags)
    (ran : doVaMap p vstart pstart len flags = .ok p') : Mapped flags q f n p p' := by
  rcases doVaMap_cases ok startV startP size below word cache with ⟨p'', ran', mapped⟩ | ⟨stop, ran', _⟩
  · rw [ran'] at ran
    cases ran
    exact mapped
  · rw [ran'] at ran
    cases ran

/-! ## `do_va_unmap` -/

/-- No large page sticks out of the pages from `q` on, `n` of them. -/
def Whole (p : Paging) (q n : ℕ) : Prop := ∀ page, q ≤ page → page < q + n →
  p.slot (page / 512) &&& pdePs ≠ 0 → q ≤ 512 * (page / 512) ∧ 512 * (page / 512) + 512 ≤ q + n

/-- The pages from `q` on, `n` of them, are blank, and nothing else has changed. -/
structure Unmapped (q n : ℕ) (p p' : Paging) : Prop where
  ok : p'.Ok
  map : p'.map = p.map
  pdpt : p'.pdpt = p.pdpt
  ptes : ∀ page < 2 ^ 20, p'.pteOf page = if q ≤ page ∧ page < q + n then 0 else p.pteOf page
  slots : ∀ d < 2048, p'.slot d = p.slot d ∨ BigOk (p.slot d) ∧ p'.slot d = 0

theorem Unmapped.refl (ok : p.Ok) : Unmapped q 0 p p where
  ok := ok
  map := rfl
  pdpt := rfl
  ptes page _ := by rw [if_neg (by omega)]
  slots _ _ := Or.inl rfl

theorem Unmapped.trans (first : Unmapped q k p p') (second : Unmapped (q + k) n p' p'') :
    Unmapped q (k + n) p p'' where
  ok := second.ok
  map := second.map.trans first.map
  pdpt := second.pdpt.trans first.pdpt
  ptes page low := by
    rw [second.ptes page low, first.ptes page low]
    by_cases late : q + k ≤ page ∧ page < q + k + n
    · rw [if_pos late, if_pos (by omega)]
    · rw [if_neg late]
      exact if_congr (by omega) rfl rfl
  slots d low := by
    rcases second.slots d low with same | ⟨big, zero⟩
    · rw [same]
      exact first.slots d low
    · rcases first.slots d low with same | ⟨was, _⟩
      · exact Or.inr ⟨same ▸ big, zero⟩
      · exact Or.inr ⟨was, zero⟩

/-- Blanking a large page. -/
theorem Unmapped.round_large (ok : p.Ok) (below : d < 2048) (big : BigOk (p.slot d)) :
    Unmapped (d * 512) 512 p (p.setWord (p.slotAddr d) 0) := by
  obtain ⟨ok', slots, _, ptes⟩ := ok.setSlot below (v := 0) (Or.inl rfl)
  refine ⟨ok', rfl, rfl, ?_, ?_⟩
  · intro page low
    rw [ptes page low, bigPte, if_pos rfl]
    exact if_congr (by omega) rfl rfl
  · intro e low
    rw [slots e low]
    split
    · next same => exact Or.inr ⟨same ▸ big, rfl⟩
    · exact Or.inl rfl

/-- Blanking a page of a page table. -/
theorem Unmapped.round_small {pt : ℕ} (ok : p.Ok) (below : q < 2 ^ 20) (refers : RefersTo (p.slot (q / 512)) pt) :
    Unmapped q 1 p (p.setWord (pt * 2 ^ 12 + 8 * (q % 512)) 0) := by
  obtain ⟨ok', slots, _, ptes⟩ := ok.setPte (by omega) refers (Nat.mod_lt q (by decide)) 0
  refine ⟨ok', rfl, rfl, ?_, fun e low => Or.inl (slots e low)⟩
  intro page low
  rw [ptes page low]
  exact if_congr (by omega) rfl rfl

/-- Passing a page of a slot that is blank already. -/
theorem Unmapped.round_blank (ok : p.Ok) (zero : p.slot (q / 512) = 0) : Unmapped q 1 p p := by
  refine ⟨ok, rfl, rfl, ?_, fun _ _ => Or.inl rfl⟩
  intro page low
  split
  · next here =>
    rw [show page = q by omega, Paging.pteOf]
    exact if_pos zero
  · rfl

/-- What is left to unmap has no large page that sticks out of it. -/
theorem Unmapped.whole {m : ℕ} (round : Unmapped q m p p') (whole : Whole p q n) (below : q + n ≤ 2 ^ 20) (within : m ≤ n)
    (past : ∀ page, q + m ≤ page → p.slot (page / 512) &&& pdePs ≠ 0 → q + m ≤ 512 * (page / 512)) :
    Whole p' (q + m) (n - m) := by
  intro page low high large
  rcases round.slots (page / 512) (by omega) with same | ⟨_, zero⟩
  · rw [same] at large
    have inside := whole page (by omega) (by omega) large
    have apart := past page low large
    omega
  · rw [zero] at large
    exact absurd (Nat.zero_and _) large

theorem doVaUnmapFrom_total {fuel : ℕ} (ok : p.Ok) (below : q + n ≤ 2 ^ 20) (enough : n < fuel)
    (whole : Whole p q n) :
    ∃ p', doVaUnmapFrom fuel p (q * 2 ^ 12 % 2 ^ 32) (n * 2 ^ 12) = .ok p' ∧ Unmapped q n p p' := by
  induction fuel generalizing p q n with
  | zero => exact absurd enough (Nat.not_lt_zero _)
  | succ fuel ih =>
    rcases Nat.eq_zero_or_pos n with rfl | positive
    · exact ⟨p, by rw [doVaUnmapFrom, if_pos (Nat.zero_mul _)], .refl ok⟩
    have lowSlot : q / 512 < 2048 := by omega
    have start : q * 2 ^ 12 % 2 ^ 32 = q * 2 ^ 12 := Nat.mod_eq_of_lt (by omega)
    have addr : p.pdeAddr (q * 2 ^ 12) = p.slotAddr (q / 512) := by
      rw [pdeAddr_eq, show q * 2 ^ 12 / 2 ^ 21 = q / 512 by omega]
    have index : ∀ pt, pteAddr pt (q * 2 ^ 12) = pt + 8 * (q % 512) := by
      intro pt
      rw [pteAddr]
      omega
    rw [start, doVaUnmapFrom, if_neg (by omega)]
    dsimp only
    rw [addr, ← Paging.slot, index, pageSize_eq, largePageSize_eq, add_pages, add_pages,
      sub_pages (by decide) positive (by omega)]
    have onward : ∀ p1, Unmapped q 1 p p1 → p.slot (q / 512) &&& pdePs = 0 → ∃ p',
        doVaUnmapFrom fuel p1 ((q + 1) * 2 ^ 12 % 2 ^ 32) ((n - 1) * 2 ^ 12) = .ok p' ∧ Unmapped q n p p' := by
      intro p1 round clear
      have rest : Whole p1 (q + 1) (n - 1) := by
        apply round.whole whole below positive
        intro page low large
        have later : page / 512 ≠ q / 512 := by
          intro eq
          rw [eq] at large
          exact large clear
        omega
      obtain ⟨p', ran, tail⟩ := ih round.ok (by omega) (by omega) rest
      have all := round.trans tail
      rw [Nat.add_sub_cancel' positive] at all
      exact ⟨p', ran, all⟩
    rcases ok.slots _ lowSlot with big | ⟨pt, refers⟩
    · by_cases zero : p.slot (q / 512) = 0
      · have clear : p.slot (q / 512) &&& pdePs = 0 := by rw [zero, Nat.zero_and]
        rw [if_neg (not_not.mpr clear), if_neg (not_not.mpr zero)]
        exact onward p (.round_blank ok zero) clear
      · have large := big.replaceable.resolve_left zero
        have inside := whole q le_rfl (by omega) large
        rw [if_pos large, if_pos (by omega), sub_pages (by decide) (by omega) (by omega)]
        have round := Unmapped.round_large ok lowSlot big
        rw [show q / 512 * 512 = q by omega] at round
        have rest := round.whole whole below (by omega) (fun page low _ => by omega)
        obtain ⟨p', ran, tail⟩ := ih round.ok (by omega) (by omega) rest
        have all := round.trans tail
        rw [Nat.add_sub_cancel' (by omega)] at all
        exact ⟨p', ran, all⟩
    · obtain ⟨nonzero, clear⟩ := IsTable.tests ⟨pt, refers⟩
      rw [if_neg (not_not.mpr clear), if_pos nonzero, refers.ptOf]
      exact onward _ (.round_small ok (by omega) refers) clear

/-- `do_va_unmap` always returns. -/
theorem doVaUnmap_total {vstart len : ℕ} (ok : p.Ok) (start : vstart = q * 2 ^ 12) (size : len = n * 2 ^ 12)
    (below : q + n ≤ 2 ^ 20) (whole : Whole p q n) :
    ∃ p', doVaUnmap p vstart len = .ok p' ∧ Unmapped q n p p' := by
  rcases Nat.eq_zero_or_pos n with rfl | positive
  · exact ⟨p, by rw [size, doVaUnmap, vaRounds, doVaUnmapFrom, if_pos (Nat.zero_mul _)], .refl ok⟩
  · rw [start, size, doVaUnmap, ← Nat.mod_eq_of_lt (show q * 2 ^ 12 < 2 ^ 32 by omega)]
    refine doVaUnmapFrom_total ok below ?_ whole
    rw [vaRounds, xm32MaxAddr, pageSize]
    omega

/-- A large page within the pages that were unmapped is gone. -/
theorem Unmapped.not_large (unmapped : Unmapped q n p p') (low : d < 2048)
    (inside : q ≤ 512 * d ∧ 512 * d + 512 ≤ q + n) : p'.slot d &&& pdePs = 0 := by
  by_contra large
  apply unmapped.ok.pteOf_ne_zero low large
  rw [unmapped.ptes _ (by omega), if_pos (by omega)]

/-! ## What the processor finds -/

/-- The processor finds what the tables say of the page. -/
theorem translate_eq (ok : p.Ok) {va : ℕ} (below : va < 2 ^ 32) :
    p.translate va = pteTranslation (p.pteOf (va / 2 ^ 12)) va := by
  have lowSlot : va / 2 ^ 12 / 512 < 2048 := by omega
  obtain ⟨pd, smallPd, entry⟩ := ok.pdptes (va / 2 ^ 12 / 512 / 512) (by omega)
  have dir := pdOf_eq smallPd entry
  have root : Word.alignDown p.pdpt 32 = p.pdpt := Word.alignDown_of_dvd ok.root
  have gibibyte : va / 2 ^ 30 = va / 2 ^ 12 / 512 / 512 := by omega
  have slotIndex : va / 2 ^ 21 % 512 = va / 2 ^ 12 / 512 % 512 := by omega
  have present : pd * 2 ^ 12 + 1 &&& pteP ≠ 0 := by
    rw [and_pteP]
    omega
  have pdAddr : entryFrame (pd * 2 ^ 12 + 1) pageSize * pageSize = pd * 2 ^ 12 := by
    rw [entryFrame, pageSize]
    omega
  have slotWord : p.words (pd * 2 ^ 12 + 8 * (va / 2 ^ 12 / 512 % 512)) = p.slot (va / 2 ^ 12 / 512) := by
    rw [Paging.slot, Paging.slotAddr, dir]
  rw [Paging.translate, translate, root, gibibyte, slotIndex, entry, if_neg present, pdAddr, slotWord]
  rcases ok.slots _ lowSlot with big | ⟨pt, refers⟩
  · rw [pteOf_of_big big]
    rcases big with zero | isLarge
    · rw [zero, bigPte, if_pos rfl, pteTranslation_zero, if_pos (Nat.zero_and _)]
    · dsimp only
      rw [isLarge.translation, if_pos isLarge.large]
  · rw [pteOf_of_table refers, if_neg refers.present, if_neg (not_not.mpr refers.notLarge), refers.frame,
      pteTranslation]
    simp only [refers.writable, ne_eq, not_false_eq_true, true_and]
    rfl

end

end Biefircate
