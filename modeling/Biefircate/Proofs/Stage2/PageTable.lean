import Biefircate.Proofs.Stage2.MemGrown
import Biefircate.Proofs.Stage2.PageEntry

/-! # The page tables as a map of pages

Every table lies in reserved memory of its own, so writing an entry changes nothing else. What the tables
say of a page is one number, the entry that a page table would hold for it, whether or not a large page
covers it. Replacing a large page by a page table leaves all these numbers as they were.
-/

namespace Biefircate

/-! ## What the tables say -/

namespace Paging

/-- The address of the page directory entry for 2 MiB slot `d`. -/
def slotAddr (p : Paging) (d : ℕ) : ℕ := p.pdOf (d / 512) + 8 * (d % 512)

/-- The page directory entry for 2 MiB slot `d`. -/
def slot (p : Paging) (d : ℕ) : ℕ := p.words (p.slotAddr d)

/-- The page table entry for a page, also where there is no page table. -/
def pteOf (p : Paging) (page : ℕ) : ℕ :=
  let pde := p.slot (page / 512)
  if pde = 0 then 0
  else if pde &&& pdePs ≠ 0 then ((pde &&& (2 ^ 64 - 1 - pdePs)) + page % 512 * pageSize) % 2 ^ 64
  else p.words (ptOf pde + 8 * (page % 512))

end Paging

/-- The tables there can be: the page-directory-pointer table, a page directory for each gibibyte, and a
page table for each slot. -/
inductive TableId where
  | pdpt
  | pd (i : ℕ)
  | pt (d : ℕ)
deriving DecidableEq

/-- The size of a table in bytes. -/
def TableId.size : TableId → ℕ
  | .pdpt => 32
  | .pd _ => pageSize
  | .pt _ => pageSize

theorem TableId.size_pos (t : TableId) : 0 < t.size := by
  cases t with
  | pdpt => exact Nat.succ_pos _
  | pd i => exact Nat.succ_pos _
  | pt d => exact Nat.succ_pos _

/-- The table is there, at the given address. -/
def Paging.At (p : Paging) : TableId → ℕ → Prop
  | .pdpt, a => a = p.pdpt
  | .pd i, a => i < 4 ∧ a = p.pdOf i
  | .pt d, a => d < 2048 ∧ ∃ pt, RefersTo (p.slot d) pt ∧ a = pt * 2 ^ 12

/-- The tables are well formed, each in memory of its own, and the pages that `mem_alloc` will return are
not among them. -/
structure Paging.Ok (p : Paging) : Prop where
  root : 32 ∣ p.pdpt
  pdptes : ∀ i < 4, ∃ pd < 2 ^ 20, p.words (p.pdpt + 8 * i) = pd * 2 ^ 12 + 1
  slots : ∀ d < 2048, BigOk (p.slot d) ∨ IsTable (p.slot d)
  apart : ∀ t t' a a', t ≠ t' → p.At t a → p.At t' a' → a + t.size ≤ a' ∨ a' + t'.size ≤ a
  spare : ∀ as m', PageAllocs p.map as m' → as.Nodup ∧
    ∀ a ∈ as, ∀ t b, p.At t b → a + pageSize ≤ b ∨ b + t.size ≤ a

/-- Every table lies in reserved memory, of a map in order. -/
structure Paging.Held (p : Paging) : Prop where
  map : p.map.Ok
  reserved : ∀ t a, p.At t a → Reserved p.map.ranges a (a + t.size)

/-- Tables that are held are spared. -/
theorem Paging.Held.spare {p : Paging} (held : p.Held) {as : List ℕ} {m' : MemMap} (allocs : PageAllocs p.map as m') :
    as.Nodup ∧ ∀ a ∈ as, ∀ t b, p.At t b → a + pageSize ≤ b ∨ b + t.size ≤ a := by
  obtain ⟨_, nodup, apart⟩ := allocs.fresh held.map
  exact ⟨nodup, fun a member t b present =>
    apart a member b (b + t.size) (Nat.lt_add_of_pos_right t.size_pos) (held.reserved t b present)⟩

section

variable {p p' : Paging} {t t' : TableId} {a a' x y d e pt i v : ℕ}

theorem pdOf_eq {pd : ℕ} (below : pd < 2 ^ 20) (entry : p.words (p.pdpt + 8 * i) = pd * 2 ^ 12 + 1) :
    p.pdOf i = pd * 2 ^ 12 := by
  rw [Paging.pdOf, entry, Word.and_mask_eq (a := pdptAlign) (k := 5) rfl (by decide)
    (Nat.mod_lt _ (by decide)), Word.alignDown, pdptAlign]
  omega

theorem pdeAddr_eq (p : Paging) (vstart : ℕ) : p.pdeAddr vstart = p.slotAddr (vstart / 2 ^ 21) := by
  have gibibyte : vstart / 2 ^ 21 / 512 = vstart / 2 ^ 30 := by omega
  rw [Paging.pdeAddr, Paging.slotAddr, gibibyte]

/-- Addresses in different tables differ. -/
theorem Paging.Ok.ne (ok : p.Ok) (different : t ≠ t') (first : p.At t a) (second : p.At t' a')
    (insideX : a ≤ x ∧ x < a + t.size) (insideY : a' ≤ y ∧ y < a' + t'.size) : x ≠ y := by
  have apart := ok.apart t t' a a' different first second
  omega

theorem Paging.Ok.at_pd (_ok : p.Ok) (below : d < 2048) :
    p.At (.pd (d / 512)) (p.pdOf (d / 512)) ∧ p.pdOf (d / 512) ≤ p.slotAddr d ∧
      p.slotAddr d < p.pdOf (d / 512) + pageSize := by
  refine ⟨⟨by omega, rfl⟩, Nat.le_add_right .., ?_⟩
  rw [Paging.slotAddr, pageSize]
  omega

theorem Paging.at_pt (below : d < 2048) (refers : RefersTo (p.slot d) pt) : p.At (.pt d) (pt * 2 ^ 12) :=
  ⟨below, pt, refers, rfl⟩

/-- The words of a page table lie in it. -/
theorem inside_pt (d pt : ℕ) (inside : i < 512) : pt * 2 ^ 12 ≤ pt * 2 ^ 12 + 8 * i ∧
    pt * 2 ^ 12 + 8 * i < pt * 2 ^ 12 + (TableId.pt d).size := by
  simp only [TableId.size, pageSize]
  omega

/-- Directories are found through words that a write elsewhere keeps. -/
theorem pdOf_congr (pdpt : p'.pdpt = p.pdpt) (kept : p'.words (p.pdpt + 8 * i) = p.words (p.pdpt + 8 * i)) :
    p'.pdOf i = p.pdOf i := by
  rw [Paging.pdOf, Paging.pdOf, pdpt, kept]

theorem slotAddr_congr (pdpt : p'.pdpt = p.pdpt)
    (kept : ∀ i < 4, p'.words (p.pdpt + 8 * i) = p.words (p.pdpt + 8 * i)) (below : d < 2048) :
    p'.slotAddr d = p.slotAddr d := by
  rw [Paging.slotAddr, Paging.slotAddr, pdOf_congr pdpt (kept _ (by omega))]

/-- Tables that are there afterwards were there before, when page tables are neither added nor moved. -/
theorem Paging.At.before (pdpt : p'.pdpt = p.pdpt)
    (kept : ∀ i < 4, p'.words (p.pdpt + 8 * i) = p.words (p.pdpt + 8 * i))
    (tables : ∀ d < 2048, IsTable (p'.slot d) → p'.slot d = p.slot d) (present : p'.At t a) : p.At t a := by
  cases t with
  | pdpt => exact present.trans pdpt
  | pd i => exact ⟨present.1, present.2.trans (pdOf_congr pdpt (kept i present.1))⟩
  | pt d =>
    obtain ⟨below, pt, refers, place⟩ := present
    exact ⟨below, pt, tables d below ⟨pt, refers⟩ ▸ refers, place⟩

/-- Well-formedness is kept when page tables are neither added nor moved. -/
theorem Paging.Ok.transfer (ok : p.Ok) (map : p'.map = p.map) (pdpt : p'.pdpt = p.pdpt)
    (kept : ∀ i < 4, p'.words (p.pdpt + 8 * i) = p.words (p.pdpt + 8 * i))
    (tables : ∀ d < 2048, IsTable (p'.slot d) → p'.slot d = p.slot d)
    (slots : ∀ d < 2048, BigOk (p'.slot d) ∨ IsTable (p'.slot d)) : p'.Ok := by
  have same : ∀ t a, p'.At t a → p.At t a := fun t a present => present.before pdpt kept tables
  refine ⟨pdpt ▸ ok.root, ?_, slots, ?_, ?_⟩
  · intro i below
    rw [pdpt, kept i below]
    exact ok.pdptes i below
  · exact fun t t' a a' different first second => ok.apart t t' a a' different (same _ _ first) (same _ _ second)
  · intro as m' allocs
    obtain ⟨nodup, clear⟩ := ok.spare as m' (map ▸ allocs)
    exact ⟨nodup, fun a member t b present => clear a member t b (same t b present)⟩

/-- So is the place of the tables in reserved memory. -/
theorem Paging.Held.transfer (held : p.Held) (map : p'.map = p.map) (pdpt : p'.pdpt = p.pdpt)
    (kept : ∀ i < 4, p'.words (p.pdpt + 8 * i) = p.words (p.pdpt + 8 * i))
    (tables : ∀ d < 2048, IsTable (p'.slot d) → p'.slot d = p.slot d) : p'.Held := by
  refine ⟨map ▸ held.map, fun t a present => ?_⟩
  rw [map]
  exact held.reserved t a (present.before pdpt kept tables)

/-! ## What a single entry says -/

theorem pteOf_of_big {page : ℕ} (big : BigOk (p.slot (page / 512))) :
    p.pteOf page = bigPte (p.slot (page / 512)) page := by
  rw [Paging.pteOf, bigPte]
  rcases big.replaceable with zero | set
  · rw [if_pos zero, if_pos zero]
  · rw [if_pos set]

theorem pteOf_of_table {page : ℕ} (refers : RefersTo (p.slot (page / 512)) pt) :
    p.pteOf page = p.words (pt * 2 ^ 12 + 8 * (page % 512)) := by
  obtain ⟨nonzero, clear⟩ := IsTable.tests ⟨pt, refers⟩
  rw [Paging.pteOf, if_neg nonzero, if_neg (not_not.mpr clear), refers.ptOf]

theorem Paging.Ok.isLarge (ok : p.Ok) (below : d < 2048) (large : p.slot d &&& pdePs ≠ 0) : IsLarge (p.slot d) := by
  have big : BigOk (p.slot d) := (ok.slots d below).resolve_right fun table => large table.tests.2
  apply big.resolve_left
  intro zero
  exact large (by rw [zero, Nat.zero_and])

theorem pteOf_of_large {page : ℕ} (isLarge : IsLarge (p.slot (page / 512))) :
    p.pteOf page = p.slot (page / 512) - 2 ^ 7 + page % 512 * 2 ^ 12 := by
  rw [pteOf_of_big (Or.inr isLarge), isLarge.bigPte_eq]

/-- The second page of a large page is never blank. -/
theorem Paging.Ok.pteOf_ne_zero (ok : p.Ok) (below : d < 2048) (large : p.slot d &&& pdePs ≠ 0) :
    p.pteOf (512 * d + 1) ≠ 0 := by
  have slot : (512 * d + 1) / 512 = d := by omega
  rw [pteOf_of_large (slot.symm ▸ ok.isLarge below large)]
  omega

/-! ## One entry of a page table -/

theorem setWord_words (p : Paging) (a v x : ℕ) :
    (p.setWord a v).words x = if x = a then v else p.words x := Function.update_apply ..

/-- Where a word is written that belongs to one table, the words of another stay. -/
theorem Paging.Ok.setWord_ne (ok : p.Ok) (different : t ≠ t') (first : p.At t a) (second : p.At t' a')
    (insideX : a ≤ x ∧ x < a + t.size) (insideY : a' ≤ y ∧ y < a' + t'.size) :
    (p.setWord y v).words x = p.words x := Function.update_of_ne (ok.ne different first second insideX insideY) ..

theorem Paging.Ok.setPte (ok : p.Ok) (below : d < 2048) (refers : RefersTo (p.slot d) pt) (inside : i < 512) (v : ℕ) :
    (p.setWord (pt * 2 ^ 12 + 8 * i) v).Ok ∧
      (∀ e < 2048, (p.setWord (pt * 2 ^ 12 + 8 * i) v).slot e = p.slot e) ∧
      (p.Held → (p.setWord (pt * 2 ^ 12 + 8 * i) v).Held) ∧
      ∀ page < 2 ^ 20, (p.setWord (pt * 2 ^ 12 + 8 * i) v).pteOf page =
        if page = d * 512 + i then v else p.pteOf page := by
  have here := Paging.at_pt below refers
  have span := inside_pt d pt inside
  have kept : ∀ j < 4, (p.setWord (pt * 2 ^ 12 + 8 * i) v).words (p.pdpt + 8 * j) = p.words (p.pdpt + 8 * j) := by
    intro j low
    refine ok.setWord_ne (t := .pdpt) (by simp) rfl here ?_ span
    rw [TableId.size]
    omega
  have slots : ∀ e < 2048, (p.setWord (pt * 2 ^ 12 + 8 * i) v).slot e = p.slot e := by
    intro e low
    obtain ⟨there, inDir⟩ := ok.at_pd low
    have addr : (p.setWord (pt * 2 ^ 12 + 8 * i) v).slotAddr e = p.slotAddr e := slotAddr_congr rfl kept low
    rw [Paging.slot, addr]
    exact ok.setWord_ne (by simp) there here inDir span
  refine ⟨ok.transfer rfl rfl kept (fun e low _ => slots e low) ?_, slots, ?_, ?_⟩
  · intro e low
    rw [slots e low]
    exact ok.slots e low
  · exact fun held => held.transfer rfl rfl kept fun e low _ => slots e low
  · intro page low
    have lowSlot : page / 512 < 2048 := by omega
    rcases ok.slots _ lowSlot with big | ⟨pt', refers'⟩
    · have other : page ≠ d * 512 + i := by
        rintro rfl
        rw [show (d * 512 + i) / 512 = d by omega] at big
        exact big.not_table ⟨pt, refers⟩
      rw [if_neg other, pteOf_of_big big, pteOf_of_big (by rwa [slots _ lowSlot]), slots _ lowSlot]
    · rw [pteOf_of_table refers', pteOf_of_table (slots _ lowSlot ▸ refers')]
      by_cases same : page / 512 = d
      · rw [same] at refers'
        rw [refers'.unique refers, setWord_words]
        exact if_congr (by omega) rfl rfl
      · rw [if_neg (by omega)]
        exact ok.setWord_ne (by simpa using same) (Paging.at_pt lowSlot refers') here
          (inside_pt _ pt' (Nat.mod_lt _ (by decide))) span

/-! ## One entry of a page directory -/

/-- Entries for different slots are at different addresses. -/
theorem Paging.Ok.slotAddr_ne (ok : p.Ok) (below : d < 2048) (below' : e < 2048) (different : e ≠ d) :
    p.slotAddr e ≠ p.slotAddr d := by
  obtain ⟨there, span⟩ := ok.at_pd below
  obtain ⟨there', span'⟩ := ok.at_pd below'
  by_cases same : e / 512 = d / 512
  · rw [Paging.slotAddr, Paging.slotAddr, same]
    omega
  · exact ok.ne (by simpa using same) there' there span' span

theorem Paging.Ok.setSlot (ok : p.Ok) (below : d < 2048) (new : BigOk v) :
    (p.setWord (p.slotAddr d) v).Ok ∧
      (∀ e < 2048, (p.setWord (p.slotAddr d) v).slot e = if e = d then v else p.slot e) ∧
      (p.Held → (p.setWord (p.slotAddr d) v).Held) ∧
      ∀ page < 2 ^ 20, (p.setWord (p.slotAddr d) v).pteOf page =
        if page / 512 = d then bigPte v page else p.pteOf page := by
  obtain ⟨here, span⟩ := ok.at_pd below
  have kept : ∀ j < 4, (p.setWord (p.slotAddr d) v).words (p.pdpt + 8 * j) = p.words (p.pdpt + 8 * j) := by
    intro j low
    refine ok.setWord_ne (t := .pdpt) (by simp) rfl here ?_ span
    rw [TableId.size]
    omega
  have slots : ∀ e < 2048, (p.setWord (p.slotAddr d) v).slot e = if e = d then v else p.slot e := by
    intro e low
    have addr : (p.setWord (p.slotAddr d) v).slotAddr e = p.slotAddr e := slotAddr_congr rfl kept low
    rw [Paging.slot, addr, setWord_words]
    by_cases same : e = d
    · rw [if_pos (by rw [same]), if_pos same]
    · rw [if_neg (ok.slotAddr_ne below low same), if_neg same, Paging.slot]
  have words : ∀ e < 2048, ∀ pt, RefersTo (p.slot e) pt → ∀ i < 512,
      (p.setWord (p.slotAddr d) v).words (pt * 2 ^ 12 + 8 * i) = p.words (pt * 2 ^ 12 + 8 * i) := by
    intro e low pt refers i inside
    exact ok.setWord_ne (by simp) (Paging.at_pt low refers) here (inside_pt e pt inside) span
  have tables : ∀ e < 2048, IsTable ((p.setWord (p.slotAddr d) v).slot e) →
      (p.setWord (p.slotAddr d) v).slot e = p.slot e := by
    intro e low table
    rw [slots e low] at table ⊢
    split at table
    · exact absurd table new.not_table
    · next other => rw [if_neg other]
  refine ⟨ok.transfer rfl rfl kept tables ?_, slots, ?_, ?_⟩
  · intro e low
    rw [slots e low]
    split
    · exact Or.inl new
    · exact ok.slots e low
  · exact fun held => held.transfer rfl rfl kept tables
  · intro page low
    have lowSlot : page / 512 < 2048 := by omega
    have now := slots _ lowSlot
    split
    · next same =>
      rw [if_pos same] at now
      rw [pteOf_of_big (by rwa [now]), now]
    · next other =>
      rw [if_neg other] at now
      rcases ok.slots _ lowSlot with big | ⟨pt, refers⟩
      · rw [pteOf_of_big big, pteOf_of_big (by rwa [now]), now]
      · rw [pteOf_of_table refers, pteOf_of_table (now ▸ refers)]
        exact words _ lowSlot pt refers _ (Nat.mod_lt _ (by decide))

/-! ## A new page table -/

/-- The state once slot `d` refers to a new page table, which says what the slot said before. -/
def Paging.withTable (p : Paging) (d pt : ℕ) (map : MemMap) (entries : ℕ → ℕ) : Paging :=
  Paging.setWord { p with map := map, words := fillPage p.words (pt * 2 ^ 12) entries } (p.slotAddr d)
    (tableEntry pt)

/-- A page that `mem_alloc` returns is clear of all tables. -/
theorem Paging.Ok.clear_of_alloc {map : MemMap} (ok : p.Ok)
    (allocated : memAlloc p.map pageSize pageSize 0 = .ok (pt * 2 ^ 12, map)) (present : p.At t a) :
    pt * 2 ^ 12 + pageSize ≤ a ∨ a + t.size ≤ pt * 2 ^ 12 :=
  (ok.spare _ _ (.single allocated)).2 _ (List.mem_singleton_self _) t a present

section

variable {map : MemMap} {entries : ℕ → ℕ}

/-- Of the tables that were there, only the entry for the slot changes. -/
theorem Paging.Ok.withTable_words (ok : p.Ok) (allocated : memAlloc p.map pageSize pageSize 0 = .ok (pt * 2 ^ 12, map))
    (present : p.At t a) (inside : a ≤ x ∧ x < a + t.size) :
    (p.withTable d pt map entries).words x = if x = p.slotAddr d then tableEntry pt else p.words x := by
  have clear := ok.clear_of_alloc allocated present
  have outside : ¬ (pt * 2 ^ 12 ≤ x ∧ x < pt * 2 ^ 12 + pageSize) := by omega
  rw [Paging.withTable, setWord_words]
  dsimp only
  rw [fillPage, if_neg outside]

theorem Paging.Ok.withTable_root (ok : p.Ok) (below : d < 2048)
    (allocated : memAlloc p.map pageSize pageSize 0 = .ok (pt * 2 ^ 12, map)) (low : i < 4) :
    (p.withTable d pt map entries).words (p.pdpt + 8 * i) = p.words (p.pdpt + 8 * i) := by
  obtain ⟨here, span⟩ := ok.at_pd below
  have inRoot : p.pdpt ≤ p.pdpt + 8 * i ∧ p.pdpt + 8 * i < p.pdpt + TableId.pdpt.size := by
    rw [TableId.size]
    omega
  rw [ok.withTable_words (t := .pdpt) allocated rfl inRoot, if_neg]
  exact ok.ne (t := .pdpt) (by simp) rfl here inRoot span

theorem Paging.Ok.withTable_slot (ok : p.Ok) (below : d < 2048)
    (allocated : memAlloc p.map pageSize pageSize 0 = .ok (pt * 2 ^ 12, map)) (low : e < 2048) :
    (p.withTable d pt map entries).slot e = if e = d then tableEntry pt else p.slot e := by
  obtain ⟨there, inDir⟩ := ok.at_pd low
  have pdpt : (p.withTable d pt map entries).pdpt = p.pdpt := rfl
  rw [Paging.slot, slotAddr_congr pdpt (fun i low => ok.withTable_root below allocated low) low,
    ok.withTable_words allocated there inDir]
  by_cases eq : e = d
  · rw [if_pos (by rw [eq]), if_pos eq]
  · rw [if_neg (ok.slotAddr_ne below low eq), if_neg eq, Paging.slot]

/-- The new table holds its entries. -/
theorem Paging.Ok.withTable_filled (ok : p.Ok) (below : d < 2048)
    (allocated : memAlloc p.map pageSize pageSize 0 = .ok (pt * 2 ^ 12, map)) (inside : i < 512) :
    (p.withTable d pt map entries).words (pt * 2 ^ 12 + 8 * i) = entries i := by
  obtain ⟨here, span⟩ := ok.at_pd below
  have clear := ok.clear_of_alloc allocated here
  have within : pt * 2 ^ 12 ≤ pt * 2 ^ 12 + 8 * i ∧ pt * 2 ^ 12 + 8 * i < pt * 2 ^ 12 + pageSize := by
    rw [pageSize]
    omega
  have size : (TableId.pd (d / 512)).size = pageSize := rfl
  rw [Paging.withTable, setWord_words, if_neg (by omega)]
  dsimp only
  rw [fillPage, if_pos within, Nat.add_sub_cancel_left, Nat.mul_div_cancel_left _ (by decide)]

/-- No other table is new. -/
theorem Paging.Ok.withTable_at (ok : p.Ok) (below : d < 2048) (small : pt < 2 ^ 20)
    (allocated : memAlloc p.map pageSize pageSize 0 = .ok (pt * 2 ^ 12, map))
    (present : (p.withTable d pt map entries).At t a) : p.At t a ∨ t = .pt d ∧ a = pt * 2 ^ 12 := by
  have root : ∀ i < 4, (p.withTable d pt map entries).words (p.pdpt + 8 * i) = p.words (p.pdpt + 8 * i) :=
    fun i low => ok.withTable_root below allocated low
  cases t with
  | pdpt => exact Or.inl present
  | pd i => exact Or.inl ⟨present.1, present.2.trans (pdOf_congr rfl (root i present.1))⟩
  | pt e =>
    obtain ⟨low, pt', refers, place⟩ := present
    rw [ok.withTable_slot below allocated low] at refers
    split at refers
    · next eq => exact Or.inr ⟨by rw [eq], by rw [place, refers.unique (refersTo_tableEntry small)]⟩
    · exact Or.inl ⟨low, pt', refers, place⟩

theorem Paging.Ok.withTable (ok : p.Ok) (below : d < 2048) (old : BigOk (p.slot d)) (small : pt < 2 ^ 20)
    (allocated : memAlloc p.map pageSize pageSize 0 = .ok (pt * 2 ^ 12, map))
    (same : ∀ i < 512, entries i = bigPte (p.slot d) i) :
    (p.withTable d pt map entries).Ok ∧
      (∀ e < 2048, (p.withTable d pt map entries).slot e = if e = d then tableEntry pt else p.slot e) ∧
      (p.Held → (p.withTable d pt map entries).Held) ∧
      ∀ page < 2 ^ 20, (p.withTable d pt map entries).pteOf page = p.pteOf page := by
  have slots : ∀ e < 2048, (p.withTable d pt map entries).slot e = if e = d then tableEntry pt else p.slot e :=
    fun e low => ok.withTable_slot below allocated low
  have found : ∀ t a, (p.withTable d pt map entries).At t a → p.At t a ∨ t = .pt d ∧ a = pt * 2 ^ 12 :=
    fun t a present => ok.withTable_at below small allocated present
  refine ⟨⟨ok.root, ?_, ?_, ?_, ?_⟩, slots, ?_, ?_⟩
  · intro i low
    rw [show (p.withTable d pt map entries).pdpt = p.pdpt from rfl, ok.withTable_root below allocated low]
    exact ok.pdptes i low
  · intro e low
    rw [slots e low]
    split
    · exact Or.inr ⟨pt, refersTo_tableEntry small⟩
    · exact ok.slots e low
  · intro t t' a a' different first second
    rcases found t a first with was | ⟨rfl, rfl⟩
    · rcases found t' a' second with was' | ⟨rfl, rfl⟩
      · exact ok.apart t t' a a' different was was'
      · exact (ok.clear_of_alloc allocated was).symm
    · rcases found t' a' second with was' | ⟨rfl, _⟩
      · exact ok.clear_of_alloc allocated was'
      · exact absurd rfl different
  · intro as m' allocs
    obtain ⟨nodup, spare⟩ := ok.spare _ _ (.cons allocated allocs)
    obtain ⟨unused, nodup⟩ := List.nodup_cons.mp nodup
    refine ⟨nodup, fun a member t b present => ?_⟩
    rcases found t b present with was | ⟨rfl, rfl⟩
    · exact spare a (List.mem_cons_of_mem _ member) t b was
    · -- Different whole pages are apart.
      obtain ⟨q, _, rfl⟩ := allocs.page a member
      have other : q ≠ pt := fun eq => unused (eq ▸ member)
      simp only [TableId.size, pageSize]
      omega
  · intro held
    obtain ⟨grown, fresh⟩ := memAlloc_grown held.map pageReq_valid allocated
    refine ⟨grown.ok, fun t a present => ?_⟩
    rcases found t a present with was | ⟨rfl, rfl⟩
    · exact grown.reserved _ _ (held.reserved t a was)
    · exact fresh.reserved
  · intro page low
    have lowSlot : page / 512 < 2048 := by omega
    have inside : page % 512 < 512 := Nat.mod_lt _ (by decide)
    have now := slots _ lowSlot
    split at now
    · next eq =>
      rw [pteOf_of_table (now ▸ refersTo_tableEntry small), ok.withTable_filled below allocated inside, same _ inside,
        pteOf_of_big (by rwa [eq]), eq, bigPte, bigPte, Nat.mod_mod]
    · next other =>
      rcases ok.slots _ lowSlot with big | ⟨pt', refers⟩
      · rw [pteOf_of_big big, pteOf_of_big (by rwa [now]), now]
      · have there := Paging.at_pt lowSlot refers
        have within := inside_pt (page / 512) pt' inside
        obtain ⟨here, span⟩ := ok.at_pd below
        rw [pteOf_of_table refers, pteOf_of_table (now ▸ refers), ok.withTable_words allocated there within,
          if_neg (ok.ne (by simp) there here within span)]

end

/-! ## Other memory -/

/-- Tables in reserved memory are not affected by what happens to other memory and to the map. -/
theorem Paging.Ok.keep (ok : p.Ok) (held : p.Held) (grown : p.map.Grown p'.map) (pdpt : p'.pdpt = p.pdpt)
    (words : ∀ t a, p.At t a → ∀ x, a ≤ x → x < a + t.size → p'.words x = p.words x) :
    p'.Ok ∧ (∀ d < 2048, p'.slot d = p.slot d) ∧ ∀ page < 2 ^ 20, p'.pteOf page = p.pteOf page := by
  have kept : ∀ i < 4, p'.words (p.pdpt + 8 * i) = p.words (p.pdpt + 8 * i) := by
    intro i low
    apply words .pdpt _ rfl _ (Nat.le_add_right ..)
    rw [TableId.size]
    omega
  have slots : ∀ d < 2048, p'.slot d = p.slot d := by
    intro d low
    obtain ⟨there, inDir⟩ := ok.at_pd low
    rw [Paging.slot, slotAddr_congr pdpt kept low]
    exact words _ _ there _ inDir.1 inDir.2
  have before : ∀ t a, p'.At t a → p.At t a := fun t a present => present.before pdpt kept fun d low _ => slots d low
  have held' : p'.Held := ⟨grown.ok, fun t a present => grown.reserved _ _ (held.reserved t a (before t a present))⟩
  refine ⟨⟨pdpt ▸ ok.root, ?_, ?_, ?_, fun as m' allocs => held'.spare allocs⟩, slots, ?_⟩
  · intro i low
    rw [pdpt, kept i low]
    exact ok.pdptes i low
  · intro d low
    rw [slots d low]
    exact ok.slots d low
  · exact fun t t' a a' different first second => ok.apart t t' a a' different (before _ _ first) (before _ _ second)
  · intro page low
    have lowSlot : page / 512 < 2048 := by omega
    rcases ok.slots _ lowSlot with big | ⟨pt, refers⟩
    · rw [pteOf_of_big big, pteOf_of_big (by rwa [slots _ lowSlot]), slots _ lowSlot]
    · have within := inside_pt (page / 512) pt (Nat.mod_lt page (by decide))
      rw [pteOf_of_table refers, pteOf_of_table (slots _ lowSlot ▸ refers)]
      exact words _ _ (Paging.at_pt lowSlot refers) _ within.1 within.2

end

end Biefircate
