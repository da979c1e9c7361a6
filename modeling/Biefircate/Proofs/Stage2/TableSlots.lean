import Biefircate.Proofs.Stage2.PageMap
import Mathlib.Data.Finset.Card

/-! # Which slots get a page table

The loop of `do_va_map` gives a slot a page table exactly if it maps some of the slot's pages but not all of
them, and each new page table takes one page of memory. So the pages that a number of such loops take can be
counted before they run.
-/

namespace Biefircate

/-- A slot with pages of both kinds: some that have the property, and some that do not. -/
def Divided (P : ℕ → Prop) (d : ℕ) : Prop :=
  (∃ page, page / 512 = d ∧ P page) ∧ ∃ page, page / 512 = d ∧ ¬ P page

theorem divided_congr {P Q : ℕ → Prop} {d : ℕ} (same : ∀ page, page / 512 = d → (P page ↔ Q page)) :
    Divided P d ↔ Divided Q d :=
  and_congr (exists_congr fun page => and_congr_right fun inside => same page inside)
    (exists_congr fun page => and_congr_right fun inside => not_congr (same page inside))

/-- Two properties with other pages in between divide the slots that either of them divides. -/
theorem divided_or_iff {P Q : ℕ → Prop} {d : ℕ} (parted : ∀ x y, P x → Q y → x / 512 = y / 512 →
      ∃ w, w / 512 = x / 512 ∧ ¬ P w ∧ ¬ Q w) :
    Divided (fun page => P page ∨ Q page) d ↔ Divided P d ∨ Divided Q d := by
  constructor
  · rintro ⟨⟨c, inside, has⟩, u, inside', lacks⟩
    obtain ⟨notP, notQ⟩ := not_or.mp lacks
    exact has.imp (fun has => ⟨⟨c, inside, has⟩, u, inside', notP⟩) fun has => ⟨⟨c, inside, has⟩, u, inside', notQ⟩
  · rintro (⟨⟨c, inside, has⟩, u, inside', lacks⟩ | ⟨⟨c, inside, has⟩, u, inside', lacks⟩)
    · refine ⟨⟨c, inside, Or.inl has⟩, ?_⟩
      by_cases other : Q u
      · obtain ⟨w, same, notP, notQ⟩ := parted c u has other (inside.trans inside'.symm)
        exact ⟨w, same.trans inside, not_or.mpr ⟨notP, notQ⟩⟩
      · exact ⟨u, inside', not_or.mpr ⟨lacks, other⟩⟩
    · refine ⟨⟨c, inside, Or.inr has⟩, ?_⟩
      by_cases other : P u
      · obtain ⟨w, same, notP, notQ⟩ := parted u c other has (inside'.trans inside.symm)
        exact ⟨w, same.trans inside', not_or.mpr ⟨notP, notQ⟩⟩
      · exact ⟨u, inside', not_or.mpr ⟨other, lacks⟩⟩

/-- The pages from `q` on, `n` of them. -/
def InSpan (q n page : ℕ) : Prop := q ≤ page ∧ page < q + n

/-- A span divides the slots that it meets and does not fill. -/
theorem divided_inSpan_iff {q n d : ℕ} : Divided (InSpan q n) d ↔
    (0 < n ∧ q < 512 * d + 512 ∧ 512 * d < q + n) ∧ ¬ (q ≤ 512 * d ∧ 512 * d + 512 ≤ q + n) := by
  constructor
  · rintro ⟨⟨c, inside, low, high⟩, u, inside', lacks⟩
    rw [InSpan] at lacks
    omega
  · rintro ⟨⟨positive, before, after⟩, sticks⟩
    refine ⟨⟨max q (512 * d), by omega, by omega, by omega⟩, ?_⟩
    by_cases early : 512 * d < q
    · exact ⟨512 * d, by omega, fun inside => not_lt.mpr inside.1 early⟩
    · refine ⟨512 * d + 511, by omega, fun inside => ?_⟩
      have top := inside.2
      omega

/-- The slots that have a page table. -/
def Paging.tables (p : Paging) : Finset ℕ :=
  (Finset.range 2048).filter fun d => p.slot d ≠ 0 ∧ p.slot d &&& pdePs = 0

section

variable {p p' p'' : Paging} {d q n flags : ℕ} {slots slots' : ℕ → Prop} {all : Finset ℕ} {last : MemMap}

theorem Paging.Ok.mem_tables (ok : p.Ok) : d ∈ p.tables ↔ d < 2048 ∧ IsTable (p.slot d) := by
  rw [Paging.tables, Finset.mem_filter, Finset.mem_range]
  refine and_congr_right fun below => ⟨?_, IsTable.tests⟩
  rintro ⟨nonzero, clear⟩
  exact (ok.slots d below).resolve_left fun big => big.replaceable.elim nonzero fun set => set clear

/-- A slot without a page table is blank or a large page. -/
theorem Paging.Ok.big_of_notMem (ok : p.Ok) (below : d < 2048) (none : d ∉ p.tables) : BigOk (p.slot d) :=
  (ok.slots d below).resolve_right fun table => none (ok.mem_tables.mpr ⟨below, table⟩)

theorem Paging.Ok.tables_eq (ok : p.Ok) (ok' : p'.Ok) (same : ∀ e < 2048, IsTable (p'.slot e) ↔ IsTable (p.slot e)) :
    p'.tables = p.tables := by
  ext e
  rw [ok.mem_tables, ok'.mem_tables]
  exact and_congr_right fun below => same e below

/-! ## Counting the pages -/

/-- The slots asked for have got page tables, and no others, with a page of memory for each that is new. -/
structure Tabled (slots : ℕ → Prop) (p p' : Paging) : Prop where
  tables : ∀ d, d ∈ p'.tables ↔ d ∈ p.tables ∨ d < 2048 ∧ slots d
  allocs : ∃ as, PageAllocs p.map as p'.map ∧ as.length + p.tables.card = p'.tables.card

theorem Tabled.refl (p : Paging) : Tabled (fun _ => False) p p where
  tables d := by simp
  allocs := ⟨[], .nil _, Nat.zero_add _⟩

theorem Tabled.trans (first : Tabled slots p p') (second : Tabled slots' p' p'') :
    Tabled (fun d => slots d ∨ slots' d) p p'' where
  tables d := by
    rw [second.tables, first.tables, or_assoc, ← and_or_left]
  allocs := by
    obtain ⟨as, early, count⟩ := first.allocs
    obtain ⟨bs, late, count'⟩ := second.allocs
    refine ⟨as ++ bs, early.append late, ?_⟩
    rw [List.length_append]
    omega

theorem Tabled.congr (tabled : Tabled slots p p') (same : ∀ d < 2048, d ∉ p.tables → (slots d ↔ slots' d)) :
    Tabled slots' p p' where
  tables d := by
    rw [tabled.tables]
    by_cases table : d ∈ p.tables
    · simp only [table, true_or]
    · exact or_congr_right (and_congr_right fun below => same d below table)
  allocs := tabled.allocs

theorem Tabled.subset (tabled : Tabled slots p p') : p.tables ⊆ p'.tables :=
  fun d table => (tabled.tables d).mpr (Or.inl table)

/-- Memory runs out before all slots asked for have page tables. -/
def TablesFail (slots : ℕ → Prop) (p : Paging) : Prop :=
  ∃ as m' stop, PageAllocs p.map as m' ∧ memAlloc m' pageSize pageSize 0 = .error stop ∧
    ∀ all : Finset ℕ, p.tables ⊆ all → (∀ d < 2048, slots d → d ∈ all) → as.length + p.tables.card < all.card

theorem TablesFail.mono (fails : TablesFail slots p) (within : ∀ d < 2048, slots d → d ∈ p.tables ∨ slots' d) :
    TablesFail slots' p := by
  obtain ⟨as, m', stop, allocs, failed, few⟩ := fails
  refine ⟨as, m', stop, allocs, failed, fun all tables wanted => few all tables fun d below asked => ?_⟩
  exact (within d below asked).elim (fun table => tables table) (wanted d below)

theorem Tabled.fails (tabled : Tabled slots p p') (fails : TablesFail slots' p') :
    TablesFail (fun d => slots d ∨ slots' d) p := by
  obtain ⟨as, early, count⟩ := tabled.allocs
  obtain ⟨bs, m', stop, late, failed, few⟩ := fails
  refine ⟨as ++ bs, m', stop, early.append late, failed, fun all tables wanted => ?_⟩
  have enough := few all ?_ fun d below asked => wanted d below (Or.inr asked)
  · rw [List.length_append]
    omega
  · intro d table
    rcases (tabled.tables d).mp table with was | ⟨below, asked⟩
    · exact tables was
    · exact wanted d below (Or.inl asked)

/-! ## One slot -/

theorem Ensured.tabled {pt a : ℕ} (ok : p.Ok) (below : d < 2048) (ensured : Ensured p d p' pt) (none : d ∉ p.tables)
    (allocs : PageAllocs p.map [a] p'.map) : Tabled (· = d) p p' := by
  have tables : ∀ e, e ∈ p'.tables ↔ e ∈ p.tables ∨ e < 2048 ∧ e = d := by
    intro e
    rw [ensured.ok.mem_tables, ok.mem_tables]
    by_cases same : e = d
    · subst same
      exact iff_of_true ⟨below, pt, ensured.refers⟩ (Or.inr ⟨below, rfl⟩)
    · simp only [same, and_false, or_false]
      exact and_congr_right fun low => by rw [ensured.others e low same]
  refine ⟨tables, [a], allocs, ?_⟩
  have new : p'.tables = insert d p.tables := by
    ext e
    rw [tables, Finset.mem_insert]
    constructor
    · rintro (was | ⟨_, same⟩)
      · exact Or.inr was
      · exact Or.inl same
    · rintro (same | was)
      · exact Or.inr ⟨same ▸ below, same⟩
      · exact Or.inl was
  rw [new, Finset.card_insert_of_notMem none, List.length_singleton, Nat.add_comm]

/-- `ensure_pt` takes a page if the slot has no page table yet. -/
theorem ensurePt_tabled (ok : p.Ok) (below : d < 2048) :
    (∃ pt p', ensurePt p (p.slotAddr d) = .ok (pt * 2 ^ 12, p') ∧ Ensured p d p' pt ∧ Tabled (· = d) p p') ∨
      ∃ stop, ensurePt p (p.slotAddr d) = .error stop ∧ TablesFail (· = d) p := by
  by_cases table : d ∈ p.tables
  · obtain ⟨_, pt, refers⟩ := ok.mem_tables.mp table
    obtain ⟨made, ensured⟩ := ensured_of_table ok refers
    refine Or.inl ⟨pt, p, made, ensured, (Tabled.refl p).congr fun e _ other => ?_⟩
    exact iff_of_false id fun same => other (same ▸ table)
  · have big := ok.big_of_notMem below table
    cases allocated : memAlloc p.map pageSize pageSize 0 with
    | error stop =>
      refine Or.inr ⟨stop, ensurePt_of_fail big allocated, [], p.map, stop, .nil _, allocated, ?_⟩
      intro all tables wanted
      rw [List.length_nil, Nat.zero_add]
      apply Finset.card_lt_card
      apply (Finset.ssubset_iff_of_subset tables).mpr
      exact ⟨d, wanted d below rfl, table⟩
    | ok result =>
      obtain ⟨a, after⟩ := result
      obtain ⟨pt, p', made, ensured, map⟩ := ensurePt_of_alloc ok below big allocated
      have allocs : PageAllocs p.map [a] p'.map := by
        rw [map]
        exact .single allocated
      exact Or.inl ⟨pt, p', made, ensured, ensured.tabled ok below table allocs⟩

/-! ## The loop -/

/-- A round that maps a large page leaves the page tables alone. -/
theorem Tabled.round_large {entry : ℕ} (ok : p.Ok) (below : d < 2048) (big : BigOk (p.slot d)) (new : BigOk entry) :
    Tabled (fun _ => False) p (p.setWord (p.slotAddr d) entry) := by
  obtain ⟨ok', slots, _, _⟩ := ok.setSlot below new
  have same : (p.setWord (p.slotAddr d) entry).tables = p.tables := by
    apply ok.tables_eq ok'
    intro e low
    rw [slots e low]
    split
    · next eq => exact iff_of_false new.not_table (eq ▸ big.not_table)
    · rfl
  refine ⟨fun e => ?_, [], .nil _, ?_⟩
  · rw [same, and_false, or_false]
  · rw [same, List.length_nil, Nat.zero_add]

/-- Writing an entry of a page table leaves them alone too. -/
theorem Tabled.setPte {pt i : ℕ} (tabled : Tabled slots p p') (ok : p'.Ok) (below : d < 2048)
    (refers : RefersTo (p'.slot d) pt) (inside : i < 512) (v : ℕ) :
    Tabled slots p (p'.setWord (pt * 2 ^ 12 + 8 * i) v) := by
  obtain ⟨ok', same, _, _⟩ := ok.setPte below refers inside v
  have same : (p'.setWord (pt * 2 ^ 12 + 8 * i) v).tables = p'.tables :=
    ok.tables_eq ok' fun e low => by rw [same e low]
  refine ⟨fun e => ?_, ?_⟩
  · rw [same]
    exact tabled.tables e
  · rw [same]
    exact tabled.allocs

/-- No pages take no page tables. -/
theorem Tabled.empty (p : Paging) (q : ℕ) : Tabled (Divided (InSpan q 0)) p p := by
  apply (Tabled.refl p).congr
  intro d _ _
  exact iff_of_false id fun divided => absurd (divided_inSpan_iff.mp divided).1.1 (lt_irrefl 0)

/-- The loop, where addresses and frames lie alike in their slots. -/
theorem doVaMapFrom_tabled {fuel f : ℕ} (ok : p.Ok) (below : q + n ≤ 2 ^ 20) (alike : f % 512 = q % 512)
    (cache : CacheFlags flags) (enough : n < fuel) :
    (∃ p', doVaMapFrom flags fuel p (q * 2 ^ 12 % 2 ^ 32) (f * 2 ^ 12 % 2 ^ 64) (n * 2 ^ 12) = .ok p' ∧
        Tabled (Divided (InSpan q n)) p p') ∨
      ∃ stop, doVaMapFrom flags fuel p (q * 2 ^ 12 % 2 ^ 32) (f * 2 ^ 12 % 2 ^ 64) (n * 2 ^ 12) = .error stop ∧
        TablesFail (Divided (InSpan q n)) p := by
  induction fuel generalizing p q f n with
  | zero => exact absurd enough (Nat.not_lt_zero _)
  | succ fuel ih =>
    rcases Nat.eq_zero_or_pos n with rfl | positive
    · refine Or.inl ⟨p, ?_, .empty p q⟩
      rw [doVaMapFrom, if_pos (Nat.zero_mul _)]
    have lowSlot : q / 512 < 2048 := by omega
    rcases doVaMapFrom_round ok positive below cache fuel with ⟨⟨alignedQ, alignedF, wide, big⟩, step⟩ | ⟨small, step⟩
    · -- The slot lies within the span, and the rest of the span does not meet it.
      have new : BigOk (largeEntry (f / 512 % 2 ^ 43) flags) :=
        Or.inr (isLarge_largeEntry (Nat.mod_lt _ (by decide)) cache)
      have round := Tabled.round_large ok lowSlot big new
      have rest : ∀ d, Divided (InSpan (q + 512) (n - 512)) d ↔ Divided (InSpan q n) d := by
        intro d
        rw [divided_inSpan_iff, divided_inSpan_iff]
        omega
      rw [step]
      refine (ih (q := q + 512) (f := f + 512) (n := n - 512) (ok.setSlot lowSlot new).1 (by omega) (by omega)
        (by omega)).imp ?_ ?_
      · rintro ⟨p', ran, tabled⟩
        refine ⟨p', ran, (round.trans tabled).congr fun d _ _ => ?_⟩
        rw [false_or, rest]
      · rintro ⟨stop, ran, fails⟩
        refine ⟨stop, ran, (round.fails fails).mono fun d _ asked => ?_⟩
        rw [false_or, rest] at asked
        exact Or.inr asked
    · -- Unless it has a page table, the slot sticks out of the span.
      have rest : ∀ d < 2048, d ∉ p.tables → (d = q / 512 ∨ Divided (InSpan (q + 1) (n - 1)) d ↔ Divided (InSpan q n) d) := by
        intro d low none
        have free := ok.big_of_notMem low none
        rw [divided_inSpan_iff, divided_inSpan_iff]
        by_cases same : d = q / 512
        · subst same
          have sticks : ¬ (q % 512 = 0 ∧ 512 ≤ n) := fun fills => small ⟨fills.1, by omega, fills.2, free⟩
          omega
        · omega
      rw [step]
      rcases ensurePt_tabled ok lowSlot with ⟨pt, p1, made, ensured, tabled⟩ | ⟨stop, made, fails⟩
      · rw [made, ok_bind]
        have inside : q % 512 < 512 := Nat.mod_lt q (by decide)
        have round := tabled.setPte ensured.ok lowSlot ensured.refers inside (smallEntry (f % 2 ^ 52) flags)
        have ok' := (ensured.ok.setPte lowSlot ensured.refers inside (smallEntry (f % 2 ^ 52) flags)).1
        apply (ih (q := q + 1) (f := f + 1) (n := n - 1) ok' (by omega) (by omega) (by omega)).imp
        · rintro ⟨p', ran, last⟩
          exact ⟨p', ran, (round.trans last).congr rest⟩
        · rintro ⟨stop, ran, fails⟩
          refine ⟨stop, ran, (round.fails fails).mono fun d low asked => ?_⟩
          exact or_iff_not_imp_left.mpr fun none => (rest d low none).mp asked
      · rw [made, error_bind]
        refine Or.inr ⟨stop, rfl, fails.mono fun d low same => ?_⟩
        exact or_iff_not_imp_left.mpr fun none => (rest d low none).mp (Or.inl same)

/-- What `do_va_id_map` does with whole pages. -/
theorem doVaIdMap_tabled {start len : ℕ} (ok : p.Ok) (place : start = q * 2 ^ 12) (size : len = n * 2 ^ 12)
    (below : q + n ≤ 2 ^ 20) (cache : CacheFlags flags) :
    (∃ p', doVaIdMap p start len flags = .ok p' ∧ Mapped flags q q n p p' ∧ Tabled (Divided (InSpan q n)) p p') ∨
      ∃ stop, doVaIdMap p start len flags = .error stop ∧ TablesFail (Divided (InSpan q n)) p := by
  rcases Nat.eq_zero_or_pos n with rfl | positive
  · refine Or.inl ⟨p, ?_, .refl ok, .empty p q⟩
    rw [size, doVaIdMap, doVaMap, vaRounds, doVaMapFrom, if_pos (Nat.zero_mul _)]
  · have enough : n < vaRounds := by
      rw [vaRounds, xm32MaxAddr, pageSize]
      omega
    have cases := doVaMapFrom_tabled (f := q) ok below rfl cache enough
    rw [Nat.mod_eq_of_lt (show q * 2 ^ 12 < 2 ^ 32 by omega), Nat.mod_eq_of_lt (show q * 2 ^ 12 < 2 ^ 64 by omega)] at cases
    rw [place, size]
    apply cases.imp_left
    rintro ⟨p', ran, tabled⟩
    exact ⟨p', ran, doVaMap_ok ok rfl rfl rfl below (by omega) cache ran, tabled⟩

/-! ## Enough memory -/

/-- Memory for a page table in each of the slots given, and the map once all of it is taken. -/
structure Supply (all : Finset ℕ) (last : MemMap) (p : Paging) : Prop where
  tables : p.tables ⊆ all
  allocs : ∃ as, PageAllocs p.map as last ∧ as.length + p.tables.card = all.card

/-- With memory for all slots asked for it does not run out. -/
theorem Supply.suffices (supply : Supply all last p) (wanted : ∀ d < 2048, slots d → d ∈ all) : ¬ TablesFail slots p := by
  rintro ⟨bs, m', stop, early, failed, few⟩
  obtain ⟨as, whole, count⟩ := supply.allocs
  have fewer := few all supply.tables wanted
  obtain ⟨cs, rest, sum⟩ := whole.rest early (by omega)
  cases rest with
  | nil =>
    rw [List.length_nil] at sum
    omega
  | cons ran _ =>
    rw [failed] at ran
    cases ran

/-- What has not been taken remains. -/
theorem Supply.next (supply : Supply all last p) (tabled : Tabled slots p p') (wanted : ∀ d < 2048, slots d → d ∈ all) :
    Supply all last p' := by
  have tables : p'.tables ⊆ all := by
    intro d table
    rcases (tabled.tables d).mp table with was | ⟨below, asked⟩
    · exact supply.tables was
    · exact wanted d below asked
  obtain ⟨as, whole, count⟩ := supply.allocs
  obtain ⟨bs, early, count'⟩ := tabled.allocs
  have bound := Finset.card_le_card tables
  obtain ⟨cs, rest, sum⟩ := whole.rest early (by omega)
  exact ⟨tables, cs, rest, by omega⟩

end

end Biefircate
