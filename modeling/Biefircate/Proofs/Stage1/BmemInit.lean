import Biefircate.Proofs.Stage1.BmemInvariant

/-! # What `bmem_init` leaves

The blocks are the maximal runs of granted pages. Every granted page is also available, so the first page that
is not available, where `runtime_bmem_top` goes, lies in no block.
-/

namespace Biefircate

/-! ## Runs of granted pages -/

/-- The pages from `first` up to `stop` are granted, and the pages next to them are not. Page 0 does not count. -/
structure IsRun (granted : ℕ → Bool) (first stop : ℕ) : Prop where
  low : 1 ≤ first
  nonempty : first < stop
  high : stop ≤ 256
  pages : ∀ page, first ≤ page → page < stop → granted page = true
  before : first = 1 ∨ granted (first - 1) = false
  after : stop = 256 ∨ granted stop = false

/-- The block of a run, all of it free. -/
def runBlk (first stop : ℕ) : Blk := ⟨first * efiPageSize, stop * efiPageSize, stop * efiPageSize⟩

variable {granted : ℕ → Bool} {first stop first' stop' idx start left page : ℕ} {blk out : List Blk} {b : Blk}

theorem IsRun.le_of_meets (run : IsRun granted first stop) (other : IsRun granted first' stop') (low : first ≤ first')
    (high : first' < stop) : first' = first ∧ stop' ≤ stop := by
  have start := other.low
  have same : first' = first := by
    by_contra later
    rcases other.before with one | gap
    · have bottom := run.low
      omega
    · have inside := run.pages (first' - 1) (by omega) (by omega)
      rw [gap] at inside
      cases inside
  refine ⟨same, ?_⟩
  by_contra longer
  rcases run.after with top | gap
  · have bound := other.high
    omega
  · have inside := other.pages stop (by omega) (by omega)
    rw [gap] at inside
    cases inside

/-- Two maximal runs with a common page are the same. -/
theorem IsRun.eq_of_meets (run : IsRun granted first stop) (other : IsRun granted first' stop') (low : first ≤ first')
    (high : first' < stop) : first' = first ∧ stop' = stop := by
  obtain ⟨rfl, shorter⟩ := run.le_of_meets other low high
  exact ⟨rfl, le_antisymm shorter (other.le_of_meets run le_rfl other.nonempty).2⟩

/-! ## Grouping the granted pages -/

/-- The blocks found before page `idx`: all the runs there are, none next to another. Each takes two pages or more,
with the gap before it. -/
structure GroupedBlks (granted : ℕ → Bool) (idx : ℕ) (blk : List Blk) : Prop where
  runs : ∀ b ∈ blk, ∃ first stop, IsRun granted first stop ∧ stop ≤ idx ∧ b = runBlk first stop
  all : ∀ page, 1 ≤ page → page < idx → granted page = true →
    ∃ b ∈ blk, b.start ≤ page * efiPageSize ∧ page * efiPageSize < b.origEnd
  apart : blk.Pairwise fun a b => a.origEnd < b.start
  few : 2 * blk.length ≤ idx

/-- No block is open at page `idx`, where one may begin. -/
private structure Gap (granted : ℕ → Bool) (idx : ℕ) (blk : List Blk) : Prop where
  low : 1 ≤ idx
  grouped : GroupedBlks granted idx blk
  few : 2 * blk.length < idx
  before : idx = 1 ∨ granted (idx - 1) = false

/-- The state of the loop at page `idx`: outside a block, or in one that began at page `first`. -/
private structure Grouping (granted : ℕ → Bool) (idx start : ℕ) (blk : List Blk) : Prop where
  outside : start = bmemMaxAddr → Gap granted idx blk
  inside : start ≠ bmemMaxAddr → ∃ first, start = first * efiPageSize ∧ first < idx ∧ Gap granted first blk ∧
    ∀ page, first ≤ page → page < idx → granted page = true

private theorem GroupedBlks.next (grouped : GroupedBlks granted idx blk) (unset : granted idx = false) :
    Gap granted (idx + 1) blk where
  low := Nat.succ_pos idx
  grouped := by
    refine ⟨?_, ?_, grouped.apart, grouped.few.trans (Nat.le_succ idx)⟩
    · intro b member
      obtain ⟨first, stop, run, bound, same⟩ := grouped.runs b member
      exact ⟨first, stop, run, by omega, same⟩
    · intro page low below set
      rcases Nat.lt_or_eq_of_le (Nat.le_of_lt_succ below) with earlier | rfl
      · exact grouped.all page low earlier set
      · rw [unset] at set
        cases set
  few := Nat.lt_succ_of_le grouped.few
  before := Or.inr unset

/-- The run that began at page `first` becomes a block. -/
private theorem Gap.close (gap : Gap granted first blk) (run : IsRun granted first idx) :
    addBlk blk (first * efiPageSize) (idx * efiPageSize) = .ok (blk ++ [runBlk first idx]) ∧
      GroupedBlks granted idx (blk ++ [runBlk first idx]) := by
  obtain ⟨_, grouped, few, _⟩ := gap
  have nonempty := run.nonempty
  have high := run.high
  refine ⟨if_pos (by rw [maxBmemBlks, bmemMaxAddr, efiPageSize]; omega), ?_, ?_, ?_, ?_⟩
  · simp only [List.mem_append, List.mem_singleton]
    rintro b (old | rfl)
    · obtain ⟨first', stop', run', bound, same⟩ := grouped.runs b old
      exact ⟨first', stop', run', by omega, same⟩
    · exact ⟨first, idx, run, le_rfl, rfl⟩
  · intro page low below set
    rcases Nat.lt_or_ge page first with earlier | later
    · obtain ⟨b, member, covers⟩ := grouped.all page low earlier set
      exact ⟨b, List.mem_append_left _ member, covers⟩
    · refine ⟨runBlk first idx, by simp, Nat.mul_le_mul_right _ later, ?_⟩
      exact Nat.mul_lt_mul_of_pos_right below (by decide)
  · refine List.pairwise_append.mpr ⟨grouped.apart, List.pairwise_singleton _ _, ?_⟩
    intro b old b' new
    obtain rfl := List.mem_singleton.mp new
    obtain ⟨first', stop', run', bound, rfl⟩ := grouped.runs b old
    have apart : stop' ≠ first := by
      rintro rfl
      have set := run.pages stop' le_rfl nonempty
      rcases run'.after with top | unset
      · omega
      · rw [set] at unset
        cases unset
    exact Nat.mul_lt_mul_of_pos_right (by omega) (by decide)
  · rw [List.length_append, List.length_singleton]
    omega

/-- The loop finds all the runs. -/
private theorem groupBlks_grouped (total : idx + left = 256) (low : 1 ≤ idx) (grouping : Grouping granted idx start blk) :
    ∃ out, groupBlks granted left idx start blk = .ok out ∧ GroupedBlks granted 256 out := by
  induction left generalizing idx start blk with
  | zero =>
    obtain rfl : idx = 256 := by omega
    rw [groupBlks]
    split
    · next open_ =>
      obtain ⟨first, rfl, early, gap, known⟩ := grouping.inside open_
      exact ⟨_, gap.close ⟨gap.low, early, le_rfl, known, gap.before, Or.inl rfl⟩⟩
    · next closed => exact ⟨blk, rfl, (grouping.outside (not_not.mp closed)).grouped⟩
  | succ left ih =>
    have page : idx * efiPageSize ≠ bmemMaxAddr := by
      simp only [efiPageSize, bmemMaxAddr]
      omega
    rw [groupBlks]
    split
    · next set =>
      apply ih (by omega) (by omega)
      split
      · next closed =>
        refine ⟨fun same => absurd same page, fun _ => ⟨idx, rfl, by omega, grouping.outside closed, ?_⟩⟩
        intro other above below
        rwa [show other = idx by omega]
      · next open_ =>
        obtain ⟨first, same, early, gap, known⟩ := grouping.inside open_
        refine ⟨fun closed => absurd closed open_, fun _ => ⟨first, same, by omega, gap, ?_⟩⟩
        intro other above below
        rcases Nat.lt_or_ge other idx with old | new
        · exact known other above old
        · rwa [show other = idx by omega]
    · next unset =>
      have unset : granted idx = false := by simpa using unset
      split
      · next open_ =>
        obtain ⟨first, rfl, early, gap, known⟩ := grouping.inside open_
        obtain ⟨added, grouped⟩ := gap.close ⟨gap.low, early, by omega, known, gap.before, Or.inr unset⟩
        rw [added, ok_bind]
        exact ih (by omega) (by omega) ⟨fun _ => grouped.next unset, fun other => absurd rfl other⟩
      · next closed =>
        have gap := (grouping.outside (not_not.mp closed)).grouped.next unset
        exact ih (by omega) (by omega) ⟨fun _ => gap, fun other => absurd other closed⟩

/-- The blocks that `bmem_init` makes of the granted pages. -/
theorem groupBlks_all (granted : ℕ → Bool) : ∃ blk, groupBlks granted (bmemMaxAddr / efiPageSize - 1) 1 bmemMaxAddr [] =
    .ok blk ∧ GroupedBlks granted 256 blk := by
  apply groupBlks_grouped rfl le_rfl
  refine ⟨fun _ => ⟨le_rfl, ⟨by simp, ?_, List.Pairwise.nil, by decide⟩, by decide, Or.inl rfl⟩, fun other => absurd rfl other⟩
  intro page low below
  omega

/-- The blocks are those of the runs, no more and no fewer. -/
theorem GroupedBlks.mem_iff (grouped : GroupedBlks granted 256 blk) :
    b ∈ blk ↔ ∃ first stop, IsRun granted first stop ∧ b = runBlk first stop := by
  constructor
  · intro member
    obtain ⟨first, stop, run, _, same⟩ := grouped.runs b member
    exact ⟨first, stop, run, same⟩
  · rintro ⟨first, stop, run, rfl⟩
    have set := run.pages first le_rfl run.nonempty
    obtain ⟨b, member, above, below⟩ := grouped.all first run.low (run.nonempty.trans_le run.high) set
    obtain ⟨first', stop', run', _, rfl⟩ := grouped.runs b member
    simp only [runBlk, efiPageSize] at above below
    obtain ⟨rfl, rfl⟩ := run'.eq_of_meets run (by omega) (by omega)
    exact member

theorem GroupedBlks.sorted (grouped : GroupedBlks granted idx blk) : Span.Ordered Blk.start Blk.origEnd blk :=
  grouped.apart.imp Nat.le_of_lt

theorem GroupedBlks.pages (grouped : GroupedBlks granted idx blk) : ∀ b ∈ blk, ∀ x, b.start ≤ x → x < b.origEnd →
    granted (x / efiPageSize) = true := by
  intro b member x above below
  obtain ⟨first, stop, run, _, rfl⟩ := grouped.runs b member
  simp only [runBlk, efiPageSize] at above below ⊢
  exact run.pages _ (by omega) (by omega)

theorem GroupedBlks.whole (grouped : GroupedBlks granted idx blk) : ∀ b ∈ blk, efiPageSize ≤ b.start ∧ b.start < b.bend ∧
    b.bend = b.origEnd ∧ b.origEnd ≤ bmemMaxAddr := by
  intro b member
  obtain ⟨first, stop, run, _, rfl⟩ := grouped.runs b member
  have low := run.low
  have nonempty := run.nonempty
  have high := run.high
  simp only [runBlk, efiPageSize, bmemMaxAddr, true_and]
  omega

/-! ## Gauging the memory at address 0 -/

/-- The page lies in memory that the descriptor says will be free. -/
def EfiMemoryDescriptor.HasPage (desc : EfiMemoryDescriptor) (page : ℕ) : Prop := desc.type.isUsable = true ∧
  desc.physicalStart / efiPageSize ≤ page ∧ page < desc.physicalStart / efiPageSize + desc.numberOfPages

variable {desc : EfiMemoryDescriptor} {descs : List EfiMemoryDescriptor} {gauged : (ℕ → Bool) × ℕ}

theorem gaugeDesc_of_set (desc : EfiMemoryDescriptor) (set : gauged.1 page = true) : (gaugeDesc gauged desc).1 page = true := by
  unfold gaugeDesc
  split
  · simp [set]
  · exact set

theorem gaugeDesc_iff (few : desc.numberOfPages < 2 ^ 32 - 256) (below : page < 256) :
    (gaugeDesc gauged desc).1 page = true ↔ gauged.1 page = true ∨ desc.HasPage page := by
  unfold gaugeDesc EfiMemoryDescriptor.HasPage
  by_cases usable : desc.type.isUsable = true ∧ desc.physicalStart < bmemMaxAddr
  · obtain ⟨free, low⟩ := usable
    simp only [bmemMaxAddr] at low
    rw [if_pos ⟨free, low⟩]
    dsimp only
    rw [Word.add_of_lt (by simp only [efiPageSize]; omega), ← min_def_lt, Bool.or_eq_true, decide_eq_true_iff]
    simp only [free, true_and, efiPageSize, bmemMaxAddr]
    apply or_congr_right
    omega
  · rw [if_neg usable]
    refine (or_iff_left ?_).symm
    rintro ⟨free, above, -⟩
    refine usable ⟨free, ?_⟩
    simp only [efiPageSize, bmemMaxAddr] at above ⊢
    omega

theorem foldl_gaugeDesc_of_set (descs : List EfiMemoryDescriptor) (gauged : (ℕ → Bool) × ℕ) (set : gauged.1 page = true) :
    (descs.foldl gaugeDesc gauged).1 page = true := by
  induction descs generalizing gauged with
  | nil => exact set
  | cons desc rest ih => exact ih _ (gaugeDesc_of_set desc set)

theorem foldl_gaugeDesc_iff (few : ∀ desc ∈ descs, desc.numberOfPages < 2 ^ 32 - 256) (below : page < 256) :
    (descs.foldl gaugeDesc gauged).1 page = true ↔ gauged.1 page = true ∨ ∃ desc ∈ descs, desc.HasPage page := by
  induction descs generalizing gauged with
  | nil => simp
  | cons desc rest ih =>
    obtain ⟨here, later⟩ := List.forall_mem_cons.mp few
    rw [List.foldl_cons, ih later, gaugeDesc_iff here below]
    rw [List.exists_mem_cons_iff, or_assoc]

theorem firstClear_spec (avail : ℕ → Bool) (left idx : ℕ) : firstClear avail left idx ≤ idx + left ∧
    (firstClear avail left idx < idx + left → avail (firstClear avail left idx) = false) ∧
      ∀ page, idx ≤ page → page < firstClear avail left idx → avail page = true := by
  induction left generalizing idx with
  | zero =>
    rw [firstClear]
    exact ⟨le_rfl, fun below => absurd below (lt_irrefl _), fun page low high => absurd high (not_lt.mpr low)⟩
  | succ left ih =>
    rw [firstClear]
    split
    · next set =>
      obtain ⟨bound, clear, before⟩ := ih (idx + 1)
      refine ⟨by omega, fun below => clear (by omega), fun page low high => ?_⟩
      rcases Nat.lt_or_eq_of_le low with later | rfl
      · exact before page later high
      · exact set
    · next unset =>
      exact ⟨by omega, fun _ => by simpa using unset, fun page low high => absurd high (not_lt.mpr low)⟩

/-- What a check of the bounds that passes says. -/
theorem bmemCheckEnough_ok {s : Bmem} (passed : bmemCheckEnough s = .ok ()) :
    192 * kibyte ≤ s.runtimeBmemTop ∧ s.boottimeBmemBot + 128 * kibyte ≤ s.runtimeBmemTop := by
  unfold bmemCheckEnough at passed
  obtain ⟨enough, _⟩ := ite_error_eq_ok.mp passed
  simp only [kibyte] at enough ⊢
  omega

theorem bmemCheckEnough_error {s : Bmem} {failure : Stop} (failed : bmemCheckEnough s = .error failure) :
    failure = .error "not enough base mem.!" := by
  unfold bmemCheckEnough at failed
  split at failed
  · exact (Except.error.inj failed).symm
  · cases failed

/-- The first page that is neither granted nor free at the end of boot services, or the 256th. -/
def topPage (granted : ℕ → Bool) (descs : List EfiMemoryDescriptor) : ℕ :=
  firstClear (descs.foldl gaugeDesc (granted, allBmemAttr)).1 (bmemMaxAddr / efiPageSize) 0

/-- The page is a granted one, or free. -/
theorem topPage_le (granted : ℕ → Bool) (descs : List EfiMemoryDescriptor) : topPage granted descs ≤ 256 ∧
    (topPage granted descs < 256 → ¬ granted (topPage granted descs) = true) := by
  obtain ⟨bound, clear, -⟩ := firstClear_spec (descs.foldl gaugeDesc (granted, allBmemAttr)).1 (bmemMaxAddr / efiPageSize) 0
  refine ⟨bound, fun below set => ?_⟩
  have avail := foldl_gaugeDesc_of_set descs (granted, allBmemAttr) set
  exact absurd avail (by rw [topPage, clear below]; decide)

/-- Which page that is. -/
theorem topPage_spec (few : ∀ desc ∈ descs, desc.numberOfPages < 2 ^ 32 - 256) :
    (∀ page < topPage granted descs, granted page = true ∨ ∃ desc ∈ descs, desc.HasPage page) ∧
      (topPage granted descs < 256 → ¬ (granted (topPage granted descs) = true ∨
        ∃ desc ∈ descs, desc.HasPage (topPage granted descs))) := by
  obtain ⟨bound, clear, before⟩ := firstClear_spec (descs.foldl gaugeDesc (granted, allBmemAttr)).1 (bmemMaxAddr / efiPageSize) 0
  constructor
  · intro page below
    exact (foldl_gaugeDesc_iff few (below.trans_le bound)).mp (before page (Nat.zero_le page) below)
  · intro below avail
    have set := (@foldl_gaugeDesc_iff _ _ (granted, allBmemAttr) few below).mpr avail
    exact absurd set (by rw [topPage, clear below]; decide)

/-- The state that `bmem_init` leaves, unless it stops with an error message. -/
theorem bmemInit_cases (granted : ℕ → Bool) (descs : List EfiMemoryDescriptor) :
    (∃ msg, bmemInit granted descs = .error (.error msg)) ∨ ∃ blk attr, GroupedBlks granted 256 blk ∧
      192 * kibyte ≤ topPage granted descs * efiPageSize ∧
        bmemInit granted descs = .ok ⟨blk, efiPageSize, topPage granted descs * efiPageSize, attr, []⟩ := by
  obtain ⟨blk, ran, grouped⟩ := groupBlks_all granted
  rw [bmemInit, ran, ok_bind, getMemMap]
  split
  · exact Or.inl ⟨_, rfl⟩
  · rw [ok_bind]
    dsimp only
    rw [← topPage]
    split
    · exact Or.inl ⟨_, rfl⟩
    · rcases checked : bmemCheckEnough ⟨blk, efiPageSize, topPage granted descs * efiPageSize,
          (descs.foldl gaugeDesc (granted, allBmemAttr)).2, []⟩ with failure | _
      · rw [error_bind, bmemCheckEnough_error checked]
        exact Or.inl ⟨_, rfl⟩
      · exact Or.inr ⟨blk, _, grouped, (bmemCheckEnough_ok checked).1, rfl⟩

/-- The state that `bmem_init` leaves: no region given out, and the invariant holds. -/
theorem bmemInit_ok {s : Bmem} (ran : bmemInit granted descs = .ok s) :
    s.Inv granted ∧ s.returned = [] ∧ s.runtimeBmemTop ≤ bmemMaxAddr ∧ s.boottimeBmemBot = efiPageSize ∧
      ∀ b ∈ s.blk, b.start < b.origEnd := by
  rcases bmemInit_cases granted descs with ⟨msg, stopped⟩ | ⟨blk, attr, grouped, _, left⟩
  · cases stopped.symm.trans ran
  · cases left.symm.trans ran
    obtain ⟨bound, clear⟩ := topPage_le granted descs
    have blks : ∀ b ∈ blk, b.Ok := by
      intro b member
      obtain ⟨low, free, whole, high⟩ := grouped.whole b member
      exact ⟨low, free.le, whole.le, high⟩
    refine ⟨⟨blks, grouped.sorted, grouped.pages, ?_, by simp, List.Pairwise.nil, by simp⟩, rfl, ?_, rfl, ?_⟩
    · intro b member
      obtain ⟨low, free, whole, high⟩ := grouped.whole b member
      dsimp only
      by_contra straddles
      have set := grouped.pages b member (topPage granted descs * efiPageSize) (by omega) (by omega)
      rw [Nat.mul_div_cancel _ (by decide)] at set
      simp only [efiPageSize, bmemMaxAddr] at high straddles
      exact absurd set (clear (by omega))
    · exact Nat.mul_le_mul_right efiPageSize bound
    · intro b member
      obtain ⟨_, free, whole, _⟩ := grouped.whole b member
      exact whole ▸ free

end Biefircate
