import Biefircate.Soundness.VaRuns

/-! # What a balanced run leaves behind

`mem_va_unmap` merges a block with one unused range at most, and no entry of `unused_va_ranges` ever goes away. So
a run that unmaps all that it maps leaves the ranges as they were exactly if each block, when it is unmapped,
touches an unused range.
-/

namespace Biefircate

/-! ## Balanced runs -/

/-- From some number of live blocks on, every block is unmapped once. -/
def VaEvent.Balanced : ℕ → List VaEvent → Prop
  | live, [] => live = 0
  | live, .map .. :: rest => Balanced (live + 1) rest
  | live, .unmap i :: rest => i < live ∧ Balanced (live - 1) rest

instance VaEvent.decidableBalanced : ∀ (live : ℕ) (events : List VaEvent), Decidable (VaEvent.Balanced live events)
  | live, [] => inferInstanceAs (Decidable (live = 0))
  | live, .map .. :: rest => decidableBalanced (live + 1) rest
  | live, .unmap i :: rest =>
    have := decidableBalanced (live - 1) rest
    inferInstanceAs (Decidable (i < live ∧ _))

/-- A call of `mem_va_map` returns. -/
def VaRun.MapReturns (s : VaRun) : VaEvent → Prop
  | .map pa sz pteFlags => ∃ t, s.step (.map pa sz pteFlags) = .ok t
  | .unmap _ => True

/-- A block that is unmapped touches an unused range. -/
def VaRun.Touches (s : VaRun) : VaEvent → Prop
  | .map .. => True
  | .unmap i => ∀ b ∈ s.live[i]?, b.sz ≠ 0 →
    ∃ vr ∈ s.va.unused, vr.start = (b.first + b.count) * 2 ^ 12 ∨ vr.stop = b.first * 2 ^ 12

/-- `mem_va_map` finds virtual addresses for a request. -/
def Va.Serves (s : Va) (pa sz : ℕ) : Prop :=
  sz = 0 ∨ (pagesToMap pa sz).2 < xm32MaxAddr ∧
    ∃ found, findVa s.unused (pagesToMap pa sz).2 s.unused.length = .ok found

/-- The unused ranges are as usable as in `start`, and take up as many slots. -/
structure Va.AsUsable (start s : Va) : Prop where
  serves : ∀ pa sz pteFlags r, memVaMap start pa sz pteFlags = .ok r → s.Serves pa sz
  slots : s.unused.length = start.unused.length

/-- Where `mem_va_map` returns it has found virtual addresses. -/
theorem Va.Serves.of_memVaMap {s : Va} {pa sz flags : ℕ} {r : ℕ × Va} (ran : memVaMap s pa sz flags = .ok r) :
    s.Serves pa sz := by
  unfold memVaMap at ran
  split at ran
  · next nothing => exact Or.inl nothing
  · obtain ⟨fits, ran⟩ := ite_error_eq_ok.mp ran
    obtain ⟨found, search, _⟩ := bind_eq_ok.mp ran
    exact Or.inr ⟨Nat.lt_of_not_le fits, found, search⟩

/-- Where it has found them, it returns unless the page tables cannot be made. -/
theorem Va.Serves.memVaMap {s : Va} {pa sz : ℕ} (flags : ℕ) (serves : s.Serves pa sz) :
    (∃ r, memVaMap s pa sz flags = .ok r) ∨
      ∃ vstart stop, doVaMap s.paging vstart (pagesToMap pa sz).1 (pagesToMap pa sz).2 flags = .error stop := by
  rcases serves with nothing | ⟨fits, ⟨i, vr⟩, search⟩
  · exact Or.inl ⟨_, if_pos nothing⟩
  · by_cases nothing : sz = 0
    · exact Or.inl ⟨_, if_pos nothing⟩
    · rw [Biefircate.memVaMap, if_neg nothing]
      dsimp only
      rw [if_neg (Nat.not_le_of_lt fits), search, ok_bind]
      dsimp only
      cases mapped : doVaMap s.paging (Word.add 32 vr.start (Word.sub 32 vr.len (pagesToMap pa sz).2)) (pagesToMap pa sz).1
          (pagesToMap pa sz).2 flags with
      | error stop => exact Or.inr ⟨_, stop, mapped⟩
      | ok paging => exact Or.inl ⟨_, rfl⟩

/-! ## Slots -/

section

variable {start : Va} {s t : VaRun} {event : VaEvent} {events : List VaEvent}

/-- A call leaves the number of entries as it is, unless it unmaps a block that touches no unused range. -/
theorem VaRun.Inv.step_slots (inv : s.Inv start) (valid : event.Valid) (stepped : s.step event = .ok t) :
    t.va.unused.length = s.va.unused.length ∧ s.Touches event ∨ t.va.unused.length = s.va.unused.length + 1 := by
  cases event with
  | map pa sz flags =>
    obtain ⟨fits, typed, cache⟩ := valid
    obtain ⟨⟨va, after⟩, ran, done⟩ := bind_eq_ok.mp stepped
    cases done
    apply Or.inl
    apply And.intro _ trivial
    by_cases nothing : sz = 0
    · rw [memVaMap, if_pos nothing] at ran
      cases ran
      rfl
    · obtain ⟨q, _, mappedTo⟩ := memVaMap_ok inv.ok (by omega) typed nothing cache ran
      obtain ⟨before, vr, after, ranges, _, _, left⟩ := mappedTo.taken
      dsimp only
      rw [left, ranges, List.length_append, List.length_append, List.length_cons, List.length_cons]
  | unmap i =>
    obtain ⟨b, loaded, stepped⟩ := bind_eq_ok.mp stepped
    obtain ⟨after, ran, done⟩ := bind_eq_ok.mp stepped
    cases done
    have found := load_eq_ok.mp loaded
    by_cases nothing : b.sz = 0
    · rw [memVaUnmap, if_pos nothing] at ran
      cases ran
      apply Or.inl
      apply And.intro rfl
      intro other member nonzero
      cases found.symm.trans member
      exact absurd nothing nonzero
    · have mapped := inv.mapped b (List.mem_of_getElem? found) nothing
      have high := mapped.high
      have low := mapped.low
      rw [memVaUnmap_block s.va nothing low high] at ran
      obtain ⟨paging, _, ran⟩ := bind_eq_ok.mp ran
      obtain ⟨unused, given, ran⟩ := bind_eq_ok.mp ran
      cases ran
      apply (giveBack_length given).imp_left
      rintro ⟨same, vr, inUnused, meets⟩
      apply And.intro same
      intro other member _
      cases found.symm.trans member
      apply Exists.intro vr
      apply And.intro inUnused
      obtain ⟨_, _, base, top⟩ := inv.ok.ranges vr inUnused
      rw [bmemMaxAddr] at base
      rw [VaRange.stop] at top ⊢
      rw [Word.add] at meets
      omega

/-- A run never gives up a slot; if it takes none, every block it unmaps touches an unused range. -/
theorem VaRun.Inv.run_slots (inv : s.Inv start) (valid : ∀ event ∈ events, event.Valid)
    (ran : Run.run VaRun.step s events = .ok t) : s.va.unused.length ≤ t.va.unused.length ∧
      (t.va.unused.length = s.va.unused.length → Run.Along VaRun.step VaRun.Touches s events) := by
  induction events generalizing s with
  | nil =>
    cases ran
    exact ⟨le_rfl, fun _ => trivial⟩
  | cons event rest ih =>
    obtain ⟨next, stepped, ran⟩ := Run.run_cons_eq_ok.mp ran
    have first := valid event (List.mem_cons_self ..)
    have inv' : next.Inv start :=
      inv.run (List.forall_mem_singleton.mpr first) (Run.run_cons_eq_ok.mpr ⟨next, stepped, rfl⟩)
    obtain ⟨more, touching⟩ := ih inv' (fun event member => valid event (List.mem_cons_of_mem _ member)) ran
    rcases inv.step_slots first stepped with ⟨same, touches⟩ | taken
    · rw [same] at more touching
      refine ⟨more, fun all => ⟨touches, fun other again => ?_⟩⟩
      cases stepped.symm.trans again
      exact touching all
    · omega

end

/-! ## Ranges that start where they did -/

/-- Where two lists of ranges have the same pages, the first range of one is no longer than that of the other. -/
theorem first_len_le {vr vr' : VaRange} {rest rest' : List VaRange} (ok : vr.Ok) (apart : ∀ other ∈ rest, vr.stop < other.start)
    (same : vr'.start = vr.start)
    (pages : ∀ page, (∃ other ∈ vr' :: rest', other.HasPage page) → ∃ other ∈ vr :: rest, other.HasPage page) :
    vr'.len ≤ vr.len := by
  by_contra longer
  obtain ⟨a, l, ⟨start, len⟩, _, _⟩ := ok.spans
  rw [VaRange.stop] at apart
  have extra : vr'.HasPage (a + l) := by
    rw [VaRange.HasPage, VaRange.stop]
    omega
  obtain ⟨other, member, low, high⟩ := pages _ ⟨vr', List.mem_cons_self .., extra⟩
  rcases List.mem_cons.mp member with rfl | later
  · rw [VaRange.stop] at high
    omega
  · have above := apart other later
    omega

/-- Ranges that start at the same places and have the same pages are the same. -/
theorem ranges_eq_of_starts {unused unused' : List VaRange} (ranges : ∀ vr ∈ unused, vr.Ok) (ranges' : ∀ vr ∈ unused', vr.Ok)
    (apart : unused.Pairwise fun low high => low.stop < high.start)
    (apart' : unused'.Pairwise fun low high => low.stop < high.start)
    (starts : unused'.map VaRange.start = unused.map VaRange.start)
    (pages : ∀ page, (∃ vr ∈ unused', vr.HasPage page) ↔ ∃ vr ∈ unused, vr.HasPage page) : unused' = unused := by
  induction unused generalizing unused' with
  | nil => exact List.map_eq_nil_iff.mp starts
  | cons vr rest ih =>
    cases unused' with
    | nil => cases starts
    | cons vr' rest' =>
      obtain ⟨start, others⟩ := List.cons_eq_cons.mp starts
      obtain ⟨later, tail⟩ := List.pairwise_cons.mp apart
      obtain ⟨later', tail'⟩ := List.pairwise_cons.mp apart'
      have short := first_len_le (ranges vr (List.mem_cons_self ..)) later start fun page => (pages page).mp
      have long := first_len_le (ranges' vr' (List.mem_cons_self ..)) later' start.symm fun page => (pages page).mpr
      have head : vr' = vr := by
        cases vr
        cases vr'
        exact congrArg₂ VaRange.mk start (le_antisymm short long)
      subst head
      have clear : ∀ rest : List VaRange, (∀ other ∈ rest, vr'.stop < other.start) →
          ∀ page, (∃ other ∈ rest, other.HasPage page) → ¬ vr'.HasPage page := by
        rintro rest above page ⟨other, member, has⟩ own
        have order := above other member
        have low := has.1
        have high := own.2
        omega
      have same : ∀ page, (∃ other ∈ rest', other.HasPage page) ↔ ∃ other ∈ rest, other.HasPage page := by
        intro page
        have both := pages page
        simp only [List.mem_cons, or_and_right, exists_or, exists_eq_left] at both
        constructor
        · intro has
          exact (both.mp (Or.inr has)).resolve_left (clear rest' later' page has)
        · intro has
          exact (both.mpr (Or.inr has)).resolve_left (clear rest later page has)
      rw [ih (fun other member => ranges other (List.mem_cons_of_mem _ member))
        (fun other member => ranges' other (List.mem_cons_of_mem _ member)) tail tail' others same]

/-- The unused ranges are in order, and start where those of `start` do. -/
structure Va.Kept (start s : Va) : Prop where
  ready : s.Ready
  starts : s.unused.map VaRange.start = start.unused.map VaRange.start

/-- Below a range no page is unused. -/
theorem Va.Ready.below_start {start : Va} {vr : VaRange} {page : ℕ} (ready : start.Ready) (member : vr ∈ start.unused)
    (below : (page + 1) * 2 ^ 12 = vr.start) : ¬ start.HasUnused page := by
  rintro ⟨other, member', low, high⟩
  obtain ⟨a, l, ⟨start', len⟩, _, _⟩ := (ready.ok.ranges other member').spans
  rcases apart_or_of_mem ready.apart member member' with rfl | above | under
  · omega
  · rw [VaRange.stop] at above
    omega
  · rw [VaRange.stop] at high under
    omega

section

variable {start : Va} {s t : VaRun} {b : VaBlock} {i : ℕ}

/-- A range that starts above the first page of a live block starts above all of it. -/
theorem VaRun.Inv.above_block (inv : s.Inv start) (ready : start.Ready) (kept : start.Kept s.va) (member : b ∈ s.live)
    (nonzero : b.sz ≠ 0) {vr : VaRange} (inUnused : vr ∈ s.va.unused) (above : b.first * 2 ^ 12 < vr.start) :
    (b.first + b.count) * 2 ^ 12 < vr.start := by
  by_contra inside
  obtain ⟨a, l, ⟨place, _⟩, _, _⟩ := (inv.ok.ranges vr inUnused).spans
  have started : vr.start ∈ start.unused.map VaRange.start := kept.starts ▸ List.mem_map_of_mem inUnused
  obtain ⟨vr0, member0, same⟩ := List.mem_map.mp started
  -- The page below the range is one of the block's, so it was unused at first.
  have page : b.HasPage (a - 1) := VaBlock.hasPage_iff.mpr ⟨nonzero, by omega, by omega⟩
  have unused := (inv.cover (a - 1)).mpr (Or.inr ⟨b, member, page⟩)
  exact ready.below_start member0 (by omega) unused

/-- A block that touches an unused range goes back to it. -/
theorem VaRun.Inv.giveBack_touching (inv : s.Inv start) (ready : start.Ready) (kept : start.Kept s.va)
    (member : b ∈ s.live) (nonzero : b.sz ≠ 0)
    (touches : ∃ vr ∈ s.va.unused, vr.start = (b.first + b.count) * 2 ^ 12 ∨ vr.stop = b.first * 2 ^ 12) :
    ∃ before vr after, s.va.unused = before ++ vr :: after ∧ vr.stop = b.first * 2 ^ 12 ∧
      giveBack s.va.unused s.va.maxUnused (b.first * 2 ^ 12) ((b.first + b.count) * 2 ^ 12 % 2 ^ 32) (b.count * 2 ^ 12)
        s.va.unused.length = .ok (before ++ ⟨vr.start, vr.len + b.count * 2 ^ 12⟩ :: after) := by
  have mapped := inv.mapped b member nonzero
  have low := mapped.low
  have high := mapped.high
  have positive := VaBlock.count_pos nonzero
  obtain ⟨vr, inUnused, meets | meets⟩ := touches
  · have above := inv.above_block ready kept member nonzero inUnused (by omega)
    omega
  · obtain ⟨before, after, ranges⟩ := List.append_of_mem inUnused
    obtain ⟨_, tail, _⟩ := List.pairwise_append.mp (ranges ▸ kept.ready.apart)
    obtain ⟨later, _⟩ := List.pairwise_cons.mp tail
    have passed : ∀ other ∈ after, other.Passed (b.first * 2 ^ 12) ((b.first + b.count) * 2 ^ 12 % 2 ^ 32) := by
      intro other behind
      have inUnused : other ∈ s.va.unused := by
        rw [ranges]
        simp [behind]
      have order := later other behind
      have above := inv.above_block ready kept member nonzero inUnused (by omega)
      have top := (inv.ok.ranges other inUnused).high
      rw [VaRange.stop] at top
      rw [VaRange.Passed, Word.add]
      omega
    have base := (inv.ok.ranges vr inUnused).low
    rw [bmemMaxAddr] at base
    have stop : Word.add 32 vr.start vr.len = b.first * 2 ^ 12 := by
      rw [VaRange.stop] at meets
      rw [Word.add_of_lt (by omega), meets]
    have start : vr.start ≠ (b.first + b.count) * 2 ^ 12 % 2 ^ 32 := by
      rw [VaRange.stop] at meets
      omega
    have size : Word.add 32 vr.len (b.count * 2 ^ 12) = vr.len + b.count * 2 ^ 12 := by
      rw [VaRange.stop] at meets
      exact Word.add_of_lt (by omega)
    apply Exists.intro before
    apply Exists.intro vr
    apply Exists.intro after
    apply And.intro ranges
    apply And.intro meets
    rw [ranges, giveBack_eq _ _ (fun clear => clear.2.1 stop) passed, putBack, if_neg start, if_pos stop, size]

/-- Unmapping a live block that touches an unused range succeeds. -/
theorem VaRun.Inv.unmap_touching (inv : s.Inv start) (ready : start.Ready) (kept : start.Kept s.va)
    (inside : i < s.live.length) (touches : s.Touches (.unmap i)) :
    ∃ t, s.step (.unmap i) = .ok t ∧ start.Kept t.va := by
  have loaded : load s.live i = .ok s.live[i] := load_of_lt inside
  have member : s.live[i] ∈ s.live := List.getElem_mem inside
  have block := touches _ (load_eq_ok.mp loaded)
  generalize s.live[i] = b at loaded member block
  by_cases nothing : b.sz = 0
  · apply Exists.intro ⟨s.va, s.live.eraseIdx i⟩
    apply And.intro _ kept
    rw [VaRun.step, loaded, ok_bind, memVaUnmap, if_pos nothing]
    rfl
  · have mapped := inv.mapped b member nothing
    have low := mapped.low
    have high := mapped.high
    obtain ⟨paging, unmap, _⟩ := doVaUnmap_total inv.ok.paging rfl rfl high mapped.whole
    obtain ⟨before, vr, after, ranges, meets, given⟩ := inv.giveBack_touching ready kept member nothing (block nothing)
    have ran : s.step (.unmap i) = .ok ⟨⟨paging, before ++ ⟨vr.start, vr.len + b.count * 2 ^ 12⟩ :: after, s.va.maxUnused⟩,
        s.live.eraseIdx i⟩ := by
      rw [VaRun.step, loaded, ok_bind, memVaUnmap_block s.va nothing mapped.low high, unmap, ok_bind, given]
      rfl
    apply Exists.intro _
    apply And.intro ran
    have inUnused : ∀ other ∈ after, other ∈ s.va.unused := by
      intro other behind
      rw [ranges]
      simp [behind]
    obtain ⟨first, tail, cross⟩ := List.pairwise_append.mp (ranges ▸ kept.ready.apart)
    obtain ⟨later, rest⟩ := List.pairwise_cons.mp tail
    apply Va.Kept.mk
    · apply Va.Ready.mk (inv.unmap ran).ok
      apply List.pairwise_append.mpr
      apply And.intro first
      apply And.intro
      · apply List.pairwise_cons.mpr
        apply And.intro _ rest
        intro other behind
        have order := later other behind
        have above := inv.above_block ready kept member nothing (inUnused other behind) (by omega)
        rw [VaRange.stop] at meets ⊢
        dsimp only
        omega
      · intro other early high behind
        rcases List.mem_cons.mp behind with rfl | late
        · exact cross other early vr (List.mem_cons_self ..)
        · exact cross other early high (List.mem_cons_of_mem _ late)
    · have starts := kept.starts
      rw [ranges, List.map_append, List.map_cons] at starts
      rw [List.map_append, List.map_cons]
      exact starts

/-- Mapping keeps the starts of the ranges. -/
theorem VaRun.Inv.map_kept {pa sz flags : ℕ} (inv : s.Inv start) (kept : start.Kept s.va) (fits : pa + sz ≤ 2 ^ 52)
    (typed : sz < 2 ^ 32) (cache : CacheFlags flags) (stepped : s.step (.map pa sz flags) = .ok t) :
    start.Kept t.va ∧ t.live.length = s.live.length + 1 := by
  obtain ⟨⟨va, after⟩, ran, done⟩ := bind_eq_ok.mp stepped
  cases done
  apply And.intro _ (List.length_append ..)
  by_cases nothing : sz = 0
  · rw [memVaMap, if_pos nothing] at ran
    cases ran
    exact kept
  · obtain ⟨q, _, mappedTo⟩ := memVaMap_ok inv.ok (by omega) typed nothing cache ran
    apply Va.Kept.mk (mappedTo.ready kept.ready)
    obtain ⟨before, vr, after, ranges, _, _, left⟩ := mappedTo.taken
    have starts := kept.starts
    rw [ranges, List.map_append, List.map_cons] at starts
    rw [left, List.map_append, List.map_cons]
    exact starts

/-- A balanced run in which every block touches an unused range when it is unmapped runs through. -/
theorem VaRun.Inv.run_balanced {events : List VaEvent} (inv : s.Inv start) (ready : start.Ready) (kept : start.Kept s.va)
    (valid : ∀ event ∈ events, event.Valid) (balanced : VaEvent.Balanced s.live.length events)
    (served : Run.Along VaRun.step VaRun.MapReturns s events) (touching : Run.Along VaRun.step VaRun.Touches s events) :
    ∃ t, Run.run VaRun.step s events = .ok t ∧ t.live = [] ∧ t.Inv start ∧ start.Kept t.va := by
  induction events generalizing s with
  | nil => exact ⟨s, rfl, List.length_eq_zero_iff.mp balanced, inv, kept⟩
  | cons event rest ih =>
    have later : ∀ other ∈ rest, other.Valid := fun other member => valid other (List.mem_cons_of_mem _ member)
    obtain ⟨returns, served⟩ := served
    obtain ⟨touches, touching⟩ := touching
    cases event with
    | map pa sz flags =>
      obtain ⟨fits, typed, cache⟩ := valid _ (List.mem_cons_self ..)
      obtain ⟨next, stepped⟩ := returns
      obtain ⟨kept', count⟩ := inv.map_kept kept fits typed cache stepped
      obtain ⟨t, ran, facts⟩ := ih (inv.map fits typed cache stepped) kept' later (count ▸ balanced) (served next stepped)
        (touching next stepped)
      exact ⟨t, Run.run_cons_eq_ok.mpr ⟨next, stepped, ran⟩, facts⟩
    | unmap i =>
      obtain ⟨inside, balanced⟩ := balanced
      obtain ⟨next, stepped, kept'⟩ := inv.unmap_touching ready kept inside touches
      have count : next.live.length = s.live.length - 1 := by
        obtain ⟨_, _, stepped⟩ := bind_eq_ok.mp stepped
        obtain ⟨_, _, done⟩ := bind_eq_ok.mp stepped
        cases done
        exact List.length_eraseIdx_of_lt inside
      obtain ⟨t, ran, facts⟩ := ih (inv.unmap stepped) kept' later (count ▸ balanced) (served next stepped)
        (touching next stepped)
      exact ⟨t, Run.run_cons_eq_ok.mpr ⟨next, stepped, ran⟩, facts⟩

/-- Once nothing is live, the unused ranges are those of `start`. -/
theorem VaRun.Inv.unused_eq (inv : s.Inv start) (ready : start.Ready) (kept : start.Kept s.va) (none : s.live = []) :
    s.va.unused = start.unused := by
  apply ranges_eq_of_starts ready.ok.ranges inv.ok.ranges ready.apart kept.ready.apart kept.starts
  intro page
  have cover := inv.cover page
  simp only [none, List.not_mem_nil, false_and, exists_false, or_false] at cover
  exact cover.symm

end

/-- After `mem_init`, a balanced run goes through and leaves the unused ranges as usable as they were, and in as many
slots, if and only if each block touches an unused range when it is unmapped. -/
theorem vaRun_asUsable_iff {bps : BootParams} {words : ℕ → ℕ} {stale : ℕ} {start : Va} {events : List VaEvent}
    (apart : RangesApart bps.nodes) (typed : stale < 2 ^ 32) (valid : ∀ event ∈ events, event.Valid)
    (started : memInit bps.nodes words stale = .ok start) (balanced : VaEvent.Balanced 0 events)
    (served : Run.Along VaRun.step VaRun.MapReturns ⟨start, []⟩ events) :
    (∃ s, Run.run VaRun.step ⟨start, []⟩ events = .ok s ∧ start.AsUsable s.va) ↔
      Run.Along VaRun.step VaRun.Touches ⟨start, []⟩ events := by
  have ready := (memInit_ok apart typed started).ready
  have inv := VaRun.Inv.init ready.ok
  constructor
  · rintro ⟨s, ran, usable⟩
    exact (inv.run_slots valid ran).2 usable.slots
  · intro touching
    obtain ⟨s, ran, none, inv', kept⟩ := inv.run_balanced ready ⟨ready, rfl⟩ valid balanced served touching
    have same := inv'.unused_eq ready kept none
    refine ⟨s, ran, fun pa sz pteFlags r answered => ?_, congrArg List.length same⟩
    have serves := Va.Serves.of_memVaMap answered
    rwa [Va.Serves, same]

/-- In a run that goes through, every call returns. -/
theorem VaRun.along_mapReturns {s t : VaRun} {events : List VaEvent} (ran : Run.run VaRun.step s events = .ok t) :
    Run.Along VaRun.step VaRun.MapReturns s events := by
  induction events generalizing s with
  | nil => trivial
  | cons event rest ih =>
    obtain ⟨next, stepped, ran⟩ := Run.run_cons_eq_ok.mp ran
    constructor
    · cases event with
      | map => exact ⟨next, stepped⟩
      | unmap => trivial
    · intro other again
      cases stepped.symm.trans again
      exact ih ran

/-- Blocks that go back to where they were taken from, the last one first, and one that comes between. -/
def touchingCalls : List VaEvent :=
  [.map 0x2000 0x1000 0, .map 0x1234ffff0 0x2000 pteWt, .unmap 1, .map 0x3000 0x1000 pteCd, .map 0 0 0, .unmap 1, .unmap 1,
    .unmap 0]

theorem vaRun_asUsable_sample : ∃ start s, memInit sampleParams.nodes (fun _ => 0) 0 = .ok start ∧
    Run.run VaRun.step ⟨start, []⟩ touchingCalls = .ok s ∧ start.AsUsable s.va := by
  have evaluated : (memInit sampleParams.nodes (fun _ => 0) 0 >>= fun start =>
      (fun s : VaRun => decide (s.va.unused.length = start.unused.length)) <$>
        Run.run VaRun.step ⟨start, []⟩ touchingCalls) = .ok true := by decide +kernel
  obtain ⟨start, started, ran⟩ := bind_eq_ok.mp evaluated
  obtain ⟨s, ran, slots⟩ := map_eq_ok.mp ran
  have valid : ∀ event ∈ touchingCalls, event.Valid := by decide
  have inv := VaRun.Inv.init (memInit_ok (by decide) (by decide) started).ready.ok
  have touching := (inv.run_slots valid ran).2 (of_decide_eq_true slots)
  obtain ⟨s, ran, usable⟩ := (vaRun_asUsable_iff (by decide) (by decide) valid started (by decide)
    (VaRun.along_mapReturns ran)).mpr touching
  exact ⟨start, s, started, ran, usable⟩

/-- A machine with one unused range, above its 64 MiB of memory. -/
def plainParams : BootParams where
  nodes := [.mrng ⟨0x100000, 0x3f00000, e820Ram, 1, 15⟩, .bmem ⟨0x110, 0x9f00⟩, .mrng ⟨0, 0x9f000, e820Ram, 1, 15⟩]
  typed := by decide
  fits := by decide

/-- Three pages, of which the middle one is unmapped first. -/
def fragmentingCalls : List VaEvent :=
  [.map 0x1000 0x1000 0, .map 0x2000 0x1000 0, .map 0x3000 0x1000 0, .unmap 1, .unmap 0, .unmap 0]

/-- In the end the range is in two parts, and a request that needs all of it is not served any more. -/
theorem fragmentingCalls_not_asUsable : ∃ start s, memInit plainParams.nodes (fun _ => 0) 0 = .ok start ∧
    Run.run VaRun.step ⟨start, []⟩ fragmentingCalls = .ok s ∧ s.live = [] ∧
      start.Serves 0 0xfc000000 ∧ ¬ s.va.Serves 0 0xfc000000 ∧
        ¬ ∃ s, Run.run VaRun.step ⟨start, []⟩ fragmentingCalls = .ok s ∧ start.AsUsable s.va := by
  have evaluated : (memInit plainParams.nodes (fun _ => 0) 0 >>= fun start =>
      (fun s : VaRun => decide (start.unused = [⟨0x4000000, 0xfc000000⟩] ∧
        s.va.unused = [⟨0x4000000, 0xfbffd000⟩, ⟨0xffffd000, 0x3000⟩] ∧ s.live = [])) <$>
          Run.run VaRun.step ⟨start, []⟩ fragmentingCalls) = .ok true := by decide +kernel
  obtain ⟨start, started, ran⟩ := bind_eq_ok.mp evaluated
  obtain ⟨s, ran, facts⟩ := map_eq_ok.mp ran
  obtain ⟨whole, parts, none⟩ := of_decide_eq_true facts
  have size : (pagesToMap 0 0xfc000000).2 = 0xfc000000 := by decide +kernel
  refine ⟨start, s, started, ran, none, ?_, ?_, ?_⟩
  · rw [Va.Serves, size, whole]
    exact Or.inr ⟨by decide, ⟨0, ⟨0x4000000, 0xfc000000⟩⟩, rfl⟩
  · rw [Va.Serves, size, parts]
    rintro (zero | ⟨_, found, search⟩)
    · cases zero
    · cases search
  · rintro ⟨other, again, usable⟩
    cases ran.symm.trans again
    have slots := usable.slots
    rw [whole, parts] at slots
    cases slots

end Biefircate
