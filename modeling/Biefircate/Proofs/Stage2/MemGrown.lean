import Biefircate.Proofs.Stage2.MemAlloc

/-! # How the memory map changes

A call of `mem_alloc` takes its block from available memory, which is reserved from then on. The map only
ever grows: entries are cut in two, but no start is lost, and neither the addresses covered nor their
attributes change.
-/

namespace Biefircate

/-- What a single call guarantees about its block and about the map. -/
structure AllocCall.Sound (call : AllocCall) : Prop where
  aligned : call.req.align ∣ call.astart
  below : call.stop ≤ allocLimit call.req.maxAddr
  carved : ∃ mr ∈ call.old.ranges, mr.e820Type = e820Ram ∧ mr.start ≤ call.astart ∧
    call.stop ≤ mr.stop ∧ ∀ x, typeAt call.new.ranges x =
      if call.astart ≤ x ∧ x < mr.stop then some e820Reserved else typeAt call.old.ranges x
  attrs : ∀ x, attrsAt call.new.ranges x = attrsAt call.old.ranges x

/-- Every address of a span is reserved. -/
def Reserved (mrs : List MemRange) (lo hi : ℕ) : Prop :=
  ∀ x, lo ≤ x → x < hi → typeAt mrs x = some e820Reserved

/-- A call carves one available range and leaves the rest. -/
theorem memAlloc_sound {m m' : MemMap} {req : AllocReq} {a : ℕ} (table : TableOk m.ranges)
    (valid : req.Valid) (ran : memAlloc m req.sz req.align req.maxAddr = .ok (a, m')) :
    (AllocCall.mk m req a m').Sound := by
  obtain ⟨before, mr, after, ranges, placed, carved, _, _, _⟩ := memAlloc_ok table valid ran
  have apart := table.ordered.pairwise_apart
  rw [ranges] at apart
  have below : a ≤ mr.stop := (Nat.le_add_right _ _).trans placed.inside
  refine ⟨placed.aligned, placed.inside.trans placed.below,
    ⟨mr, by rw [ranges]; simp, placed.ram, placed.above, placed.inside, ?_⟩, ?_⟩
  · intro x
    dsimp only
    rw [carved, ranges, typeAt_carve apart placed.above below]
  · intro x
    dsimp only
    rw [carved, ranges, attrsAt_carve apart placed.above below]

/-- The table stays in order and within its capacity. -/
theorem memAlloc_table {m m' : MemMap} {req : AllocReq} {a : ℕ} (table : TableOk m.ranges)
    (room : m.ranges.length ≤ m.maxRanges) (valid : req.Valid)
    (ran : memAlloc m req.sz req.align req.maxAddr = .ok (a, m')) :
    TableOk m'.ranges ∧ m'.ranges.length ≤ m'.maxRanges ∧ m'.maxRanges = m.maxRanges ∧ m'.base = m.base := by
  obtain ⟨before, mr, after, ranges, placed, carved, capacity, base, grown⟩ := memAlloc_ok table valid ran
  have positive := valid.positive
  have inside := placed.inside
  have below : a < mr.stop := by omega
  obtain ⟨cut, within⟩ := MemRange.carve_ordered placed.above below.le
  have known : ∀ other ∈ before ++ mr :: after, other.Valid := ranges ▸ table.valid
  have mrValid := known mr (by simp)
  have ordered := table.ordered
  rw [ranges] at ordered
  refine ⟨⟨?_, ?_⟩, ?_, capacity, base⟩
  · intro other member
    rw [carved] at member
    simp only [List.mem_append] at member
    rcases member with early | piece | late
    · exact known other (List.mem_append_left _ early)
    · exact mrValid.carve placed.above below other piece
    · exact known other (List.mem_append_right _ (List.mem_cons_of_mem _ late))
  · rw [carved]
    exact ordered.replace cut within
  · rw [capacity, carved]
    rw [ranges] at grown room
    simp only [List.length_append, List.length_cons, MemRange.carve] at grown room ⊢
    split
    · simp only [List.length_cons, List.length_nil]
      omega
    · simp only [List.length_cons, List.length_nil]
      omega

/-- Reserved addresses stay reserved. -/
theorem AllocCall.Sound.reserved {call : AllocCall} (sound : call.Sound) {lo hi : ℕ}
    (reserved : Reserved call.old.ranges lo hi) : Reserved call.new.ranges lo hi := by
  obtain ⟨mr, _, _, _, _, types⟩ := sound.carved
  intro x low high
  rw [types]
  split
  · rfl
  · exact reserved x low high

/-- The new block is reserved, and meets no span that was reserved before. -/
theorem AllocCall.Sound.fresh {call : AllocCall} (table : TableOk call.old.ranges) (sound : call.Sound)
    (positive : 0 < call.req.sz) : Reserved call.new.ranges call.astart call.stop ∧
      ∀ lo hi, lo < hi → Reserved call.old.ranges lo hi → call.stop ≤ lo ∨ hi ≤ call.astart := by
  obtain ⟨mr, member, ram, above, inside, types⟩ := sound.carved
  constructor
  · intro x low high
    rw [types, if_pos ⟨low, by omega⟩]
  · intro lo hi nonempty reserved
    by_contra meet
    have shared : max lo call.astart < hi ∧ max lo call.astart < call.stop := by
      have : call.astart < call.stop := Nat.lt_add_of_pos_right positive
      omega
    have isReserved := reserved (max lo call.astart) (le_max_left ..) shared.1
    rw [table.typeAt_of_mem member ⟨by omega, by omega⟩, ram] at isReserved
    cases isReserved

/-! ## What a list of entries says of addresses -/

/-- Entries that describe memory: valid ones that keep apart, in any order. -/
structure Entries (mrs : List MemRange) : Prop where
  valid : ∀ mr ∈ mrs, mr.Valid
  apart : mrs.Pairwise (Span.Apart MemRange.start MemRange.stop)

theorem TableOk.entries {mrs : List MemRange} (table : TableOk mrs) : Entries mrs :=
  ⟨table.valid, table.ordered.pairwise_apart⟩

/-- What is said of an address is what its entry says. -/
theorem Entries.attrsAt_eq_some_iff {mrs : List MemRange} (entries : Entries mrs) {x : ℕ} {attrs : ℕ × ℕ} :
    attrsAt mrs x = some attrs ↔
      ∃ mr ∈ mrs, (mr.start ≤ x ∧ x < mr.stop) ∧ (mr.e820ExtAttr, mr.uefiAttr) = attrs := by
  rw [attrsAt, Option.map_eq_some_iff]
  constructor
  · rintro ⟨mr, found, same⟩
    obtain ⟨member, covers⟩ := (Span.find_eq_some_iff entries.apart).mp found
    exact ⟨mr, member, covers, same⟩
  · rintro ⟨mr, member, covers, same⟩
    exact ⟨mr, (Span.find_eq_some_iff entries.apart).mpr ⟨member, covers⟩, same⟩

/-- Two lists of entries cover the same addresses, with the same attributes. -/
structure SameAttrs (mrs mrs' : List MemRange) : Prop where
  old : Entries mrs
  new : Entries mrs'
  attrs : ∀ x, attrsAt mrs' x = attrsAt mrs x

/-- Entries that cover an address with the given attributes are in both or in neither. -/
theorem SameAttrs.covers_iff {mrs mrs' : List MemRange} (same : SameAttrs mrs mrs') {x : ℕ} {attrs : ℕ × ℕ} :
    (∃ mr ∈ mrs', (mr.start ≤ x ∧ x < mr.stop) ∧ (mr.e820ExtAttr, mr.uefiAttr) = attrs) ↔
      ∃ mr ∈ mrs, (mr.start ≤ x ∧ x < mr.stop) ∧ (mr.e820ExtAttr, mr.uefiAttr) = attrs := by
  rw [← same.new.attrsAt_eq_some_iff, same.attrs, same.old.attrsAt_eq_some_iff]

theorem SameAttrs.trans {mrs mrs' mrs'' : List MemRange} (first : SameAttrs mrs mrs') (second : SameAttrs mrs' mrs'') :
    SameAttrs mrs mrs'' := ⟨first.old, second.new, fun x => (second.attrs x).trans (first.attrs x)⟩

/-! ## Any number of calls -/

/-- The table is in order and within its capacity. -/
structure MemMap.Ok (m : MemMap) : Prop where
  table : TableOk m.ranges
  room : m.ranges.length ≤ m.maxRanges

/-- The map `m'` is what calls of `mem_alloc` can make of `m`. -/
structure MemMap.Grown (m m' : MemMap) : Prop where
  ok : m'.Ok
  capacity : m'.maxRanges = m.maxRanges
  attrs : ∀ x, attrsAt m'.ranges x = attrsAt m.ranges x
  reserved : ∀ lo hi, Reserved m.ranges lo hi → Reserved m'.ranges lo hi
  starts : (m.ranges.map MemRange.start).Sublist (m'.ranges.map MemRange.start)
  firm : ∀ mr ∈ m.ranges, mr.e820Type ≠ e820Ram → mr ∈ m'.ranges

theorem MemMap.Grown.refl {m : MemMap} (ok : m.Ok) : m.Grown m :=
  ⟨ok, rfl, fun _ => rfl, fun _ _ => id, List.Sublist.refl _, fun _ member _ => member⟩

theorem MemMap.Grown.trans {m m' m'' : MemMap} (first : m.Grown m') (second : m'.Grown m'') : m.Grown m'' where
  ok := second.ok
  capacity := second.capacity.trans first.capacity
  attrs x := (second.attrs x).trans (first.attrs x)
  reserved lo hi was := second.reserved lo hi (first.reserved lo hi was)
  starts := first.starts.trans second.starts
  firm mr member type := second.firm mr (first.firm mr member type) type

theorem MemMap.Grown.same {m m' : MemMap} (ok : m.Ok) (grown : m.Grown m') : SameAttrs m.ranges m'.ranges :=
  ⟨ok.table.entries, grown.ok.table.entries, grown.attrs⟩

/-- What a call of `mem_alloc` returns is reserved, and was not before. -/
structure MemMap.Fresh (m m' : MemMap) (req : AllocReq) (a : ℕ) : Prop where
  aligned : req.align ∣ a
  below : a + req.sz ≤ allocLimit req.maxAddr
  reserved : Reserved m'.ranges a (a + req.sz)
  apart : ∀ lo hi, lo < hi → Reserved m.ranges lo hi → a + req.sz ≤ lo ∨ hi ≤ a
  entry : ∃ mr ∈ m'.ranges, mr.e820Type = e820Reserved ∧ mr.start = a ∧ a + req.sz ≤ mr.stop

theorem memAlloc_grown {m m' : MemMap} {req : AllocReq} {a : ℕ} (ok : m.Ok) (valid : req.Valid)
    (ran : memAlloc m req.sz req.align req.maxAddr = .ok (a, m')) : m.Grown m' ∧ m.Fresh m' req a := by
  have sound := memAlloc_sound ok.table valid ran
  obtain ⟨table, room, capacity, _⟩ := memAlloc_table ok.table ok.room valid ran
  obtain ⟨reserved, apart⟩ := sound.fresh ok.table valid.positive
  obtain ⟨before, mr, after, ranges, placed, carved, _, _, _⟩ := memAlloc_ok ok.table valid ran
  have positive := valid.positive
  have inside := placed.inside
  refine ⟨⟨⟨table, room⟩, capacity, sound.attrs, fun _ _ => sound.reserved, ?_, ?_⟩,
    ⟨sound.aligned, sound.below, reserved, apart, ?_⟩⟩
  · rw [ranges, carved, List.map_append, List.map_append]
    refine List.Sublist.append_left ?_ _
    rw [List.map_cons, List.map_append]
    unfold MemRange.carve
    split
    · exact List.Sublist.refl _
    · exact List.Sublist.cons_cons _ (List.sublist_cons_self ..)
  · intro other member type
    rw [ranges] at member
    rw [carved]
    simp only [List.mem_append, List.mem_cons] at member ⊢
    rcases member with early | rfl | late
    · exact Or.inl early
    · exact absurd placed.ram type
    · exact Or.inr (Or.inr late)
  · rw [carved]
    simp only [List.mem_append]
    by_cases same : mr.start = a
    · refine ⟨{ mr with e820Type := e820Reserved }, Or.inr (Or.inl ?_), rfl, same, inside⟩
      rw [MemRange.carve, if_pos same]
      exact List.mem_singleton_self _
    · refine ⟨{ mr with start := a, len := mr.stop - a, e820Type := e820Reserved }, Or.inr (Or.inl ?_), rfl, rfl, ?_⟩
      · rw [MemRange.carve, if_neg same]
        simp
      · simp only [MemRange.stop] at inside ⊢
        omega

/-! ## Pages for tables -/

/-- The request for a page. -/
def pageReq : AllocReq := ⟨pageSize, pageSize, 0⟩

theorem pageReq_valid : pageReq.Valid := ⟨by decide, by decide, ⟨12, by decide⟩, by decide⟩

/-- The pages that calls of `mem_alloc` return, one after another. -/
inductive PageAllocs : MemMap → List ℕ → MemMap → Prop where
  | nil (m : MemMap) : PageAllocs m [] m
  | cons {m m' m'' : MemMap} {a : ℕ} {as : List ℕ} :
    memAlloc m pageSize pageSize 0 = .ok (a, m') → PageAllocs m' as m'' → PageAllocs m (a :: as) m''

namespace PageAllocs

variable {m m' m'' : MemMap} {as bs : List ℕ} {a : ℕ}

theorem single (ran : memAlloc m pageSize pageSize 0 = .ok (a, m')) : PageAllocs m [a] m' := .cons ran (.nil m')

theorem append (first : PageAllocs m as m') (second : PageAllocs m' bs m'') : PageAllocs m (as ++ bs) m'' := by
  induction first with
  | nil => exact second
  | cons ran _ ih => exact .cons ran (ih second)

/-- The calls that come first are the same, so what remains of the longer sequence starts where the shorter ends. -/
theorem rest (whole : PageAllocs m as m') (first : PageAllocs m bs m'') (shorter : bs.length ≤ as.length) :
    ∃ cs, PageAllocs m'' cs m' ∧ bs.length + cs.length = as.length := by
  induction first generalizing as with
  | nil => exact ⟨as, whole, Nat.zero_add _⟩
  | cons ran _ ih =>
    cases whole with
    | nil => exact absurd shorter (Nat.not_succ_le_zero _)
    | cons ran' whole =>
      rw [ran] at ran'
      cases ran'
      obtain ⟨cs, last, count⟩ := ih whole (Nat.le_of_succ_le_succ shorter)
      refine ⟨cs, last, ?_⟩
      rw [List.length_cons, List.length_cons]
      omega

/-- A run of requests for pages. -/
theorem of_run {k : ℕ} {s t : Allocs} (ran : Run.run Allocs.step s (List.replicate k pageReq) = .ok t) :
    ∃ as, PageAllocs s.map as t.map ∧ as.length = k := by
  induction k generalizing s with
  | zero =>
    cases ran
    exact ⟨[], .nil _, rfl⟩
  | succ k ih =>
    obtain ⟨u, stepped, ran⟩ := Run.run_cons_eq_ok.mp ran
    obtain ⟨⟨a, map⟩, allocated, same⟩ := bind_eq_ok.mp stepped
    cases same
    obtain ⟨as, allocs, count⟩ := ih ran
    exact ⟨a :: as, .cons allocated allocs, congrArg Nat.succ count⟩

theorem run (allocs : PageAllocs m as m') (calls : List AllocCall) :
    ∃ t, Run.run Allocs.step ⟨m, calls⟩ (List.replicate as.length pageReq) = .ok t ∧ t.map = m' := by
  induction allocs generalizing calls with
  | nil m => exact ⟨⟨m, calls⟩, rfl, rfl⟩
  | @cons m m' m'' a as ran _ ih =>
    obtain ⟨t, ran', last⟩ := ih (⟨m, pageReq, a, m'⟩ :: calls)
    refine ⟨t, Run.run_cons_eq_ok.mpr ⟨_, ?_, ran'⟩, last⟩
    rw [Allocs.step]
    exact bind_eq_ok.mpr ⟨_, ran, rfl⟩

end PageAllocs

/-- On any map, a page is a whole page below 4 GiB. -/
theorem memAlloc_page {m m' : MemMap} {a : ℕ} (ran : memAlloc m pageSize pageSize 0 = .ok (a, m')) :
    ∃ pt < 2 ^ 20, a = pt * 2 ^ 12 := by
  rw [memAlloc, if_neg (by decide), if_neg (by decide)] at ran
  obtain ⟨_, _, ran⟩ := bind_eq_ok.mp ran
  obtain ⟨⟨i, astart⟩, scanned, ran⟩ := bind_eq_ok.mp ran
  obtain ⟨_, _, same⟩ := bind_eq_ok.mp ran
  cases same
  obtain ⟨_, mr, _, taken⟩ := scanDown_ok scanned
  obtain ⟨_, _, _, formula⟩ := scan_eq_take taken
  have word := Word.sub_lt 32 (Word.add 64 mr.start mr.len % 2 ^ 32) pageSize
  generalize Word.sub 32 (Word.add 64 mr.start mr.len % 2 ^ 32) pageSize = top at word formula
  have page : pageSize = 2 ^ 12 := rfl
  rw [Word.and_mask_eq page (by decide) word, Word.alignDown_eq, Nat.mul_comm, page] at formula
  exact ⟨top / 2 ^ 12, by omega, formula⟩

theorem PageAllocs.page {m m' : MemMap} {as : List ℕ} (allocs : PageAllocs m as m') :
    ∀ a ∈ as, ∃ pt < 2 ^ 20, a = pt * 2 ^ 12 := by
  induction allocs with
  | nil => exact fun a member => absurd member List.not_mem_nil
  | cons ran _ ih => exact List.forall_mem_cons.mpr ⟨memAlloc_page ran, ih⟩

/-- On a table in order, pages are fresh: none meets what was reserved before, nor another. -/
theorem PageAllocs.fresh {m m' : MemMap} {as : List ℕ} (ok : m.Ok) (allocs : PageAllocs m as m') :
    m.Grown m' ∧ as.Nodup ∧
      ∀ a ∈ as, ∀ lo hi, lo < hi → Reserved m.ranges lo hi → a + pageSize ≤ lo ∨ hi ≤ a := by
  induction allocs with
  | nil => exact ⟨.refl ok, List.nodup_nil, fun a member => absurd member List.not_mem_nil⟩
  | @cons m m' m'' a as ran _ ih =>
    obtain ⟨grown, fresh⟩ := memAlloc_grown ok pageReq_valid ran
    obtain ⟨later, nodup, apart⟩ := ih grown.ok
    refine ⟨grown.trans later, List.nodup_cons.mpr ⟨?_, nodup⟩, List.forall_mem_cons.mpr ⟨fresh.apart, ?_⟩⟩
    · intro again
      have positive : 0 < pageSize := by decide
      have self := apart a again a (a + pageSize) (by omega) fresh.reserved
      omega
    · intro b member lo hi nonempty reserved
      exact apart b member lo hi nonempty (grown.reserved lo hi reserved)

end Biefircate
