import Biefircate.Proofs.Stage2.MemAlloc
import Biefircate.Proofs.Stage2.Shellsort

/-! # What `mem_map_init` leaves

The copied map is the list of non-empty ranges with one of them, the chosen one, cut in two: the
upper part holds the map itself and is reserved. Since nodes take up memory, the capacity is
computed without wrapping and the copy fits in it.
-/

namespace Biefircate

/-- The non-empty ranges among the boot parameters. -/
def usedRanges (bparms : List Bparm) : List BdatMemRange := (memRanges bparms).filter fun r => r.len ≠ 0

@[simp] theorem usedRanges_append (first second : List Bparm) :
    usedRanges (first ++ second) = usedRanges first ++ usedRanges second := by
  simp [usedRanges]

theorem usedRanges_cons_mrng (r : BdatMemRange) (rest : List Bparm) :
    usedRanges (.mrng r :: rest) = if r.len = 0 then usedRanges rest else r :: usedRanges rest := by
  by_cases empty : r.len = 0 <;> simp [usedRanges, memRanges, empty]

theorem usedRanges_cons_of_ne {bp : Bparm} (other : ∀ r, bp ≠ .mrng r) (rest : List Bparm) :
    usedRanges (bp :: rest) = usedRanges rest := by
  cases bp with
  | mrng r => exact absurd rfl (other r)
  | pcid _ => rfl
  | bmem _ => rfl
  | rsdp _ => rfl

theorem mem_usedRanges {bparms : List Bparm} {r : BdatMemRange} :
    r ∈ usedRanges bparms ↔ .mrng r ∈ bparms ∧ r.len ≠ 0 := by
  simp [usedRanges, mem_memRanges]

/-- Ranges of addresses that do not meet. Empty ones describe nothing and are not asked about. -/
structure RangesApart (bparms : List Bparm) : Prop where
  bounded : ∀ r ∈ usedRanges bparms, r.stop ≤ 2 ^ 64
  apart : (usedRanges bparms).Pairwise (Span.Apart BdatMemRange.start BdatMemRange.stop)

instance (bparms : List Bparm) : Decidable (RangesApart bparms) :=
  decidable_of_iff ((∀ r ∈ usedRanges bparms, r.stop ≤ 2 ^ 64) ∧
      (usedRanges bparms).Pairwise (Span.Apart BdatMemRange.start BdatMemRange.stop))
    ⟨fun ⟨bounded, apart⟩ => ⟨bounded, apart⟩, fun ⟨bounded, apart⟩ => ⟨bounded, apart⟩⟩

/-! ## Capacity -/

private theorem usedRanges_fit (nodes : List Bparm) :
    48 * (usedRanges nodes).length ≤ (nodes.map fun bp => sizeofBparm + bp.size).sum := by
  induction nodes with
  | nil => simp [usedRanges]
  | cons bp rest ih =>
    simp only [List.map_cons, List.sum_cons]
    cases bp with
    | mrng r =>
      have node : sizeofBparm + (Bparm.mrng r).size = 48 := rfl
      rw [usedRanges_cons_mrng]
      split
      · omega
      · simp only [List.length_cons]
        omega
    | pcid _ => rw [usedRanges_cons_of_ne (by simp)]; omega
    | bmem _ => rw [usedRanges_cons_of_ne (by simp)]; omega
    | rsdp _ => rw [usedRanges_cons_of_ne (by simp)]; omega

/-- The number of ranges is bounded by the memory their nodes take. -/
theorem usedRanges_length_le (bps : BootParams) : (usedRanges bps.nodes).length ≤ 89478400 := by
  have bound := usedRanges_fit bps.nodes
  have fits := bps.fits
  simp only [xm32MaxAddr, pageSize] at fits
  omega

private theorem foldl_countRange {nodes : List Bparm} {start : ℕ}
    (fits : start + (usedRanges nodes).length < 2 ^ 32) :
    nodes.foldl countRange start = start + (usedRanges nodes).length := by
  induction nodes generalizing start with
  | nil => simp [usedRanges]
  | cons bp rest ih =>
    rw [List.foldl_cons]
    cases bp with
    | mrng r =>
      rw [usedRanges_cons_mrng] at fits ⊢
      rw [countRange]
      by_cases empty : r.len = 0
      · rw [if_pos empty] at fits ⊢
        rw [if_neg (not_not.mpr empty), ih fits]
      · rw [if_neg empty, List.length_cons] at fits ⊢
        rw [if_pos empty, Word.add_of_lt (by omega), ih (by omega)]
        omega
    | pcid _ => rw [usedRanges_cons_of_ne (by simp)] at fits ⊢; exact ih fits
    | bmem _ => rw [usedRanges_cons_of_ne (by simp)] at fits ⊢; exact ih fits
    | rsdp _ => rw [usedRanges_cons_of_ne (by simp)] at fits ⊢; exact ih fits

/-- The capacity is one and a half times the entries needed at first, and at least 16. -/
theorem mapCapacity_eq (bps : BootParams) :
    mapCapacity bps.nodes = max 16 ((3 * ((usedRanges bps.nodes).length + 1) + 1) / 2) := by
  have small := usedRanges_length_le bps
  unfold mapCapacity
  rw [foldl_countRange (by omega), Word.mul_of_lt (by omega), Word.add_of_lt (by omega)]
  dsimp only
  split <;> omega

theorem mapCapacity_bounds (bps : BootParams) :
    16 ≤ mapCapacity bps.nodes ∧ (usedRanges bps.nodes).length + 1 ≤ mapCapacity bps.nodes ∧
      32 * mapCapacity bps.nodes < 2 ^ 32 := by
  have small := usedRanges_length_le bps
  rw [mapCapacity_eq]
  omega

theorem needSpace_eq (bps : BootParams) :
    Word.mul 32 (mapCapacity bps.nodes) sizeofMemRange = 32 * mapCapacity bps.nodes := by
  have bounds := mapCapacity_bounds bps
  rw [sizeofMemRange, Word.mul_of_lt (by omega), Nat.mul_comm]

/-! ## The chosen range -/

/-- The range that the search picks is one of the list's, in its place, and can hold the map. -/
theorem chooseRange_some {needSpace : ℕ} {nodes : List Bparm} {i k : ℕ} {r : BdatMemRange}
    {chosen : Option (ℕ × BdatMemRange)} (found : chooseRange needSpace i nodes chosen = some (k, r)) :
    chosen = some (k, r) ∨ ∃ before after, nodes = before ++ .mrng r :: after ∧
      k = i + before.length ∧ r.Holds needSpace := by
  induction nodes generalizing i chosen with
  | nil => exact Or.inl found
  | cons bp rest ih =>
    have skip (found : chooseRange needSpace (i + 1) rest chosen = some (k, r)) :
        chosen = some (k, r) ∨ ∃ before after, bp :: rest = before ++ .mrng r :: after ∧
          k = i + before.length ∧ r.Holds needSpace := by
      rcases ih found with same | ⟨before, after, cut, place, holds⟩
      · exact Or.inl same
      · exact Or.inr ⟨bp :: before, after, by rw [cut]; rfl, by simp only [List.length_cons]; omega, holds⟩
    cases bp with
    | mrng r' =>
      rw [chooseRange] at found
      split at found
      · next better =>
        rcases ih found with same | ⟨before, after, cut, place, holds⟩
        · cases same
          exact Or.inr ⟨[], rest, rfl, by simp, better.1⟩
        · exact Or.inr ⟨.mrng r' :: before, after, by rw [cut]; rfl,
            by simp only [List.length_cons]; omega, holds⟩
      · exact skip found
    | pcid _ => exact skip found
    | bmem _ => exact skip found
    | rsdp _ => exact skip found

/-- The search finds nothing only where no range can hold the map. -/
theorem chooseRange_none {needSpace : ℕ} {nodes : List Bparm} {i : ℕ} {chosen : Option (ℕ × BdatMemRange)}
    (none : chooseRange needSpace i nodes chosen = none) :
    chosen = .none ∧ ∀ r, .mrng r ∈ nodes → ¬ r.Holds needSpace := by
  induction nodes generalizing i chosen with
  | nil => exact ⟨none, by simp⟩
  | cons bp rest ih =>
    cases bp with
    | mrng r' =>
      rw [chooseRange] at none
      split at none
      · exact absurd (ih none).1 (by simp)
      · next worse =>
        obtain ⟨empty, others⟩ := ih none
        refine ⟨empty, ?_⟩
        intro r member
        rcases List.mem_cons.mp member with same | later
        · cases same
          exact fun holds => worse ⟨holds, by simp [empty]⟩
        · exact others r later
    | pcid _ => exact (ih none).imp_right fun others r member => others r (by simpa using member)
    | bmem _ => exact (ih none).imp_right fun others r member => others r (by simpa using member)
    | rsdp _ => exact (ih none).imp_right fun others r member => others r (by simpa using member)

private theorem copyRanges_append (chosen mrs needSpace : ℕ) (first second : List Bparm) (i : ℕ) :
    copyRanges chosen mrs needSpace i (first ++ second) =
      copyRanges chosen mrs needSpace i first ++
        copyRanges chosen mrs needSpace (i + first.length) second := by
  induction first generalizing i with
  | nil => rfl
  | cons bp rest ih =>
    have shift : i + 1 + rest.length = i + (bp :: rest).length := by simp only [List.length_cons]; omega
    cases bp with
    | mrng r =>
      simp only [List.cons_append, copyRanges, ih, shift]
      split
      · rfl
      · split <;> simp
    | pcid _ => simp only [List.cons_append, copyRanges, ih, shift]
    | bmem _ => simp only [List.cons_append, copyRanges, ih, shift]
    | rsdp _ => simp only [List.cons_append, copyRanges, ih, shift]

private theorem copyRanges_of_notMem {chosen mrs needSpace : ℕ} {nodes : List Bparm} {i : ℕ}
    (elsewhere : chosen < i ∨ i + nodes.length ≤ chosen) :
    copyRanges chosen mrs needSpace i nodes = (usedRanges nodes).map MemRange.ofBdat := by
  induction nodes generalizing i with
  | nil => rfl
  | cons bp rest ih =>
    simp only [List.length_cons] at elsewhere
    cases bp with
    | mrng r =>
      rw [copyRanges, usedRanges_cons_mrng, if_neg (by omega : ¬ i = chosen), ih (by omega)]
      split <;> simp
    | pcid _ => rw [copyRanges, usedRanges_cons_of_ne (by simp), ih (by omega)]; simp
    | bmem _ => rw [copyRanges, usedRanges_cons_of_ne (by simp), ih (by omega)]; simp
    | rsdp _ => rw [copyRanges, usedRanges_cons_of_ne (by simp), ih (by omega)]; simp

/-- What `mem_map_init` does, on any list: the copy is a permutation of the ranges around the one
that holds the map. -/
theorem memMapInit_ok {bps : BootParams} {m : MemMap} (ran : memMapInit bps.nodes = .ok m) :
    ∃ before r after, bps.nodes = before ++ .mrng r :: after ∧ r.Holds (32 * m.maxRanges) ∧
      m.maxRanges = mapCapacity bps.nodes ∧ m.base = r.stop - 32 * m.maxRanges ∧
      m.ranges.Perm ((usedRanges before).map MemRange.ofBdat ++
        (carveMap r m.base (32 * m.maxRanges) ++ (usedRanges after).map MemRange.ofBdat)) ∧
      m.ranges.Pairwise (fun a b => a.start ≤ b.start) ∧ m.ranges.length ≤ m.maxRanges := by
  unfold memMapInit at ran
  dsimp only at ran
  rw [needSpace_eq] at ran
  have bounds := mapCapacity_bounds bps
  split at ran
  · cases ran
  · next chosen r found =>
    obtain ⟨before, after, cut, place, holds⟩ := (chooseRange_some found).resolve_left (by simp)
    obtain ⟨room, ran⟩ := ite_error_eq_ok.mp ran
    obtain ⟨sorted, ranSort, same⟩ := bind_eq_ok.mp ran
    obtain ⟨ram, low, fits, large⟩ := holds
    simp only [xm32MaxAddr] at low fits
    have base : Word.sub 64 (Word.add 64 r.start r.len) (32 * mapCapacity bps.nodes) % 2 ^ 32 =
        r.stop - 32 * mapCapacity bps.nodes := by
      rw [Word.add_of_lt (by omega), Word.sub_of_le (by omega) (by omega), BdatMemRange.stop,
        Nat.mod_eq_of_lt (by omega)]
    have copied : copyRanges chosen (r.stop - 32 * mapCapacity bps.nodes) (32 * mapCapacity bps.nodes) 0
        bps.nodes = (usedRanges before).map MemRange.ofBdat ++
          (carveMap r (r.stop - 32 * mapCapacity bps.nodes) (32 * mapCapacity bps.nodes) ++
            (usedRanges after).map MemRange.ofBdat) := by
      rw [cut, copyRanges_append, copyRanges_of_notMem (Or.inr (by omega)), copyRanges,
        if_neg (by omega), if_pos (by omega), copyRanges_of_notMem (Or.inl (by omega))]
    rw [base] at ranSort room same
    obtain ⟨out, ranOut, perm, order⟩ := shellsort_spec
      (show (copyRanges chosen (r.stop - 32 * mapCapacity bps.nodes) (32 * mapCapacity bps.nodes) 0
        bps.nodes).length ≤ 2 ^ 31 by omega)
    obtain rfl : out = sorted := Except.ok.inj (ranOut.symm.trans ranSort)
    cases same
    refine ⟨before, r, after, cut, ⟨ram, low, fits, large⟩, rfl, rfl, ?_, order, ?_⟩
    · exact perm.trans (by rw [copied])
    · rw [perm.length_eq]
      exact not_lt.mp room

private theorem copyRanges_length_le (chosen mrs needSpace : ℕ) (nodes : List Bparm) (i : ℕ) :
    (copyRanges chosen mrs needSpace i nodes).length ≤ (usedRanges nodes).length + if i ≤ chosen then 1 else 0 := by
  induction nodes generalizing i with
  | nil => exact Nat.zero_le _
  | cons bp rest ih =>
    have next := ih (i + 1)
    have fewer : (if i + 1 ≤ chosen then 1 else 0) ≤ if i ≤ chosen then 1 else 0 := by
      split <;> split <;> omega
    cases bp with
    | mrng r =>
      have pieces : (carveMap r mrs needSpace).length ≤ 2 := by
        unfold carveMap
        dsimp only
        split <;> simp
      rw [copyRanges, usedRanges_cons_mrng]
      split
      · exact next.trans (Nat.add_le_add_left fewer _)
      · split
        · next here =>
          rw [if_neg (by omega)] at next
          rw [List.length_append, List.length_cons, if_pos here.le]
          omega
        · rw [List.length_cons, List.length_cons]
          omega
    | pcid _ => rw [usedRanges_cons_of_ne (by simp)]; exact next.trans (Nat.add_le_add_left fewer _)
    | bmem _ => rw [usedRanges_cons_of_ne (by simp)]; exact next.trans (Nat.add_le_add_left fewer _)
    | rsdp _ => rw [usedRanges_cons_of_ne (by simp)]; exact next.trans (Nat.add_le_add_left fewer _)

/-- `mem_map_init` returns when some range can hold the map, and halts when none can. -/
theorem memMapInit_cases (bps : BootParams) :
    (∃ m, memMapInit bps.nodes = .ok m) ∧ (∃ r, .mrng r ∈ bps.nodes ∧ r.Holds (32 * mapCapacity bps.nodes)) ∨
      memMapInit bps.nodes = .error .hlt ∧ ∀ r, .mrng r ∈ bps.nodes → ¬ r.Holds (32 * mapCapacity bps.nodes) := by
  have bounds := mapCapacity_bounds bps
  unfold memMapInit
  dsimp only
  rw [needSpace_eq]
  cases found : chooseRange (32 * mapCapacity bps.nodes) 0 bps.nodes none with
  | none => exact Or.inr ⟨rfl, (chooseRange_none found).2⟩
  | some chosen =>
    obtain ⟨i, r⟩ := chosen
    obtain ⟨before, after, cut, _, holds⟩ := (chooseRange_some found).resolve_left (by simp)
    refine Or.inl ⟨?_, r, by rw [cut]; simp, holds⟩
    dsimp only
    generalize Word.sub 64 (Word.add 64 r.start r.len) (32 * mapCapacity bps.nodes) % 2 ^ 32 = mrs
    have size := copyRanges_length_le i mrs (32 * mapCapacity bps.nodes) bps.nodes 0
    rw [if_pos (Nat.zero_le i)] at size
    obtain ⟨sorted, ran, _⟩ := shellsort_spec
      (show (copyRanges i mrs (32 * mapCapacity bps.nodes) 0 bps.nodes).length ≤ 2 ^ 31 by omega)
    rw [if_neg (by omega), ran]
    exact ⟨_, rfl⟩

/-! ## A map of ranges that keep apart -/

/-- Taking the map's memory from its range carves the range. -/
theorem carveMap_eq {r : BdatMemRange} {needSpace : ℕ} (holds : r.Holds needSpace) :
    carveMap r (r.stop - needSpace) needSpace = (MemRange.ofBdat r).carve (r.stop - needSpace) := by
  obtain ⟨_, low, fits, large⟩ := holds
  rw [xm32MaxAddr] at low fits
  have stop : r.stop = r.start + r.len := rfl
  have rest : Word.sub 64 r.len needSpace = r.len - needSpace := Word.sub_of_le large (by omega)
  unfold carveMap MemRange.carve MemRange.ofBdat MemRange.stop
  dsimp only
  rw [rest]
  by_cases whole : r.len - needSpace = 0
  · rw [if_neg (not_not.mpr whole), if_pos (by omega), show r.stop - needSpace = r.start by omega,
      show needSpace = r.len by omega]
  · rw [if_pos whole, if_neg (by omega), show r.stop - needSpace - r.start = r.len - needSpace by omega,
      show r.start + r.len - (r.stop - needSpace) = needSpace by omega]

/-- The entries that the non-empty ranges would make as they are. -/
def givenRanges (bparms : List Bparm) : List MemRange := (usedRanges bparms).map MemRange.ofBdat

/-- The map holds the given ranges in some order, with its own memory carved from one of them. -/
theorem memMapInit_carved {bps : BootParams} {m : MemMap} (ran : memMapInit bps.nodes = .ok m) :
    ∃ before r after, givenRanges bps.nodes = before ++ MemRange.ofBdat r :: after ∧ .mrng r ∈ bps.nodes ∧
      r.Holds (32 * m.maxRanges) ∧ r.start ≤ m.base ∧ m.base + 32 * m.maxRanges = r.stop ∧ m.base < r.stop ∧
      m.ranges.Perm (before ++ ((MemRange.ofBdat r).carve m.base ++ after)) := by
  obtain ⟨before, r, after, cut, holds, capacity, base, perm, _, _⟩ := memMapInit_ok ran
  have bounds := mapCapacity_bounds bps
  have large := holds.2.2.2
  have stop : r.stop = r.start + r.len := rfl
  rw [base, carveMap_eq holds, ← base] at perm
  refine ⟨_, r, _, ?_, by rw [cut]; simp, holds, by omega, by omega, by omega, perm⟩
  rw [givenRanges, cut, usedRanges_append, usedRanges_cons_mrng, if_neg (by omega), List.map_append, List.map_cons]

theorem givenRanges_apart {bparms : List Bparm}
    (apart : (usedRanges bparms).Pairwise (Span.Apart BdatMemRange.start BdatMemRange.stop)) :
    (givenRanges bparms).Pairwise (Span.Apart MemRange.start MemRange.stop) := List.pairwise_map.mpr apart

/-- The entries of the map keep apart when the ranges it was given do. -/
theorem memMapInit_apart {bps : BootParams} {m : MemMap}
    (apart : (usedRanges bps.nodes).Pairwise (Span.Apart BdatMemRange.start BdatMemRange.stop))
    (ran : memMapInit bps.nodes = .ok m) : m.ranges.Pairwise (Span.Apart MemRange.start MemRange.stop) := by
  obtain ⟨before, r, after, given, _, _, above, _, below, perm⟩ := memMapInit_carved ran
  obtain ⟨pieces, inside⟩ := @MemRange.carve_ordered (.ofBdat r) _ above below.le
  have separate := givenRanges_apart apart
  rw [given] at separate
  apply perm.symm.pairwise (Span.pairwise_apart_replace separate pieces.pairwise_apart inside)
  exact fun first => first.symm

/-- An entry of the map is a piece of a given range: what holds of these ranges and of valid pieces holds of
the map. -/
theorem memMapInit_forall {bps : BootParams} {m : MemMap} {P : MemRange → Prop} (ran : memMapInit bps.nodes = .ok m)
    (given : ∀ mr ∈ givenRanges bps.nodes, P mr) (valid : ∀ mr : MemRange, mr.Valid → P mr) :
    ∀ mr ∈ m.ranges, P mr := by
  obtain ⟨before, r, after, same, _, ⟨_, low, fits, large⟩, above, top, below, perm⟩ := memMapInit_carved ran
  have ok : (MemRange.ofBdat r).Valid := by
    rw [xm32MaxAddr] at low fits
    refine ⟨?_, by simp only [MemRange.ofBdat]; omega⟩
    simp only [MemRange.ofBdat, BdatMemRange.stop] at below ⊢
    omega
  rw [same] at given
  intro mr member
  have member := perm.mem_iff.mp member
  simp only [List.mem_append] at member
  rcases member with early | piece | late
  · exact given mr (List.mem_append_left _ early)
  · exact valid mr (ok.carve above below mr piece)
  · exact given mr (List.mem_append_right _ (List.mem_cons_of_mem _ late))

theorem givenRanges_nonempty {bparms : List Bparm} : ∀ mr ∈ givenRanges bparms, 0 < mr.len := by
  intro mr member
  obtain ⟨r, used, rfl⟩ := List.mem_map.mp member
  exact Nat.pos_of_ne_zero (mem_usedRanges.mp used).2

theorem RangesApart.givenRanges_valid {bparms : List Bparm} (apart : RangesApart bparms) :
    ∀ mr ∈ givenRanges bparms, mr.Valid := by
  intro mr member
  obtain ⟨r, used, rfl⟩ := List.mem_map.mp member
  exact ⟨givenRanges_nonempty _ member, apart.bounded r used⟩

/-- The map has the attributes of the ranges it was given, at every address. -/
theorem memMapInit_attrs {bps : BootParams} {m : MemMap}
    (apart : (usedRanges bps.nodes).Pairwise (Span.Apart BdatMemRange.start BdatMemRange.stop))
    (ran : memMapInit bps.nodes = .ok m) (x : ℕ) : attrsAt m.ranges x = attrsAt (givenRanges bps.nodes) x := by
  obtain ⟨before, r, after, given, _, _, above, _, below, perm⟩ := memMapInit_carved ran
  obtain ⟨pieces, inside⟩ := @MemRange.carve_ordered (.ofBdat r) _ above below.le
  have separate := givenRanges_apart apart
  rw [given] at separate ⊢
  rw [← attrsAt_carve separate above below.le, attrsAt, attrsAt, entryAt, entryAt,
    Span.find_perm (Span.pairwise_apart_replace separate pieces.pairwise_apart inside) perm]

/-- The map that `mem_map_init` leaves is in order when the ranges it was given keep apart. -/
theorem memMapInit_table {bps : BootParams} {m : MemMap} (apart : RangesApart bps.nodes)
    (ran : memMapInit bps.nodes = .ok m) : TableOk m.ranges := by
  obtain ⟨_, _, _, _, _, _, _, _, sorted, _⟩ := memMapInit_ok ran
  have valid : ∀ mr ∈ m.ranges, mr.Valid := memMapInit_forall ran apart.givenRanges_valid fun _ => id
  refine ⟨valid, Span.ordered_of_sorted sorted (memMapInit_apart apart.apart ran) ?_⟩
  intro mr member
  exact Nat.lt_add_of_pos_right (valid mr member).nonempty

/-- The memory of the map itself is one of its reserved entries. -/
theorem memMapInit_own {bps : BootParams} {m : MemMap} (ran : memMapInit bps.nodes = .ok m) :
    ∃ mr ∈ m.ranges, mr.e820Type = e820Reserved ∧ mr.start = m.base ∧ mr.len = 32 * m.maxRanges := by
  obtain ⟨before, r, after, _, _, _, _, perm, _, _⟩ := memMapInit_ok ran
  refine ⟨⟨m.base, 32 * m.maxRanges, e820Reserved, r.e820ExtAttr, r.uefiAttr⟩, ?_, rfl, rfl, rfl⟩
  refine perm.mem_iff.mpr (List.mem_append_right _ (List.mem_append_left _ ?_))
  unfold carveMap MemRange.ofBdat
  dsimp only
  split <;> simp

end Biefircate
