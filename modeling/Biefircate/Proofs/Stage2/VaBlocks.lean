import Biefircate.Proofs.Stage2.FindUnused
import Biefircate.Proofs.Stage2.PageMap

/-! # Taking and giving back virtual memory

`mem_va_map` takes the pages it maps from the top of an unused range. What it leaves is again in order: the
pages of the unused ranges are blank, and no large page reaches into them. If everything that happens in
between undoes itself, `mem_va_unmap` undoes the mapping.
-/

namespace Biefircate

/-- A page of the unused ranges. -/
def Va.HasUnused (s : Va) (page : ℕ) : Prop := ∃ vr ∈ s.unused, vr.HasPage page

/-- Virtual memory is in order: the page tables are well formed, the unused ranges share no page, and their
pages are blank and not in large pages. -/
structure Va.Ok (s : Va) : Prop where
  paging : s.paging.Ok
  ranges : ∀ vr ∈ s.unused, vr.Ok
  apart : s.unused.Pairwise fun vr vr' => ∀ page, vr.HasPage page → ¬ vr'.HasPage page
  blank : ∀ page, s.HasUnused page → s.paging.pteOf page = 0
  whole : ∀ page, s.HasUnused page → s.paging.slot (page / 512) &&& pdePs = 0

theorem Va.Ok.small {s : Va} (ok : s.Ok) {page : ℕ} (unused : s.HasUnused page) : page < 2 ^ 20 := by
  obtain ⟨vr, member, has⟩ := unused
  have high := (ok.ranges vr member).high
  have below := has.2
  omega

/-! ## The pages of a block -/

section

variable {pa va sz q : ℕ}

/-- What `mem_va_map` maps, in units of pages. -/
theorem pagesToMap_eq (word : pa < 2 ^ 64) (typed : sz < 2 ^ 32) :
    pagesToMap pa sz = (pa / 2 ^ 12 * 2 ^ 12, (pa % 2 ^ 12 + sz + 4095) / 2 ^ 12 * 2 ^ 12) := by
  have page : pageSize = 2 ^ 12 := rfl
  have stop : Word.sub 64 (Word.add 64 (Word.add 64 pa sz) pageSize) 1 = (pa + sz + 4095) % 2 ^ 64 := by
    simp only [Word.sub, Word.add, pageSize]
    omega
  have low : (pa + sz + 4095) % 2 ^ 64 < 2 ^ 64 := Nat.mod_lt _ (by decide)
  rw [pagesToMap, stop, Word.and_mask_eq page (by decide) word, Word.and_mask_eq page (by decide) low, Word.alignDown_eq,
    Word.alignDown_eq, page, Word.sub]
  apply Prod.ext
  · exact Nat.mul_comm ..
  · dsimp only
    omega

/-- Where `mem_va_unmap` starts, and the size of the pages that it unmaps. -/
def pagesToUnmap (va sz : ℕ) : ℕ × ℕ :=
  let vstart := va &&& Word.mask 32 pageSize
  let vend := Word.sub 32 (Word.add 32 (Word.add 32 va sz) pageSize) 1 &&& Word.mask 32 pageSize
  (vstart, Word.sub 32 vend vstart)

/-- It unmaps the pages that meet the block. -/
theorem pagesToUnmap_eq {n : ℕ} (block : va / 2 ^ 12 = q) (pages : (va % 2 ^ 12 + sz + 4095) / 2 ^ 12 = n)
    (below : q + n ≤ 2 ^ 20) (positive : 0 < n) (some : n < 2 ^ 20) : pagesToUnmap va sz = (q * 2 ^ 12, n * 2 ^ 12) ∧
      Word.sub 32 (Word.add 32 (Word.add 32 va sz) pageSize) 1 &&& Word.mask 32 pageSize =
        (q + n) * 2 ^ 12 % 2 ^ 32 := by
  have page : pageSize = 2 ^ 12 := rfl
  have stop : Word.sub 32 (Word.add 32 (Word.add 32 va sz) pageSize) 1 = (va + sz + 4095) % 2 ^ 32 := by
    simp only [Word.sub, Word.add, pageSize]
    omega
  have vend : Word.sub 32 (Word.add 32 (Word.add 32 va sz) pageSize) 1 &&& Word.mask 32 pageSize =
      (q + n) * 2 ^ 12 % 2 ^ 32 := by
    rw [stop, Word.and_mask_eq page (by decide) (Nat.mod_lt _ (by decide)), Word.alignDown_eq, page]
    omega
  refine ⟨?_, vend⟩
  rw [pagesToUnmap, vend, Word.and_mask_eq page (by decide) (by omega), Word.alignDown_eq, page, block, Word.sub]
  apply Prod.ext (Nat.mul_comm ..)
  dsimp only
  omega

end

/-! ## Mapping -/

/-- The pages from `q` on, `n` of them, were taken from the top of an unused range and mapped. -/
structure Va.MappedTo (flags q f n : ℕ) (s t : Va) : Prop where
  positive : 0 < n
  low : 256 ≤ q
  high : q + n ≤ 2 ^ 20
  taken : ∃ before vr after, s.unused = before ++ vr :: after ∧ n * 2 ^ 12 ≤ vr.len ∧
    vr.stop = (q + n) * 2 ^ 12 ∧ t.unused = before ++ ⟨vr.start, vr.len - n * 2 ^ 12⟩ :: after
  room : t.maxUnused = s.maxUnused
  mapped : Mapped flags q f n s.paging t.paging

section

variable {s t : Va} {flags q f n pa sz va page : ℕ}

/-- The loop of `mem_va_map` finds a range that is large enough. -/
theorem findVa_ok {unused : List VaRange} {k m i : ℕ} {vr : VaRange} (ran : findVa unused k m = .ok (i, vr)) :
    load unused i = .ok vr ∧ k ≤ vr.len := by
  induction m with
  | zero => cases ran
  | succ m ih =>
    obtain ⟨other, loaded, ran⟩ := bind_eq_ok.mp ran
    split at ran
    · next fits =>
      cases ran
      exact ⟨loaded, fits⟩
    · exact ih ran

/-- Whenever `mem_va_map` returns, it has mapped the pages that meet the block to what it was asked for. -/
theorem memVaMap_ok (ok : s.Ok) (word : pa < 2 ^ 64) (typed : sz < 2 ^ 32) (nonzero : sz ≠ 0) (cache : CacheFlags flags)
    (ran : memVaMap s pa sz flags = .ok (va, t)) : ∃ q, va = q * 2 ^ 12 + pa % 2 ^ 12 ∧
      s.MappedTo flags q (pa / 2 ^ 12) ((pa % 2 ^ 12 + sz + 4095) / 2 ^ 12) t := by
  rw [memVaMap, if_neg nonzero, pagesToMap_eq word typed] at ran
  dsimp only at ran
  have positive : 0 < (pa % 2 ^ 12 + sz + 4095) / 2 ^ 12 := by omega
  generalize (pa % 2 ^ 12 + sz + 4095) / 2 ^ 12 = n at ran positive ⊢
  split at ran
  · cases ran
  · obtain ⟨⟨i, vr⟩, found, ran⟩ := bind_eq_ok.mp ran
    obtain ⟨loaded, fits⟩ := findVa_ok found
    obtain ⟨before, after, ranges, rfl⟩ := split_of_load loaded
    have vrOk := ok.ranges vr (by rw [ranges]; simp)
    obtain ⟨a, start⟩ := vrOk.start
    obtain ⟨l, len⟩ := vrOk.len
    have low := vrOk.low
    have high := vrOk.high
    rw [bmemMaxAddr] at low
    rw [VaRange.stop] at high
    have rest : Word.sub 32 vr.len (n * 2 ^ 12) = vr.len - n * 2 ^ 12 := Word.sub_of_le fits (by omega)
    have vstart : Word.add 32 vr.start (vr.len - n * 2 ^ 12) = (a + l - n) * 2 ^ 12 := by
      rw [Word.add_of_lt (by omega)]
      omega
    rw [rest, vstart] at ran
    obtain ⟨paging, mapped, ran⟩ := bind_eq_ok.mp ran
    have mapped := doVaMap_ok ok.paging rfl rfl rfl (by omega) (by omega) cache mapped
    cases ran
    refine ⟨a + l - n, ?_, positive, by omega, by omega, ⟨before, vr, after, ranges, fits, ?_, ?_⟩, rfl, mapped⟩
    · rw [Word.add_of_lt (by rw [pageSize]; omega)]
      rfl
    · rw [VaRange.stop]
      omega
    · rw [ranges, List.set_append_right _ _ le_rfl, Nat.sub_self, List.set_cons_zero]

/-- The unused pages are those there were without the pages mapped. -/
theorem Va.MappedTo.hasUnused_iff (ok : s.Ok) (mappedTo : s.MappedTo flags q f n t) :
    t.HasUnused page ↔ s.HasUnused page ∧ ¬ (q ≤ page ∧ page < q + n) := by
  obtain ⟨before, vr, after, ranges, fits, stop, left⟩ := mappedTo.taken
  have apart := ok.apart
  rw [ranges] at apart
  obtain ⟨_, tail, cross⟩ := List.pairwise_append.mp apart
  obtain ⟨later, _⟩ := List.pairwise_cons.mp tail
  rw [VaRange.stop] at stop
  have block : q ≤ page ∧ page < q + n → vr.HasPage page := by
    intro inside
    rw [VaRange.HasPage, VaRange.stop]
    omega
  have rest : VaRange.HasPage ⟨vr.start, vr.len - n * 2 ^ 12⟩ page ↔ vr.HasPage page ∧ ¬ (q ≤ page ∧ page < q + n) := by
    simp only [VaRange.HasPage, VaRange.stop]
    omega
  simp only [Va.HasUnused, left, ranges, List.mem_append, List.mem_cons]
  constructor
  · rintro ⟨other, early | rfl | late, has⟩
    · exact ⟨⟨other, Or.inl early, has⟩, fun inside =>
        cross other early vr (List.mem_cons_self ..) page has (block inside)⟩
    · exact ⟨⟨vr, Or.inr (Or.inl rfl), (rest.mp has).1⟩, (rest.mp has).2⟩
    · exact ⟨⟨other, Or.inr (Or.inr late), has⟩, fun inside => later other late page (block inside) has⟩
  · rintro ⟨⟨other, early | rfl | late, has⟩, outside⟩
    · exact ⟨other, Or.inl early, has⟩
    · exact ⟨_, Or.inr (Or.inl rfl), rest.mpr ⟨has, outside⟩⟩
    · exact ⟨other, Or.inr (Or.inr late), has⟩

theorem Va.MappedTo.unused (mappedTo : s.MappedTo flags q f n t) (inside : q ≤ page ∧ page < q + n) : s.HasUnused page := by
  obtain ⟨before, vr, after, ranges, fits, stop, _⟩ := mappedTo.taken
  refine ⟨vr, by rw [ranges]; simp, ?_⟩
  rw [VaRange.stop] at stop
  rw [VaRange.HasPage, VaRange.stop]
  omega

/-- A large page that meets the block lies within it, and was not there before. -/
theorem Va.MappedTo.large (ok : s.Ok) (mappedTo : s.MappedTo flags q f n t) (small : page < 2 ^ 20)
    (large : t.paging.slot (page / 512) &&& pdePs ≠ 0) :
    t.paging.slot (page / 512) = s.paging.slot (page / 512) ∧ ¬ s.HasUnused page ∨
      q ≤ 512 * (page / 512) ∧ 512 * (page / 512) + 512 ≤ q + n := by
  have low : page / 512 < 2048 := by omega
  have big : BigOk (t.paging.slot (page / 512)) := Or.inr (mappedTo.mapped.ok.isLarge low large)
  refine (mappedTo.mapped.large _ low big).imp_left fun same => ⟨same, fun unused => ?_⟩
  rw [same] at large
  exact large (ok.whole page unused)

/-- The bytes of the block translate to those it was mapped to. -/
theorem Va.MappedTo.translate {k : ℕ} (cache : CacheFlags flags) (mappedTo : s.MappedTo flags q (pa / 2 ^ 12) n t)
    (block : va = q * 2 ^ 12 + pa % 2 ^ 12) (inside : pa % 2 ^ 12 + k < n * 2 ^ 12) :
    va + k < 2 ^ 32 ∧ t.paging.translate (va + k) = some ⟨(pa + k) % 2 ^ 52, true, flags⟩ := by
  have high := mappedTo.high
  have small : va + k < 2 ^ 32 := by omega
  have page : (va + k) / 2 ^ 12 = q + (pa % 2 ^ 12 + k) / 2 ^ 12 := by omega
  have phys : (pa / 2 ^ 12 + (pa % 2 ^ 12 + k) / 2 ^ 12) % 2 ^ 52 % 2 ^ 40 * 2 ^ 12 + (va + k) % 2 ^ 12 =
      (pa + k) % 2 ^ 52 := by omega
  refine ⟨small, ?_⟩
  rw [translate_eq mappedTo.mapped.ok small, mappedTo.mapped.ptes _ (by omega), page, if_pos (by omega),
    Nat.add_sub_cancel_left, pteTranslation_smallEntry_mod cache, phys]

/-- Virtual memory stays in order. -/
theorem Va.MappedTo.ok (ok : s.Ok) (mappedTo : s.MappedTo flags q f n t) : t.Ok := by
  have unused : ∀ page, t.HasUnused page ↔ s.HasUnused page ∧ ¬ (q ≤ page ∧ page < q + n) :=
    fun page => mappedTo.hasUnused_iff ok
  refine ⟨mappedTo.mapped.ok, ?_, ?_, ?_, ?_⟩
  · obtain ⟨before, vr, after, ranges, fits, stop, left⟩ := mappedTo.taken
    have all := ok.ranges
    rw [ranges] at all
    rw [left]
    intro other member
    rcases List.mem_append.mp member with early | here
    · exact all other (List.mem_append_left _ early)
    · rcases List.mem_cons.mp here with rfl | late
      · obtain ⟨start, len, low, high⟩ := all vr (by simp)
        refine ⟨start, Nat.dvd_sub len (Nat.dvd_mul_left ..), low, ?_⟩
        simp only [VaRange.stop] at high ⊢
        omega
      · exact all other (by simp [late])
  · obtain ⟨before, vr, after, ranges, fits, stop, left⟩ := mappedTo.taken
    have apart := ok.apart
    rw [ranges] at apart
    rw [left]
    have less : ∀ page, VaRange.HasPage ⟨vr.start, vr.len - n * 2 ^ 12⟩ page → vr.HasPage page := by
      intro page
      simp only [VaRange.HasPage, VaRange.stop]
      omega
    obtain ⟨first, tail, cross⟩ := List.pairwise_append.mp apart
    obtain ⟨later, rest⟩ := List.pairwise_cons.mp tail
    refine List.pairwise_append.mpr ⟨first, List.pairwise_cons.mpr ⟨?_, rest⟩, ?_⟩
    · exact fun other member page has => later other member page (less page has)
    · intro other early other' member
      rcases List.mem_cons.mp member with rfl | late
      · exact fun page has has' => cross other early vr (List.mem_cons_self ..) page has (less page has')
      · exact cross other early other' (List.mem_cons_of_mem _ late)
  · intro page has
    obtain ⟨was, outside⟩ := (unused page).mp has
    rw [mappedTo.mapped.ptes page (ok.small was), if_neg outside]
    exact ok.blank page was
  · intro page has
    obtain ⟨was, outside⟩ := (unused page).mp has
    by_contra large
    rcases mappedTo.large ok (ok.small was) large with ⟨_, none⟩ | inside
    · exact none was
    · omega

end

/-! ## Unmapping -/

/-- Virtual memory is as it was: the same ranges are unused, each page has the same entry, and no large page
has been made. There may be more page tables. -/
structure Va.Restored (s t : Va) : Prop where
  paging : t.paging.Ok
  unused : t.unused = s.unused
  room : t.maxUnused = s.maxUnused
  ptes : ∀ page < 2 ^ 20, t.paging.pteOf page = s.paging.pteOf page
  large : ∀ d < 2048, t.paging.slot d &&& pdePs ≠ 0 → t.paging.slot d = s.paging.slot d

section

variable {s t u : Va} {flags q f n pa sz va page : ℕ}

theorem Va.Restored.refl (ok : s.Ok) : s.Restored s := ⟨ok.paging, rfl, rfl, fun _ _ => rfl, fun _ _ _ => rfl⟩

theorem Va.Restored.trans (first : s.Restored t) (second : t.Restored u) : s.Restored u where
  paging := second.paging
  unused := second.unused.trans first.unused
  room := second.room.trans first.room
  ptes page low := (second.ptes page low).trans (first.ptes page low)
  large d low large := by
    have same := second.large d low large
    exact same.trans (first.large d low (same ▸ large))

/-- Virtual memory that is as it was is in order. -/
theorem Va.Restored.ok (ok : s.Ok) (restored : s.Restored t) : t.Ok := by
  have unused : ∀ page, t.HasUnused page ↔ s.HasUnused page := by
    intro page
    rw [Va.HasUnused, restored.unused, Va.HasUnused]
  refine ⟨restored.paging, restored.unused ▸ ok.ranges, restored.unused ▸ ok.apart, ?_, ?_⟩
  · intro page has
    have was := (unused page).mp has
    rw [restored.ptes page (ok.small was)]
    exact ok.blank page was
  · intro page has
    have was := (unused page).mp has
    have low := ok.small was
    by_contra large
    have same := restored.large (page / 512) (by omega) large
    rw [same] at large
    exact large (ok.whole page was)

/-- The processor finds what it found before. -/
theorem Va.Restored.translate (ok : s.Ok) (restored : s.Restored t) (small : va < 2 ^ 32) :
    t.paging.translate va = s.paging.translate va := by
  rw [translate_eq restored.paging small, translate_eq ok.paging small, restored.ptes _ (by omega)]

/-- The loop of `mem_va_unmap` passes the range, which lies above the block and does not touch it. -/
def VaRange.Passed (vstart vend : ℕ) (vr : VaRange) : Prop :=
  vr.start ≠ vend ∧ Word.add 32 vr.start vr.len ≠ vstart ∧ ¬ vr.start < vstart

instance (vstart vend : ℕ) (vr : VaRange) : Decidable (vr.Passed vstart vend) := inferInstanceAs (Decidable (_ ∧ _))

/-- Where the loop of `mem_va_unmap` puts the block once it has come to the range `vr`. -/
def putBack (maxUnused vstart vend size : ℕ) (before : List VaRange) (vr : VaRange) (after : List VaRange) :
    Exec (List VaRange) :=
  if vr.start = vend then .ok (before ++ ⟨vstart, Word.add 32 vr.len size⟩ :: after)
  else if Word.add 32 vr.start vr.len = vstart then .ok (before ++ { vr with len := Word.add 32 vr.len size } :: after)
  else if (before ++ vr :: after).length = maxUnused then .error .hlt
  else .ok (before ++ vr :: ⟨vstart, size⟩ :: after)

/-- Ranges that are passed do not matter. -/
theorem giveBack_skip {first rest : List VaRange} {maxUnused vstart vend size k : ℕ} (inside : k ≤ rest.length)
    (above : ∀ vr ∈ rest, vr.Passed vstart vend) :
    giveBack (first ++ rest) maxUnused vstart vend size (first.length + k) =
      giveBack (first ++ rest) maxUnused vstart vend size first.length := by
  induction k with
  | zero => rfl
  | succ k ih =>
    have there : load (first ++ rest) (first.length + k) = .ok rest[k] := by
      rw [load_eq_ok, List.getElem?_append_right (Nat.le_add_right ..), Nat.add_sub_cancel_left,
        List.getElem?_eq_getElem inside]
    obtain ⟨start, stop, order⟩ := above rest[k] (List.getElem_mem inside)
    rw [← Nat.add_assoc, giveBack, there, ok_bind, if_neg start, if_neg stop, if_neg order]
    exact ih (Nat.le_of_succ_le inside)

/-- The loop goes from the last range to the first that it does not pass. -/
theorem giveBack_eq {before after : List VaRange} {vr : VaRange} (maxUnused : ℕ) {vstart vend : ℕ} (size : ℕ)
    (reached : ¬ vr.Passed vstart vend) (above : ∀ other ∈ after, other.Passed vstart vend) :
    giveBack (before ++ vr :: after) maxUnused vstart vend size (before ++ vr :: after).length =
      putBack maxUnused vstart vend size before vr after := by
  have cut : before ++ vr :: after = (before ++ [vr]) ++ after := by rw [List.append_assoc, List.singleton_append]
  have here : load (before ++ vr :: after) before.length = .ok vr := by
    rw [load_eq_ok, List.getElem?_append_right le_rfl, Nat.sub_self]
    rfl
  have set : ∀ other, (before ++ vr :: after).set before.length other = before ++ other :: after := by
    intro other
    rw [List.set_append_right _ _ le_rfl, Nat.sub_self]
    rfl
  have skipped : giveBack (before ++ vr :: after) maxUnused vstart vend size (before ++ vr :: after).length =
      giveBack (before ++ vr :: after) maxUnused vstart vend size (before.length + 1) := by
    rw [cut, List.length_append, giveBack_skip le_rfl above, List.length_append, List.length_singleton]
  rw [skipped, giveBack, here, ok_bind, set, set, putBack]
  split
  · rfl
  · next start =>
    split
    · rfl
    · next stop =>
      have below : vr.start < vstart := by
        by_contra beyond
        exact reached ⟨start, stop, beyond⟩
      have size : (before ++ [vr]).length = before.length + 1 := List.length_append
      have low : (before ++ vr :: after).take (before.length + 1) = before ++ [vr] := by
        rw [cut, ← size, List.take_left]
      have high : (before ++ vr :: after).drop (before.length + 1) = after := by
        rw [cut, ← size, List.drop_left]
      rw [if_pos below, low, high, List.append_assoc, List.singleton_append]

/-- Where the loop passes all ranges it halts. -/
theorem giveBack_none {unused : List VaRange} (maxUnused : ℕ) {vstart vend : ℕ} (size : ℕ)
    (above : ∀ vr ∈ unused, vr.Passed vstart vend) :
    giveBack unused maxUnused vstart vend size unused.length = .error .hlt := by
  have skipped : giveBack ([] ++ unused) maxUnused vstart vend size (0 + unused.length) =
      giveBack ([] ++ unused) maxUnused vstart vend size 0 := giveBack_skip le_rfl above
  rw [Nat.zero_add] at skipped
  exact skipped

/-- A block taken from the top of a range goes back there, if the ranges are apart. -/
theorem giveBack_taken {before after : List VaRange} {vr : VaRange} (maxUnused : ℕ)
    (ranges : ∀ other ∈ before ++ vr :: after, other.Ok)
    (apart : (before ++ vr :: after).Pairwise fun low high => low.stop < high.start) (positive : 0 < n)
    (fits : n * 2 ^ 12 ≤ vr.len) (stop : vr.stop = (q + n) * 2 ^ 12) :
    giveBack (before ++ ⟨vr.start, vr.len - n * 2 ^ 12⟩ :: after) maxUnused (q * 2 ^ 12) ((q + n) * 2 ^ 12 % 2 ^ 32)
      (n * 2 ^ 12) (before ++ VaRange.mk vr.start (vr.len - n * 2 ^ 12) :: after).length =
        .ok (before ++ vr :: after) := by
  obtain ⟨_, tail, _⟩ := List.pairwise_append.mp apart
  obtain ⟨later, _⟩ := List.pairwise_cons.mp tail
  have vrOk := ranges vr (by simp)
  have low := vrOk.low
  have high := vrOk.high
  rw [bmemMaxAddr] at low
  have above : ∀ other ∈ after, other.Passed (q * 2 ^ 12) ((q + n) * 2 ^ 12 % 2 ^ 32) := by
    intro other member
    have order := later other member
    have otherHigh := (ranges other (by simp [member])).high
    rw [VaRange.stop] at otherHigh stop order
    rw [VaRange.Passed, Word.add]
    omega
  rw [VaRange.stop] at high stop
  have start : vr.start ≠ (q + n) * 2 ^ 12 % 2 ^ 32 := by omega
  have meets : Word.add 32 vr.start (vr.len - n * 2 ^ 12) = q * 2 ^ 12 := by
    rw [Word.add]
    omega
  have whole : Word.add 32 (vr.len - n * 2 ^ 12) (n * 2 ^ 12) = vr.len := by
    rw [Word.add]
    omega
  rw [giveBack_eq _ _ (fun passed => passed.2.1 meets) above, putBack, if_neg start, if_pos meets, whole]

/-- `mem_va_unmap`, in units of pages. -/
theorem memVaUnmap_eq (s : Va) (nonzero : sz ≠ 0) (block : va / 2 ^ 12 = q)
    (pages : (va % 2 ^ 12 + sz + 4095) / 2 ^ 12 = n) (below : q + n ≤ 2 ^ 20) (positive : 0 < n) (some : n < 2 ^ 20) :
    memVaUnmap s va sz = doVaUnmap s.paging (q * 2 ^ 12) (n * 2 ^ 12) >>= fun paging =>
      giveBack s.unused s.maxUnused (q * 2 ^ 12) ((q + n) * 2 ^ 12 % 2 ^ 32) (n * 2 ^ 12) s.unused.length >>= fun unused =>
        .ok { s with paging := paging, unused := unused } := by
  obtain ⟨span, vend⟩ := pagesToUnmap_eq block pages below positive some
  obtain ⟨vstart, size⟩ := Prod.ext_iff.mp span
  dsimp only [pagesToUnmap] at vstart size
  rw [memVaUnmap, if_neg nonzero]
  dsimp only
  rw [size, vstart, vend]
  rfl

/-- No large page sticks out of the pages that were mapped. -/
theorem Va.MappedTo.whole (ok : s.Ok) (mappedTo : s.MappedTo flags q f n t) (restored : t.Restored u) :
    Whole u.paging q n := by
  intro page low high large
  have small : page < 2 ^ 20 := high.trans_le mappedTo.high
  rw [restored.large (page / 512) (by omega) large] at large
  exact (mappedTo.large ok small large).resolve_left fun was => was.2 (mappedTo.unused ⟨low, high⟩)

/-- Blanking the pages of the block gives the page tables that there were before. -/
theorem Va.MappedTo.unmapped {p' : Paging} (ok : s.Ok) (mappedTo : s.MappedTo flags q f n t) (restored : t.Restored u)
    (unmapped : Unmapped q n u.paging p') :
    (∀ page < 2 ^ 20, p'.pteOf page = s.paging.pteOf page) ∧
      ∀ d < 2048, p'.slot d &&& pdePs ≠ 0 → p'.slot d = s.paging.slot d := by
  have ptes : ∀ page < 2 ^ 20, p'.pteOf page = s.paging.pteOf page := by
    intro page low
    rw [unmapped.ptes page low, restored.ptes page low, mappedTo.mapped.ptes page low]
    split
    · next inside => exact (ok.blank page (mappedTo.unused inside)).symm
    · rfl
  refine ⟨ptes, fun d low large => ?_⟩
  rcases unmapped.slots d low with kept | ⟨_, zero⟩
  · have large' := large
    rw [kept] at large'
    have same := kept.trans (restored.large d low large')
    rw [restored.large d low large'] at large'
    have big : BigOk (t.paging.slot d) := Or.inr (mappedTo.mapped.ok.isLarge low large')
    rcases mappedTo.mapped.large d low big with was | inside
    · exact same.trans was
    · exact absurd (unmapped.not_large low inside) large
  · rw [zero] at large
    exact absurd (Nat.zero_and _) large

/-- If everything between a mapping and its end undoes itself, then so do these two. -/
theorem memVaUnmap_restores {s' : Va} (ok : s.Ok) (apart : s.unused.Pairwise fun low high => low.stop < high.start)
    (mappedTo : s.MappedTo flags q f n t) (restored : t.Restored u) (nonzero : sz ≠ 0) (block : va / 2 ^ 12 = q)
    (pages : (va % 2 ^ 12 + sz + 4095) / 2 ^ 12 = n) (ran : memVaUnmap u va sz = .ok s') : s.Restored s' := by
  have positive := mappedTo.positive
  have low := mappedTo.low
  have high := mappedTo.high
  obtain ⟨before, vr, after, ranges, fits, stop, left⟩ := mappedTo.taken
  have u0 : u.unused = before ++ ⟨vr.start, vr.len - n * 2 ^ 12⟩ :: after := restored.unused.trans left
  obtain ⟨p', unmap, unmapped⟩ := doVaUnmap_total restored.paging rfl rfl high (mappedTo.whole ok restored)
  obtain ⟨ptes, large⟩ := mappedTo.unmapped ok restored unmapped
  have all := ok.ranges
  rw [ranges] at all apart
  rw [memVaUnmap_eq u nonzero block pages high positive (by omega), unmap, ok_bind, u0,
    giveBack_taken _ all apart positive fits stop] at ran
  cases ran
  exact ⟨unmapped.ok, ranges.symm, restored.room.trans mappedTo.room, ptes, large⟩

end

/-! ## Ranges in order -/

/-- Virtual memory is in order, and the unused ranges are apart, from the lowest to the highest. -/
structure Va.Ready (s : Va) : Prop where
  ok : s.Ok
  apart : s.unused.Pairwise fun low high => low.stop < high.start

theorem Va.Restored.ready {s t : Va} (ready : s.Ready) (restored : s.Restored t) : t.Ready :=
  ⟨restored.ok ready.ok, restored.unused ▸ ready.apart⟩

theorem Va.MappedTo.ready {s t : Va} {flags q f n : ℕ} (ready : s.Ready) (mappedTo : s.MappedTo flags q f n t) :
    t.Ready := by
  refine ⟨mappedTo.ok ready.ok, ?_⟩
  obtain ⟨before, vr, after, ranges, _, _, left⟩ := mappedTo.taken
  have apart := ready.apart
  rw [ranges] at apart
  rw [left]
  have shrunk : VaRange.stop ⟨vr.start, vr.len - n * 2 ^ 12⟩ ≤ vr.stop := Nat.add_le_add_left (Nat.sub_le ..) _
  obtain ⟨first, tail, cross⟩ := List.pairwise_append.mp apart
  obtain ⟨later, rest⟩ := List.pairwise_cons.mp tail
  refine List.pairwise_append.mpr ⟨first, List.pairwise_cons.mpr ⟨?_, rest⟩, ?_⟩
  · exact fun other member => shrunk.trans_lt (later other member)
  · intro other early
    have under := cross other early
    exact List.forall_mem_cons.mpr ⟨under vr (List.mem_cons_self ..), fun high late => under high (List.mem_cons_of_mem _ late)⟩

end Biefircate
