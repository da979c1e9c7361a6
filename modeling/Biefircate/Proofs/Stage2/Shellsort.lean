import Biefircate.Model.Stage2.MemMap
import Mathlib.Data.List.Sort

/-! # `shellsort` sorts

Each sweep only moves entries, whatever its gap. The last sweep has gap 1 and is an insertion
sort, so the result is in order of starting address. The gaps end at 1 because they are one less
than the powers of two.
-/

namespace Biefircate

/-- The starting address in slot `i`; slots past the end are never compared. -/
def startAt (mrs : List MemRange) (i : ℕ) : ℕ := ((mrs[i]?).map MemRange.start).getD 0

theorem startAt_of_getElem? {mrs : List MemRange} {i : ℕ} {mr : MemRange} (present : mrs[i]? = some mr) :
    startAt mrs i = mr.start := by simp [startAt, present]

theorem startAt_set {mrs : List MemRange} {j : ℕ} (inside : j < mrs.length) (v : MemRange) (i : ℕ) :
    startAt (mrs.set j v) i = if i = j then v.start else startAt mrs i := by
  by_cases same : i = j
  · subst same
    simp [startAt, inside]
  · simp [startAt, List.getElem?_set_ne (Ne.symm same), same]

/-- Moving the hole from `j` to `k` keeps the entries, `v` in the hole included. -/
private theorem moveHole_perm {mrs : List MemRange} {j k : ℕ} {u v : MemRange} (apart : k ≠ j)
    (insideJ : j < mrs.length) (present : mrs[k]? = some u) :
    ((mrs.set j u).set k v).Perm (mrs.set j v) := by
  obtain ⟨insideK, atK⟩ := List.getElem?_eq_some_iff.mp present
  have insideJ' : j < (mrs.set j v).length := by simpa using insideJ
  have insideK' : k < (mrs.set j v).length := by simpa using insideK
  have swap := List.set_set_perm insideJ' insideK'
  simpa only [List.getElem_set_self, List.getElem_set_ne (Ne.symm apart), atK, List.set_set] using swap

/-- The inner loop stays in bounds and keeps the entries. -/
theorem sink_perm {h : ℕ} (positive : 0 < h) (v : MemRange) {j : ℕ} {mrs : List MemRange}
    (inside : j < mrs.length) : ∃ out, sink h v mrs j = .ok out ∧ out.Perm (mrs.set j v) := by
  induction j using Nat.strong_induction_on generalizing mrs with
  | _ j ih =>
    rw [sink]
    by_cases room : 0 < h ∧ h ≤ j
    · rw [dif_pos room, load_of_lt (by omega : j - h < mrs.length)]
      by_cases larger : v.start < mrs[j - h].start
      · obtain ⟨out, ran, perm⟩ := ih (j - h) (by omega)
          (show j - h < (mrs.set j mrs[j - h]).length by rw [List.length_set]; omega)
        refine ⟨out, ?_, perm.trans (moveHole_perm (by omega) inside (List.getElem?_eq_getElem (by omega)))⟩
        simpa only [bind, Except.bind, if_pos larger, store_of_lt inside] using ran
      · refine ⟨mrs.set j v, ?_, .rfl⟩
        simp only [bind, Except.bind, if_neg larger, store_of_lt inside]
    · exact ⟨mrs.set j v, by rw [dif_neg room, store_of_lt inside], .rfl⟩

/-- With the hole at `j`, the first `i + 1` other slots are in order and those after the hole
start no lower than `v`. -/
private structure Gapped (mrs : List MemRange) (v : MemRange) (j i : ℕ) : Prop where
  sorted : ∀ a b, a < b → b ≤ i → a ≠ j → b ≠ j → startAt mrs a ≤ startAt mrs b
  above : ∀ b, j < b → b ≤ i → v.start ≤ startAt mrs b

private theorem Gapped.moveHole {mrs : List MemRange} {u v : MemRange} {j i : ℕ}
    (gapped : Gapped mrs v (j + 1) i) (inside : j + 1 < mrs.length) (_bound : j + 1 ≤ i)
    (present : mrs[j]? = some u) (larger : v.start < u.start) :
    Gapped (mrs.set (j + 1) u) v j i := by
  have below := startAt_of_getElem? present
  constructor
  · intro a b before bounded awayA awayB
    rw [startAt_set inside, startAt_set inside]
    by_cases holeB : b = j + 1
    · rw [if_pos holeB, if_neg (by omega), ← below]
      exact gapped.sorted a j (by omega) (by omega) (by omega) (by omega)
    · rw [if_neg holeB]
      by_cases holeA : a = j + 1
      · rw [if_pos holeA, ← below]
        exact gapped.sorted j b (by omega) bounded (by omega) holeB
      · rw [if_neg holeA]
        exact gapped.sorted a b before bounded holeA holeB
  · intro b after bounded
    rw [startAt_set inside]
    split
    · omega
    · exact gapped.above b (by omega) bounded

private theorem Gapped.fill {mrs : List MemRange} {v : MemRange} {j i : ℕ} (gapped : Gapped mrs v j i)
    (inside : j < mrs.length) (below : ∀ k, k + 1 = j → startAt mrs k ≤ v.start) :
    ∀ a b, a < b → b ≤ i → startAt (mrs.set j v) a ≤ startAt (mrs.set j v) b := by
  intro a b before bounded
  rw [startAt_set inside, startAt_set inside]
  by_cases holeA : a = j
  · rw [if_pos holeA, if_neg (by omega)]
    exact gapped.above b (by omega) bounded
  · rw [if_neg holeA]
    by_cases holeB : b = j
    · rw [if_pos holeB]
      have last := below (j - 1) (by omega)
      rcases Nat.lt_or_eq_of_le (show a ≤ j - 1 by omega) with earlier | same
      · exact (gapped.sorted a (j - 1) earlier (by omega) holeA (by omega)).trans last
      · rwa [same]
    · rw [if_neg holeB]
      exact gapped.sorted a b before bounded holeA holeB

private theorem sink_one_sorted {v : MemRange} {j i : ℕ} {mrs out : List MemRange}
    (gapped : Gapped mrs v j i) (inside : i < mrs.length) (bound : j ≤ i)
    (ran : sink 1 v mrs j = .ok out) : ∀ a b, a < b → b ≤ i → startAt out a ≤ startAt out b := by
  induction j generalizing mrs with
  | zero =>
    rw [sink, dif_neg (by omega), store_of_lt (by omega)] at ran
    cases ran
    exact gapped.fill (by omega) (by omega)
  | succ j ih =>
    rw [sink, dif_pos (by omega), Nat.add_sub_cancel, load_of_lt (by omega : j < mrs.length)] at ran
    simp only [bind, Except.bind, store_of_lt (by omega : j + 1 < mrs.length)] at ran
    have present : mrs[j]? = some mrs[j] := List.getElem?_eq_getElem (by omega)
    split at ran
    · next larger =>
      exact ih (gapped.moveHole (by omega) bound present larger)
        (by rwa [List.length_set]) (by omega) ran
    · next smaller =>
      cases ran
      apply gapped.fill (by omega)
      intro k next
      obtain rfl : k = j := by omega
      rw [startAt_of_getElem? present]
      omega

/-- A sweep keeps the entries. -/
theorem sweep_perm {h : ℕ} (positive : 0 < h) {nmr i : ℕ} {mrs : List MemRange} (size : mrs.length = nmr) :
    ∃ out, sweep h mrs nmr i = .ok out ∧ out.Perm mrs := by
  induction left : nmr - i generalizing i mrs with
  | zero => exact ⟨mrs, by rw [sweep, if_neg (by omega)], .rfl⟩
  | succ n ih =>
    have inside : i < mrs.length := by omega
    obtain ⟨sunk, ran, perm⟩ := sink_perm positive mrs[i] inside
    obtain ⟨out, rest, permRest⟩ := ih (i := i + 1)
      (show sunk.length = nmr from perm.length_eq.trans (by simpa)) (by omega)
    refine ⟨out, ?_, permRest.trans (perm.trans (by rw [List.set_getElem_self]))⟩
    rw [sweep, if_pos (by omega), load_of_lt inside]
    simp only [bind, Except.bind, ran, rest]

private theorem sweep_one_sorted {nmr i : ℕ} {mrs out : List MemRange} (size : mrs.length = nmr)
    (sorted : ∀ a b, a < b → b < i → startAt mrs a ≤ startAt mrs b) (ran : sweep 1 mrs nmr i = .ok out) :
    ∀ a b, a < b → b < nmr → startAt out a ≤ startAt out b := by
  induction left : nmr - i generalizing i mrs with
  | zero =>
    rw [sweep, if_neg (by omega)] at ran
    cases ran
    intro a b before bounded
    exact sorted a b before (by omega)
  | succ n ih =>
    have inside : i < mrs.length := by omega
    obtain ⟨sunk, sinks, perm⟩ := sink_perm one_pos mrs[i] inside
    have gapped : Gapped mrs mrs[i] i i :=
      ⟨fun a b before bounded _ away => sorted a b before (by omega), fun b _ _ => by omega⟩
    rw [sweep, if_pos (by omega), load_of_lt inside] at ran
    simp only [bind, Except.bind, sinks] at ran
    refine ih (perm.length_eq.trans (by simpa)) ?_ ran (by omega)
    intro a b before bounded
    exact sink_one_sorted gapped inside le_rfl sinks a b before (by omega)

private theorem pairwise_of_startAt {mrs : List MemRange}
    (sorted : ∀ a b, a < b → b < mrs.length → startAt mrs a ≤ startAt mrs b) :
    mrs.Pairwise fun a b => a.start ≤ b.start := by
  rw [List.pairwise_iff_getElem]
  intro a b insideA insideB before
  have ordered := sorted a b before insideB
  rwa [startAt_of_getElem? (List.getElem?_eq_getElem insideA),
    startAt_of_getElem? (List.getElem?_eq_getElem insideB)] at ordered

/-- The outer loop: a positive gap is halved down to 1, where the sweep sorts. -/
theorem sweeps_spec {nmr h : ℕ} (positive : 0 < h) {mrs : List MemRange} (size : mrs.length = nmr) :
    ∃ out, sweeps mrs nmr h = .ok out ∧ out.Perm mrs ∧ out.Pairwise fun a b => a.start ≤ b.start := by
  induction h using Nat.strong_induction_on generalizing mrs with
  | _ h ih =>
    obtain ⟨swept, ran, perm⟩ := sweep_perm positive (i := h) size
    have sizeSwept : swept.length = nmr := perm.length_eq.trans size
    rw [sweeps]
    simp only [bind, Except.bind, ran]
    by_cases last : h / 2 = 0
    · obtain rfl : h = 1 := by omega
      refine ⟨swept, by simp, perm, pairwise_of_startAt ?_⟩
      rw [sizeSwept]
      exact sweep_one_sorted size (fun a b before bounded => by omega) ran
    · obtain ⟨out, ranRest, permRest, sorted⟩ := ih (h / 2) (by omega) (by omega) sizeSwept
      exact ⟨out, by rw [if_neg last]; exact ranRest, permRest.trans perm, sorted⟩

/-- The doubling loop ends with a gap above 1 while the count fits in 31 bits. -/
theorem growGap_ok {nmr fuel k : ℕ} (small : nmr ≤ 2 ^ 31) (enough : 32 ≤ fuel + k) (bound : k ≤ 31) :
    ∃ h, growGap nmr fuel (2 ^ k) = .ok h ∧ (2 ≤ nmr → 2 ≤ h) := by
  induction fuel generalizing k with
  | zero => omega
  | succ fuel ih =>
    rw [growGap]
    split
    · next smaller =>
      have next : k + 1 ≤ 31 := by
        by_contra full
        have : 2 ^ 31 ≤ 2 ^ k := Nat.pow_le_pow_right (by decide) (by omega)
        omega
      have double : Word.mul 32 (2 ^ k) 2 = 2 ^ (k + 1) := by
        rw [Word.mul_of_lt (lt_of_le_of_lt (by rw [← pow_succ]; exact Nat.pow_le_pow_right (by decide) next)
          (by decide : 2 ^ 31 < 2 ^ 32)), pow_succ]
      rw [double]
      exact ih (by omega) next
    · next reached => exact ⟨2 ^ k, rfl, fun two => by omega⟩

/-! ## What lies after the entries -/

section

variable {nmr h : ℕ} {mrs : List MemRange} (rest : List MemRange)

theorem load_append {i : ℕ} (inside : i < mrs.length) : load (mrs ++ rest) i = load mrs i := by
  rw [load, load, List.getElem?_append_left inside]

theorem store_append {i : ℕ} (inside : i < mrs.length) (v : MemRange) :
    store (mrs ++ rest) i v = (· ++ rest) <$> store mrs i v := by
  rw [store_of_lt inside, store_of_lt (by rw [List.length_append]; omega), List.set_append_left _ _ inside]
  rfl

/-- Inserting an entry looks at no slot above its own. -/
theorem sink_append (positive : 0 < h) (v : MemRange) {j : ℕ} (inside : j < mrs.length) :
    sink h v (mrs ++ rest) j = (· ++ rest) <$> sink h v mrs j := by
  induction j using Nat.strong_induction_on generalizing mrs with
  | _ j ih =>
    rw [sink, sink]
    by_cases room : 0 < h ∧ h ≤ j
    · have below : j - h < mrs.length := by omega
      rw [dif_pos room, dif_pos room, load_append rest below, load_of_lt below, ok_bind, ok_bind,
        store_append rest inside, store_append rest inside, store_of_lt inside, store_of_lt inside]
      split
      · exact ih (j - h) (by omega) (by rwa [List.length_set])
      · rfl
    · rw [dif_neg room, dif_neg room, store_append rest inside]

theorem sweep_append (positive : 0 < h) {i : ℕ} (size : mrs.length = nmr) :
    sweep h (mrs ++ rest) nmr i = (· ++ rest) <$> sweep h mrs nmr i := by
  induction left : nmr - i generalizing i mrs with
  | zero =>
    rw [sweep, sweep, if_neg (by omega), if_neg (by omega)]
    rfl
  | succ n ih =>
    have inside : i < mrs.length := by omega
    obtain ⟨sunk, ran, perm⟩ := sink_perm positive mrs[i] inside
    have next := ih (i := i + 1) (show sunk.length = nmr from perm.length_eq.trans (by simpa)) (by omega)
    rw [sweep, sweep, if_pos (by omega), if_pos (by omega), load_append rest inside, load_of_lt inside, ok_bind, ok_bind,
      sink_append rest positive _ inside, ran]
    exact next

theorem sweeps_append (positive : 0 < h) (size : mrs.length = nmr) :
    sweeps (mrs ++ rest) nmr h = (· ++ rest) <$> sweeps mrs nmr h := by
  induction h using Nat.strong_induction_on generalizing mrs with
  | _ h ih =>
    obtain ⟨swept, ran, perm⟩ := sweep_perm positive (i := h) size
    rw [sweeps, sweeps, sweep_append rest positive size, ran]
    by_cases last : h / 2 = 0
    · simp only [last, if_true]
      rfl
    · have next := ih (h / 2) (by omega) (by omega) (perm.length_eq.trans size)
      simp only [if_neg last]
      exact next

end

/-- Up to `2 ^ 31` entries, `shellsort` returns them in order of starting address. -/
theorem shellsort_spec {mrs : List MemRange} (small : mrs.length ≤ 2 ^ 31) :
    ∃ out, shellsort mrs mrs.length = .ok out ∧ out.Perm mrs ∧
      out.Pairwise fun a b => a.start ≤ b.start := by
  unfold shellsort
  split
  · next short =>
    refine ⟨mrs, rfl, .rfl, ?_⟩
    match mrs, short with
    | [], _ => exact .nil
    | [_], _ => exact List.pairwise_singleton _ _
  · next long =>
    obtain ⟨h, grown, large⟩ := growGap_ok small (show 32 ≤ 33 + 0 by omega) (by omega)
    rw [pow_zero] at grown
    obtain ⟨out, ran, spec⟩ := sweeps_spec (h := h - 1) (by have := large (by omega); omega) rfl
    exact ⟨out, by simpa only [bind, Except.bind, grown] using ran, spec⟩

/-- Sorting is not affected by what follows the entries. -/
theorem shellsort_append {mrs : List MemRange} (rest : List MemRange) (small : mrs.length ≤ 2 ^ 31) :
    shellsort (mrs ++ rest) mrs.length = (· ++ rest) <$> shellsort mrs mrs.length := by
  unfold shellsort
  split
  · rfl
  · next long =>
    obtain ⟨h, grown, large⟩ := growGap_ok small (show 32 ≤ 33 + 0 by omega) (by omega)
    have gap := large (by omega)
    rw [pow_zero] at grown
    rw [grown, ok_bind, ok_bind, sweeps_append rest (by omega) rfl]

end Biefircate
