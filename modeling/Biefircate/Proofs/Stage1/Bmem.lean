import Biefircate.Lib.Span
import Biefircate.Model.Stage1.Bmem

/-! # What one base memory allocation does

Either allocator cuts a region out of the free part of one block. The two differ in the end they
take it from and in the bound they move, and only `bmem_alloc_boottime` compares the region with
`runtime_bmem_top`. Alignments are powers of two; those of 32 bits and more are treated apart.
-/

namespace Biefircate

/-- A block is nonempty memory of its own: above page 0 and below 1 MiB. -/
structure Blk.Ok (b : Blk) : Prop where
  low : efiPageSize ≤ b.start
  free : b.start ≤ b.bend
  given : b.bend ≤ b.origEnd
  high : b.origEnd ≤ bmemMaxAddr

/-- The region `r` was cut from the free part of a block, of which at most one piece remains. -/
structure Cut (s t : Bmem) (r : Region) (before : List Blk) (b : Blk) (after pieces : List Blk) : Prop where
  old : s.blk = before ++ b :: after
  new : t.blk = before ++ (pieces ++ after)
  above : b.start ≤ r.start
  below : r.stop ≤ b.bend
  kept : ∀ p ∈ pieces, b.start ≤ p.start ∧ p.start ≤ p.bend ∧ p.bend ≤ b.bend ∧
    p.origEnd = b.origEnd ∧ (r.stop ≤ p.start ∨ p.bend ≤ r.start)
  few : pieces.length ≤ 1
  aligned : r.align ∣ r.start
  noted : t.returned = r :: s.returned

section

variable {s t : Bmem} {size align a : ℕ}

/-! ## `bmem_alloc` -/

private theorem bmemAllocFrom_ok {left : ℕ} (ran : bmemAllocFrom s size align left = .ok (a, t)) :
    ∃ blkIdx b, load s.blk blkIdx = .ok b ∧ size ≤ Word.sub 32 b.bend b.start ∧
      a = (Word.sub 64 b.bend size &&& Word.mask 32 align) % 2 ^ 32 ∧ b.start ≤ a ∧
      t = { s with
        blk := s.blk.set blkIdx { b with bend := a }
        runtimeBmemTop := if a < s.runtimeBmemTop then a else s.runtimeBmemTop
        returned := ⟨.runtime, a, size, align, s.runtimeBmemTop⟩ :: s.returned } := by
  induction left with
  | zero => cases ran
  | succ blkIdx ih =>
    obtain ⟨b, loaded, ran⟩ := bind_eq_ok.mp ran
    split at ran
    · exact ih ran
    · next large =>
      dsimp only at ran
      split at ran
      · exact ih ran
      · next above =>
        cases ran
        exact ⟨blkIdx, b, loaded, not_lt.mp large, rfl, not_lt.mp above, rfl⟩

/-- `bmem_alloc` takes the region from the top of a block, whatever power of two it must align to. -/
theorem bmemAlloc_ok {k : ℕ} (blks : ∀ b ∈ s.blk, b.Ok) (pow : align = 2 ^ k)
    (ran : bmemAlloc s size align = .ok (a, t)) :
    ∃ before b after, Cut s t ⟨.runtime, a, size, align, s.runtimeBmemTop⟩ before b after
        [{ b with bend := a }] ∧ t.runtimeBmemTop = min a s.runtimeBmemTop ∧
      t.boottimeBmemBot = s.boottimeBmemBot ∧ t.bmemUefiAttr = s.bmemUefiAttr := by
  obtain ⟨blkIdx, b, loaded, large, formula, above, rfl⟩ := bmemAllocFrom_ok ran
  obtain ⟨before, after, cut, place⟩ := split_of_load loaded
  have ok := blks b (by rw [cut]; simp)
  have low := ok.low
  have free := ok.free
  have high := ok.given.trans ok.high
  simp only [efiPageSize, bmemMaxAddr] at low high
  rw [Word.sub_of_le free (by omega)] at large
  rw [Word.sub_of_le (by omega) (by omega)] at formula
  have narrow : k < 32 := by
    by_contra wide
    rw [pow, Word.mask_of_dvd (pow_dvd_pow 2 (by omega)), Nat.and_zero, Nat.zero_mod] at formula
    omega
  have rounded := Word.alignDown_le (b.bend - size) align
  rw [Word.and_mask_eq pow narrow.le (by omega), Nat.mod_eq_of_lt (by omega)] at formula
  have aligned : align ∣ a := formula ▸ Word.dvd_alignDown _ _
  refine ⟨before, b, after, ⟨cut, ?_, above, ?_, ?_, le_rfl, aligned, rfl⟩, ?_, rfl, rfl⟩
  · dsimp only
    rw [cut, ← place, List.set_append_right _ _ le_rfl, Nat.sub_self]
    rfl
  · dsimp only [Region.stop]
    omega
  · intro p member
    obtain rfl := List.mem_singleton.mp member
    exact ⟨le_rfl, above, by dsimp only; omega, rfl, Or.inr le_rfl⟩
  · dsimp only
    split <;> omega

/-- Some block has space for a region for use at run time. -/
def Bmem.HasRunTimeRoom (s : Bmem) (size align : ℕ) : Prop :=
  ∃ b ∈ s.blk, size ≤ Word.sub 32 b.bend b.start ∧ b.start ≤ (Word.sub 64 b.bend size &&& Word.mask 32 align) % 2 ^ 32

instance (s : Bmem) (size align : ℕ) : Decidable (s.HasRunTimeRoom size align) :=
  inferInstanceAs (Decidable (∃ b ∈ s.blk, _))

private theorem bmemAllocFrom_isOk (size align : ℕ) {left : ℕ} (bounded : left ≤ s.blk.length) :
    (∃ result, bmemAllocFrom s size align left = .ok result) ↔ ∃ b ∈ s.blk.take left,
      size ≤ Word.sub 32 b.bend b.start ∧ b.start ≤ (Word.sub 64 b.bend size &&& Word.mask 32 align) % 2 ^ 32 := by
  induction left with
  | zero => exact iff_of_false (fun ⟨_, ran⟩ => nomatch ran) (by simp)
  | succ left ih =>
    have inside : left < s.blk.length := bounded
    rw [bmemAllocFrom, load_of_lt inside, ok_bind, List.take_succ_eq_append_getElem inside]
    simp only [List.mem_append, List.mem_singleton, or_and_right, exists_or, exists_eq_left, ← ih inside.le]
    split
    · next small => exact (or_iff_left fun fits => small.not_ge fits.1).symm
    · next large =>
      split
      · next past => exact (or_iff_left fun fits => past.not_ge fits.2).symm
      · next fits => exact iff_of_true ⟨_, rfl⟩ (.inr ⟨not_lt.mp large, not_lt.mp fits⟩)

/-- `bmem_alloc` succeeds exactly where there is room. -/
theorem bmemAlloc_isOk (s : Bmem) (size align : ℕ) :
    (∃ result, bmemAlloc s size align = .ok result) ↔ s.HasRunTimeRoom size align := by
  have exactly_ := bmemAllocFrom_isOk size align (le_refl s.blk.length)
  rwa [List.take_length] at exactly_

/-- A region for use at run time is aligned memory below 1 MiB. -/
theorem bmemAlloc_region {k : ℕ} (blks : ∀ b ∈ s.blk, b.Ok) (pow : align = 2 ^ k)
    (ran : bmemAlloc s size align = .ok (a, t)) : a + size ≤ bmemMaxAddr ∧ align ∣ a := by
  obtain ⟨before, b, after, cut, -⟩ := bmemAlloc_ok blks pow ran
  have ok := blks b (by rw [cut.old]; simp)
  exact ⟨cut.below.trans (ok.given.trans ok.high), cut.aligned⟩

/-! ## `bmem_alloc_boottime` -/

private theorem bmemAllocBoottimeFrom_ok {left first : ℕ}
    (ran : bmemAllocBoottimeFrom s size align left first = .ok (a, t)) :
    ∃ blkIdx b, load s.blk blkIdx = .ok b ∧
      a = (Word.sub 32 (Word.add 32 b.start (align % 2 ^ 32)) 1 &&& Word.mask 32 align) ∧
      a ≤ b.bend ∧ size ≤ Word.sub 32 b.bend a ∧ a < s.runtimeBmemTop ∧
      t = { s with
        blk := if Word.add 64 a size % 2 ^ 32 ≠ b.bend then
            s.blk.set blkIdx { b with start := Word.add 64 a size % 2 ^ 32 }
          else s.blk.eraseIdx blkIdx
        boottimeBmemBot := if s.boottimeBmemBot < Word.add 64 a size % 2 ^ 32 then
            Word.add 64 a size % 2 ^ 32 else s.boottimeBmemBot
        returned := ⟨.boottime, a, size, align, s.runtimeBmemTop⟩ :: s.returned } := by
  induction left generalizing first with
  | zero => cases ran
  | succ left ih =>
    obtain ⟨b, loaded, ran⟩ := bind_eq_ok.mp ran
    split at ran
    · exact ih ran
    · dsimp only at ran
      split at ran
      · exact ih ran
      · next inside =>
        split at ran
        · exact ih ran
        · next large =>
          obtain ⟨below, ran⟩ := ite_error_eq_ok.mp ran
          cases ran
          exact ⟨first, b, loaded, rfl, not_lt.mp inside, not_lt.mp large, not_le.mp below, rfl⟩

/-- `bmem_alloc_boottime` takes the region from the bottom of a block, and tests only its start
against `runtime_bmem_top`. -/
theorem bmemAllocBoottime_ok {k : ℕ} (blks : ∀ b ∈ s.blk, b.Ok) (pow : align = 2 ^ k) (narrow : k < 32)
    (ran : bmemAllocBoottime s size align = .ok (a, t)) :
    ∃ before b after pieces,
      Cut s t ⟨.boottime, a, size, align, s.runtimeBmemTop⟩ before b after pieces ∧
      a < s.runtimeBmemTop ∧ t.runtimeBmemTop = s.runtimeBmemTop ∧
      t.boottimeBmemBot = max s.boottimeBmemBot (a + size) ∧ t.bmemUefiAttr = s.bmemUefiAttr := by
  obtain ⟨blkIdx, b, loaded, formula, inside, large, below, rfl⟩ := bmemAllocBoottimeFrom_ok ran
  obtain ⟨before, after, cut, place⟩ := split_of_load loaded
  have ok := blks b (by rw [cut]; simp)
  have low := ok.low
  have free := ok.free
  have high := ok.given.trans ok.high
  simp only [efiPageSize, bmemMaxAddr] at low high
  have small : align ≤ 2 ^ 31 := pow ▸ Nat.pow_le_pow_right (by decide) (by omega)
  have positive : 0 < align := pow ▸ Nat.two_pow_pos k
  rw [Word.sub_of_le inside (by omega)] at large
  have aend : Word.add 64 a size % 2 ^ 32 = a + size := by
    rw [Word.add_of_lt (by omega), Nat.mod_eq_of_lt (by omega)]
  rw [Nat.mod_eq_of_lt (by omega), Word.add_sub_one_and_mask_eq pow narrow.le (by omega)] at formula
  have above : b.start ≤ a := formula ▸ Word.le_alignUp positive b.start
  have aligned : align ∣ a := formula ▸ Word.dvd_alignUp _ _
  rw [aend]
  refine ⟨before, b, after, if a + size ≠ b.bend then [{ b with start := a + size }] else [],
    ⟨cut, ?_, above, ?_, ?_, ?_, aligned, rfl⟩, below, rfl, ?_, rfl⟩
  · dsimp only
    split
    · rw [cut, ← place, List.set_append_right _ _ le_rfl, Nat.sub_self]
      rfl
    · rw [cut, ← place, List.eraseIdx_append_of_length_le le_rfl, Nat.sub_self]
      rfl
  · dsimp only [Region.stop]
    omega
  · intro p member
    split at member
    · obtain rfl := List.mem_singleton.mp member
      refine ⟨?_, ?_, le_rfl, rfl, Or.inl le_rfl⟩
      · dsimp only
        omega
      · dsimp only
        omega
    · cases member
  · split <;> simp
  · dsimp only
    split <;> omega

/-- Where a region for use at boot time would start in a block. -/
def Blk.boottimeStart (b : Blk) (align : ℕ) : ℕ :=
  Word.sub 32 (Word.add 32 b.start (align % 2 ^ 32)) 1 &&& Word.mask 32 align

/-- A block has space for the region. -/
def Blk.Fits (size align : ℕ) (b : Blk) : Prop :=
  size ≤ Word.sub 32 b.bend b.start ∧ b.boottimeStart align ≤ b.bend ∧ size ≤ Word.sub 32 b.bend (b.boottimeStart align)

instance decidableBlkFits (size align : ℕ) (b : Blk) : Decidable (b.Fits size align) := inferInstanceAs (Decidable (_ ∧ _ ∧ _))

/-- Some block has space for the region, and in the first that does it starts below `top`. -/
def RoomIn (top size align : ℕ) : List Blk → Prop
  | [] => False
  | b :: rest => if b.Fits size align then b.boottimeStart align < top else RoomIn top size align rest

instance decidableRoomIn (top size align : ℕ) : (blk : List Blk) → Decidable (RoomIn top size align blk)
  | [] => inferInstanceAs (Decidable False)
  | b :: rest => by
    have := decidableRoomIn top size align rest
    unfold RoomIn
    infer_instance

/-- Base memory has room for a region for use at boot time. -/
def Bmem.HasRoom (s : Bmem) (size align : ℕ) : Prop := RoomIn s.runtimeBmemTop size align s.blk

instance (s : Bmem) (size align : ℕ) : Decidable (s.HasRoom size align) := inferInstanceAs (Decidable (RoomIn ..))

private theorem bmemAllocBoottimeFrom_cases (s : Bmem) (size align : ℕ) {left first : ℕ} (total : first + left = s.blk.length) :
    (∃ result, bmemAllocBoottimeFrom s size align left first = .ok result) ∧
        RoomIn s.runtimeBmemTop size align (s.blk.drop first) ∨
      bmemAllocBoottimeFrom s size align left first = .error (.error "cannot alloc. for boot time from base mem.!") ∧
        ¬ RoomIn s.runtimeBmemTop size align (s.blk.drop first) := by
  induction left generalizing first with
  | zero =>
    rw [List.drop_eq_nil_of_le (show s.blk.length ≤ first by omega)]
    exact .inr ⟨rfl, id⟩
  | succ left ih =>
    have inside : first < s.blk.length := by omega
    have rest := @ih (first + 1) (by omega)
    rw [bmemAllocBoottimeFrom, load_of_lt inside, ok_bind, List.drop_eq_getElem_cons inside, RoomIn]
    generalize s.blk[first] = b
    dsimp only
    by_cases fits : b.Fits size align
    · obtain ⟨large, inside, space⟩ := id fits
      rw [if_pos fits]
      rw [Blk.boottimeStart] at inside space ⊢
      rw [if_neg large.not_gt, if_neg inside.not_gt, if_neg space.not_gt]
      split
      · next above => exact .inr ⟨rfl, above.not_gt⟩
      · next below => exact .inl ⟨⟨_, rfl⟩, not_le.mp below⟩
    · rw [if_neg fits]
      split
      · exact rest
      · next large =>
        split
        · exact rest
        · next inside =>
          split
          · exact rest
          · next space => exact absurd ⟨not_lt.mp large, not_lt.mp inside, not_lt.mp space⟩ fits

/-- `bmem_alloc_boottime` succeeds exactly where there is room, and otherwise ends in an error. -/
theorem bmemAllocBoottime_cases (s : Bmem) (size align : ℕ) :
    (∃ result, bmemAllocBoottime s size align = .ok result) ∧ s.HasRoom size align ∨
      bmemAllocBoottime s size align = .error (.error "cannot alloc. for boot time from base mem.!") ∧
        ¬ s.HasRoom size align := by
  have cases := bmemAllocBoottimeFrom_cases s size align (Nat.zero_add s.blk.length)
  rwa [List.drop_zero] at cases

/-- A region for use at boot time is aligned memory below 1 MiB. -/
theorem bmemAllocBoottime_region {k : ℕ} (blks : ∀ b ∈ s.blk, b.Ok) (pow : align = 2 ^ k) (narrow : k < 32)
    (ran : bmemAllocBoottime s size align = .ok (a, t)) : a + size ≤ bmemMaxAddr ∧ align ∣ a := by
  obtain ⟨before, b, after, pieces, cut, -⟩ := bmemAllocBoottime_ok blks pow narrow ran
  have ok := blks b (by rw [cut.old]; simp)
  exact ⟨cut.below.trans (ok.given.trans ok.high), cut.aligned⟩

/-- An alignment beyond 32 bits is converted to zero, and the region is placed at address 0. -/
theorem bmemAllocBoottime_wide {k : ℕ} (pow : align = 2 ^ k) (wide : 32 ≤ k)
    (ran : bmemAllocBoottime s size align = .ok (a, t)) :
    a = 0 ∧ t.returned = ⟨.boottime, 0, size, align, s.runtimeBmemTop⟩ :: s.returned := by
  obtain ⟨_, _, _, formula, _, _, _, rfl⟩ := bmemAllocBoottimeFrom_ok ran
  rw [pow, Word.mask_of_dvd (pow_dvd_pow 2 wide), Nat.and_zero] at formula
  subst formula
  exact ⟨rfl, rfl⟩

end

/-- Either allocator notes the region it gives out. -/
theorem Bmem.step_noted {s t : Bmem} {call : BmemCall} (stepped : s.step call = .ok t) :
    ∃ r, t.returned = r :: s.returned ∧ r.kind = call.kind ∧ r.size = call.size ∧ r.align = call.align := by
  obtain ⟨kind, size, align⟩ := call
  obtain ⟨⟨a, _⟩, ran, rfl⟩ := map_eq_ok.mp stepped
  cases kind with
  | runtime =>
    obtain ⟨_, _, _, _, _, _, rfl⟩ := bmemAllocFrom_ok ran
    exact ⟨_, rfl, rfl, rfl, rfl⟩
  | boottime =>
    obtain ⟨_, _, _, _, _, _, _, rfl⟩ := bmemAllocBoottimeFrom_ok ran
    exact ⟨_, rfl, rfl, rfl, rfl⟩

end Biefircate
