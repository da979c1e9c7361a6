import Biefircate.Model.Stage1.HandOver
import Biefircate.Proofs.Stage1.BmemInvariant
import Mathlib.Data.List.Flatten

/-! # Which blocks `add_our_mem_bparms` reports

Every range that is reported takes a node from the lowest block with room for one. Only a node that fills
its block to the end takes the block out of the array, which moves the blocks above it down by one. The
loop does not notice: it then goes on one block too far.
-/

namespace Biefircate

/-! ## Nodes in a block -/

/-- The size of a node that describes a range. -/
def rangeNodeSize : ℕ := 48

/-- Where the first node in the block goes. -/
def Blk.nodeAt (b : Blk) : ℕ := Word.alignUp b.start sizeofPtr

/-- The number of nodes that fit in the block. -/
def Blk.slots (b : Blk) : ℕ := (b.bend - b.nodeAt) / rangeNodeSize

/-- The nodes that fit in the block fill it to the end. -/
def Blk.FillsUp (b : Blk) : Prop := 0 < b.slots ∧ (b.bend - b.nodeAt) % rangeNodeSize = 0

instance (b : Blk) : Decidable b.FillsUp := inferInstanceAs (Decidable (_ ∧ _))

/-- The numbers of the nodes, counted on from `n`, that take a block out of the array. -/
def usedUpAt : ℕ → List Blk → List ℕ
  | _, [] => []
  | n, b :: rest => if b.FillsUp then (n + b.slots) :: usedUpAt (n + b.slots) rest else usedUpAt (n + b.slots) rest

theorem lt_of_mem_usedUpAt {low : List Blk} {n m : ℕ} (member : m ∈ usedUpAt n low) : n < m := by
  induction low generalizing n with
  | nil => cases member
  | cons b rest ih =>
    rw [usedUpAt] at member
    split at member
    · next fills =>
      have some := fills.1
      rcases List.mem_cons.mp member with rfl | later
      · omega
      · have beyond := ih later
        omega
    · have beyond := ih member
      omega

theorem usedUpAt_append_of_full {before : List Blk} (full : ∀ b ∈ before, b.slots = 0) (n : ℕ) (rest : List Blk) :
    usedUpAt n (before ++ rest) = usedUpAt n rest := by
  induction before with
  | nil => rfl
  | cons b others ih =>
    obtain ⟨none, fullOthers⟩ := List.forall_mem_cons.mp full
    have never : ¬ b.FillsUp := fun fills => absurd fills.1 (by omega)
    rw [List.cons_append, usedUpAt, if_neg never, none]
    exact ih fullOthers

/-- The blocks `low'` are what `k` nodes leave of the blocks `low`: as many blocks are gone as the nodes have
used up, and the rest will be used up as it would have been. -/
structure Took (k : ℕ) (low low' : List Blk) : Prop where
  stages : ∀ n, ∃ early, usedUpAt n low = early ++ usedUpAt (n + k) low' ∧
    early.length + low'.length = low.length ∧ ∀ m ∈ early, m ≤ n + k

theorem Took.refl (low : List Blk) : Took 0 low low :=
  ⟨fun n => ⟨[], rfl, Nat.zero_add _, by simp⟩⟩

theorem Took.trans {k l : ℕ} {low low' low'' : List Blk} (first : Took k low low') (second : Took l low' low'') :
    Took (k + l) low low'' := by
  constructor
  intro n
  obtain ⟨early, order, fewer, bound⟩ := first.stages n
  obtain ⟨early', order', fewer', bound'⟩ := second.stages (n + k)
  refine ⟨early ++ early', ?_, by rw [List.length_append]; omega, ?_⟩
  · rw [order, order', List.append_assoc, Nat.add_assoc]
  · intro m member
    rcases List.mem_append.mp member with left | right
    · exact (bound m left).trans (by omega)
    · exact (bound' m right).trans (by omega)

theorem Took.length_le {k : ℕ} {low low' : List Blk} (took : Took k low low') : low'.length ≤ low.length := by
  obtain ⟨_, _, fewer, _⟩ := took.stages 0
  omega

/-- One node is taken from the lowest block with room for it. -/
theorem Took.one {before after : List Blk} {b : Blk} (full : ∀ b' ∈ before, b'.slots = 0) (room : 0 < b.slots) :
    Took 1 (before ++ b :: after)
      (before ++ if b.nodeAt + rangeNodeSize = b.bend then after
        else { b with start := b.nodeAt + rangeNodeSize } :: after) := by
  have aligned : sizeofPtr ∣ b.nodeAt + rangeNodeSize := Nat.dvd_add (Word.dvd_alignUp _ _) (by decide)
  have next : Word.alignUp (b.nodeAt + rangeNodeSize) sizeofPtr = b.nodeAt + rangeNodeSize :=
    Word.alignUp_of_dvd (by decide) aligned
  constructor
  intro n
  simp only [usedUpAt_append_of_full full]
  split
  · next filled =>
    have slots : b.slots = 1 := by
      rw [Blk.slots, ← filled, Nat.add_sub_cancel_left, rangeNodeSize]
    have fills : b.FillsUp := ⟨room, by rw [← filled, Nat.add_sub_cancel_left, Nat.mod_self]⟩
    refine ⟨[n + 1], ?_, ?_, by simp⟩
    · rw [usedUpAt, if_pos fills, slots]
      rfl
    · simp only [List.length_append, List.length_cons, List.length_nil]
      omega
  · next left =>
    refine ⟨[], ?_, by simp, by simp⟩
    have fewer : Blk.slots { b with start := b.nodeAt + rangeNodeSize } = b.slots - 1 := by
      simp only [Blk.slots, Blk.nodeAt] at next ⊢
      rw [next, rangeNodeSize]
      omega
    have same : Blk.FillsUp { b with start := b.nodeAt + rangeNodeSize } ↔ b.FillsUp := by
      rw [Blk.FillsUp, Blk.FillsUp, fewer]
      simp only [Blk.slots, Blk.nodeAt, rangeNodeSize] at next room left ⊢
      rw [next]
      omega
    rw [List.nil_append, usedUpAt, usedUpAt, fewer, show n + 1 + (b.slots - 1) = n + b.slots by omega]
    exact if_congr same.symm rfl rfl

/-! ## One node -/

section

variable {s t : Bmem} {size align a k : ℕ}

/-- The block has room for a region of the given size and alignment. -/
def Blk.HasRoom (b : Blk) (size align : ℕ) : Prop := Word.alignUp b.start align + size ≤ b.bend

/-- The allocation took block `b` at `blkIdx`, the first from `first` on with room. -/
private structure TookFirst (s t : Bmem) (size align first a blkIdx : ℕ) (b : Blk) : Prop where
  loaded : load s.blk blkIdx = .ok b
  room : b.HasRoom size align
  place : a = Word.alignUp b.start align
  lowest : ∀ j b', first ≤ j → j < blkIdx → load s.blk j = .ok b' → ¬ b'.HasRoom size align
  below : a < s.runtimeBmemTop
  top : t.runtimeBmemTop = s.runtimeBmemTop
  attr : t.bmemUefiAttr = s.bmemUefiAttr
  blk : t.blk = if a + size ≠ b.bend then s.blk.set blkIdx { b with start := a + size } else s.blk.eraseIdx blkIdx

private theorem bmemAllocBoottimeFrom_first {left first : ℕ} (blks : ∀ b ∈ s.blk, b.Ok) (pow : align = 2 ^ k)
    (narrow : k < 32) (ran : bmemAllocBoottimeFrom s size align left first = .ok (a, t)) :
    ∃ blkIdx b, TookFirst s t size align first a blkIdx b := by
  induction left generalizing first with
  | zero => cases ran
  | succ left ih =>
    obtain ⟨b, loaded, ran⟩ := bind_eq_ok.mp ran
    have ok := blks b (List.mem_of_getElem? (load_eq_ok.mp loaded))
    have free := ok.free
    have high := ok.given.trans ok.high
    rw [bmemMaxAddr] at high
    have positive : 0 < align := pow ▸ Nat.two_pow_pos k
    have above := Word.le_alignUp positive b.start
    have onward : ¬ b.HasRoom size align → bmemAllocBoottimeFrom s size align left (first + 1) = .ok (a, t) →
        ∃ blkIdx b, TookFirst s t size align first a blkIdx b := by
      intro full ran
      obtain ⟨blkIdx, b', took⟩ := ih ran
      refine ⟨blkIdx, b', { took with lowest := ?_ }⟩
      intro j other atLeast below present
      rcases Nat.lt_or_eq_of_le atLeast with later | rfl
      · exact took.lowest j other later below present
      · rw [loaded] at present
        exact Except.ok.inj present ▸ full
    have small : align ≤ 2 ^ 31 := pow ▸ Nat.pow_le_pow_right (by decide) (by omega)
    have formula : Word.sub 32 (Word.add 32 b.start (align % 2 ^ 32)) 1 &&& Word.mask 32 align =
        Word.alignUp b.start align := by
      rw [Nat.mod_eq_of_lt (by omega), Word.add_sub_one_and_mask_eq pow narrow.le (by omega)]
    rw [formula, Word.sub_of_le free (by omega)] at ran
    split at ran
    · exact onward (fun room => by rw [Blk.HasRoom] at room; omega) ran
    · dsimp only at ran
      split at ran
      · exact onward (fun room => by rw [Blk.HasRoom] at room; omega) ran
      · next inside =>
        rw [Word.sub_of_le (not_lt.mp inside) (by omega)] at ran
        split at ran
        · exact onward (fun room => by rw [Blk.HasRoom] at room; omega) ran
        · obtain ⟨below, ran⟩ := ite_error_eq_ok.mp ran
          cases ran
          have aend : Word.add 64 (Word.alignUp b.start align) size % 2 ^ 32 = Word.alignUp b.start align + size := by
            rw [Word.add_of_lt (by omega), Nat.mod_eq_of_lt (by omega)]
          refine ⟨first, b, loaded, by rw [Blk.HasRoom]; omega, rfl, fun j _ low high => absurd low (by omega),
            not_le.mp below, rfl, rfl, ?_⟩
          dsimp only
          rw [aend]

/-- `bmem_alloc_boottime` takes the first block with room. -/
theorem bmemAllocBoottime_first (blks : ∀ b ∈ s.blk, b.Ok) (pow : align = 2 ^ k) (narrow : k < 32)
    (ran : bmemAllocBoottime s size align = .ok (a, t)) :
    ∃ before b after, s.blk = before ++ b :: after ∧ (∀ b' ∈ before, ¬ b'.HasRoom size align) ∧
      b.HasRoom size align ∧ a = Word.alignUp b.start align ∧ a < s.runtimeBmemTop ∧
      t.runtimeBmemTop = s.runtimeBmemTop ∧ t.bmemUefiAttr = s.bmemUefiAttr ∧
      t.blk = before ++ if a + size = b.bend then after else { b with start := a + size } :: after := by
  obtain ⟨blkIdx, b, took⟩ := bmemAllocBoottimeFrom_first blks pow narrow ran
  obtain ⟨before, after, cut, size'⟩ := split_of_load took.loaded
  refine ⟨before, b, after, cut, ?_, took.room, took.place, took.below, took.top, took.attr, ?_⟩
  · intro b' member
    obtain ⟨j, inside, rfl⟩ := List.getElem_of_mem member
    apply took.lowest j _ (Nat.zero_le j) (by omega)
    rw [load_eq_ok, cut, List.getElem?_append_left inside]
    exact List.getElem?_eq_getElem inside
  · rw [took.blk, cut, ← size']
    by_cases filled : a + size = b.bend
    · rw [if_neg (not_not.mpr filled), if_pos filled, List.eraseIdx_append_of_length_le le_rfl, Nat.sub_self]
      rfl
    · rw [if_pos filled, if_neg filled, List.set_append_right _ _ le_rfl, Nat.sub_self]
      rfl

end

/-! ## One block -/

/-- The ranges that are reported: those that are not empty. -/
def reported (ranges : List BdatMemRange) : List BdatMemRange := ranges.filter fun r => r.len ≠ 0

/-- What there is to report of a block: its free part, and the part given out at run time. -/
def Blk.ranges (attr : ℕ) (b : Blk) : List BdatMemRange :=
  reported [⟨b.start, b.bend - b.start, e820Ram, 1, attr⟩, ⟨b.bend, b.origEnd - b.bend, e820Reserved, 1, attr⟩]

/-- A block that is not empty gives something to report. -/
theorem Blk.ranges_length_pos {b : Blk} (nonempty : b.start < b.origEnd) (attr : ℕ) : 0 < (b.ranges attr).length := by
  by_cases free : b.bend - b.start = 0
  · have given : b.origEnd - b.bend ≠ 0 := by omega
    simp [Blk.ranges, reported, given]
  · simp [Blk.ranges, reported, free]

/-- The blocks that lie below `runtime_bmem_top`, and those that start there or above. -/
structure Halves (s : Bmem) (low high : List Blk) : Prop where
  blk : s.blk = low ++ high
  low : ∀ b ∈ low, b.Ok ∧ b.start < s.runtimeBmemTop ∧ b.bend ≤ s.runtimeBmemTop
  high : ∀ b ∈ high, b.Ok ∧ s.runtimeBmemTop ≤ b.start ∧ b.start < b.origEnd

/-- The state `t` comes from reporting the ranges: their nodes are from the blocks `low`, of which `low'`
are left. -/
structure Reports (s t : Stage1) (low low' high : List Blk) (ranges : List BdatMemRange) : Prop where
  halves : Halves t.bmem low' high
  took : Took ranges.length low low'
  nodes : t.nodes = s.nodes ++ ranges.map Bparm.mrng
  top : t.bmem.runtimeBmemTop = s.bmem.runtimeBmemTop
  attr : t.bmem.bmemUefiAttr = s.bmem.bmemUefiAttr

theorem Reports.trans {s t u : Stage1} {low low' low'' high : List Blk} {first second : List BdatMemRange}
    (one : Reports s t low low' high first) (two : Reports t u low' low'' high second) :
    Reports s u low low'' high (first ++ second) where
  halves := two.halves
  took := by
    rw [List.length_append]
    exact one.took.trans two.took
  nodes := by rw [two.nodes, one.nodes, List.map_append, List.append_assoc]
  top := two.top.trans one.top
  attr := two.attr.trans one.attr

section

variable {s t : Stage1} {low high : List Blk}

/-- A block that can take a node for a range is one with a slot. -/
theorem Blk.hasRoom_iff (b : Blk) : b.HasRoom rangeNodeSize sizeofPtr ↔ 0 < b.slots := by
  rw [Blk.HasRoom, Blk.slots, Blk.nodeAt, Nat.div_pos_iff, rangeNodeSize]
  omega

/-- A block that starts below `runtime_bmem_top` is not among the high ones. -/
theorem Halves.cut {s : Bmem} {before after : List Blk} {b : Blk} (halves : Halves s low high)
    (cut : s.blk = before ++ b :: after) (below : b.start < s.runtimeBmemTop) :
    ∃ rest, low = before ++ b :: rest ∧ after = rest ++ high := by
  have notHigh : b ∉ high := fun member => absurd (halves.high b member).2.1 (not_le.mpr below)
  rw [halves.blk] at cut
  rcases List.append_eq_append_iff.mp cut with ⟨more, early, late⟩ | ⟨more, early, late⟩
  · have member : b ∈ high := by simp [late]
    contradiction
  · cases more with
    | nil =>
      have member : b ∈ high := by
        rw [List.nil_append] at late
        rw [← late]
        exact List.mem_cons_self ..
      contradiction
    | cons c rest =>
      obtain ⟨rfl, rfl⟩ := List.cons.inj late
      exact ⟨rest, early, rfl⟩

/-- The block `b` among the low ones gives its first slot, and what is left of it still lies below
`runtime_bmem_top`. -/
theorem Halves.take {s t : Bmem} {before rest : List Blk} {b : Blk} (halves : Halves s (before ++ b :: rest) high)
    (room : b.HasRoom rangeNodeSize sizeofPtr) (top : t.runtimeBmemTop = s.runtimeBmemTop)
    (blk : t.blk = before ++ if b.nodeAt + rangeNodeSize = b.bend then rest ++ high
      else { b with start := b.nodeAt + rangeNodeSize } :: (rest ++ high)) :
    Halves t (before ++ if b.nodeAt + rangeNodeSize = b.bend then rest
      else { b with start := b.nodeAt + rangeNodeSize } :: rest) high where
  blk := by
    rw [blk]
    split <;> simp
  low := by
    rw [top]
    have others : ∀ b' ∈ before ++ rest, b'.Ok ∧ b'.start < s.runtimeBmemTop ∧ b'.bend ≤ s.runtimeBmemTop := by
      intro b' member
      apply halves.low b'
      exact (List.append_sublist_append_left before |>.mpr (List.sublist_cons_self b rest)).mem member
    split
    · exact others
    · next left =>
      obtain ⟨ok, _, stop⟩ := halves.low b (by simp)
      have low := ok.low
      have above : b.start ≤ b.nodeAt := Word.le_alignUp (by decide) _
      rw [Blk.HasRoom, ← Blk.nodeAt] at room
      intro b' member
      simp only [List.mem_append, List.mem_cons] at member others
      rcases member with early | rfl | late
      · exact others b' (Or.inl early)
      · exact ⟨⟨by dsimp only; omega, by dsimp only; omega, ok.given, ok.high⟩, by dsimp only; omega, stop⟩
      · exact others b' (Or.inr late)
  high := by
    rw [top]
    exact halves.high

/-- A range that is not empty takes a node from the low blocks. -/
theorem bparmAddMemRange_reports {start len type ext uefi : ℕ} (halves : Halves s.bmem low high)
    (ran : bparmAddMemRange s start len type ext uefi = .ok t) :
    ∃ low', Reports s t low low' high (reported [⟨start, len, type, ext, uefi⟩]) := by
  unfold bparmAddMemRange at ran
  split at ran
  · next empty =>
    cases ran
    refine ⟨low, halves, ?_, ?_, rfl, rfl⟩
    · simpa [reported, empty] using Took.refl low
    · simp [reported, empty]
  · next nonempty =>
    obtain ⟨⟨a, bmem⟩, allocated, same⟩ := bind_eq_ok.mp ran
    cases same
    have blks : ∀ b ∈ s.bmem.blk, b.Ok := by
      rw [halves.blk]
      exact List.forall_mem_append.mpr ⟨fun b member => (halves.low b member).1, fun b member => (halves.high b member).1⟩
    obtain ⟨before, b, after, cut, full, room, place, below, top, attr, blk⟩ :=
      bmemAllocBoottime_first blks (show sizeofPtr = 2 ^ 3 from rfl) (by decide) allocated
    have size : sizeofBparm + (Bparm.mrng ⟨start, len, type, ext, uefi⟩).size = rangeNodeSize := rfl
    rw [size] at full room blk
    have above : b.start ≤ a := place ▸ Word.le_alignUp (by decide) _
    obtain ⟨rest, beforeLow, afterRest⟩ := halves.cut cut (by omega)
    have roomy : 0 < b.slots := (Blk.hasRoom_iff b).mp room
    have took : Took 1 low _ := beforeLow ▸ @Took.one before rest b (fun b' member => by
      have none := full b' member
      rw [Blk.hasRoom_iff] at none
      exact Nat.eq_zero_of_not_pos none) roomy
    have one : reported [⟨start, len, type, ext, uefi⟩] = [⟨start, len, type, ext, uefi⟩] := by
      simp [reported, nonempty]
    rw [afterRest, place, ← Blk.nodeAt] at blk
    exact ⟨_, (beforeLow ▸ halves).take room top blk, by rw [one]; exact took, by rw [one]; simp [Stage1.nodes], top, attr⟩

/-- The body of the loop reports one block. -/
theorem addBlk_reports {u : Stage1} {b : Blk} (halves : Halves s.bmem low high) (ok : b.Ok)
    (free : bparmAddMemRange s b.start (Word.sub 32 b.bend b.start) e820Ram 1 s.bmem.bmemUefiAttr = .ok t)
    (given : bparmAddMemRange t b.bend (Word.sub 32 b.origEnd b.bend) e820Reserved 1 t.bmem.bmemUefiAttr = .ok u) :
    ∃ low', Reports s u low low' high (b.ranges s.bmem.bmemUefiAttr) := by
  have start := ok.free
  have stop := ok.given
  have bound := ok.high
  rw [bmemMaxAddr] at bound
  rw [Word.sub_of_le start (by omega)] at free
  rw [Word.sub_of_le stop (by omega)] at given
  obtain ⟨low', first⟩ := bparmAddMemRange_reports halves free
  rw [first.attr] at given
  obtain ⟨low'', second⟩ := bparmAddMemRange_reports first.halves given
  refine ⟨low'', ?_⟩
  have both := first.trans second
  rwa [reported, reported, ← List.filter_append] at both

/-! ## The loop -/

theorem addBlkBparms_of_le {left blkIdx : ℕ} (past : s.bmem.blk.length ≤ blkIdx) :
    addBlkBparms left blkIdx s = .ok s := by
  cases left with
  | zero => rfl
  | succ left => rw [addBlkBparms, if_neg (not_lt.mpr past)]

/-- One round of the loop, at the block `b` with the blocks `past` reported before it. -/
theorem addBlkBparms_cons {left blkIdx : ℕ} {b : Blk} {past rest : List Blk}
    (halves : Halves s.bmem low (past ++ b :: rest)) (place : blkIdx = low.length + past.length)
    (ran : addBlkBparms (left + 1) blkIdx s = .ok t) :
    ∃ u low', Reports s u low low' (past ++ b :: rest) (b.ranges s.bmem.bmemUefiAttr) ∧
      addBlkBparms left (blkIdx + 1) u = .ok t := by
  have inside : blkIdx < s.bmem.blk.length := by
    simp only [halves.blk, List.length_append, List.length_cons]
    omega
  have here : load s.bmem.blk blkIdx = .ok b := by
    rw [load_eq_ok, halves.blk, ← List.append_assoc, place, ← List.length_append]
    simp
  rw [addBlkBparms, if_pos inside, here, ok_bind] at ran
  obtain ⟨v, free, ran⟩ := bind_eq_ok.mp ran
  obtain ⟨u, given, ran⟩ := bind_eq_ok.mp ran
  obtain ⟨low', reports⟩ := addBlk_reports halves (halves.high b (by simp)).1 free given
  exact ⟨u, low', reports, ran⟩

/-- As long as no block is used up before the last one is reached, all are reported. -/
theorem addBlkBparms_all {left blkIdx n : ℕ} {past rest : List Blk} (halves : Halves s.bmem low (past ++ rest))
    (place : blkIdx = low.length + past.length) (enough : rest.length ≤ left)
    (late : ∀ m ∈ usedUpAt n low, n + (rest.dropLast.flatMap (Blk.ranges s.bmem.bmemUefiAttr)).length < m)
    (ran : addBlkBparms left blkIdx s = .ok t) :
    t.nodes = s.nodes ++ (rest.flatMap (Blk.ranges s.bmem.bmemUefiAttr)).map Bparm.mrng := by
  induction left generalizing s low past rest blkIdx n with
  | zero =>
    obtain rfl := List.length_eq_zero_iff.mp (Nat.le_zero.mp enough)
    cases ran
    simp
  | succ left ih =>
    cases rest with
    | nil =>
      have beyond : s.bmem.blk.length ≤ blkIdx := by
        rw [halves.blk, List.append_nil, List.length_append]
        omega
      rw [addBlkBparms_of_le beyond] at ran
      cases ran
      simp
    | cons b rest =>
      obtain ⟨u, low', reports, ran⟩ := addBlkBparms_cons halves place ran
      cases rest with
      | nil =>
        have fewer := reports.took.length_le
        have beyond : u.bmem.blk.length ≤ blkIdx + 1 := by
          rw [reports.halves.blk]
          simp only [List.length_append, List.length_cons, List.length_nil]
          omega
        rw [addBlkBparms_of_le beyond] at ran
        cases ran
        simpa using reports.nodes
      | cons c rest =>
        rw [List.dropLast_cons_of_ne_nil (List.cons_ne_nil c rest), List.flatMap_cons, List.length_append] at late
        obtain ⟨early, order, fewer, bound⟩ := reports.took.stages n
        -- Nothing is used up by the nodes of this block.
        have none : early = [] := by
          apply List.eq_nil_iff_forall_not_mem.mpr
          intro m member
          have soon := bound m member
          have later := late m (by rw [order]; exact List.mem_append_left _ member)
          omega
        rw [none, List.nil_append] at order
        rw [none, List.length_nil, Nat.zero_add] at fewer
        have halves' : Halves u.bmem low' ((past ++ [b]) ++ c :: rest) := by
          rw [List.append_assoc]
          exact reports.halves
        have tail := ih halves' (by rw [fewer, place, List.length_append]; rfl) (Nat.le_of_succ_le_succ enough)
          (n := n + (b.ranges s.bmem.bmemUefiAttr).length) (fun m member => by
            have later := late m (order ▸ member)
            rw [reports.attr]
            omega) ran
        rw [tail, reports.nodes, reports.attr]
        simp only [List.flatMap_cons, List.map_append, List.append_assoc]

/-- The loop reports no more than the blocks from its place on. -/
theorem addBlkBparms_le {left blkIdx passed : ℕ} (halves : Halves s.bmem low high)
    (place : blkIdx = low.length + passed) (ran : addBlkBparms left blkIdx s = .ok t) :
    ∃ ranges, t.nodes = s.nodes ++ ranges ∧
      ranges.length ≤ ((high.drop passed).flatMap (Blk.ranges s.bmem.bmemUefiAttr)).length := by
  induction left generalizing s low blkIdx passed with
  | zero =>
    cases ran
    exact ⟨[], by simp, Nat.zero_le _⟩
  | succ left ih =>
    rcases Nat.lt_or_ge passed high.length with inside | outside
    · have cut : high = high.take passed ++ high[passed] :: high.drop (passed + 1) := by
        rw [List.getElem_cons_drop, List.take_append_drop]
      have size : (high.take passed).length = passed := by rw [List.length_take]; omega
      obtain ⟨u, low', reports, ran⟩ := addBlkBparms_cons (cut ▸ halves) (by rw [size]; exact place) ran
      rw [← cut] at reports
      have fewer := reports.took.length_le
      have onward : blkIdx + 1 = low'.length + (passed + 1 + (low.length - low'.length)) := by omega
      obtain ⟨more, nodes, short⟩ := ih reports.halves onward ran
      refine ⟨_, by rw [nodes, reports.nodes, List.append_assoc], ?_⟩
      have less := ((List.drop_sublist (low.length - low'.length) (high.drop (passed + 1))).flatMap
        (Blk.ranges s.bmem.bmemUefiAttr)).length_le
      rw [List.drop_drop] at less
      rw [reports.attr] at short
      rw [List.drop_eq_getElem_cons inside, List.flatMap_cons]
      simp only [List.length_append, List.length_map]
      omega
    · rw [addBlkBparms_of_le (by rw [halves.blk, List.length_append]; omega)] at ran
      cases ran
      exact ⟨[], by simp, Nat.zero_le _⟩

/-- If a block is used up before the last one is reached, some block is not reported. -/
theorem addBlkBparms_lt {left blkIdx n : ℕ} {past rest : List Blk} (halves : Halves s.bmem low (past ++ rest))
    (place : blkIdx = low.length + past.length)
    (soon : ∃ m ∈ usedUpAt n low, m ≤ n + (rest.dropLast.flatMap (Blk.ranges s.bmem.bmemUefiAttr)).length)
    (ran : addBlkBparms left blkIdx s = .ok t) :
    ∃ ranges, t.nodes = s.nodes ++ ranges ∧
      ranges.length < (rest.flatMap (Blk.ranges s.bmem.bmemUefiAttr)).length := by
  induction left generalizing s low past rest blkIdx n with
  | zero =>
    obtain ⟨m, member, soon⟩ := soon
    have after := lt_of_mem_usedUpAt member
    have less := ((List.dropLast_sublist rest).flatMap (Blk.ranges s.bmem.bmemUefiAttr)).length_le
    cases ran
    refine ⟨[], by simp, ?_⟩
    rw [List.length_nil]
    omega
  | succ left ih =>
    obtain ⟨m, member, soon⟩ := soon
    have after := lt_of_mem_usedUpAt member
    match rest with
    | [] => exact absurd soon (by simp; omega)
    | [b] => exact absurd soon (by simp; omega)
    | b :: c :: rest =>
      rw [List.dropLast_cons_of_ne_nil (List.cons_ne_nil c rest), List.flatMap_cons, List.length_append] at soon
      obtain ⟨u, low', reports, ran⟩ := addBlkBparms_cons halves place ran
      obtain ⟨early, order, fewer, bound⟩ := reports.took.stages n
      have halves' : Halves u.bmem low' ((past ++ [b]) ++ c :: rest) := by
        rw [List.append_assoc]
        exact reports.halves
      cases early with
      | nil =>
        rw [List.nil_append] at order
        rw [List.length_nil, Nat.zero_add] at fewer
        have soon' : ∃ m ∈ usedUpAt (n + (b.ranges s.bmem.bmemUefiAttr).length) low', m ≤ n +
            (b.ranges s.bmem.bmemUefiAttr).length + ((c :: rest).dropLast.flatMap (Blk.ranges u.bmem.bmemUefiAttr)).length :=
          ⟨m, order ▸ member, by rw [reports.attr]; omega⟩
        obtain ⟨ranges, nodes, short⟩ :=
          ih halves' (by rw [fewer, place, List.length_append]; rfl) soon' ran
        refine ⟨_, by rw [nodes, reports.nodes, List.append_assoc], ?_⟩
        rw [reports.attr] at short
        rw [List.flatMap_cons]
        simp only [List.length_append, List.length_map]
        omega
      | cons e others =>
        -- The index moves past the next block, and whatever is reported comes from the blocks after it.
        rw [List.length_cons] at fewer
        have skipped : blkIdx + 1 = low'.length + (past.length + 2 + others.length) := by omega
        obtain ⟨ranges, nodes, short⟩ := addBlkBparms_le reports.halves skipped ran
        have less := ((List.drop_sublist others.length rest).flatMap (Blk.ranges s.bmem.bmemUefiAttr)).length_le
        have next : 0 < (c.ranges s.bmem.bmemUefiAttr).length :=
          Blk.ranges_length_pos (halves.high c (by simp)).2.2 _
        have from_ : (past ++ b :: c :: rest).drop (past.length + 2 + others.length) = rest.drop others.length := by
          rw [Nat.add_assoc, List.drop_length_add_append, Nat.add_comm 2]
          rfl
        rw [reports.attr, from_] at short
        refine ⟨_, by rw [nodes, reports.nodes, List.append_assoc], ?_⟩
        rw [List.flatMap_cons, List.flatMap_cons]
        simp only [List.length_append, List.length_map]
        omega

/-- The range below `runtime_bmem_top`, unless it is empty. -/
def Bmem.baseRanges (s : Bmem) : List BdatMemRange := reported [⟨0, s.runtimeBmemTop, e820Ram, 1, s.bmemUefiAttr⟩]

/-- All is reported as it should be exactly when no node for a block but the last one uses up a low block. -/
theorem addOurMemBparms_iff (halves : Halves s.bmem low high) (ran : addOurMemBparms s = .ok t) :
    t.nodes = s.nodes ++
        (s.bmem.baseRanges ++ high.flatMap (Blk.ranges s.bmem.bmemUefiAttr)).map Bparm.mrng ↔
      ∀ m ∈ usedUpAt 0 low, m ≤ s.bmem.baseRanges.length ∨
        s.bmem.baseRanges.length + (high.dropLast.flatMap (Blk.ranges s.bmem.bmemUefiAttr)).length < m := by
  obtain ⟨u, base, ran⟩ := bind_eq_ok.mp ran
  dsimp only at ran
  obtain ⟨low', reports⟩ := bparmAddMemRange_reports halves base
  rw [← Bmem.baseRanges] at reports
  have skipped : (u.bmem.blk.takeWhile fun b => decide (b.start < u.bmem.runtimeBmemTop)) = low' := by
    rw [reports.halves.blk, List.takeWhile_append_of_pos fun b member => by simpa using (reports.halves.low b member).2.1]
    cases high with
    | nil => simp
    | cons b rest =>
      have above := (reports.halves.high b (List.mem_cons_self ..)).2.1
      rw [List.takeWhile_cons_of_neg (by simpa using above), List.append_nil]
  rw [skipped] at ran
  obtain ⟨early, order, _, bound⟩ := reports.took.stages 0
  rw [Nat.zero_add] at order bound
  have whole : Halves u.bmem low' ([] ++ high) := reports.halves
  have enough : high.length ≤ u.bmem.blk.length := by
    rw [reports.halves.blk, List.length_append]
    exact Nat.le_add_left ..
  constructor
  · intro exact_ m member
    by_contra neither
    obtain ⟨after, soon⟩ := not_or.mp neither
    have later : m ∈ usedUpAt s.bmem.baseRanges.length low' := by
      rw [order] at member
      exact (List.mem_append.mp member).resolve_left fun early => after (bound m early)
    rw [← reports.attr] at soon
    obtain ⟨ranges, nodes, short⟩ := addBlkBparms_lt whole rfl ⟨m, later, not_lt.mp soon⟩ ran
    rw [nodes, reports.nodes, List.append_assoc, List.map_append] at exact_
    have same := congrArg List.length (List.append_cancel_left (List.append_cancel_left exact_))
    rw [List.length_map, ← reports.attr] at same
    omega
  · intro keeps
    have late : ∀ m ∈ usedUpAt s.bmem.baseRanges.length low', s.bmem.baseRanges.length +
        (high.dropLast.flatMap (Blk.ranges u.bmem.bmemUefiAttr)).length < m := by
      intro m member
      have after := lt_of_mem_usedUpAt member
      rw [reports.attr]
      exact (keeps m (by rw [order]; exact List.mem_append_right _ member)).resolve_left (not_le.mpr after)
    rw [addBlkBparms_all whole rfl enough late ran, reports.nodes, reports.attr,
      List.map_append, List.append_assoc]

end

end Biefircate
