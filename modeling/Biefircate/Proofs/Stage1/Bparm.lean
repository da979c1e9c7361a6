import Biefircate.Model.Stage1.Bparm
import Biefircate.Proofs.Stage1.BmemInit
import Mathlib.Algebra.Order.BigOperators.Group.List

/-! # Nodes are regions of base memory

Each node of the list is a boot time region of its own. What the nodes take and what is left free
never exceeds the 1 MiB there is, which bounds the number of nodes. Adding a node moves neither
`runtime_bmem_top` nor any region that was given out before.
-/

namespace Biefircate

/-- The number of bytes that the allocators can still give out. -/
def Bmem.freeBytes (s : Bmem) : ℕ := (s.blk.map fun b => b.bend - b.start).sum

/-- The number of bytes that the nodes of a list take. -/
def bparmBytes (nodes : List Bparm) : ℕ := (nodes.map fun bp => sizeofBparm + bp.size).sum

/-- What holds of stage 1 at any time before the hand-over. -/
structure Stage1.Inv (granted : ℕ → Bool) (s : Stage1) : Prop where
  bmem : s.bmem.Inv granted
  bounded : s.bmem.runtimeBmemTop ≤ bmemMaxAddr ∧ s.bmem.boottimeBmemBot ≤ bmemMaxAddr
  nodes : ∀ node ∈ s.bparms, ∃ r ∈ s.bmem.returned,
    r.kind = .boottime ∧ r.start = node.addr ∧ r.stop = node.stop
  spent : bparmBytes s.nodes + s.bmem.freeBytes ≤ bmemMaxAddr

/-- A node for `bp` was added at `a`, the lowest free memory, which lies below `runtime_bmem_top`. -/
structure Stage1.Added (granted : ℕ → Bool) (s t : Stage1) (bp : Bparm) (a : ℕ) : Prop where
  node : t.bparms = s.bparms ++ [⟨a, bp⟩]
  region : ∃ r, t.bmem.returned = r :: s.bmem.returned ∧ r.kind = .boottime
  top : t.bmem.runtimeBmemTop = s.bmem.runtimeBmemTop
  bot : s.bmem.boottimeBmemBot ≤ t.bmem.boottimeBmemBot
  below : a < s.bmem.runtimeBmemTop
  page : granted (a / efiPageSize) = true

/-- Only nodes for ranges were added, as boot time regions. -/
structure Stage1.Grows (s t : Stage1) : Prop where
  nodes : ∃ more, t.bparms = s.bparms ++ more ∧ ∀ node ∈ more, ∃ r, node.bp = .mrng r
  regions : ∃ more, t.bmem.returned = more ++ s.bmem.returned ∧ ∀ r ∈ more, r.kind = .boottime
  top : t.bmem.runtimeBmemTop = s.bmem.runtimeBmemTop
  bot : s.bmem.boottimeBmemBot ≤ t.bmem.boottimeBmemBot

theorem Stage1.Grows.refl (s : Stage1) : s.Grows s :=
  ⟨⟨[], by simp⟩, ⟨[], rfl, by simp⟩, rfl, le_rfl⟩

theorem Stage1.Grows.trans {s t u : Stage1} (first : s.Grows t) (second : t.Grows u) : s.Grows u := by
  obtain ⟨⟨nodes, eqNodes, ranges⟩, ⟨regions, eqRegions, kinds⟩, top, bot⟩ := first
  obtain ⟨⟨nodes', eqNodes', ranges'⟩, ⟨regions', eqRegions', kinds'⟩, top', bot'⟩ := second
  refine ⟨⟨nodes ++ nodes', ?_, ?_⟩, ⟨regions' ++ regions, ?_, ?_⟩, top'.trans top, bot.trans bot'⟩
  · rw [eqNodes', eqNodes, List.append_assoc]
  · exact List.forall_mem_append.mpr ⟨ranges, ranges'⟩
  · rw [eqRegions', eqRegions, List.append_assoc]
  · exact List.forall_mem_append.mpr ⟨kinds', kinds⟩

theorem Stage1.Added.grows {granted : ℕ → Bool} {s t : Stage1} {r : BdatMemRange} {a : ℕ}
    (added : Stage1.Added granted s t (.mrng r) a) : s.Grows t := by
  obtain ⟨region, noted, kind⟩ := added.region
  exact ⟨⟨_, added.node, by simp⟩, ⟨[region], noted, by simp [kind]⟩, added.top, added.bot⟩

/-- A range that was described stays described. -/
theorem Stage1.Grows.mem_memRanges {s t : Stage1} (grows : s.Grows t) {r : BdatMemRange}
    (member : r ∈ memRanges s.nodes) : r ∈ memRanges t.nodes := by
  obtain ⟨more, eqNodes, _⟩ := grows.nodes
  rw [Stage1.nodes, eqNodes, List.map_append, memRanges_append]
  exact List.mem_append_left _ member

/-- The regions for use at run time stay the same. -/
theorem Stage1.Grows.runtime_iff {s t : Stage1} (grows : s.Grows t) {r : Region} (kind : r.kind = .runtime) :
    r ∈ t.bmem.returned ↔ r ∈ s.bmem.returned := by
  obtain ⟨more, eqRegions, kinds⟩ := grows.regions
  rw [eqRegions, List.mem_append]
  constructor
  · rintro (new | old)
    · exact absurd (kinds r new) (by rw [kind]; simp)
    · exact old
  · exact Or.inr

section

variable {granted : ℕ → Bool} {s t : Stage1}

/-- What a cut takes from the free bytes. -/
theorem Cut.freeBytes_le {s t : Bmem} {r : Region} {before after pieces : List Blk} {b : Blk}
    (cut : Cut s t r before b after pieces) : t.freeBytes + r.size ≤ s.freeBytes := by
  have taken : (pieces.map fun b => b.bend - b.start).sum + r.size ≤ b.bend - b.start := by
    have above := cut.above
    have below := cut.below
    simp only [Region.stop] at below
    cases pieces with
    | nil =>
      simp only [List.map_nil, List.sum_nil]
      omega
    | cons piece rest =>
      have none : rest = [] := List.eq_nil_of_length_eq_zero (by simpa using cut.few)
      obtain ⟨low, _, high, _, clear⟩ := cut.kept piece (List.mem_cons_self ..)
      simp only [none, List.map_cons, List.map_nil, List.sum_cons, List.sum_nil, Region.stop] at clear ⊢
      omega
  simp only [Bmem.freeBytes, cut.old, cut.new, List.map_append, List.map_cons, List.sum_append,
    List.sum_cons]
  omega

/-- What a call of either allocator does to the rest of stage 1. -/
theorem Cut.stage1_inv {bmem : Bmem} {r : Region} {before after pieces : List Blk} {b : Blk}
    (cut : Cut s.bmem bmem r before b after pieces) (inv : s.Inv granted) (kept : bmem.Inv granted)
    (top : bmem.runtimeBmemTop ≤ s.bmem.runtimeBmemTop) (bot : bmem.boottimeBmemBot ≤ bmemMaxAddr) :
    Stage1.Inv granted { s with bmem := bmem } := by
  refine ⟨kept, ⟨top.trans inv.bounded.1, bot⟩, ?_, ?_⟩
  · intro node member
    obtain ⟨r', old, facts⟩ := inv.nodes node member
    exact ⟨r', by rw [cut.noted]; exact List.mem_cons_of_mem _ old, facts⟩
  · have less := cut.freeBytes_le
    have spent := inv.spent
    simp only [Stage1.nodes] at spent ⊢
    omega

theorem bmemAlloc_stage1 {size align k a : ℕ} {bmem : Bmem} (inv : s.Inv granted) (pow : align = 2 ^ k)
    (ran : bmemAlloc s.bmem size align = .ok (a, bmem)) : Stage1.Inv granted { s with bmem := bmem } := by
  obtain ⟨_, _, _, cut, top, bot, _⟩ := bmemAlloc_ok inv.bmem.blks pow ran
  exact cut.stage1_inv inv (bmemAlloc_inv inv.bmem pow ran) (top ▸ min_le_right ..) (bot ▸ inv.bounded.2)

theorem bmemAllocBoottime_stage1 {size align k a : ℕ} {bmem : Bmem} (inv : s.Inv granted)
    (pow : align = 2 ^ k) (narrow : k < 32) (ran : bmemAllocBoottime s.bmem size align = .ok (a, bmem)) :
    Stage1.Inv granted { s with bmem := bmem } := by
  obtain ⟨_, _, _, _, cut, _, top, bot, _⟩ := bmemAllocBoottime_ok inv.bmem.blks pow narrow ran
  have kept := bmemAllocBoottime_inv inv.bmem pow narrow ran
  have region := kept.regions _ (cut.noted ▸ List.mem_cons_self ..)
  exact cut.stage1_inv inv kept top.le (bot ▸ max_le inv.bounded.2 region.high)

/-- Adding a node keeps the invariant. -/
theorem bparmAdd_ok {bp : Bparm} (inv : s.Inv granted) (ran : bparmAdd s bp = .ok t) :
    t.Inv granted ∧ ∃ a, Stage1.Added granted s t bp a := by
  obtain ⟨⟨a, bmem⟩, allocated, same⟩ := bind_eq_ok.mp ran
  cases same
  have pow : sizeofPtr = 2 ^ 3 := rfl
  obtain ⟨_, _, _, _, cut, started, top, bot, _⟩ :=
    bmemAllocBoottime_ok inv.bmem.blks pow (by decide) allocated
  have kept := bmemAllocBoottime_inv inv.bmem pow (by decide) allocated
  have region := kept.regions _ (cut.noted ▸ List.mem_cons_self ..)
  have positive : 0 < sizeofBparm + bp.size := Nat.add_pos_left (by decide) _
  refine ⟨⟨kept, ⟨top.le.trans inv.bounded.1, bot ▸ max_le inv.bounded.2 region.high⟩, ?_, ?_⟩, a, rfl,
    ⟨_, cut.noted, rfl⟩, top, bot ▸ le_max_left .., started, ?_⟩
  · rw [cut.noted]
    refine List.forall_mem_append.mpr ⟨?_, ?_⟩
    · intro node old
      obtain ⟨r, member, facts⟩ := inv.nodes node old
      exact ⟨r, List.mem_cons_of_mem _ member, facts⟩
    · intro node new
      obtain rfl := List.mem_singleton.mp new
      exact ⟨_, List.mem_cons_self .., rfl, rfl, rfl⟩
  · have less := cut.freeBytes_le
    have spent := inv.spent
    simp only [Stage1.nodes, bparmBytes, List.map_append, List.map_cons, List.map_nil, List.sum_append,
      List.sum_cons, List.sum_nil] at spent ⊢
    dsimp only at less
    omega
  · exact region.pages a le_rfl (Nat.lt_add_of_pos_right positive)

/-- An empty range adds nothing. -/
theorem bparmAddMemRange_ok {start len type ext attr : ℕ}
    (ran : bparmAddMemRange s start len type ext attr = .ok t) :
    len = 0 ∧ t = s ∨ len ≠ 0 ∧ bparmAdd s (.mrng ⟨start, len, type, ext, attr⟩) = .ok t := by
  unfold bparmAddMemRange at ran
  split at ran
  · next empty => exact Or.inl ⟨empty, (Except.ok.inj ran).symm⟩
  · next nonempty => exact Or.inr ⟨nonempty, ran⟩

theorem bparmAddMemRange_inv {start len type ext attr : ℕ} (inv : s.Inv granted)
    (ran : bparmAddMemRange s start len type ext attr = .ok t) : t.Inv granted ∧ s.Grows t := by
  rcases bparmAddMemRange_ok ran with ⟨_, rfl⟩ | ⟨_, added⟩
  · exact ⟨inv, .refl _⟩
  · obtain ⟨inv', _, added⟩ := bparmAdd_ok inv added
    exact ⟨inv', added.grows⟩

/-- The ranges described afterwards are those of before and the one added. -/
theorem mem_memRanges_bparmAddMemRange {start len type ext attr : ℕ} (inv : s.Inv granted)
    (ran : bparmAddMemRange s start len type ext attr = .ok t) {r : BdatMemRange} :
    r ∈ memRanges t.nodes ↔ r ∈ memRanges s.nodes ∨ len ≠ 0 ∧ r = ⟨start, len, type, ext, attr⟩ := by
  rcases bparmAddMemRange_ok ran with ⟨empty, rfl⟩ | ⟨nonempty, added⟩
  · simp [empty]
  · obtain ⟨_, a, added⟩ := bparmAdd_ok inv added
    rw [Stage1.nodes, added.node, List.map_append, memRanges_append, List.mem_append]
    simp [Stage1.nodes, memRanges, nonempty]

end

/-- The state that `bmem_init` leaves. -/
theorem bmemInit_stage1 {granted : ℕ → Bool} {descs : List EfiMemoryDescriptor} {bmem : Bmem}
    (ran : bmemInit granted descs = .ok bmem) : Stage1.Inv granted ⟨bmem, []⟩ := by
  obtain ⟨inv, _, bounded, bot, _⟩ := bmemInit_ok ran
  refine ⟨inv, ⟨bounded, by rw [bot]; decide⟩, by simp, ?_⟩
  have total := inv.sorted.sum_le 0 bmemMaxAddr ?_ (Nat.zero_le _)
  · have less : bmem.freeBytes ≤ (bmem.blk.map fun b => b.origEnd - b.start).sum :=
      List.sum_le_sum fun b member => Nat.sub_le_sub_right (inv.blks b member).given _
    simp only [Stage1.nodes, bparmBytes, List.map_nil, List.sum_nil]
    omega
  · intro b member
    have ok := inv.blks b member
    exact ⟨Nat.zero_le _, ok.free.trans ok.given, ok.high⟩

end Biefircate
