import Biefircate.Proofs.Stage1.AddOur
import Biefircate.Proofs.Stage1.BmemInit

/-! # When stage 1 reports all of its base memory

The parameters for base memory are allocated from the very blocks that they describe. That does no harm as
long as their nodes only shorten the blocks below `runtime_bmem_top`. A node that uses one of them up moves
the blocks that are still to be reported, and the loop skips one.
-/

namespace Biefircate

/-- The blocks below `runtime_bmem_top`. -/
def Bmem.lowBlks (s : Bmem) : List Blk := s.blk.filter fun b => b.start < s.runtimeBmemTop

/-- The blocks that start at `runtime_bmem_top` or above. -/
def Bmem.highBlks (s : Bmem) : List Blk := s.blk.filter fun b => s.runtimeBmemTop ≤ b.start

/-- What `add_our_mem_bparms` has to report, in order. -/
def Bmem.ownRanges (s : Bmem) : List BdatMemRange :=
  s.baseRanges ++ s.highBlks.flatMap (Blk.ranges s.bmemUefiAttr)

/-- No node for a block but the last one to be reported uses up a low block. -/
def Bmem.KeepsPlace (s : Bmem) : Prop :=
  ∀ n ∈ usedUpAt 0 s.lowBlks, n ≤ s.baseRanges.length ∨
    s.baseRanges.length + (s.highBlks.dropLast.flatMap (Blk.ranges s.bmemUefiAttr)).length < n

instance (s : Bmem) : Decidable s.KeepsPlace := inferInstanceAs (Decidable (∀ n ∈ _, _))

/-- A list in order splits into what lies below a bound and what does not. -/
private theorem filter_append_filter {blks : List Blk} {top : ℕ} (sorted : blks.Pairwise fun a b => a.start ≤ b.start) :
    blks = (blks.filter fun b => decide (b.start < top)) ++ blks.filter fun b => decide (top ≤ b.start) := by
  induction blks with
  | nil => rfl
  | cons b rest ih =>
    obtain ⟨first, tail⟩ := List.pairwise_cons.mp sorted
    by_cases below : b.start < top
    · rw [List.filter_cons_of_pos (by simpa using below), List.filter_cons_of_neg (by simpa using below),
        List.cons_append, ← ih tail]
    · have none : (rest.filter fun b => decide (b.start < top)) = [] := by
        apply List.filter_eq_nil_iff.mpr
        intro other member
        have order := first other member
        simp only [decide_eq_true_eq]
        omega
      have all : (rest.filter fun b => decide (top ≤ b.start)) = rest := by
        apply List.filter_eq_self.mpr
        intro other member
        have order := first other member
        simp only [decide_eq_true_eq]
        omega
      rw [List.filter_cons_of_neg (by simpa using below), List.filter_cons_of_pos (by simpa using below), none, all,
        List.nil_append]

/-- Blocks are never empty, as long as they are there. -/
theorem Bmem.step_nonempty {granted : ℕ → Bool} {s t : Bmem} {call : BmemCall} {k : ℕ} (inv : s.Inv granted)
    (pow : call.align = 2 ^ k) (narrow : call.Narrow) (nonempty : ∀ b ∈ s.blk, b.start < b.origEnd)
    (stepped : s.step call = .ok t) : ∀ b ∈ t.blk, b.start < b.origEnd := by
  obtain ⟨kind, size, align⟩ := call
  obtain ⟨⟨a, _⟩, ran, rfl⟩ := map_eq_ok.mp stepped
  cases kind with
  | runtime =>
    obtain ⟨before, b, after, cut, _⟩ := bmemAlloc_ok inv.blks pow ran
    intro b' member
    rcases cut.mem_new.mp member with piece | other
    · obtain rfl := List.mem_singleton.mp piece
      exact nonempty b (cut.mem_old.mpr (Or.inl rfl))
    · exact nonempty b' (cut.mem_old.mpr (Or.inr other))
  | boottime =>
    have below : 2 ^ k < 2 ^ 32 := pow ▸ narrow rfl
    dsimp only at ran pow
    obtain ⟨before, b, after, cut, _, room, place, _, _, _, blk⟩ :=
      bmemAllocBoottime_first inv.blks pow ((Nat.pow_lt_pow_iff_right (by decide)).mp below) ran
    have given := (inv.blks b (by rw [cut]; simp)).given
    rw [Blk.HasRoom, ← place] at room
    rw [cut] at nonempty
    simp only [List.mem_append, List.mem_cons] at nonempty
    intro b' member
    rw [blk] at member
    split at member
    · rcases List.mem_append.mp member with early | late
      · exact nonempty b' (Or.inl early)
      · exact nonempty b' (Or.inr (Or.inr late))
    · simp only [List.mem_append, List.mem_cons] at member
      rcases member with early | rfl | late
      · exact nonempty b' (Or.inl early)
      · dsimp only
        omega
      · exact nonempty b' (Or.inr (Or.inr late))

/-- In every state of the allocator the blocks fall into two halves. -/
theorem Bmem.Inv.halves {granted : ℕ → Bool} {s : Bmem} (inv : s.Inv granted)
    (nonempty : ∀ b ∈ s.blk, b.start < b.origEnd) : Halves s s.lowBlks s.highBlks := by
  refine ⟨filter_append_filter (inv.sorted.imp_of_mem ?_), ?_, ?_⟩
  · intro a b member _ before
    exact (nonempty a member).le.trans before
  · intro b member
    obtain ⟨present, below⟩ := List.mem_filter.mp member
    have under : b.start < s.runtimeBmemTop := by simpa using below
    exact ⟨inv.blks b present, under, (inv.sides b present).resolve_left (not_le.mpr under)⟩
  · intro b member
    obtain ⟨present, above⟩ := List.mem_filter.mp member
    exact ⟨inv.blks b present, by simpa using above, nonempty b present⟩

/-- From any state of the allocator that calls can reach, `add_our_mem_bparms` appends exactly what there is
to report if and only if no node for a block but the last one uses up a low block. -/
theorem addOurMemBparms_exact_iff {granted : ℕ → Bool} {descs : List EfiMemoryDescriptor} {start : Bmem}
    {calls : List BmemCall} {s t : Stage1} (init : bmemInit granted descs = .ok start)
    (aligned : ∀ call ∈ calls, (∃ k, call.align = 2 ^ k) ∧ call.Narrow)
    (reached : Run.run Bmem.step start calls = .ok s.bmem) (ran : addOurMemBparms s = .ok t) :
    t.nodes = s.nodes ++ s.bmem.ownRanges.map Bparm.mrng ↔ s.bmem.KeepsPlace := by
  obtain ⟨inv₀, _, _, _, nonempty₀⟩ := bmemInit_ok init
  obtain ⟨inv, nonempty⟩ : s.bmem.Inv granted ∧ ∀ b ∈ s.bmem.blk, b.start < b.origEnd := by
    refine Run.run_invariant (fun u => u.Inv granted ∧ ∀ b ∈ u.blk, b.start < b.origEnd) ?_ ⟨inv₀, nonempty₀⟩ reached
    rintro u call v member ⟨inv, nonempty⟩ stepped
    obtain ⟨⟨k, pow⟩, narrow⟩ := aligned call member
    exact ⟨inv.step pow narrow stepped, Bmem.step_nonempty inv pow narrow nonempty stepped⟩
  exact addOurMemBparms_iff (inv.halves nonempty) ran

/-- A machine with a page of firmware data between two granted areas above 512 KiB. -/
def gappedDescs : List EfiMemoryDescriptor :=
  [⟨.conventionalMemory, 0, 1, 0xf⟩, ⟨.bootServicesData, 0x4000, 1, 0xf⟩, ⟨.runtimeServicesData, 0x1000, 3, 0xf⟩,
    ⟨.runtimeServicesData, 0x5000, 0x7b, 0xf⟩, ⟨.runtimeServicesData, 0x81000, 0xf, 0xf⟩,
    ⟨.runtimeServicesData, 0x91000, 0xe, 0xf⟩]

def gappedGranted (page : ℕ) : Bool :=
  1 ≤ page ∧ page < 4 ∨ 5 ≤ page ∧ page < 0x80 ∨ 0x81 ≤ page ∧ page < 0x90 ∨ 0x91 ≤ page ∧ page < 0x9f

theorem addOurMemBparms_exact_sample : ∃ start s t, bmemInit gappedGranted gappedDescs = .ok start ∧
    Run.run Bmem.step start [⟨.boottime, 0x200, 8⟩] = .ok s.bmem ∧ addOurMemBparms s = .ok t ∧
    t.nodes = s.nodes ++ s.bmem.ownRanges.map Bparm.mrng := by
  have evaluated : (fun u : Bmem × Stage1 => decide u.1.KeepsPlace) <$>
      (bmemInit gappedGranted gappedDescs >>= fun start => Run.run Bmem.step start [⟨.boottime, 0x200, 8⟩] >>= fun u =>
        addOurMemBparms ⟨u, []⟩ >>= fun t => .ok (u, t)) = .ok true := by decide +kernel
  obtain ⟨⟨u, t⟩, ran, keeps⟩ := map_eq_ok.mp evaluated
  obtain ⟨start, init, ran⟩ := bind_eq_ok.mp ran
  obtain ⟨_, reached, ran⟩ := bind_eq_ok.mp ran
  obtain ⟨_, ran, same⟩ := bind_eq_ok.mp ran
  cases same
  refine ⟨start, ⟨u, []⟩, t, init, reached, ran, ?_⟩
  apply (addOurMemBparms_exact_iff init _ reached ran).mpr (of_decide_eq_true keeps)
  simpa [BmemCall.Narrow] using ⟨3, rfl⟩

/-- With 96 bytes left in the lowest block, the node for the first of two blocks above 512 KiB uses it up, and
the second one is not reported. -/
theorem addOurMemBparms_skips : ∃ start s t, bmemInit gappedGranted gappedDescs = .ok start ∧
    Run.run Bmem.step start [⟨.boottime, 12192, 8⟩] = .ok s.bmem ∧ addOurMemBparms s = .ok t ∧
    s.bmem.ownRanges = [⟨0, 0x80000, e820Ram, 1, 0xb⟩, ⟨0x81000, 0xf000, e820Ram, 1, 0xb⟩,
      ⟨0x91000, 0xe000, e820Ram, 1, 0xb⟩] ∧
    t.nodes = s.nodes ++ [.mrng ⟨0, 0x80000, e820Ram, 1, 0xb⟩, .mrng ⟨0x81000, 0xf000, e820Ram, 1, 0xb⟩] ∧
    t.nodes ≠ s.nodes ++ s.bmem.ownRanges.map Bparm.mrng := by
  have evaluated : (fun u : Bmem × Stage1 => decide (u.1.ownRanges = [⟨0, 0x80000, e820Ram, 1, 0xb⟩,
        ⟨0x81000, 0xf000, e820Ram, 1, 0xb⟩, ⟨0x91000, 0xe000, e820Ram, 1, 0xb⟩] ∧
      u.2.nodes = [.mrng ⟨0, 0x80000, e820Ram, 1, 0xb⟩, .mrng ⟨0x81000, 0xf000, e820Ram, 1, 0xb⟩])) <$>
      (bmemInit gappedGranted gappedDescs >>= fun start => Run.run Bmem.step start [⟨.boottime, 12192, 8⟩] >>= fun u =>
        addOurMemBparms ⟨u, []⟩ >>= fun t => .ok (u, t)) = .ok true := by decide +kernel
  obtain ⟨⟨u, t⟩, ran, facts⟩ := map_eq_ok.mp evaluated
  obtain ⟨due, got⟩ := of_decide_eq_true facts
  obtain ⟨start, init, ran⟩ := bind_eq_ok.mp ran
  obtain ⟨_, reached, ran⟩ := bind_eq_ok.mp ran
  obtain ⟨_, ran, same⟩ := bind_eq_ok.mp ran
  cases same
  refine ⟨start, ⟨u, []⟩, t, init, reached, ran, due, got, ?_⟩
  rw [due, got]
  intro same
  exact absurd (congrArg List.length same) (by simp [Stage1.nodes])

end Biefircate
