import Biefircate.Proofs.BparmList
import Biefircate.Soundness.BaseMemory

/-! # Stage 2 reads the list that stage 1 built

In any run of `bparm_add`, other allocations, and writes by those who were given memory, the list keeps
reading as it was built, as long as the alignments passed to `bmem_alloc_boottime` fit in 32 bits. A
wider one gives out memory from address 0 on a second time, and the next node lands on an older one.
-/

namespace Biefircate

variable {granted : ℕ → Bool}

/-- Stage 2 finds the added nodes, in the order they were added, and then the null pointer. -/
def BparmList.Readable (s : BparmList) : Prop :=
  ∃ steps, ∀ fuel ≥ steps, walkBparms s.mem fuel s.bpHead = some s.added

/-- The type and size that a node was asked for with, if the event is about one. -/
def BparmEvent.asked : BparmEvent → Option (ℕ × ℕ)
  | .add type size => some (type.toNat, size.toNat)
  | _ => none

/-- Events other than `bparm_add` change neither the types and sizes nor their order. -/
private theorem step_added {s t : BparmList} {event : BparmEvent} (stepped : s.step event = .ok t) :
    t.added.map (fun node => (node.type, node.size)) =
      s.added.map (fun node => (node.type, node.size)) ++ event.asked.toList := by
  cases event with
  | add type size =>
    obtain ⟨_, _, ran⟩ := bind_eq_ok.mp stepped
    cases ran
    rw [List.map_append]
    rfl
  | fill i offset bytes =>
    obtain ⟨node, loaded, ran⟩ := bind_eq_ok.mp stepped
    obtain ⟨_, ran⟩ := ite_error_eq_ok.mp ran
    cases ran
    obtain ⟨before, after, added, rfl⟩ := split_of_load loaded
    dsimp only
    rw [added, List.set_append_right _ _ le_rfl, Nat.sub_self, List.set_cons_zero]
    simp [BparmEvent.asked, ListedBparm.fill]
  | alloc call =>
    obtain ⟨_, _, ran⟩ := bind_eq_ok.mp stepped
    cases ran
    exact (List.append_nil _).symm
  | use i offset bytes =>
    obtain ⟨_, _, ran⟩ := bind_eq_ok.mp stepped
    obtain ⟨_, ran⟩ := ite_error_eq_ok.mp ran
    cases ran
    exact (List.append_nil _).symm

/-- The list has one node for each call of `bparm_add`, of that type and size. -/
theorem run_added {s t : BparmList} {events : List BparmEvent} (ran : Run.run BparmList.step s events = .ok t) :
    t.added.map (fun node => (node.type, node.size)) =
      s.added.map (fun node => (node.type, node.size)) ++ events.filterMap BparmEvent.asked := by
  induction events generalizing s with
  | nil =>
    cases ran
    rw [List.filterMap_nil, List.append_nil]
  | cons event rest ih =>
    obtain ⟨next, stepped, tail⟩ := Run.run_cons_eq_ok.mp ran
    rw [ih tail, step_added stepped, List.append_assoc]
    cases asked : event.asked with
    | none => rw [List.filterMap_cons_none asked, Option.toList_none, List.nil_append]
    | some pair => rw [List.filterMap_cons_some asked, Option.toList_some, List.singleton_append]

/-- The list of the abstract model is this one, node by node. -/
theorem BparmList.add_of_bparmAdd {s : BparmList} {nodes : List BparmNode} {bp : Bparm} {u : Stage1}
    (added : bparmAdd ⟨s.bmem, nodes⟩ bp = .ok u) (type : ℕ) : ∃ t a, s.add type bp.size = .ok t ∧
      t.bmem = u.bmem ∧ u.bparms = nodes ++ [⟨a, bp⟩] ∧
      t.added = s.added ++ [⟨a, type, bp.size, List.replicate bp.size 0⟩] := by
  obtain ⟨⟨a, bmem⟩, allocated, ran⟩ := bind_eq_ok.mp added
  cases ran
  exact ⟨_, a, bind_eq_ok.mpr ⟨_, allocated, rfl⟩, rfl, rfl, rfl⟩

/-- From any state that `bmem_init` leaves and any contents of memory, stage 2 can read the list after
every run in which no alignment passed to `bmem_alloc_boottime` is cut off. -/
theorem bparm_list_readable {descs : List EfiMemoryDescriptor} {bmem : Bmem} {mem : Mem} {final : BparmList}
    {events : List BparmEvent} (init : bmemInit granted descs = .ok bmem)
    (valid : ∀ event ∈ events, event.Valid) (narrow : ∀ event ∈ events, event.Narrow)
    (ran : Run.run BparmList.step (.start bmem mem) events = .ok final) :
    final.Readable ∧
      final.added.map (fun node => (node.type, node.size)) = events.filterMap BparmEvent.asked := by
  have inv : final.Inv granted := by
    refine Run.run_invariant (BparmList.Inv granted) ?_ ?_ ran
    · intro s event t member inv stepped
      exact inv.step (valid event member) (narrow event member) stepped
    · exact ⟨(bmemInit_ok init).1, by simp [BparmList.start], by simp [BparmList.start],
        List.Pairwise.nil, by simp [BparmList.start], rfl, Or.inl rfl⟩
  exact ⟨⟨_, fun _ enough => inv.walked enough⟩, run_added ran⟩

/-- Two nodes with another region between them, both filled in once all are there. -/
def sampleEvents : List BparmEvent :=
  [.add 1 4, .alloc ⟨.boottime, 0x20, 0x10⟩, .add 2 8, .fill 0 1 [5, 6], .use 0 0 [7], .fill 1 4 [9]]

theorem bparm_list_readable_sample : ∃ bmem final, bmemInit sampleGranted sampleDescs = .ok bmem ∧
    Run.run BparmList.step (.start bmem fun _ => 0xcc) sampleEvents = .ok final ∧ final.Readable ∧
      final.added.map (fun node => (node.type, node.size)) = [(1, 4), (2, 8)] := by
  obtain ⟨final, ran⟩ := exists_of_isOk (x := bmemInit sampleGranted sampleDescs >>= fun bmem =>
    Run.run BparmList.step (.start bmem fun _ => 0xcc) sampleEvents) (by decide +kernel)
  obtain ⟨bmem, init, ran⟩ := bind_eq_ok.mp ran
  have valid : ∀ event ∈ sampleEvents, event.Valid := by
    simp only [sampleEvents, List.forall_mem_cons]
    exact ⟨trivial, ⟨4, by decide⟩, trivial, trivial, trivial, trivial, by simp⟩
  exact ⟨bmem, final, init, ran, bparm_list_readable init valid (by decide) ran⟩

/-- A region given out from address 0 on takes the bottom of the lowest block back to within the
first node. -/
def wideEvents : List BparmEvent := [.add 1 4, .alloc ⟨.boottime, 4104, 2 ^ 32⟩, .add 2 4]

/-- The second node then overwrites the first, and stage 2 does not read what was written. -/
theorem bparm_list_wide_unreadable : ∃ bmem final, bmemInit sampleGranted sampleDescs = .ok bmem ∧
    (∀ event ∈ wideEvents, event.Valid) ∧
    Run.run BparmList.step (.start bmem fun _ => 0) wideEvents = .ok final ∧ ¬ final.Readable := by
  have evaluated : (fun final : BparmList => decide (walkBparms final.mem 2 final.bpHead ≠ some final.added ∧
      final.added.length = 2)) <$> (bmemInit sampleGranted sampleDescs >>= fun bmem =>
        Run.run BparmList.step (.start bmem fun _ => 0) wideEvents) = .ok true := by decide +kernel
  obtain ⟨final, ran, facts⟩ := map_eq_ok.mp evaluated
  obtain ⟨bmem, init, ran⟩ := bind_eq_ok.mp ran
  obtain ⟨differs, two⟩ := of_decide_eq_true facts
  have valid : ∀ event ∈ wideEvents, event.Valid := by
    simp only [wideEvents, List.forall_mem_cons]
    exact ⟨trivial, ⟨32, by decide⟩, trivial, by simp⟩
  refine ⟨bmem, final, init, valid, ran, ?_⟩
  rintro ⟨steps, walked⟩
  exact differs (two ▸ LinkedList.walk_length (walked steps le_rfl))

end Biefircate
