import Biefircate.Model.BparmList
import Biefircate.Proofs.Stage1.BmemInit

/-! # What keeps the list of boot parameters intact

Nodes and the regions given to others never meet, so a write by one owner leaves every other node as
it was. The chain of 8-byte pointers from `bp_head` leads through the nodes in the order in which they
were added, and ends at the node that `bp_tail` points to.
-/

namespace Biefircate

@[simp] theorem BparmLayout.stage1_sizeofPtr : BparmLayout.stage1.sizeofPtr = 8 := rfl
@[simp] theorem BparmLayout.stage1_typeAt : BparmLayout.stage1.typeAt = 8 := rfl
@[simp] theorem BparmLayout.stage1_sizeAt : BparmLayout.stage1.sizeAt = 12 := rfl
@[simp] theorem BparmLayout.stage1_dataAt : BparmLayout.stage1.dataAt = 16 := rfl

/-- Memory holds the node as stage 1 writes it, whatever comes next. -/
def ListedBparm.Stored (mem : Mem) (node : ListedBparm) : Prop := readBparm .stage1 mem node.addr = node

/-- The pointers of stage 1 lead from `p` through the given nodes to `q`. -/
abbrev Chain (mem : Mem) : ℕ → List ListedBparm → ℕ → Prop :=
  LinkedList.Segment ListedBparm.addr (nextBparm .stage1 mem) (ListedBparm.Stored mem)

/-- The node and the span of addresses have none in common. -/
def ListedBparm.Clear (node : ListedBparm) (start stop : ℕ) : Prop := node.stop ≤ start ∨ stop ≤ node.addr

/-- What holds of the list and of its memory between events. -/
structure BparmList.Inv (granted : ℕ → Bool) (s : BparmList) : Prop where
  bmem : s.bmem.Inv granted
  nodesGiven : ∀ node ∈ s.added, ∃ r ∈ s.bmem.returned, r.start = node.addr ∧ r.stop = node.stop
  othersGiven : ∀ r ∈ s.others, r ∈ s.bmem.returned
  nodesApart : s.added.Pairwise (Span.Apart ListedBparm.addr ListedBparm.stop)
  othersApart : ∀ node ∈ s.added, ∀ r ∈ s.others, node.Clear r.start r.stop
  chain : Chain s.mem s.bpHead s.added 0
  tail : s.added = [] ∨ ∃ before last, s.added = before ++ [last] ∧ s.bpTail = last.addr

section

variable {mem mem' : Mem} {node : ListedBparm} {nodes : List ListedBparm} {p q : ℕ}

/-! ## Nodes in memory -/

theorem stored_iff : node.Stored mem ↔ mem.readLE (node.addr + 8) 4 = node.type ∧
    mem.readLE (node.addr + 12) 4 = node.size ∧ mem.read (node.addr + 16) node.size = node.data := by
  obtain ⟨addr, type, size, data⟩ := node
  simp only [ListedBparm.Stored, readBparm, BparmLayout.stage1_typeAt, BparmLayout.stage1_sizeAt,
    BparmLayout.stage1_dataAt, ListedBparm.mk.injEq, true_and]
  constructor
  · rintro ⟨type, rfl, data⟩
    exact ⟨type, rfl, data⟩
  · rintro ⟨type, rfl, data⟩
    exact ⟨type, rfl, data⟩

/-- The pointer apart, a node depends on what follows the pointer. -/
theorem ListedBparm.Stored.congr (stored : node.Stored mem)
    (same : ∀ x, node.addr + 8 ≤ x → x < node.stop → mem' x = mem x) : node.Stored mem' := by
  obtain ⟨type, size, data⟩ := stored_iff.mp stored
  rw [ListedBparm.stop, sizeofBparm] at same
  refine stored_iff.mpr ⟨?_, ?_, ?_⟩
  · rw [← type]
    exact Mem.readLE_congr fun x low high => same x low (by omega)
  · rw [← size]
    exact Mem.readLE_congr fun x low high => same x (by omega) (by omega)
  · rw [← data]
    exact Mem.read_congr fun x low high => same x (by omega) (by omega)

/-- Data that was replaced reads so. -/
theorem ListedBparm.Stored.fill {offset : ℕ} {bytes : List UInt8} (stored : node.Stored mem)
    (inside : offset + bytes.length ≤ node.size) :
    (node.fill offset bytes).Stored (mem.write (node.addr + BparmLayout.stage1.dataAt + offset) bytes) := by
  obtain ⟨type, size, data⟩ := stored_iff.mp stored
  rw [BparmLayout.stage1_dataAt]
  refine stored_iff.mpr ⟨?_, ?_, ?_⟩
  · change (mem.write (node.addr + 16 + offset) bytes).readLE (node.addr + 8) 4 = node.type
    rw [Mem.readLE_write_apart (by omega), type]
  · change (mem.write (node.addr + 16 + offset) bytes).readLE (node.addr + 12) 4 = node.size
    rw [Mem.readLE_write_apart (by omega), size]
  · rw [ListedBparm.fill, ← data]
    exact Mem.read_write_inside _ _ inside

theorem nextBparm_congr (same : ∀ x, p ≤ x → x < p + 8 → mem' x = mem x) :
    nextBparm .stage1 mem' p = nextBparm .stage1 mem p := Mem.readLE_congr same

/-- Nothing outside its nodes matters to a chain. -/
theorem Chain.frame (chain : Chain mem p nodes q)
    (same : ∀ node ∈ nodes, ∀ x, node.addr ≤ x → x < node.stop → mem' x = mem x) : Chain mem' p nodes q := by
  apply LinkedList.Segment.congr chain
  · intro node member
    refine nextBparm_congr fun x low high => same node member x low ?_
    rw [ListedBparm.stop, sizeofBparm]
    omega
  · intro node member stored
    exact stored.congr fun x low => same node member x (by omega)

/-- A write clear of the nodes. -/
theorem Chain.write {a : ℕ} {bytes : List UInt8} (chain : Chain mem p nodes q)
    (clear : ∀ node ∈ nodes, node.Clear a (a + bytes.length)) : Chain (mem.write a bytes) p nodes q := by
  refine chain.frame fun node member x low high => Mem.write_of_outside ?_
  have apart := clear node member
  rw [ListedBparm.Clear] at apart
  omega

/-! ## A new node -/

variable {bp type size : ℕ}

theorem writeBparm_of_outside {x : ℕ} (outside : x < bp ∨ bp + (sizeofBparm + size) ≤ x) :
    writeBparm mem bp type size x = mem x := by
  rw [sizeofBparm] at outside
  simp only [writeBparm, Mem.writeLE, BparmLayout.stage1_sizeofPtr, BparmLayout.stage1_typeAt,
    BparmLayout.stage1_sizeAt, BparmLayout.stage1_dataAt]
  rw [Mem.write_of_outside (by rw [List.length_replicate]; omega),
    Mem.write_of_outside (by rw [toBytes_length]; omega),
    Mem.write_of_outside (by rw [toBytes_length]; omega),
    Mem.write_of_outside (by rw [toBytes_length]; omega)]

theorem writeBparm_stored (narrowType : type < 2 ^ 32) (narrowSize : size < 2 ^ 32) :
    ListedBparm.Stored (writeBparm mem bp type size) ⟨bp, type, size, List.replicate size 0⟩ := by
  refine stored_iff.mpr ⟨?_, ?_, ?_⟩
  · simp only [writeBparm, BparmLayout.stage1_typeAt, BparmLayout.stage1_sizeAt, BparmLayout.stage1_dataAt]
    rw [Mem.readLE_write_apart (by omega), Mem.readLE_writeLE_apart (by omega), Mem.readLE_writeLE]
    exact Nat.mod_eq_of_lt narrowType
  · simp only [writeBparm, BparmLayout.stage1_sizeAt, BparmLayout.stage1_dataAt]
    rw [Mem.readLE_write_apart (by omega), Mem.readLE_writeLE]
    exact Nat.mod_eq_of_lt narrowSize
  · have written := Mem.read_write ((((mem.writeLE bp 8 0).writeLE (bp + 8) 4 type).writeLE (bp + 12) 4 size))
      (bp + 16) (List.replicate size 0)
    rwa [List.length_replicate] at written

theorem nextBparm_writeBparm : nextBparm .stage1 (writeBparm mem bp type size) bp = 0 := by
  simp only [nextBparm, writeBparm, BparmLayout.stage1_sizeofPtr, BparmLayout.stage1_typeAt,
    BparmLayout.stage1_sizeAt, BparmLayout.stage1_dataAt]
  rw [Mem.readLE_write_apart (by omega), Mem.readLE_writeLE_apart (by omega),
    Mem.readLE_writeLE_apart (by omega), Mem.readLE_writeLE]
  rfl

/-- A new node makes a chain by itself. -/
theorem writeBparm_chain (narrowType : type < 2 ^ 32) (narrowSize : size < 2 ^ 32) :
    Chain (writeBparm mem bp type size) bp [⟨bp, type, size, List.replicate size 0⟩] 0 :=
  LinkedList.segment_cons.mpr
    ⟨rfl, writeBparm_stored narrowType narrowSize, LinkedList.segment_nil.mpr nextBparm_writeBparm⟩

theorem Chain.writeBparm (chain : Chain mem p nodes q)
    (clear : ∀ node ∈ nodes, node.Clear bp (bp + (sizeofBparm + size))) :
    Chain (writeBparm mem bp type size) p nodes q := by
  refine chain.frame fun node member x low high => writeBparm_of_outside ?_
  have apart := clear node member
  rw [ListedBparm.Clear] at apart
  omega

/-- Redirect the last pointer of a chain. -/
theorem Chain.relink {before : List ListedBparm} {last : ListedBparm} (small : bp < 2 ^ 64)
    (chain : Chain mem p (before ++ [last]) q)
    (apart : (before ++ [last]).Pairwise (Span.Apart ListedBparm.addr ListedBparm.stop)) :
    Chain (mem.writeLE last.addr 8 bp) p (before ++ [last]) bp := by
  obtain ⟨middle, left, rfl, stored, _⟩ := LinkedList.segment_append.mp chain
  have across := (List.pairwise_append.mp apart).2.2
  refine LinkedList.segment_append.mpr ⟨last.addr, ?_, rfl, ?_, ?_⟩
  · apply Chain.write left
    intro node member
    have separate := across node member last (List.mem_singleton_self _)
    simp only [Span.Apart, ListedBparm.stop, sizeofBparm] at separate
    simp only [ListedBparm.Clear, ListedBparm.stop, sizeofBparm, toBytes_length]
    omega
  · refine stored.congr fun x low _ => Mem.write_of_outside ?_
    rw [toBytes_length]
    omega
  · rw [LinkedList.segment_nil, nextBparm, BparmLayout.stage1_sizeofPtr, Mem.readLE_writeLE]
    exact Nat.mod_eq_of_lt small

end

/-! ## Events -/

section

variable {granted : ℕ → Bool} {s t : BparmList}

theorem BparmList.Inv.bounds (inv : s.Inv granted) {node : ListedBparm} (member : node ∈ s.added) :
    efiPageSize ≤ node.addr ∧ node.stop ≤ bmemMaxAddr := by
  obtain ⟨r, given, start, stop⟩ := inv.nodesGiven node member
  have ok := inv.bmem.regions r given
  exact ⟨start ▸ ok.low, stop ▸ ok.high⟩

/-- A region just given out is clear of all the nodes and of the other regions. -/
theorem BparmList.Inv.fresh (inv : s.Inv granted) {r : Region}
    (apart : (r :: s.bmem.returned).Pairwise (Span.Apart Region.start Region.stop)) :
    (∀ node ∈ s.added, node.Clear r.start r.stop) ∧
      ∀ r' ∈ s.others, Span.Apart Region.start Region.stop r r' := by
  have separate := (List.pairwise_cons.mp apart).1
  refine ⟨?_, fun r' member => separate r' (inv.othersGiven r' member)⟩
  intro node member
  obtain ⟨r', given, start, stop⟩ := inv.nodesGiven node member
  rw [ListedBparm.Clear, ← start, ← stop]
  exact (separate r' given).symm

theorem BparmList.Inv.add {type size : ℕ} (narrowType : type < 2 ^ 32) (narrowSize : size < 2 ^ 32)
    (inv : s.Inv granted) (ran : s.add type size = .ok t) : t.Inv granted := by
  obtain ⟨⟨bp, bmem⟩, allocated, ran⟩ := bind_eq_ok.mp ran
  cases ran
  have pow : sizeofPtr = 2 ^ 3 := rfl
  have bmemInv := bmemAllocBoottime_inv inv.bmem pow (by decide) allocated
  obtain ⟨_, _, _, _, cut, _⟩ := bmemAllocBoottime_ok inv.bmem.blks pow (by decide) allocated
  have noted := cut.noted
  obtain ⟨clear, separate⟩ := inv.fresh (noted ▸ bmemInv.apart)
  have small : bp < 2 ^ 64 := by
    have high := (bmemInv.regions _ (noted ▸ List.mem_cons_self ..)).high
    rw [Region.stop, bmemMaxAddr] at high
    dsimp only at high
    omega
  have chain := inv.chain
  refine ⟨bmemInv, ?_, ?_, ?_, ?_, ?_, Or.inr ⟨s.added, _, rfl, rfl⟩⟩
  · dsimp only
    rw [noted]
    refine List.forall_mem_append.mpr ⟨?_, List.forall_mem_singleton.mpr ?_⟩
    · intro node member
      obtain ⟨r, given, span⟩ := inv.nodesGiven node member
      exact ⟨r, List.mem_cons_of_mem _ given, span⟩
    · exact ⟨_, List.mem_cons_self .., rfl, rfl⟩
  · intro r member
    exact noted ▸ List.mem_cons_of_mem _ (inv.othersGiven r member)
  · refine List.pairwise_append.mpr ⟨inv.nodesApart, List.pairwise_singleton .., ?_⟩
    intro node member
    exact List.forall_mem_singleton.mpr (clear node member)
  · exact List.forall_mem_append.mpr ⟨inv.othersApart, List.forall_mem_singleton.mpr separate⟩
  · rcases inv.tail with none | ⟨before, last, added, tail⟩
    · rw [none] at chain
      have head : s.bpHead = 0 := chain
      dsimp only
      rw [none, if_pos head, if_pos head]
      exact writeBparm_chain narrowType narrowSize
    · obtain ⟨first, member, start⟩ := chain.start_mem (by rw [added]; simp)
      have low := (inv.bounds member).1
      have head : s.bpHead ≠ 0 := by
        rw [start]
        exact (Nat.lt_of_lt_of_le (by decide) low).ne'
      dsimp only
      rw [if_neg head, if_neg head, tail, added]
      rw [added] at chain clear
      exact LinkedList.segment_append.mpr ⟨bp,
        (chain.relink small (added ▸ inv.nodesApart)).writeBparm clear,
        writeBparm_chain narrowType narrowSize⟩

/-- A new region for someone else leaves the list alone. -/
theorem BparmList.Inv.alloc {call : BmemCall} {k : ℕ} {bmem : Bmem} (pow : call.align = 2 ^ k)
    (narrow : call.Narrow) (inv : s.Inv granted) (stepped : s.bmem.step call = .ok bmem) :
    BparmList.Inv granted { s with bmem := bmem, others := s.others ++ bmem.returned.take 1 } := by
  have bmemInv := inv.bmem.step pow narrow stepped
  obtain ⟨r, noted, _⟩ := Bmem.step_noted stepped
  obtain ⟨clear, _⟩ := inv.fresh (noted ▸ bmemInv.apart)
  rw [noted]
  refine ⟨bmemInv, ?_, ?_, inv.nodesApart, ?_, inv.chain, inv.tail⟩
  · intro node member
    obtain ⟨r', given, span⟩ := inv.nodesGiven node member
    exact ⟨r', noted ▸ List.mem_cons_of_mem _ given, span⟩
  · dsimp only
    rw [noted]
    refine List.forall_mem_append.mpr ⟨?_, List.forall_mem_singleton.mpr (List.mem_cons_self ..)⟩
    exact fun r' member => List.mem_cons_of_mem _ (inv.othersGiven r' member)
  · intro node member
    exact List.forall_mem_append.mpr ⟨inv.othersApart node member,
      List.forall_mem_singleton.mpr (clear node member)⟩

/-- The caller of `bparm_add` changes the data of that node alone. -/
theorem BparmList.Inv.fill {i offset : ℕ} {bytes : List UInt8} {node : ListedBparm}
    (loaded : load s.added i = .ok node) (inside : offset + bytes.length ≤ node.size) (inv : s.Inv granted) :
    BparmList.Inv granted { s with
      mem := s.mem.write (node.addr + BparmLayout.stage1.dataAt + offset) bytes
      added := s.added.set i (node.fill offset bytes) } := by
  obtain ⟨before, after, added, rfl⟩ := split_of_load loaded
  have replaced : s.added.set before.length (node.fill offset bytes) =
      before ++ node.fill offset bytes :: after := by
    rw [added, List.set_append_right _ _ le_rfl, Nat.sub_self]
    rfl
  obtain ⟨bmemInv, nodesGiven, othersGiven, nodesApart, othersApart, chain, tail⟩ := inv
  rw [added] at nodesGiven nodesApart othersApart chain tail
  rw [replaced]
  obtain ⟨earlier, later, across⟩ := List.pairwise_append.mp nodesApart
  obtain ⟨ahead, rest⟩ := List.pairwise_cons.mp later
  obtain ⟨givenBefore, givenNode, givenAfter⟩ : (∀ node ∈ before, _) ∧ _ ∧ ∀ node ∈ after, _ := by
    simpa only [List.forall_mem_append, List.forall_mem_cons] using nodesGiven
  obtain ⟨apartBefore, apartNode, apartAfter⟩ : (∀ node ∈ before, _) ∧ _ ∧ ∀ node ∈ after, _ := by
    simpa only [List.forall_mem_append, List.forall_mem_cons] using othersApart
  have within : ∀ other : ListedBparm, Span.Apart ListedBparm.addr ListedBparm.stop other node →
      other.Clear (node.addr + BparmLayout.stage1.dataAt + offset)
        (node.addr + BparmLayout.stage1.dataAt + offset + bytes.length) := by
    intro other apart
    simp only [Span.Apart, ListedBparm.stop, sizeofBparm] at apart
    simp only [ListedBparm.Clear, ListedBparm.stop, sizeofBparm, BparmLayout.stage1_dataAt]
    omega
  refine ⟨bmemInv, ?_, othersGiven, ?_, ?_, ?_, ?_⟩
  · simp only [List.forall_mem_append, List.forall_mem_cons]
    exact ⟨givenBefore, givenNode, givenAfter⟩
  · refine List.pairwise_append.mpr ⟨earlier, List.pairwise_cons.mpr ⟨ahead, rest⟩, ?_⟩
    intro other member
    have separate := List.forall_mem_cons.mp (across other member)
    exact List.forall_mem_cons.mpr ⟨separate.1, separate.2⟩
  · simp only [List.forall_mem_append, List.forall_mem_cons]
    exact ⟨apartBefore, apartNode, apartAfter⟩
  · obtain ⟨middle, left, rfl, stored, right⟩ := LinkedList.segment_append.mp chain
    refine LinkedList.segment_append.mpr ⟨node.addr, ?_, rfl, stored.fill inside, ?_⟩
    · exact Chain.write left fun other member => within other (across other member node (List.mem_cons_self ..))
    · rw [nextBparm_congr fun x low high => Mem.write_of_outside (by rw [BparmLayout.stage1_dataAt]; omega)]
      exact Chain.write right fun other member => within other (ahead other member).symm
  · apply Or.inr
    rcases tail with none | ⟨before', last, same, tail⟩
    · simp at none
    · rcases List.eq_nil_or_concat after with rfl | ⟨after, last', rfl⟩
      · have here := List.singleton_inj.mp (List.append_inj' same rfl).2
        exact ⟨before, _, rfl, here ▸ tail⟩
      · refine ⟨before ++ node.fill offset bytes :: after, last', by simp, ?_⟩
        have split : (before ++ node :: after) ++ [last'] = before' ++ [last] := by simpa using same
        exact List.singleton_inj.mp (List.append_inj' split rfl).2 ▸ tail

/-- A write within a region given to someone else. -/
theorem BparmList.Inv.use {i offset : ℕ} {bytes : List UInt8} {r : Region} (loaded : load s.others i = .ok r)
    (inside : offset + bytes.length ≤ r.size) (inv : s.Inv granted) :
    BparmList.Inv granted { s with mem := s.mem.write (r.start + offset) bytes } := by
  obtain ⟨before, after, others, _⟩ := split_of_load loaded
  refine ⟨inv.bmem, inv.nodesGiven, inv.othersGiven, inv.nodesApart, inv.othersApart, ?_, inv.tail⟩
  apply inv.chain.write
  intro node member
  have clear := inv.othersApart node member r (by rw [others]; simp)
  simp only [ListedBparm.Clear, Region.stop] at clear ⊢
  omega

/-- The condition on an event of a run. -/
def BparmEvent.Narrow : BparmEvent → Prop
  | .alloc call => call.Narrow
  | _ => True

instance (event : BparmEvent) : Decidable event.Narrow := by
  unfold BparmEvent.Narrow
  split <;> infer_instance

/-- Alignments are powers of two that the type of the argument can hold. -/
def BparmEvent.Valid : BparmEvent → Prop
  | .alloc call => ∃ k < 64, call.align = 2 ^ k
  | _ => True

theorem BparmList.Inv.step {event : BparmEvent} (inv : s.Inv granted) (valid : event.Valid)
    (narrow : event.Narrow) (stepped : s.step event = .ok t) : t.Inv granted := by
  cases event with
  | add type size => exact inv.add type.toNat_lt size.toNat_lt stepped
  | fill i offset bytes =>
    obtain ⟨node, loaded, ran⟩ := bind_eq_ok.mp stepped
    obtain ⟨inside, ran⟩ := ite_error_eq_ok.mp ran
    cases ran
    exact inv.fill loaded (not_lt.mp inside)
  | alloc call =>
    obtain ⟨bmem, allocated, ran⟩ := bind_eq_ok.mp stepped
    cases ran
    obtain ⟨k, _, pow⟩ := valid
    exact inv.alloc pow narrow allocated
  | use i offset bytes =>
    obtain ⟨r, loaded, ran⟩ := bind_eq_ok.mp stepped
    obtain ⟨inside, ran⟩ := ite_error_eq_ok.mp ran
    cases ran
    exact inv.use loaded (not_lt.mp inside)

/-! ## The walk in stage 2 -/

/-- Stage 2 sees the low half of each pointer, and all the other fields. -/
theorem nextBparm_stage2 (mem : Mem) (p : ℕ) :
    nextBparm .stage2 mem p = nextBparm .stage1 mem p % 2 ^ 32 := Mem.readLE_mod mem p (by decide)

theorem BparmList.Inv.walked (inv : s.Inv granted) {fuel : ℕ} (enough : s.added.length ≤ fuel) :
    walkBparms s.mem fuel s.bpHead = some s.added := by
  have small : ∀ node ∈ s.added, node.addr < 2 ^ 32 := by
    intro node member
    have high := (inv.bounds member).2
    rw [ListedBparm.stop, bmemMaxAddr] at high
    omega
  have head : s.bpHead % 2 ^ 32 = s.bpHead := by
    apply Nat.mod_eq_of_lt
    rcases inv.chain.start with zero | ⟨node, member, same⟩
    · rw [zero]
      decide
    · exact same ▸ small node member
  have chain : LinkedList.Segment ListedBparm.addr (nextBparm .stage2 s.mem) (ListedBparm.Stored s.mem)
      s.bpHead s.added 0 := by
    refine LinkedList.Segment.congr inv.chain ?_ fun _ _ => id
    intro node member
    rw [nextBparm_stage2]
    apply Nat.mod_eq_of_lt
    rcases inv.chain.next_mem node member with zero | ⟨node', member', same⟩
    · rw [zero]
      decide
    · exact same ▸ small node' member'
  rw [walkBparms, head]
  refine chain.walk_eq ?_ ?_ enough
  · intro node member
    exact (Nat.lt_of_lt_of_le (by decide) (inv.bounds member).1).ne'
  · exact inv.chain.forall_stored

end

end Biefircate
