import Biefircate.Proofs.Stage2.MemMapInit
import Biefircate.Proofs.Stage2.MemGrown

/-! # Stage 2's memory map over any run of `mem_alloc`

The types of single addresses carry the argument. A block is cut from an available range and is
reserved from then on, as the memory of the map itself is from the start; since nothing becomes
available again, no address is handed out twice.
-/

namespace Biefircate

/-- The call's block does not meet the memory of the map. -/
def AllocCall.ClearOf (call : AllocCall) (m : MemMap) : Prop :=
  call.stop ≤ m.base ∨ m.base + 32 * m.maxRanges ≤ call.astart

/-- What holds between the calls of a run that began with the map `m`. -/
structure Allocs.Inv (m : MemMap) (s : Allocs) : Prop where
  table : TableOk s.map.ranges
  room : s.map.ranges.length ≤ s.map.maxRanges
  size : s.map.maxRanges = m.maxRanges
  place : s.map.base = m.base
  attrs : ∀ x, attrsAt s.map.ranges x = attrsAt m.ranges x
  own : Reserved s.map.ranges m.base (m.base + 32 * m.maxRanges)
  blocks : ∀ call ∈ s.calls, call.astart < call.stop ∧ Reserved s.map.ranges call.astart call.stop
  sound : ∀ call ∈ s.calls, call.Sound
  apart : s.calls.Pairwise (Span.Apart AllocCall.astart AllocCall.stop)
  clear : ∀ call ∈ s.calls, call.ClearOf m

/-- What the invariant says at the start of a run. -/
theorem Allocs.Inv.init {bps : BootParams} {m : MemMap} (apart : RangesApart bps.nodes)
    (init : memMapInit bps.nodes = .ok m) : Allocs.Inv m ⟨m, []⟩ := by
  have table := memMapInit_table apart init
  obtain ⟨_, _, _, _, _, _, _, _, _, room⟩ := memMapInit_ok init
  obtain ⟨mr, member, type, start, len⟩ := memMapInit_own init
  refine ⟨table, room, rfl, rfl, fun _ => rfl, ?_, by simp, by simp, List.Pairwise.nil, by simp⟩
  intro x low high
  rw [table.typeAt_of_mem member ⟨by omega, by rw [MemRange.stop, start, len]; exact high⟩, type]

/-- One call keeps the invariant. -/
theorem Allocs.Inv.step {m : MemMap} {s t : Allocs} {req : AllocReq} (capacity : 0 < m.maxRanges)
    (inv : Allocs.Inv m s) (valid : req.Valid) (stepped : s.step req = .ok t) : Allocs.Inv m t := by
  obtain ⟨⟨a, new⟩, ran, same⟩ := bind_eq_ok.mp stepped
  cases same
  have sound := memAlloc_sound inv.table valid ran
  obtain ⟨table, room, size, place⟩ := memAlloc_table inv.table inv.room valid ran
  obtain ⟨reserved, fresh⟩ := sound.fresh inv.table valid.positive
  have own := fresh _ _ (by omega : m.base < m.base + 32 * m.maxRanges) inv.own
  refine ⟨table, room, size.trans inv.size, place.trans inv.place, ?_, sound.reserved inv.own, ?_, ?_, ?_, ?_⟩
  · intro x
    exact (sound.attrs x).trans (inv.attrs x)
  · refine List.forall_mem_cons.mpr ⟨⟨Nat.lt_add_of_pos_right valid.positive, reserved⟩, ?_⟩
    intro call earlier
    exact ⟨(inv.blocks call earlier).1, sound.reserved (inv.blocks call earlier).2⟩
  · exact List.forall_mem_cons.mpr ⟨sound, inv.sound⟩
  · refine List.pairwise_cons.mpr ⟨?_, inv.apart⟩
    intro call earlier
    exact fresh _ _ (inv.blocks call earlier).1 (inv.blocks call earlier).2
  · exact List.forall_mem_cons.mpr ⟨own, inv.clear⟩

/-- What the invariant says after a run. -/
theorem Allocs.Inv.run {bps : BootParams} {m : MemMap} {reqs : List AllocReq} {final : Allocs}
    (apart : RangesApart bps.nodes) (init : memMapInit bps.nodes = .ok m)
    (valid : ∀ req ∈ reqs, req.Valid) (ran : Run.run Allocs.step ⟨m, []⟩ reqs = .ok final) : Allocs.Inv m final := by
  have capacity : 0 < m.maxRanges := by
    obtain ⟨_, _, _, _, _, size, _⟩ := memMapInit_ok init
    have bounds := mapCapacity_bounds bps
    omega
  exact Run.run_invariant (Allocs.Inv m)
    (fun _ req _ member inv stepped => inv.step capacity (valid req member) stepped)
    (Allocs.Inv.init apart init) ran

/-- Over any run of `mem_alloc` on a map made from ranges that keep apart, the table stays in order
and within its capacity, every call is sound, and no address is handed out twice. -/
theorem memAlloc_run {bps : BootParams} {m : MemMap} {reqs : List AllocReq} {final : Allocs}
    (apart : RangesApart bps.nodes) (init : memMapInit bps.nodes = .ok m)
    (valid : ∀ req ∈ reqs, req.Valid) (ran : Run.run Allocs.step ⟨m, []⟩ reqs = .ok final) :
    TableOk final.map.ranges ∧ final.map.ranges.Pairwise (fun low high => low.start ≤ high.start) ∧
      final.map.ranges.length ≤ final.map.maxRanges ∧
      (∀ call ∈ final.calls, call.Sound) ∧
      final.calls.Pairwise (Span.Apart AllocCall.astart AllocCall.stop) ∧
      (∀ call ∈ final.calls, call.ClearOf m) ∧
      ∀ x, attrsAt final.map.ranges x = attrsAt m.ranges x := by
  have inv := Allocs.Inv.run apart init valid ran
  refine ⟨inv.table, ?_, inv.room, inv.sound, inv.apart, inv.clear, inv.attrs⟩
  exact inv.table.ordered.imp fun before => (Nat.le_add_right _ _).trans before

/-- Base memory, extended memory and a reserved page, in the order in which stage 1 adds them. -/
def sampleParams : BootParams where
  nodes := [.mrng ⟨0x100000, 0x3f00000, e820Ram, 1, 15⟩, .mrng ⟨0xfee00000, 0x1000, e820Reserved, 1, 1⟩,
    .bmem ⟨0x110, 0x9f00⟩, .mrng ⟨0, 0x9f000, e820Ram, 1, 15⟩]
  typed := by decide
  fits := by decide

theorem memAlloc_run_sample : ∃ m final, memMapInit sampleParams.nodes = .ok m ∧
    Run.run Allocs.step ⟨m, []⟩ [⟨0x1000, 0x1000, 0⟩, ⟨0x20, 0x20, 0x100000⟩] = .ok final ∧
    TableOk final.map.ranges ∧ (∀ call ∈ final.calls, call.Sound) := by
  obtain ⟨final, ran⟩ := exists_of_isOk (x := memMapInit sampleParams.nodes >>= fun m =>
    Run.run Allocs.step ⟨m, []⟩ [⟨0x1000, 0x1000, 0⟩, ⟨0x20, 0x20, 0x100000⟩]) (by decide +kernel)
  obtain ⟨m, init, ran⟩ := bind_eq_ok.mp ran
  have valid : ∀ req ∈ [AllocReq.mk 0x1000 0x1000 0, ⟨0x20, 0x20, 0x100000⟩], req.Valid :=
    List.forall_mem_cons.mpr ⟨⟨by decide, by decide, ⟨12, by decide⟩, by decide⟩,
      List.forall_mem_cons.mpr ⟨⟨by decide, by decide, ⟨5, by decide⟩, by decide⟩, by simp⟩⟩
  obtain ⟨table, _, _, sound, _⟩ := memAlloc_run (by decide) init valid ran
  exact ⟨m, final, init, ran, table, sound⟩

end Biefircate
