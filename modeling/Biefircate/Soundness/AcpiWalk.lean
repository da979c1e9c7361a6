import Biefircate.Proofs.Stage2.Irq
import Biefircate.Proofs.Stage2.VaInit
import Biefircate.Soundness.MemoryMap

/-! # The walk through the ACPI tables leaves virtual memory as it was

This holds of all contents of memory, so of any number of tables of any lengths. Before `irq_init` runs, the
real mode routines have been given memory by `mem_alloc`, and have written it.
-/

namespace Biefircate

/-- Between the two states `mem_alloc` may have been called, and memory written that holds no page tables. -/
structure Va.Undisturbed (s t : Va) : Prop where
  unused : t.unused = s.unused
  room : t.maxUnused = s.maxUnused
  pdpt : t.paging.pdpt = s.paging.pdpt
  allocs : ∃ reqs calls, (∀ req ∈ reqs, req.Valid) ∧
    Run.run Allocs.step ⟨s.paging.map, []⟩ reqs = .ok ⟨t.paging.map, calls⟩
  words : ∀ table a, s.paging.At table a → ∀ x, a ≤ x → x < a + table.size → t.paging.words x = s.paging.words x

theorem Va.Undisturbed.refl (s : Va) : s.Undisturbed s :=
  ⟨rfl, rfl, rfl, ⟨[], [], by simp, rfl⟩, fun _ _ _ _ _ _ => rfl⟩

/-- A map after any calls of `mem_alloc` has grown. -/
theorem Allocs.grown {s t : Allocs} {reqs : List AllocReq} (ok : s.map.Ok) (valid : ∀ req ∈ reqs, req.Valid)
    (ran : Run.run Allocs.step s reqs = .ok t) : s.map.Grown t.map := by
  refine Run.run_invariant (fun u => s.map.Grown u.map) ?_ (.refl ok) ran
  intro u req v member grown stepped
  obtain ⟨⟨a, new⟩, allocated, same⟩ := bind_eq_ok.mp stepped
  cases same
  exact grown.trans (memAlloc_grown grown.ok (valid req member) allocated).1

theorem Va.Undisturbed.restored {s t : Va} (ok : s.Ok) (held : s.paging.Held) (undisturbed : s.Undisturbed t) :
    s.Restored t := by
  obtain ⟨reqs, calls, valid, ran⟩ := undisturbed.allocs
  obtain ⟨paging, slots, ptes⟩ :=
    ok.paging.keep held (Allocs.grown held.map valid ran) undisturbed.pdpt undisturbed.words
  exact ⟨paging, undisturbed.unused, undisturbed.room, ptes, fun d low _ => slots d low⟩

/-- Whenever the walk ends, its mappings have nested and each was ended as a whole, the unused ranges are the
same, entry for entry, and none of their pages is present. All else translates as it did. -/
theorem irqInit_undoes {bps : BootParams} {words : ℕ → ℕ} {stale rounds : ℕ} {layout : AcpiLayout} {mem : Mem} {start : Va}
    {s t : AcpiWalk} (apart : RangesApart bps.nodes) (typed : stale < 2 ^ 32)
    (rsdpTyped : ∀ rsdp, .rsdp rsdp ∈ bps.nodes → rsdp.rsdpPhyAddr < 2 ^ 64 ∧ rsdp.rsdpSz < 2 ^ 32)
    (started : memInit bps.nodes words stale = .ok start) (undisturbed : start.Undisturbed s.va)
    (ran : irqInit layout mem rounds s bps.nodes = .ok t) :
    (∃ calls, t.calls = s.calls ++ calls ∧ Nested calls) ∧ t.va.unused = s.va.unused ∧
      (∀ va < 2 ^ 32, t.va.HasUnused (va / 2 ^ 12) → t.va.paging.translate va = none) ∧
      ∀ va < 2 ^ 32, t.va.paging.translate va = s.va.paging.translate va := by
  have begun := memInit_ok apart typed started
  have ready := (undisturbed.restored begun.ready.ok begun.held).ready begun.ready
  have returned := irqInit_ok ready rsdpTyped ran
  refine ⟨returned.calls, returned.va.unused, fun va small unused => ?_, fun va small => returned.va.translate ready.ok small⟩
  have ok := returned.va.ok ready.ok
  rw [translate_eq ok.paging small, ok.blank _ unused, pteTranslation_zero]

/-- The sample with an RSDP. -/
def acpiParams : BootParams where
  nodes := sampleParams.nodes ++ [.rsdp ⟨0x3000010, 36⟩]
  typed := by decide
  fits := by decide

theorem acpiSpec_lengthInside : 4 + 4 ≤ 276 := by decide

theorem acpiSpec_typed : 276 < 2 ^ 32 := by decide

/-- The layout of ACPI 6. -/
def acpiSpec : AcpiLayout where
  sizeofHeader := 36
  signatureAt := 0
  lengthAt := 4
  tablesAt := 36
  rsdpSignatureAt := 0
  rsdpXsdtAt := 24
  sizeofTableUnion := 276
  lengthInside := acpiSpec_lengthInside
  typed := acpiSpec_typed

/-- The RSDP, an XSDT across two pages, a table of 6 KiB, and a short MADT with one I/O APIC. -/
def acpiTables : Mem :=
  ((((((Mem.zero.write 0x3000010 expectRsdpSig).writeLE 0x3000028 8 0x3001ff0).writeLE 0x3001ff4 4 52).writeLE
    0x3002014 16 (0x3100000 + 2 ^ 64 * 0x3103f80)).writeLE 0x3100004 4 0x1800).write
    0x3103f80 (madtSig ++ toBytes 4 56)).write 0x3103fac ([1, 12, 0, 0] ++ toBytes 8 0xfec00000)

theorem irqInit_undoes_sample : ∃ start t, memInit acpiParams.nodes (fun _ => 0) 0 = .ok start ∧
    irqInit acpiSpec acpiTables 10 ⟨start, [], fun _ _ => 0⟩ acpiParams.nodes = .ok t ∧ t.calls.length = 12 ∧
      t.va.unused = start.unused := by
  have evaluated : (fun t : AcpiWalk => decide (t.calls.length = 12)) <$> (memInit acpiParams.nodes (fun _ => 0) 0 >>= fun start =>
      irqInit acpiSpec acpiTables 10 ⟨start, [], fun _ _ => 0⟩ acpiParams.nodes) = .ok true := by decide +kernel
  obtain ⟨t, ran, twelve⟩ := map_eq_ok.mp evaluated
  obtain ⟨start, started, ran⟩ := bind_eq_ok.mp ran
  have rsdpTyped : ∀ rsdp, .rsdp rsdp ∈ acpiParams.nodes → rsdp.rsdpPhyAddr < 2 ^ 64 ∧ rsdp.rsdpSz < 2 ^ 32 := by
    intro rsdp member
    obtain rfl : rsdp = ⟨0x3000010, 36⟩ := by simpa [acpiParams, sampleParams] using member
    decide
  obtain ⟨_, unused, _⟩ := irqInit_undoes (by decide) (by decide) rsdpTyped started (.refl start) ran
  exact ⟨start, t, started, ran, of_decide_eq_true twelve, unused⟩

end Biefircate
