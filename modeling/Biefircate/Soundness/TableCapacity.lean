import Biefircate.Proofs.Stage2.VaInitTables
import Biefircate.Soundness.MemoryMap

/-! # When memory initialization ends

Every page table takes a page that `mem_alloc` cuts from available memory, and most cuts take a new entry of the
memory map, of which `mem_map_init` reserves half as many again as there are ranges. How many page tables there
are depends on where the ranges lie: a few ranges that lie far apart use up the reserve.
-/

namespace Biefircate

/-- `mem_init` ends, whatever memory holds before. -/
def MemInitEnds (bps : BootParams) : Prop :=
  ∀ words stale, stale < 2 ^ 32 → ∃ s, memInit bps.nodes words stale = .ok s

/-- Addresses above base memory are unused, and on the map that `mem_map_init` leaves, `mem_alloc` has memory for
all tables, with a page table for each slot that needs one. -/
def TablesServed (bps : BootParams) : Prop :=
  (∃ page, UnusedPage (givenRanges bps.nodes) page) ∧ ∃ m t, ∃ slots : Finset ℕ, memMapInit bps.nodes = .ok m ∧
    Run.run Allocs.step ⟨m, []⟩ (vaInitReqs m slots.card) = .ok t ∧ ∀ d, TableSlot t.map.ranges d → d ∈ slots

section

variable {bps : BootParams} {m : MemMap}

/-- The map's own memory is cut from memory that is to be cached if all is. -/
theorem memMapInit_cachedRam (cached : CachedRam (givenRanges bps.nodes)) (init : memMapInit bps.nodes = .ok m) :
    CachedRam m.ranges := by
  obtain ⟨before, r, after, given, _, holds, _, _, _, perm⟩ := memMapInit_carved init
  intro mr member ram low
  have member := perm.mem_iff.mp member
  simp only [List.mem_append] at member
  rcases member with early | piece | late
  · exact cached mr (by rw [given]; exact List.mem_append_left _ early) ram low
  · have whole := cached (.ofBdat r) (by rw [given]; simp) holds.1 holds.2.1
    rw [MemRange.carve] at piece
    split at piece
    · obtain rfl := List.mem_singleton.mp piece
      exact whole
    · rcases List.mem_cons.mp piece with rfl | last
      · exact whole
      · obtain rfl := List.mem_singleton.mp last
        exact whole
  · exact cached mr (by rw [given]; exact List.mem_append_right _ (List.mem_cons_of_mem _ late)) ram low

end

/-- The slots of a table that has two unused ranges, where all that is not to be cached lies in one slot. -/
private theorem tableSlot_sample {mrs : List MemRange} {d : ℕ} (table : TableOk mrs)
    (unused : findUnused mrs = [⟨0x4000000, 0xfae00000⟩, ⟨0xfee01000, 0x11ff000⟩])
    (uncached : ∀ mr ∈ mrs, uefiAttrToPteFlags mr.uefiAttr ≠ 0 → 0xfee00000 ≤ mr.start ∧ mr.stop ≤ 0xff000000)
    (slot : TableSlot mrs d) : d = 2039 := by
  obtain ⟨pages, apart, found⟩ := findUnused_spec table
  rw [unused] at pages apart found
  rcases slot.2 with ⟨⟨c, inside, region⟩, u, inside', outside⟩ | ⟨mr, member, nonzero, ⟨c, inside, meets⟩, _⟩
  · rw [inRegion_iff pages apart found] at region outside
    simp only [InGap, VaRange.stop, or_false] at region outside
    omega
  · have place := uncached mr member nonzero
    rw [MemRange.Meets] at meets
    omega

/-- Four pages of devices, far apart. -/
def scatteredPages : BootParams where
  nodes := [.mrng ⟨0x100000, 0x3f00000, e820Ram, 1, 15⟩, .mrng ⟨0x40000000, 0x1000, e820Reserved, 1, 1⟩,
    .mrng ⟨0x40400000, 0x1000, e820Reserved, 1, 1⟩, .mrng ⟨0x40800000, 0x1000, e820Reserved, 1, 1⟩,
    .mrng ⟨0x40c00000, 0x1000, e820Reserved, 1, 1⟩, .bmem ⟨0x110, 0x9f00⟩, .mrng ⟨0, 0x9f000, e820Ram, 1, 15⟩]
  typed := by decide
  fits := by decide

end Biefircate
