import Biefircate.Proofs.Stage2.PageDirs
import Biefircate.Soundness.MemoryMap

/-! # `do_va_map` changes the translation of its span and of nothing else

This holds of all tables that are well formed, whatever large pages and page tables are there already. The
call ends unless `mem_alloc` has no page for a table.
-/

namespace Biefircate

/-- The span is mapped as asked, with its flags, and every other address translates as it did before. There
the entries agree too, whether they are a page table's or a large page's. -/
structure Translates (vstart pstart len flags : ℕ) (p p' : Paging) : Prop where
  ok : p'.Ok
  inside : ∀ va, vstart ≤ va → va < vstart + len → p'.translate va = some ⟨pstart + (va - vstart), true, flags⟩
  outside : ∀ va < 2 ^ 32, va < vstart ∨ vstart + len ≤ va → p'.translate va = p.translate va
  entries : ∀ page < 2 ^ 20, page * 2 ^ 12 < vstart ∨ vstart + len ≤ page * 2 ^ 12 → p'.pteOf page = p.pteOf page

theorem Mapped.translates {p p' : Paging} {q f n flags : ℕ} (ok : p.Ok) (below : q + n ≤ 2 ^ 20)
    (fits : f + n ≤ 2 ^ 40) (cache : CacheFlags flags) (mapped : Mapped flags q f n p p') :
    Translates (q * 2 ^ 12) (f * 2 ^ 12) (n * 2 ^ 12) flags p p' where
  ok := mapped.ok
  inside va low high := by
    rw [translate_eq mapped.ok (by omega), mapped.ptes_of_fits (by omega) (by omega), if_pos (by omega),
      pteTranslation_smallEntry (by omega) cache]
    have phys : (f + (va / 2 ^ 12 - q)) * 2 ^ 12 + va % 2 ^ 12 = f * 2 ^ 12 + (va - q * 2 ^ 12) := by omega
    rw [phys]
  outside va small off := by
    rw [translate_eq mapped.ok small, translate_eq ok small, mapped.ptes _ (by omega), if_neg (by omega)]
  entries page small off := by
    rw [mapped.ptes page small, if_neg (by omega)]

/-- From every well-formed state `do_va_map` does what it is called for, or `mem_alloc` does not return. -/
theorem doVaMap_translates {p : Paging} {vstart pstart len flags : ℕ} (ok : p.Ok) (wholeV : pageSize ∣ vstart)
    (wholeP : pageSize ∣ pstart) (wholeLen : pageSize ∣ len) (below : vstart + len ≤ 2 ^ 32)
    (fits : pstart + len ≤ 2 ^ 52) (cache : CacheFlags flags) :
    (∃ p', doVaMap p vstart pstart len flags = .ok p' ∧ Translates vstart pstart len flags p p') ∨
      ∃ stop, doVaMap p vstart pstart len flags = .error stop ∧ PageAllocFails p.map stop := by
  obtain ⟨q, rfl⟩ := wholeV
  obtain ⟨f, rfl⟩ := wholeP
  obtain ⟨n, rfl⟩ := wholeLen
  have pages : ∀ k, pageSize * k = k * 2 ^ 12 := fun k => Nat.mul_comm ..
  rw [pages, pages] at below fits
  simp only [pages]
  apply (doVaMap_cases ok rfl rfl rfl (by omega) (by omega) cache).imp_left
  rintro ⟨p', ran, mapped⟩
  exact ⟨p', ran, mapped.translates ok (by omega) (by omega) cache⟩

/-- The state in which `va_init` starts to map, on the sample and with blank memory. -/
def samplePaging : Exec Paging := do
  let m ← memMapInit sampleParams.nodes
  let (pdpt, map) ← memAlloc m 32 pdptAlign 0
  addPds ⟨map, fun _ => 0, pdpt⟩ 4 0

theorem samplePaging_ok {p : Paging} (ran : samplePaging = .ok p) : p.Ok := by
  obtain ⟨m, init, ran⟩ := bind_eq_ok.mp ran
  obtain ⟨⟨pdpt, map⟩, allocated, ran⟩ := bind_eq_ok.mp ran
  have room : (fun m : MemMap => decide (m.ranges.length ≤ m.maxRanges)) <$> memMapInit sampleParams.nodes =
      .ok true := by decide +kernel
  obtain ⟨m', again, room⟩ := map_eq_ok.mp room
  cases init.symm.trans again
  have valid : AllocReq.Valid ⟨32, pdptAlign, 0⟩ := ⟨by decide, by decide, ⟨5, by decide⟩, by decide⟩
  obtain ⟨grown, fresh⟩ := memAlloc_grown ⟨memMapInit_table (by decide) init, of_decide_eq_true room⟩ valid allocated
  exact (addPds_ok (.start grown.ok fresh.aligned fresh.reserved) rfl ran).1.ok.1

/-- A span above 4 GiB mapped from the last page of one large slot to the first of another, uncached. -/
theorem doVaMap_translates_sample : ∃ p p', samplePaging = .ok p ∧
    doVaMap p 0x5ff000 0x1234ff000 0x202000 pteCd = .ok p' ∧
      Translates 0x5ff000 0x1234ff000 0x202000 pteCd p p' := by
  obtain ⟨p', ran⟩ := exists_of_isOk
    (x := samplePaging >>= fun p => doVaMap p 0x5ff000 0x1234ff000 0x202000 pteCd) (by decide +kernel)
  obtain ⟨p, made, ran⟩ := bind_eq_ok.mp ran
  refine ⟨p, p', made, ran, ?_⟩
  have cases : (∃ p', doVaMap p 0x5ff000 0x1234ff000 0x202000 pteCd = .ok p' ∧
      Translates 0x5ff000 0x1234ff000 0x202000 pteCd p p') ∨
        ∃ stop, doVaMap p 0x5ff000 0x1234ff000 0x202000 pteCd = .error stop ∧ PageAllocFails p.map stop :=
    doVaMap_translates (samplePaging_ok made) (by decide) (by decide) (by decide) (by decide) (by decide) (by decide)
  rcases cases with ⟨p'', again, translates⟩ | ⟨stop, again, _⟩
  · cases ran.symm.trans again
    exact translates
  · cases ran.symm.trans again

end Biefircate
