import Biefircate.Model.Stage2.MemMap
import Mathlib.Logic.Function.Basic

/-! # The page tables of stage 2

`mem.c` keeps one page-directory-pointer table, four page directories and any number of page tables in
memory it takes from `mem_alloc`. Memory is a function from addresses to the 64-bit words there, of
which only those at multiples of 8 are used. The processor's own walk of the tables stands at the end.
-/

namespace Biefircate

def largePageSize : ℕ := 0x200000
def pdptAlign : ℕ := 0x20

/-! ## Flags of page table entries -/

def pteP : ℕ := 0x1
def pteRw : ℕ := 0x2
def pteUs : ℕ := 0x4
def pteWt : ℕ := 0x8
def pteCd : ℕ := 0x10
def pdePs : ℕ := 0x80

/-- What the page table routines work on: the memory map that `mem_alloc` uses, the words of memory
and the address in `pdpt`. -/
structure Paging where
  map : MemMap
  words : ℕ → ℕ
  pdpt : ℕ

/-- Words with 512 of them replaced, from the page address `pt` on. -/
def fillPage (words : ℕ → ℕ) (pt : ℕ) (entries : ℕ → ℕ) (a : ℕ) : ℕ :=
  if pt ≤ a ∧ a < pt + pageSize then entries ((a - pt) / 8) else words a

namespace Paging

/-- `p->words[a] = v`. -/
def setWord (p : Paging) (a v : ℕ) : Paging := { p with words := Function.update p.words a v }

/-- The address of the page directory that covers gibibyte `pdpti`. -/
def pdOf (p : Paging) (pdpti : ℕ) : ℕ := p.words (p.pdpt + 8 * pdpti) % 2 ^ 32 &&& Word.mask 32 pdptAlign

/-- `&pd[pdi]` for the address `vstart`. -/
def pdeAddr (p : Paging) (vstart : ℕ) : ℕ := p.pdOf (vstart / 2 ^ 30) + 8 * (vstart / 2 ^ 21 % 512)

end Paging

/-- The page table that a page directory entry refers to. -/
def ptOf (pde : ℕ) : ℕ := pde % 2 ^ 32 &&& Word.mask 32 pageSize

/-- `&pt[pti]` for the address `vstart`. -/
def pteAddr (pt vstart : ℕ) : ℕ := pt + 8 * (vstart / 2 ^ 12 % 512)

/-- `ensure_pt`: the page table, and the state once the entry at `pPde` refers to it. -/
def ensurePt (p : Paging) (pPde : ℕ) : Exec (ℕ × Paging) :=
  let pde := p.words pPde
  if pde ≠ 0 then
    if pde &&& pdePs = 0 then .ok (ptOf pde, p)
    else do
      let (pt, map) ← memAlloc p.map pageSize pageSize 0
      let pte := pde &&& (2 ^ 64 - 1 - pdePs)
      let words := fillPage p.words pt fun i => (pte + i * pageSize) % 2 ^ 64
      return (pt, Paging.setWord { p with map := map, words := words } pPde (pt ||| pteP ||| pteRw ||| pteUs))
  else do
    let (pt, map) ← memAlloc p.map pageSize pageSize 0
    let words := fillPage p.words pt fun _ => 0
    return (pt, Paging.setWord { p with map := map, words := words } pPde (pt ||| pteP ||| pteRw ||| pteUs))

/-- The loop of `do_va_map`, for at most `fuel` rounds. -/
def doVaMapFrom (pteFlags : ℕ) : ℕ → Paging → ℕ → ℕ → ℕ → Exec Paging
  | 0, _, _, _, _ => .error .stuck
  | fuel + 1, p, vstart, pstart, len =>
    if len = 0 then .ok p
    else
      let pPde := p.pdeAddr vstart
      let pde := p.words pPde
      if vstart % largePageSize = 0 ∧ pstart % largePageSize = 0 ∧ largePageSize ≤ len ∧
          (pde = 0 ∨ pde &&& pdePs ≠ 0) then
        doVaMapFrom pteFlags fuel
          (p.setWord pPde (pstart ||| pteP ||| pteRw ||| pteUs ||| pdePs ||| pteFlags))
          (Word.add 32 vstart largePageSize) (Word.add 64 pstart largePageSize)
          (Word.sub 32 len largePageSize)
      else do
        let (pt, p) ← ensurePt p pPde
        doVaMapFrom pteFlags fuel
          (p.setWord (pteAddr pt vstart) (pstart ||| pteP ||| pteRw ||| pteUs ||| pteFlags))
          (Word.add 32 vstart pageSize) (Word.add 64 pstart pageSize) (Word.sub 32 len pageSize)

/-- Rounds enough for any length that the loops can bring down to zero. Any other length wraps, and
they never end. -/
def vaRounds : ℕ := xm32MaxAddr / pageSize + 1

/-- `do_va_map`. -/
def doVaMap (p : Paging) (vstart pstart len pteFlags : ℕ) : Exec Paging :=
  doVaMapFrom pteFlags vaRounds p vstart pstart len

/-- `do_va_id_map`. -/
def doVaIdMap (p : Paging) (start len pteFlags : ℕ) : Exec Paging := doVaMap p start start len pteFlags

/-- The loop of `do_va_unmap`, for at most `fuel` rounds. -/
def doVaUnmapFrom : ℕ → Paging → ℕ → ℕ → Exec Paging
  | 0, _, _, _ => .error .stuck
  | fuel + 1, p, vstart, len =>
    if len = 0 then .ok p
    else
      let pPde := p.pdeAddr vstart
      let pde := p.words pPde
      if pde &&& pdePs ≠ 0 then
        if vstart % largePageSize = 0 ∧ largePageSize ≤ len then
          doVaUnmapFrom fuel (p.setWord pPde 0) (Word.add 32 vstart largePageSize)
            (Word.sub 32 len largePageSize)
        else doVaUnmapFrom fuel p (Word.add 32 vstart pageSize) (Word.sub 32 len pageSize)
      else
        let p := if pde ≠ 0 then p.setWord (pteAddr (ptOf pde) vstart) 0 else p
        doVaUnmapFrom fuel p (Word.add 32 vstart pageSize) (Word.sub 32 len pageSize)

/-- `do_va_unmap`. -/
def doVaUnmap (p : Paging) (vstart len : ℕ) : Exec Paging := doVaUnmapFrom vaRounds p vstart len

/-! ## The processor -/

/-- What the processor finds for a linear address: the physical address, whether it may be written,
and the two flags that control caching. -/
structure Translation where
  phys : ℕ
  writable : Bool
  cache : ℕ
deriving DecidableEq, Repr

/-- The address field of a table entry, in units of the given size. -/
def entryFrame (entry size : ℕ) : ℕ := entry % 2 ^ 52 / size

/-- The walk for PAE paging, from the page-directory-pointer table that `cr3` points to. -/
def translate (words : ℕ → ℕ) (cr3 va : ℕ) : Option Translation :=
  let pdpte := words (Word.alignDown cr3 32 + 8 * (va / 2 ^ 30))
  if pdpte &&& pteP = 0 then none
  else
    let pde := words (entryFrame pdpte pageSize * pageSize + 8 * (va / 2 ^ 21 % 512))
    if pde &&& pteP = 0 then none
    else if pde &&& pdePs ≠ 0 then
      some ⟨entryFrame pde largePageSize * largePageSize + va % largePageSize,
        decide (pde &&& pteRw ≠ 0), pde &&& (pteWt ||| pteCd)⟩
    else
      let pte := words (entryFrame pde pageSize * pageSize + 8 * (va / 2 ^ 12 % 512))
      if pte &&& pteP = 0 then none
      else
        some ⟨entryFrame pte pageSize * pageSize + va % pageSize,
          decide (pde &&& pteRw ≠ 0 ∧ pte &&& pteRw ≠ 0), pte &&& (pteWt ||| pteCd)⟩

/-- The translation in force: `cr3` holds the address in `pdpt`. -/
def Paging.translate (p : Paging) (va : ℕ) : Option Translation := Biefircate.translate p.words p.pdpt va

end Biefircate
