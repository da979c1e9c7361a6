import Biefircate.Model.Common
import Mathlib.Data.List.Basic
import Mathlib.Logic.Function.Basic

/-! # Base memory in stage 1

`bmem.c` takes what it can of the memory below 1 MiB from the firmware and hands it out from both
ends: memory for use at run time from the top of the highest block down, memory for use at boot
time from the bottom of the lowest block up. Every call is recorded along with the state, which the
program does not do.
-/

namespace Biefircate

def efiPageSize : ℕ := 4096
/-- The capacity of `blk`. -/
def maxBmemBlks : ℕ := bmemMaxAddr / efiPageSize / 2

/-! ## The firmware's memory map -/

/-- `EFI_MEMORY_TYPE`. BootServices may add types of its own. -/
inductive EfiMemoryType where
  | reservedMemoryType
  | loaderCode
  | loaderData
  | bootServicesCode
  | bootServicesData
  | runtimeServicesCode
  | runtimeServicesData
  | conventionalMemory
  | unusableMemory
  | acpiReclaimMemory
  | acpiMemoryNvs
  | memoryMappedDevice
  | memoryMappedPortSpace
  | palCode
  | persistentMemory
  | other (type : ℕ)
deriving DecidableEq, Repr

/-- `EFI_MEMORY_DESCRIPTOR`. -/
structure EfiMemoryDescriptor where
  type : EfiMemoryType
  physicalStart : ℕ
  numberOfPages : ℕ
  attrib : ℕ
deriving DecidableEq, Repr

/-- The types whose memory is free once boot services end. -/
def EfiMemoryType.isUsable : EfiMemoryType → Bool
  | loaderCode | loaderData | bootServicesCode | bootServicesData | conventionalMemory => true
  | _ => false

/-- `get_mem_map`, for a map that the firmware reports. -/
def getMemMap (descs : List EfiMemoryDescriptor) : Exec (List EfiMemoryDescriptor) :=
  if descs = [] then .error (.error "cannot get mem. map!") else .ok descs

/-! ## Blocks -/

/-- `blk_info_t`: the part `[start, bend)` is free, and `[bend, origEnd)` was given out for use at
run time. -/
structure Blk where
  start : ℕ
  bend : ℕ
  origEnd : ℕ
deriving DecidableEq, Repr

inductive RegionKind where
  | runtime
  | boottime
deriving DecidableEq, Repr

/-- A region that was given out, with the alignment asked for and `runtime_bmem_top` before. -/
structure Region where
  kind : RegionKind
  start : ℕ
  size : ℕ
  align : ℕ
  top : ℕ
deriving DecidableEq, Repr

/-- One past the last address of the region. -/
def Region.stop (r : Region) : ℕ := r.start + r.size

/-- The static variables of `bmem.c`, with the regions given out so far, latest first. -/
structure Bmem where
  blk : List Blk
  boottimeBmemBot : ℕ
  runtimeBmemTop : ℕ
  bmemUefiAttr : ℕ
  returned : List Region
deriving DecidableEq, Repr

/-- `bmem_check_enough`. -/
def bmemCheckEnough (s : Bmem) : Exec Unit :=
  if s.runtimeBmemTop < 192 * kibyte ∨ s.runtimeBmemTop - 128 * kibyte < s.boottimeBmemBot then
    .error (.error "not enough base mem.!")
  else .ok ()

/-! ## Grabbing pages -/

/-- The firmware's page allocator: the pages that are free, and the answer of `AllocatePages` to a request for a number of
pages below an address. -/
structure BootServices (σ : Type) where
  free : σ → ℕ → Bool
  allocatePages : σ → ℕ → ℕ → Option ℕ × σ

/-- A request for pages that the firmware granted. -/
structure Grant where
  start : ℕ
  pageCount : ℕ
deriving DecidableEq, Repr

/-- `bvec_set`, on a bit vector for the pages below 1 MiB. -/
def bvecSet (avail : ℕ → Bool) (idx : ℕ) : Exec (ℕ → Bool) :=
  if idx < bmemMaxAddr / efiPageSize then .ok (Function.update avail idx true) else .error .outside

/-- `while (page_count-- != 0)`, which leaves `page_count` one below zero. -/
def markPages : ℕ → ℕ → (ℕ → Bool) → Exec ((ℕ → Bool) × ℕ)
  | 0, _, avail => .ok (avail, Word.sub 64 0 1)
  | pageCount + 1, idx, avail => do
    let avail ← bvecSet avail idx
    markPages pageCount (Word.add 32 idx 1) avail

/-- What the loop leaves: the firmware, the bit vector, and the grants, latest first. -/
structure Grabbed (σ : Type) where
  firmware : σ
  avail : ℕ → Bool
  grants : List Grant

/-- The two loops that grab pages, for at most `fuel` requests. -/
def grabFrom {σ : Type} (bs : BootServices σ) : ℕ → ℕ → Grabbed σ → Exec (Grabbed σ)
  | 0, _, _ => .error .stuck
  | fuel + 1, pageCount, s =>
    match bs.allocatePages s.firmware pageCount bmemMaxAddr with
    | (none, firmware) =>
      if pageCount / 2 ≠ 0 then grabFrom bs fuel (pageCount / 2) { s with firmware := firmware }
      else .ok { s with firmware := firmware }
    | (some start, firmware) => do
      let (avail, left) ← markPages pageCount (start / efiPageSize % 2 ^ 32) s.avail
      grabFrom bs fuel left ⟨firmware, avail, ⟨start, pageCount⟩ :: s.grants⟩

/-- The first half of `bmem_init`: grab all the base memory pages there are. -/
def grabBmem {σ : Type} (bs : BootServices σ) (fuel : ℕ) (firmware : σ) : Exec (Grabbed σ) :=
  grabFrom bs fuel (bmemMaxAddr / efiPageSize / 2) ⟨firmware, fun _ => false, []⟩

/-! ## Initialization -/

/-- Write the next entry of `blk`. -/
def addBlk (blk : List Blk) (start bend : ℕ) : Exec (List Blk) :=
  if blk.length < maxBmemBlks then .ok (blk ++ [⟨start, bend, bend⟩]) else .error .outside

/-- The loop that groups the granted pages into blocks, with `left` pages to go. Outside a block
`start` is `BMEM_MAX_ADDR`. -/
def groupBlks (avail : ℕ → Bool) : ℕ → ℕ → ℕ → List Blk → Exec (List Blk)
  | 0, idx, start, blk =>
    if start ≠ bmemMaxAddr then addBlk blk start (idx * efiPageSize) else .ok blk
  | left + 1, idx, start, blk =>
    if avail idx then
      groupBlks avail left (idx + 1) (if start = bmemMaxAddr then idx * efiPageSize else start) blk
    else if start ≠ bmemMaxAddr then do
      let blk ← addBlk blk start (idx * efiPageSize)
      groupBlks avail left (idx + 1) bmemMaxAddr blk
    else groupBlks avail left (idx + 1) start blk

/-- The available pages and the attributes they share, once a descriptor has been looked at. -/
def gaugeDesc (gauged : (ℕ → Bool) × ℕ) (desc : EfiMemoryDescriptor) : (ℕ → Bool) × ℕ :=
  if desc.type.isUsable ∧ desc.physicalStart < bmemMaxAddr then
    let idx := desc.physicalStart / efiPageSize
    let endIdx := Word.add 32 idx desc.numberOfPages
    let endIdx := if bmemMaxAddr / efiPageSize < endIdx then bmemMaxAddr / efiPageSize else endIdx
    (fun page => gauged.1 page || decide (idx ≤ page ∧ page < endIdx), gauged.2 &&& desc.attrib)
  else gauged

/-- The first page from `idx` on that is not available, among the next `left`. -/
def firstClear (avail : ℕ → Bool) : ℕ → ℕ → ℕ
  | 0, idx => idx
  | left + 1, idx => if avail idx then firstClear avail left (idx + 1) else idx

/-- What `bmem_uefi_attr` starts as: `EFI_MEMORY_` UC, WC, WB, UCE, WP, RP, XP, RO, CPU_CRYPTO. -/
def allBmemAttr : ℕ := 0x1 + 0x2 + 0x8 + 0x10 + 0x1000 + 0x2000 + 0x4000 + 0x20000 + 0x80000

/-- `bmem_init`, from the pages that the firmware granted and the memory map it reports then. -/
def bmemInit (granted : ℕ → Bool) (descs : List EfiMemoryDescriptor) : Exec Bmem := do
  let blk ← groupBlks granted (bmemMaxAddr / efiPageSize - 1) 1 bmemMaxAddr []
  let descs ← getMemMap descs
  let (avail, attr) := descs.foldl gaugeDesc (granted, allBmemAttr)
  let idx := firstClear avail (bmemMaxAddr / efiPageSize) 0
  if idx < 192 * kibyte / efiPageSize then .error (.error "not enough base mem.!")
  else
    let s : Bmem := ⟨blk, efiPageSize, idx * efiPageSize, attr, []⟩
    bmemCheckEnough s
    return s

/-- All of `bmem_init`, on a firmware whose memory map depends on the pages that are left. -/
def bmemInitFrom {σ : Type} (bs : BootServices σ) (memMap : σ → List EfiMemoryDescriptor) (fuel : ℕ) (firmware : σ) :
    Exec Bmem := do
  let s ← grabBmem bs fuel firmware
  bmemInit s.avail (memMap s.firmware)

/-! ## Allocation -/

/-- The loop of `bmem_alloc`, over the first blocks from the last of them down. -/
def bmemAllocFrom (s : Bmem) (size align : ℕ) : ℕ → Exec (ℕ × Bmem)
  | 0 => .error (.error "cannot alloc. from base mem.!")
  | blkIdx + 1 => do
    let b ← load s.blk blkIdx
    if Word.sub 32 b.bend b.start < size then bmemAllocFrom s size align blkIdx
    else
      let astart := (Word.sub 64 b.bend size &&& Word.mask 32 align) % 2 ^ 32
      if astart < b.start then bmemAllocFrom s size align blkIdx
      else .ok (astart, { s with
        blk := s.blk.set blkIdx { b with bend := astart }
        runtimeBmemTop := if astart < s.runtimeBmemTop then astart else s.runtimeBmemTop
        returned := ⟨.runtime, astart, size, align, s.runtimeBmemTop⟩ :: s.returned })

/-- `bmem_alloc`. -/
def bmemAlloc (s : Bmem) (size align : ℕ) : Exec (ℕ × Bmem) := bmemAllocFrom s size align s.blk.length

/-- The loop of `bmem_alloc_boottime`, with `left` blocks to go from `blkIdx` on. -/
def bmemAllocBoottimeFrom (s : Bmem) (size align : ℕ) : ℕ → ℕ → Exec (ℕ × Bmem)
  | 0, _ => .error (.error "cannot alloc. for boot time from base mem.!")
  | left + 1, blkIdx => do
    let b ← load s.blk blkIdx
    if Word.sub 32 b.bend b.start < size then bmemAllocBoottimeFrom s size align left (blkIdx + 1)
    else
      let astart := Word.sub 32 (Word.add 32 b.start (align % 2 ^ 32)) 1 &&& Word.mask 32 align
      if b.bend < astart then bmemAllocBoottimeFrom s size align left (blkIdx + 1)
      else if Word.sub 32 b.bend astart < size then
        bmemAllocBoottimeFrom s size align left (blkIdx + 1)
      else if s.runtimeBmemTop ≤ astart then
        .error (.error "cannot alloc. for boot time from base mem.!")
      else
        let aend := Word.add 64 astart size % 2 ^ 32
        .ok (astart, { s with
          blk := if aend ≠ b.bend then s.blk.set blkIdx { b with start := aend }
            else s.blk.eraseIdx blkIdx
          boottimeBmemBot := if s.boottimeBmemBot < aend then aend else s.boottimeBmemBot
          returned := ⟨.boottime, astart, size, align, s.runtimeBmemTop⟩ :: s.returned })

/-- `bmem_alloc_boottime`. -/
def bmemAllocBoottime (s : Bmem) (size align : ℕ) : Exec (ℕ × Bmem) :=
  bmemAllocBoottimeFrom s size align s.blk.length 0

/-- A call of one of the two allocators. -/
structure BmemCall where
  kind : RegionKind
  size : ℕ
  align : ℕ
deriving DecidableEq, Repr

/-- The next call, keeping only the state it leaves. -/
def Bmem.step (s : Bmem) (call : BmemCall) : Exec Bmem :=
  Prod.snd <$> match call.kind with
    | .runtime => bmemAlloc s call.size call.align
    | .boottime => bmemAllocBoottime s call.size call.align

end Biefircate
