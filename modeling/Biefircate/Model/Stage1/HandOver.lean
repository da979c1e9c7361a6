import Biefircate.Lib.Run
import Biefircate.Model.Stage1.Bparm

/-! # Stage 1 up to the hand-over

Option ROM images, the memory map that stage 1 passes on, and the bounds of base memory. A run of
stage 1 initializes base memory, then allocates, adds boot parameters and records option ROM images
in some order, and finally prepares to hand over to stage 2 with the memory map that the firmware
reports by then.
-/

namespace Biefircate

/-! ## Option ROM images -/

/-- What `get_rimg` reads of a PCI data structure. -/
structure RimgPcir where
  pcirRev : ℕ
  maxRtSzHkib : ℕ
deriving DecidableEq, Repr

/-- An option ROM image that was found: its address, its size, and its PCI data structure if any. -/
structure Rimg where
  addr : ℕ
  sz : ℕ
  pcir : Option RimgPcir
deriving DecidableEq, Repr

/-- The places where `process_one_pci_io` looks for an image, in the order in which it does. -/
inductive RimgSource where
  | pciIo
  | fvs
  | specialCase
deriving DecidableEq, Repr

/-- Whether an image with a separate run time size stays where it is. -/
def Rimg.StaysInPlace (rimg : Rimg) : Prop :=
  rimg.addr ≤ Word.sub 64 bmemMaxAddr rimg.sz ∧ rimg.addr % hkibyte = 0

instance (rimg : Rimg) : Decidable rimg.StaysInPlace := inferInstanceAs (Decidable (_ ∧ _))

/-- The image is copied whole to memory that stays in use at run time. -/
def copyRimg (bmem : Bmem) (bd : BdatPciDev) (rimg : Rimg) : Exec (Bmem × BdatPciDev) := do
  let (copy, bmem) ← bmemAlloc bmem rimg.sz (2 * kibyte)
  return (bmem, { bd with rimgSeg := addrToRmSeg copy, rimgRtSeg := addrToRmSeg copy })

/-- Where an image with a separate run time size is while it initializes. -/
def placeRimg (bmem : Bmem) (rimg : Rimg) : Exec (ℕ × Bmem) :=
  if rimg.StaysInPlace then .ok (rimg.addr, bmem) else bmemAllocBoottime bmem rimg.sz hkibyte

/-- `get_rimg`. -/
def getRimg (bmem : Bmem) (bd : BdatPciDev) (rimg : Rimg) : Exec (Bmem × BdatPciDev) :=
  let bd := { bd with rimgSz := rimg.sz }
  match rimg.pcir with
  | none =>
    .ok (bmem, { bd with rimgSeg := addrToRmSeg rimg.addr, rimgRtSeg := addrToRmSeg rimg.addr })
  | some pcir =>
    let rtSz := pcir.maxRtSzHkib * hkibyte
    if 3 ≤ pcir.pcirRev ∧ rtSz ≠ rimg.sz then do
      let (image, bmem) ← placeRimg bmem rimg
      let (rt, bmem) ← bmemAlloc bmem rtSz hkibyte
      return (bmem, { bd with rimgSeg := addrToRmSeg image, rimgRtSeg := addrToRmSeg rt })
    else copyRimg bmem bd rimg

/-- One of `get_rimg_from_pci_io`, `get_rimg_from_fvs` and `get_rimg_special_case`, given what it
finds. The first two start by clearing the fields. -/
def getRimgFrom (source : RimgSource) (found : Option Rimg) (bmem : Bmem) (bd : BdatPciDev) :
    Exec (Bmem × BdatPciDev) :=
  let bd := if source = .specialCase then bd else { bd with rimgSeg := 0, rimgRtSeg := 0, rimgSz := 0 }
  match found with
  | none => .ok (bmem, bd)
  | some rimg => getRimg bmem bd rimg

/-! ## The memory map -/

/-- The type under which memory is passed on to stage 2. -/
def EfiMemoryType.e820Type : EfiMemoryType → ℕ
  | loaderCode | loaderData | bootServicesCode | bootServicesData | conventionalMemory => e820Ram
  | acpiReclaimMemory => e820Acpi
  | acpiMemoryNvs => e820Nvs
  | persistentMemory => e820Pmem
  | _ => e820Reserved

/-- The body of the loop of `add_uefi_mem_bparms`. -/
def addUefiMemBparm (s : Stage1) (desc : EfiMemoryDescriptor) : Exec Stage1 :=
  if bmemMaxAddr ≤ desc.physicalStart then .ok s
  else
    let sz := Word.mul 64 desc.numberOfPages efiPageSize
    let sz := if bmemMaxAddr - desc.physicalStart < sz then bmemMaxAddr - desc.physicalStart else sz
    if desc.type.isUsable then .ok s
    else bparmAddMemRange s desc.physicalStart sz desc.type.e820Type 1 desc.attrib

/-- `add_uefi_mem_bparms`. -/
def addUefiMemBparms (s : Stage1) (descs : List EfiMemoryDescriptor) : Exec Stage1 :=
  Run.run addUefiMemBparm s descs

/-- The second loop of `add_our_mem_bparms`, for at most `left` more blocks. Adding a range
allocates from the blocks that the loop goes through. -/
def addBlkBparms : ℕ → ℕ → Stage1 → Exec Stage1
  | 0, _, s => .ok s
  | left + 1, blkIdx, s =>
    if blkIdx < s.bmem.blk.length then do
      let b ← load s.bmem.blk blkIdx
      let s ← bparmAddMemRange s b.start (Word.sub 32 b.bend b.start) e820Ram 1 s.bmem.bmemUefiAttr
      let s ← bparmAddMemRange s b.bend (Word.sub 32 b.origEnd b.bend) e820Reserved 1 s.bmem.bmemUefiAttr
      addBlkBparms left (blkIdx + 1) s
    else .ok s

/-- `add_our_mem_bparms`. The first loop skips the blocks that start below `runtime_bmem_top`. -/
def addOurMemBparms (s : Stage1) : Exec Stage1 := do
  let s ← bparmAddMemRange s 0 s.bmem.runtimeBmemTop e820Ram 1 s.bmem.bmemUefiAttr
  let skipped := s.bmem.blk.takeWhile fun b => decide (b.start < s.bmem.runtimeBmemTop)
  addBlkBparms s.bmem.blk.length skipped.length s

/-- The bounds as `bmem_fini` rounds them. -/
def Bmem.round (s : Bmem) : Bmem :=
  { s with
    boottimeBmemBot := (Word.sub 64 (Word.add 64 s.boottimeBmemBot paraSize) 1 &&&
      Word.mask 64 paraSize) % 2 ^ 32
    runtimeBmemTop := (s.runtimeBmemTop &&& Word.mask 64 kibyte) % 2 ^ 32 }

/-- `bmem_fini`. -/
def bmemFini (s : Stage1) (descs : List EfiMemoryDescriptor) : Exec Stage1 := do
  let s ← addUefiMemBparms s descs
  let s ← addOurMemBparms s
  let bmem := s.bmem.round
  bmemCheckEnough bmem
  return { s with bmem := bmem }

/-- The body of the loop of `prepare_to_hand_over`, which passes on the memory above 1 MiB. -/
def addExtMemBparm (s : Stage1) (desc : EfiMemoryDescriptor) : Exec Stage1 :=
  let stop := Word.add 64 desc.physicalStart (Word.mul 64 desc.numberOfPages efiPageSize)
  if stop ≤ bmemMaxAddr ∧ stop ≠ 0 then .ok s
  else
    let start := if desc.physicalStart < bmemMaxAddr then bmemMaxAddr else desc.physicalStart
    bparmAddMemRange s start (Word.sub 64 stop start) desc.type.e820Type 1 desc.attrib

/-- `prepare_to_hand_over`, given the memory map that the firmware reports and that it then lets go
of boot services. -/
def prepareToHandOver (s : Stage1) (descs : List EfiMemoryDescriptor) : Exec Stage1 := do
  let descs ← getMemMap descs
  let s ← Run.run addExtMemBparm s descs
  let bd := s.bparms.length
  let s ← bparmAdd s (.bmem ⟨0, 0⟩)
  let s ← bmemFini s descs
  return bparmFill s bd
    (.bmem ⟨addrToRmSeg s.bmem.boottimeBmemBot, addrToRmSeg s.bmem.runtimeBmemTop⟩)

/-! ## Runs -/

/-- What stage 1 does with base memory between initialization and hand-over. -/
inductive Stage1Op where
  | bmem (call : BmemCall)
  | addRsdp (rsdp : BdatRsdp)
  | addPciDev (pciLocn pciId classIf : ℕ)
  | findRimg (source : RimgSource) (found : Option Rimg)
deriving DecidableEq, Repr

/-- The next operation. Looking for an image is about the device added last, and is skipped once its
segment is known. -/
def Stage1.step (s : Stage1) : Stage1Op → Exec Stage1
  | .bmem call => do return { s with bmem := ← s.bmem.step call }
  | .addRsdp rsdp => bparmAdd s (.rsdp rsdp)
  | .addPciDev pciLocn pciId classIf => bparmAdd s (.pcid ⟨pciLocn, pciId, classIf, 0, 0, 0⟩)
  | .findRimg source found =>
    match s.bparms.getLast? with
    | some ⟨_, .pcid bd⟩ =>
      if bd.rimgSeg ≠ 0 then .ok s
      else do
        let (bmem, bd) ← getRimgFrom source found s.bmem bd
        return bparmFill { s with bmem := bmem } (s.bparms.length - 1) (.pcid bd)
    | _ => .error .outside

/-- The operations of `process_one_pci_io` for a general device, given what each source finds. -/
def processOnePciIo (pciLocn pciId classIf : ℕ) (found : RimgSource → Option Rimg) : List Stage1Op :=
  [.addPciDev pciLocn pciId classIf, .findRimg .pciIo (found .pciIo), .findRimg .fvs (found .fvs),
    .findRimg .specialCase (found .specialCase)]

/-- A run of stage 1 up to the hand-over. The firmware grants some pages, and reports its memory map
once during initialization and once more at the end. -/
def stage1 (granted : ℕ → Bool) (initDescs : List EfiMemoryDescriptor) (ops : List Stage1Op)
    (descs : List EfiMemoryDescriptor) : Exec Stage1 := do
  let bmem ← bmemInit granted initDescs
  let s ← Run.run Stage1.step ⟨bmem, []⟩ ops
  prepareToHandOver s descs

end Biefircate
