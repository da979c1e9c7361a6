import Biefircate.Lib.Run
import Biefircate.Model.Stage1.PciBars
import Biefircate.Model.Stage1.PciRom

/-! # Going through the PCI devices

`process_pci` adds a boot parameter for every general device, looks for its option ROM image in three places one after the other,
and enables the legacy memory and ports of one display controller. A device is given by what its protocol answers: `none` where
a call fails. What is printed is left out.
-/

namespace Biefircate.Pci

/-- `EFI_PCI_ATTRIBUTE_VGA_MEMORY`, `EFI_PCI_ATTRIBUTE_VGA_IO` and `EFI_PCI_ATTRIBUTE_VGA_IO_16`. -/
def vgaMemory : ℕ := 0x0008
def vgaIo : ℕ := 0x0010
def vgaIo16 : ℕ := 0x40000

/-- What `EFI_PCI_IO_PROTOCOL` answers for a device. -/
structure PciIo where
  /-- Segment, bus, device and function, of `GetLocation`. -/
  location : Option (ℕ × ℕ × ℕ × ℕ)
  attributes : Option ℕ
  supported : Option ℕ
  /-- Whether enabling some attributes succeeds. -/
  enable : ℕ → Bool
  /-- The first four registers of the configuration space, and the base address registers. -/
  pciConf : Option (List ℕ)
  bars : Option (List ℕ)
  /-- `RomImage`, and the `RomSize` bytes there. -/
  romImage : ℕ
  rom : List UInt8

/-- A call of the firmware, or `error_with_status`. -/
def answered {α : Type} (msg : String) : Option α → Exec α
  | none => .error (.error msg)
  | some a => .ok a

/-! ## Legacy VGA -/

/-- A call of `Attributes` to enable some: for which handle, which, and whether it succeeded. -/
structure EnableCall where
  handle : ℕ
  enables : ℕ
  ok : Bool
deriving DecidableEq, Repr

/-- Whether a device is a VGA or XGA display controller, by its class. -/
def IsVga (classIf : ℕ) : Prop := classIf &&& 0xffff0000 = 0x03000000 ∨ classIf &&& 0xffff0000 = 0x03010000

instance (classIf : ℕ) : Decidable (IsVga classIf) := inferInstanceAs (Decidable (_ ∨ _))

/-- `switch (supports & ..)`: what there is to enable. -/
def vgaEnables (supports : ℕ) : Option ℕ :=
  let found := supports &&& (vgaMemory ||| vgaIo ||| vgaIo16)
  if found = vgaMemory ||| vgaIo then some (vgaMemory ||| vgaIo)
  else if found = vgaMemory ||| vgaIo16 ∨ found = vgaMemory ||| vgaIo16 ||| vgaIo then some (vgaMemory ||| vgaIo16)
  else none

/-- `enable_legacy_vga`: what it returns, and the calls it makes. -/
def enableLegacyVga (io : PciIo) (handle classIf attrs supports : ℕ) : Bool × List EnableCall :=
  if IsVga classIf then
    match vgaEnables supports with
    | none => (false, [])
    | some enables =>
      if attrs ||| enables = attrs then (true, []) else (io.enable enables, [⟨handle, enables, io.enable enables⟩])
  else (false, [])

/-! ## Looking for an image -/

/-- Offset of `rimg_sz_hkib_legacy` in `rimg_hdr_t`. -/
def hdrRimgSzHkibLegacyAt : ℕ := 2

/-- `rimg_find`: the size of the image, or zero. -/
def rimgFind (rimg : List UInt8) : Exec ℕ := do
  let sig ← numberIn rimg hdrSigAt 2
  if sig ≠ 0xaa55 then return 0
  else do
    let rimgSzHkib ← numberIn rimg hdrRimgSzHkibLegacyAt 1
    if rimgSzHkib = 0 ∨ 0x7f < rimgSzHkib then return 0
    else do
      let bytes ← bytesIn rimg 0 (rimgSzHkib * hkibyte)
      if computeCksum bytes ≠ 0 then return 0 else return rimgSzHkib * hkibyte

/-- `PCI_VENDOR_ID_VBOX` and `PCI_DEVICE_ID_VBOX_VESA`. -/
def pciVendorIdVbox : ℕ := 0x80ee
def pciDeviceIdVboxVesa : ℕ := 0xbeef

/-- Where images are looked for besides with a device: the cache and the addresses of its copies, and the bytes at 0xc0000. -/
structure RimgPlaces where
  fvs : FvCache
  copyAddr : ℕ → ℕ
  c0000 : List UInt8

/-- An image that `get_rimg` is called for, with what it reads of the PCI data structure. -/
def rimgAt (addr sz : ℕ) (bytes : List UInt8) : Option ℕ → Exec (Option Rimg)
  | none => .ok (some ⟨addr, sz, none⟩)
  | some pcir => do
    let fields ← getRimgPcir (bytes.drop pcir)
    return some ⟨addr, sz, some fields⟩

/-- What a source has for a device. -/
def findRimg (places : RimgPlaces) (io : PciIo) (pciId classIf : ℕ) : RimgSource → Exec (Option Rimg)
  | .pciIo =>
    if io.rom = [] ∨ io.romImage = 0 then .ok none
    else do
      let selected ← rimgFromPciIo io.rom io.rom.length
      match selected with
      | none => return none
      | some image => rimgAt (io.romImage + image.rimg) image.sz io.rom (some image.pcir)
  | .fvs =>
    match fvFindRimg places.fvs pciId classIf with
    | none => .ok none
    | some (rimgCopy, sz) => do
      let rimg ← load places.fvs.copies rimgCopy
      let found ← rimgFindPcir rimg sz
      match found with
      | none => return none
      | some pcir => rimgAt (places.copyAddr rimgCopy) sz rimg (some pcir)
  | .specialCase =>
    if pciId = pciMakeId pciVendorIdVbox pciDeviceIdVboxVesa then do
      let rimgSz ← rimgFind places.c0000
      if rimgSz = 0 then return none
      else do
        let found ← rimgFindPcir places.c0000 rimgSz
        rimgAt 0xc0000 rimgSz places.c0000 found
    else .ok none

/-- One of `get_rimg_from_pci_io`, `get_rimg_from_fvs` and `get_rimg_special_case`, if there is no image yet. -/
def getRimgVia (places : RimgPlaces) (io : PciIo) (pciId classIf : ℕ) (s : Stage1) (source : RimgSource) : Exec Stage1 :=
  match s.bparms.getLast? with
  | some ⟨_, .pcid bd⟩ =>
    if bd.rimgSeg ≠ 0 then .ok s
    else do
      let found ← findRimg places io pciId classIf source
      s.step (.findRimg source found)
  | _ => .error .outside

/-! ## The devices -/

/-- `pci_locn`. -/
def pciLocn (seg bus dev fn : ℕ) : ℕ := (seg <<< 16 ||| bus <<< 8 ||| dev <<< 3 ||| fn) % 2 ^ 32

/-- The local variables of `process_pci`: the state, the place of `vga` among the boot parameters, and the calls made. -/
structure ProcessPci where
  stage1 : Stage1
  vga : Option ℕ
  calls : List EnableCall
deriving DecidableEq, Repr

/-- `process_one_pci_io`, with the calls it makes. -/
def processOnePciIo (places : RimgPlaces) (handle : ℕ) (io : PciIo) (tryEnableVga : Bool) (s : Stage1) :
    Exec (Stage1 × Option ℕ × List EnableCall) := do
  let (seg, bus, dev, fn) ← answered "cannot get PCI ctrlr. locn." io.location
  let attrs ← answered "cannot get PCI ctrlr. attrs." io.attributes
  let supports ← answered "cannot get PCI ctrlr. attrs." io.supported
  let pciConf ← answered "cannot read PCI conf. sp." io.pciConf
  let pciId ← load pciConf 0
  let reg2 ← load pciConf 2
  let reg3 ← load pciConf 3
  let classIf := reg2 &&& 0xffffff00
  -- The source takes these bits for the header type.
  if reg3 >>> 8 &&& 0xff ≠ 0 then return (s, none, [])
  else do
    let bd := s.bparms.length
    let s ← s.step (.addPciDev (pciLocn seg bus dev fn) pciId classIf)
    let (enabled, calls) := if tryEnableVga then enableLegacyVga io handle classIf attrs supports else (false, [])
    let s ← Run.run (getRimgVia places io pciId classIf) s [.pciIo, .fvs, .specialCase]
    let bars ← answered "cannot read PCI conf. sp." io.bars
    let _ ← enumBars bars
    return (s, if enabled then some bd else none, calls)

/-- The body of the loop of `process_pci`, for a handle and its number. -/
def processHandle (places : RimgPlaces) (st : ProcessPci) (handle : Option PciIo × ℕ) : Exec ProcessPci := do
  let io ← answered "cannot get EFI_PCI_IO_PROTOCOL" handle.1
  let (s, vga, calls) ← processOnePciIo places handle.2 io st.vga.isNone st.stage1
  return ⟨s, st.vga.or vga, st.calls ++ calls⟩

/-- `process_pci`, for the handles that `LibLocateHandle` finds. -/
def processPci (places : RimgPlaces) (handles : List (Option PciIo)) (s : Stage1) : Exec ProcessPci :=
  if handles = [] then .error (.error "no PCI devices found")
  else do
    let st ← Run.run (processHandle places) ⟨s, none, []⟩ handles.zipIdx
    match st.vga with
    | none => .error (.error "no usable VGA/XGA controller?")
    | some vga => do
      let node ← load st.stage1.bparms vga
      match node.bp with
      | .pcid bd => if bd.rimgSeg = 0 then .error (.error "VGA/XGA device lacks option ROM?") else return st
      | _ => .error .outside

end Biefircate.Pci
