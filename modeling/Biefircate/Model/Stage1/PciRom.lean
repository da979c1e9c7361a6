import Biefircate.Model.Stage1.Fv

/-! # The option ROM of a PCI device

The firmware keeps a copy of the ROM of a device and says where. Stage 1 looks at the first image in it.
-/

namespace Biefircate

/-- The image that `get_rimg_from_pci_io` passes to `get_rimg`, if any, from the bytes at `io->RomImage`. -/
def rimgFromPciIo (rom : List UInt8) (rsz : ℕ) : Exec (Option FvImage) := do
  let found ← rimgFindPcir rom rsz
  match found with
  | none => return none
  | some pcir => do
    let type ← numberIn (rom.drop pcir) pcirTypeAt 1
    if type ≠ pcirTypPcat then return none
    else do
      let rimgSzHkib ← numberIn (rom.drop pcir) pcirRimgSzHkibAt 2
      return some ⟨0, rimgSzHkib * hkibyte % 2 ^ 32, pcir⟩

/-- `get_rimg_from_pci_io`, for `rsz` bytes at the address `rimg`. -/
def Placement.getRimgFromPciIo (s : Placement) (rimg rsz : ℕ) : Exec Placement :=
  let s := { s with bd := { s.bd with rimgSeg := 0, rimgRtSeg := 0, rimgSz := 0 } }
  if rsz = 0 ∨ rimg = 0 then .ok s
  else do
    let selected ← rimgFromPciIo (s.mem.read rimg rsz) rsz
    match selected with
    | none => return s
    | some image => s.getRimg (rimg + image.rimg) image.sz (some (rimg + image.pcir))

end Biefircate
