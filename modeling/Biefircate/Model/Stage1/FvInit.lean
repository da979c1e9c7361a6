import Biefircate.Lib.Run
import Biefircate.Model.Stage1.Fv

/-! # Going through the firmware volumes

`fv_init` looks for option ROM images in the raw sections of the files of every firmware volume. The firmware is given by what
it answers: the files that calls of `GetNextFile` return before one fails, and the sections that calls of `ReadSection` return for
a file before one fails. A file is known by a GUID of any type.
-/

namespace Biefircate

/-- `MAX_OROM_SZ`. -/
def maxOromSz : ℕ := 0xf0000

/-- `EFI_FV_FILETYPE_FIRMWARE_VOLUME_IMAGE` and `EFI_FV_FILETYPE_FFS_PAD`. -/
def efiFvFiletypeFirmwareVolumeImage : ℕ := 0x0b
def efiFvFiletypeFfsPad : ℕ := 0xf0

/-- A file as `GetNextFile` describes it. -/
structure FvFile (γ : Type) where
  type : ℕ
  guid : γ
deriving DecidableEq, Repr

/-- What an instance of `EFI_FIRMWARE_VOLUME2_PROTOCOL` answers. -/
structure FirmwareVolume (γ : Type) where
  files : List (FvFile γ)
  sections : γ → List (List UInt8)

section

variable {γ : Type} (granted : ℕ → Bool)

/-- `fv_cache_rimg` for an image in a section. -/
def cacheFvImage (rom : List UInt8) (c : FvCache) (image : FvImage) : Exec FvCache := do
  let rimg ← bytesIn rom image.rimg image.sz
  fvCacheRimg granted rimg image.sz (image.pcir - image.rimg) c

/-- The body of the loop of `fv_gather_rimgs_for_one_file`. A section that is larger than the buffer is returned in part, with
its whole size. -/
def fvGatherSection (c : FvCache) (contents : List UInt8) : Exec FvCache :=
  let sxn := contents.take maxOromSz
  let sxnSz := if maxOromSz < contents.length then maxOromSz else contents.length
  fvGatherRimgsForOneSxn sxn (cacheFvImage granted sxn) (sxnSz / hkibyte + 1) sxnSz c

/-- The loop of `fv_gather_rimgs_for_one_file`, for at most `rounds` rounds. -/
def fvGatherSections (sections : List (List UInt8)) : ℕ → ℕ → FvCache → Exec FvCache
  | 0, _, _ => .error .stuck
  | rounds + 1, inst, c =>
    match sections[inst]? with
    | none => .ok c
    | some contents => do
      let c ← fvGatherSection granted c contents
      let inst := Word.add 64 inst 1
      if inst ≠ 0 then fvGatherSections sections rounds inst c else return c

/-- `fv_gather_rimgs_for_one_file`. It does not check what `AllocatePool` returns; here there is memory for the section. -/
def fvGatherRimgsForOneFile (fv : FirmwareVolume γ) (guid : γ) (c : FvCache) : Exec FvCache :=
  fvGatherSections granted (fv.sections guid) ((fv.sections guid).length + 1) 0 { c with allocs := c.allocs + 1 }

/-- The body of the loop of `fv_gather_rimgs_for_one_fv`. -/
def fvGatherFile (fv : FirmwareVolume γ) (c : FvCache) (file : FvFile γ) : Exec FvCache :=
  if file.type = efiFvFiletypeFfsPad ∨ file.type = efiFvFiletypeFirmwareVolumeImage then .ok c
  else fvGatherRimgsForOneFile granted fv file.guid c

/-- `fv_gather_rimgs_for_one_fv`. -/
def fvGatherRimgsForOneFv (fv : FirmwareVolume γ) (c : FvCache) : Exec FvCache := do
  let c ← c.allocatePool granted "not enough mem. for FV key"
  Run.run (fvGatherFile granted fv) c fv.files

/-- The body of the loop of `fv_init`: a handle that `HandleProtocol` fails for is skipped. -/
def fvGatherHandle (c : FvCache) : Option (FirmwareVolume γ) → Exec FvCache
  | none => .ok c
  | some fv => fvGatherRimgsForOneFv granted fv c

/-- `fv_init`, given the handles that `LibLocateHandle` finds. If there are none the table stays as it is. -/
def fvInit (handles : List (Option (FirmwareVolume γ))) (c : FvCache) : Exec FvCache :=
  if handles = [] then .ok c
  else Run.run (fvGatherHandle granted) { c with ht := fun _ => [] } handles

end

end Biefircate
