import Biefircate.Lib.Slice
import Biefircate.Model.Stage1.HandOver
import Biefircate.Model.Stage1.Util

/-! # Option ROM images

An image is looked for at the start of a buffer, whose bytes are all that may be read. A pointer to the PCI data
structure is its offset from there. What is printed is left out.
-/

namespace Biefircate

/-- The `n` bytes at an offset in a buffer. -/
def bytesIn (buf : List UInt8) (off n : ℕ) : Exec (List UInt8) :=
  if off + n ≤ buf.length then .ok (slice buf off n) else .error .outside

/-- The `n`-byte number at an offset in a buffer. -/
def numberIn (buf : List UInt8) (off n : ℕ) : Exec ℕ :=
  if off + n ≤ buf.length then .ok (number buf off n) else .error .outside

theorem bytesIn_of_le {buf : List UInt8} {off n : ℕ} (inside : off + n ≤ buf.length) :
    bytesIn buf off n = .ok (slice buf off n) := if_pos inside

theorem numberIn_of_le {buf : List UInt8} {off n : ℕ} (inside : off + n ≤ buf.length) :
    numberIn buf off n = .ok (number buf off n) := if_pos inside

theorem numberIn_drop {buf : List UInt8} {k off n : ℕ} (inside : k + (off + n) ≤ buf.length) :
    numberIn (buf.drop k) off n = .ok (number buf (k + off) n) := by
  rw [numberIn_of_le (by rw [List.length_drop]; omega), number_drop]

/-! ## Layouts -/

/-- Offsets in `rimg_hdr_t`. -/
def hdrSigAt : ℕ := 0
def hdrPcirOffAt : ℕ := 0x18

/-- Offsets in `rimg_pcir_t`. -/
def pcirSigAt : ℕ := 0
def pcirPciIdAt : ℕ := 4
def pcirDevIdsOffAt : ℕ := 8
def pcirPcirSzAt : ℕ := 10
def pcirPcirRevAt : ℕ := 12
def pcirClassIfAt : ℕ := 13
def pcirRimgSzHkibAt : ℕ := 16
def pcirTypeAt : ℕ := 20
def pcirFlagsAt : ℕ := 21
def pcirMaxRtSzHkibAt : ℕ := 22

/-- `PCIR_MIN_SZ`. -/
def pcirMinSz : ℕ := pcirMaxRtSzHkibAt

/-- "PCIR" as `PCIR_SIG_PCIR`. -/
def pcirSigPcir : ℕ := 0x52494350

/-- `PCIR_TYP_PCAT` and `PCIR_FLAGS_LAST_IMAGE`. -/
def pcirTypPcat : ℕ := 0x00
def pcirFlagsLastImage : ℕ := 0x80

/-! ## Finding an image -/

/-- `rimg_find_pcir`. -/
def rimgFindPcir (rimg : List UInt8) (romSz : ℕ) : Exec (Option ℕ) :=
  if romSz < hkibyte then .ok none
  else do
    let sig ← numberIn rimg hdrSigAt 2
    if sig ≠ 0xaa55 then return none
    else do
      let pcir ← numberIn rimg hdrPcirOffAt 2
      if pcir = 0 then return none
      else if Word.sub 64 romSz pcirMinSz < pcir then return none
      else do
        let sig ← numberIn rimg (pcir + pcirSigAt) 4
        if sig ≠ pcirSigPcir then return none
        else do
          let pcirSz ← numberIn rimg (pcir + pcirPcirSzAt) 2
          if pcirSz < pcirMinSz ∨ Word.sub 64 romSz pcir < pcirSz then return none
          else do
            let rimgSzHkib ← numberIn rimg (pcir + pcirRimgSzHkibAt) 2
            if rimgSzHkib = 0 ∨ romSz / hkibyte < rimgSzHkib then return none
            else
              let rimgSz := rimgSzHkib * hkibyte
              if Word.sub 64 rimgSz pcirMinSz < pcir ∨ Word.sub 64 rimgSz pcir < pcirSz then return none
              else do
                let bytes ← bytesIn rimg 0 rimgSz
                if computeCksum bytes ≠ 0 then return none
                else return some pcir

/-! ## What is read of a PCI data structure

Each reader is given the bytes from the start of the structure on.
-/

/-- The fields that `get_rimg` reads. -/
def getRimgPcir (pcir : List UInt8) : Exec RimgPcir := do
  let pcirRev ← numberIn pcir pcirPcirRevAt 1
  if 3 ≤ pcirRev then do
    let maxRtSzHkib ← numberIn pcir pcirMaxRtSzHkibAt 2
    return ⟨pcirRev, maxRtSzHkib⟩
  else return ⟨pcirRev, 0⟩

/-- The fields that `fv_cache_rimg` reads: `class_if` as one number, and `pci_id`. -/
def fvCacheRimgPcir (pcir : List UInt8) : Exec (ℕ × ℕ) := do
  let high ← numberIn pcir (pcirClassIfAt + 2) 1
  let middle ← numberIn pcir (pcirClassIfAt + 1) 1
  let low ← numberIn pcir pcirClassIfAt 1
  let pciId ← numberIn pcir pcirPciIdAt 4
  return (high <<< 24 ||| middle <<< 16 ||| low <<< 8, pciId)

/-- The fields that `fv_gather_rimgs_for_one_sxn` reads of the structure at hand. -/
structure GatheredPcir where
  rimgSzHkib : ℕ
  type : ℕ
  pcirRev : ℕ
  flags : ℕ
deriving DecidableEq, Repr

def fvGatherPcir (pcir : List UInt8) : Exec GatheredPcir := do
  let rimgSzHkib ← numberIn pcir pcirRimgSzHkibAt 2
  let type ← numberIn pcir pcirTypeAt 1
  let pcirRev ← numberIn pcir pcirPcirRevAt 1
  let flags ← numberIn pcir pcirFlagsAt 1
  return ⟨rimgSzHkib, type, pcirRev, flags⟩

/-- The fields that `rimg_pcir_find_dev_id_list` reads: `dev_ids_off`, or zero for an early revision. -/
def findDevIdListPcir (pcir : List UInt8) : Exec ℕ := do
  let pcirRev ← numberIn pcir pcirPcirRevAt 1
  if pcirRev < 3 then return 0
  else numberIn pcir pcirDevIdsOffAt 2

/-! ## Placing an image -/

/-- Memory, base memory and the boot parameter that `get_rimg` fills in. -/
structure Placement where
  mem : Mem
  bmem : Bmem
  bd : BdatPciDev

/-- `memcpy`, which reads all before it writes. -/
def memcpy (mem : Mem) (dest src n : ℕ) : Mem := mem.write dest (mem.read src n)

namespace Placement

/-- `get_rimg`, for an image at the address `rimg` and its PCI data structure, if it has any. -/
def getRimg (s : Placement) (rimg sz : ℕ) (pcir : Option ℕ) : Exec Placement :=
  let bd := { s.bd with rimgSz := sz }
  let copyWhole : Exec Placement := do
    let (rimgCopy, bmem) ← bmemAlloc s.bmem sz (2 * kibyte)
    return ⟨memcpy s.mem rimgCopy rimg sz, bmem, { bd with rimgSeg := addrToRmSeg rimgCopy, rimgRtSeg := addrToRmSeg rimgCopy }⟩
  match pcir with
  | none => .ok { s with bd := { bd with rimgSeg := addrToRmSeg rimg, rimgRtSeg := addrToRmSeg rimg } }
  | some pcir =>
    if 3 ≤ s.mem.readLE (pcir + pcirPcirRevAt) 1 then
      let rtSz := s.mem.readLE (pcir + pcirMaxRtSzHkibAt) 2 * hkibyte
      if rtSz ≠ sz then do
        let s ←
          if rimg ≤ Word.sub 64 bmemMaxAddr sz ∧ rimg % hkibyte = 0 then
            pure { s with bd := { bd with rimgSeg := addrToRmSeg rimg, rimgSz := sz } }
          else do
            let (rimgCopy, bmem) ← bmemAllocBoottime s.bmem sz hkibyte
            pure ⟨memcpy s.mem rimgCopy rimg sz, bmem, { bd with rimgSeg := addrToRmSeg rimgCopy }⟩
        let (rimgRt, bmem) ← bmemAlloc s.bmem rtSz hkibyte
        return { s with bmem := bmem, bd := { s.bd with rimgRtSeg := addrToRmSeg rimgRt } }
      else copyWhole
    else copyWhole

end Placement

end Biefircate
