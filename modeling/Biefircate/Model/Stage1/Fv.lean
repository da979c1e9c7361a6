import Biefircate.Model.Stage1.Rimg

/-! # Option ROM images in firmware volumes

Stage 1 goes through the sections of the firmware volumes before it looks at the PCI devices. The images that it finds
in a section it copies to memory of the firmware's, and enters into a hash table.
-/

namespace Biefircate

/-- An image in a section: where it is, its size, and where its PCI data structure is. -/
structure FvImage where
  rimg : ℕ
  sz : ℕ
  pcir : ℕ
deriving DecidableEq, Repr

/-! ## Going through a section -/

/-- The variables of `fv_gather_rimgs_for_one_sxn`. Pointers are offsets in the section. -/
structure FvGather where
  romLeft : ℕ
  romLeftSz : ℕ
  foundRimg : Option ℕ
  foundSz : ℕ
  foundPcir : Option ℕ
deriving DecidableEq, Repr

namespace FvGather

variable (rom : List UInt8)

/-- `found_pcir->pcir_rev`. -/
def foundPcirRev (g : FvGather) : Exec ℕ :=
  match g.foundPcir with
  | none => .error .outside
  | some pcir => numberIn (rom.drop pcir) pcirPcirRevAt 1

/-- The variables once an image is looked at, which may become the one to cache. -/
def consider (g : FvGather) (thisSz pcir : ℕ) (fields : GatheredPcir) : Exec FvGather :=
  if fields.type = pcirTypPcat then
    let found : FvGather := { g with foundRimg := some g.romLeft, foundSz := thisSz, foundPcir := some pcir }
    match g.foundRimg with
    | none => .ok found
    | some _ => do
      let foundRev ← g.foundPcirRev rom
      return if foundRev < 3 ∧ 3 ≤ fields.pcirRev then found else g
  else .ok g

/-- Whether there is something to cache after an image with these flags, and the variables then. -/
def finish (g : FvGather) (flags : ℕ) : Exec (Option FvImage × FvGather) :=
  if flags &&& pcirFlagsLastImage ≠ 0 then
    match g.foundRimg, g.foundPcir with
    | none, _ => .ok (none, g)
    | some rimg, some pcir => .ok (some ⟨rimg, g.foundSz, pcir⟩, { g with foundRimg := none })
    | some _, none => .error .outside
  else .ok (none, g)

end FvGather

section

variable {σ : Type} (rom : List UInt8) (cache : σ → FvImage → Exec σ)

/-- The loop of `fv_gather_rimgs_for_one_sxn`, for at most `rounds` rounds. -/
def fvGatherLoop : ℕ → FvGather → σ → Exec σ
  | 0, _, _ => .error .stuck
  | rounds + 1, g, s => do
    let found ← rimgFindPcir (rom.drop g.romLeft) g.romLeftSz
    match found with
    | none => return s
    | some off => do
      let pcir := g.romLeft + off
      let fields ← fvGatherPcir (rom.drop pcir)
      let thisSz := fields.rimgSzHkib * hkibyte % 2 ^ 32
      let g ← g.consider rom thisSz pcir fields
      let (call, g) ← g.finish fields.flags
      let s ← match call with
        | none => pure s
        | some image => cache s image
      fvGatherLoop rounds { g with romLeft := g.romLeft + thisSz, romLeftSz := Word.sub 64 g.romLeftSz thisSz } s

/-- `fv_gather_rimgs_for_one_sxn`, with what `fv_cache_rimg` does to the cache as a parameter. -/
def fvGatherRimgsForOneSxn (rounds romSz : ℕ) (s : σ) : Exec σ :=
  fvGatherLoop rom cache rounds ⟨0, romSz, none, 0, none⟩ s

end

/-! ## The cache -/

/-- `HASH_BUCKETS`. -/
def hashBuckets : ℕ := 1381

/-- `ht_node_t`. A pointer to a copy is its place among the copies made. -/
structure HtNode where
  pciId : ℕ
  classIf : ℕ
  rimgCopy : ℕ
  rimgSz : ℕ
deriving DecidableEq, Repr

/-- The chains of `ht`, the copies of images, and the number of calls of `AllocatePool` so far. -/
structure FvCache where
  ht : ℕ → List HtNode
  copies : List (List UInt8)
  allocs : ℕ

def FvCache.empty : FvCache := ⟨fun _ => [], [], 0⟩

/-- `pci_id_vendor` and `pci_make_id`. -/
def pciIdVendor (pciId : ℕ) : ℕ := pciId % 2 ^ 16
def pciMakeId (vendor dev : ℕ) : ℕ := dev <<< 16 ||| vendor

/-- `fv_hash_bucket`. -/
def fvHashBucket (pciId classIf : ℕ) : ℕ := (pciId <<< 32 ||| classIf) % hashBuckets

section

variable (granted : ℕ → Bool)

/-- `AllocatePool`, whose success is the firmware's decision. -/
def FvCache.allocatePool (c : FvCache) (msg : String) : Exec FvCache :=
  if granted c.allocs then .ok { c with allocs := c.allocs + 1 } else .error (.error msg)

/-- `fv_add_hash_entry`. -/
def fvAddHashEntry (c : FvCache) (pciId classIf rimgCopy sz : ℕ) : Exec FvCache := do
  let bucket := fvHashBucket pciId classIf
  let c ← c.allocatePool granted "no mem. to cache option ROM image!"
  return { c with ht := Function.update c.ht bucket (⟨pciId, classIf, rimgCopy, sz⟩ :: c.ht bucket) }

/-- The loop of `rimg_pcir_find_dev_id_list`: whether the list from `p` on ends before the image does. -/
def devIdsEnd (rimg : List UInt8) (rimgEnd : ℕ) : ℕ → ℕ → Exec Bool
  | 0, _ => .error .stuck
  | rounds + 1, p =>
    if rimgEnd ≤ p ∨ rimgEnd ≤ p + 1 then .ok false
    else do
      let low ← numberIn rimg p 1
      let high ← numberIn rimg (p + 1) 1
      if low ≠ 0 ∨ high ≠ 0 then devIdsEnd rimg rimgEnd rounds (p + 2) else return true

/-- `rimg_pcir_find_dev_id_list`. -/
def rimgPcirFindDevIdList (rimg : List UInt8) (pcir rimgEnd : ℕ) : Exec (Option ℕ) := do
  let devIdsOff ← findDevIdListPcir (rimg.drop pcir)
  if devIdsOff = 0 then return none
  else do
    let found ← devIdsEnd rimg rimgEnd (rimgEnd + 1) (pcir + devIdsOff)
    return if found then some (pcir + devIdsOff) else none

/-- The loop of `fv_cache_rimg` over the device ids. -/
def addDevIds (rimg : List UInt8) (pciId0 classIf rimgCopy sz : ℕ) : ℕ → ℕ → FvCache → Exec FvCache
  | 0, _, _ => .error .stuck
  | rounds + 1, devIds, c => do
    let dev ← numberIn rimg devIds 2
    if dev = 0 then return c
    else do
      let pciId := pciMakeId (pciIdVendor pciId0) dev
      let c ← if pciId ≠ pciId0 then fvAddHashEntry granted c pciId classIf rimgCopy sz else pure c
      addDevIds rimg pciId0 classIf rimgCopy sz rounds (devIds + 2) c

/-- `fv_cache_rimg`. -/
def fvCacheRimg (rimg : List UInt8) (sz pcir : ℕ) (c : FvCache) : Exec FvCache := do
  let (classIf, pciId0) ← fvCacheRimgPcir (rimg.drop pcir)
  let c ← c.allocatePool granted "no mem. to cache ROM img.!"
  let bytes ← bytesIn rimg 0 sz
  let rimgCopy := c.copies.length
  let c := { c with copies := c.copies ++ [bytes] }
  let devIds ← rimgPcirFindDevIdList rimg pcir sz
  let c ← fvAddHashEntry granted c pciId0 classIf rimgCopy sz
  match devIds with
  | none => return c
  | some devIds => addDevIds granted rimg pciId0 classIf rimgCopy sz (sz + 1) devIds c

end

/-- `fv_find_rimg`. -/
def fvFindRimg (c : FvCache) (pciId classIf : ℕ) : Option (ℕ × ℕ) :=
  ((c.ht (fvHashBucket pciId classIf)).find? fun node => node.pciId = pciId ∧ node.classIf = classIf).map fun node =>
    (node.rimgCopy, node.rimgSz)

end Biefircate
