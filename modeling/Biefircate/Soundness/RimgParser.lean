import Biefircate.Proofs.Stage1.Rimg

/-! # Finding and revalidating an option ROM image

`rimg_find_pcir` stays inside its buffer, accepts exactly the buffers that begin with an image, and accepts an image
on its own or with anything after it.
-/

namespace Biefircate

section

variable {rimg : List UInt8} {pcir : ℕ}

theorem rimgFindPcir_eq_some_iff (typed : rimg.length < 2 ^ 64) :
    rimgFindPcir rimg rimg.length = .ok (some pcir) ↔ IsImage rimg pcir := by
  obtain ⟨found, ran, exactly_⟩ := rimgFindPcir_finds typed
  rw [ran, Except.ok.injEq]
  exact exactly_ pcir

/-- What `rimg_find_pcir` returns for a buffer of its own size, and for the image alone or with other bytes after it. -/
theorem rimgFindPcir_exact (typed : rimg.length < 2 ^ 64) :
    (∃ found, rimgFindPcir rimg rimg.length = .ok found ∧ ∀ pcir, found = some pcir ↔ IsImage rimg pcir) ∧
      ∀ pcir, rimgFindPcir rimg rimg.length = .ok (some pcir) →
        rimgFindPcir (rimg.take (imageSz rimg pcir)) (imageSz rimg pcir) = .ok (some pcir) ∧
          ∀ ext, rimg.take (imageSz rimg pcir) <+: ext → ext.length < 2 ^ 64 →
            rimgFindPcir ext ext.length = .ok (some pcir) := by
  refine ⟨rimgFindPcir_finds typed, fun pcir accepted => ?_⟩
  have image := (rimgFindPcir_eq_some_iff typed).mp accepted
  have length : (rimg.take (imageSz rimg pcir)).length = imageSz rimg pcir := List.length_take_of_le image.fits
  have alone := image.alone.1
  constructor
  · have again := (rimgFindPcir_eq_some_iff (by rw [length]; exact image.fits.trans_lt typed)).mpr alone
    rwa [length] at again
  · intro ext before extTyped
    exact (rimgFindPcir_eq_some_iff extTyped).mpr (alone.extend before)

/-- An image of 512 bytes with the given PCI data structure. -/
def smallRimg (pcir : List UInt8) : List UInt8 :=
  let bytes := overwrite (overwrite (overwrite (List.replicate 512 0) hdrSigAt [0x55, 0xaa, 1]) hdrPcirOffAt [0x1c, 0]) 0x1c pcir
  overwrite bytes 511 [computeCksum bytes]

/-- "PCIR", the id 8086:100e, no device list, 24 bytes, revision 3, class 02 00 00, 512 bytes, PC-AT, the last image, and
512 bytes at run time. -/
def smallPcir : List UInt8 :=
  [0x50, 0x43, 0x49, 0x52, 0x86, 0x80, 0x0e, 0x10, 0, 0, 24, 0, 3, 0, 0, 2, 1, 0, 0, 0, 0, 0x80, 1, 0]

/-- An image with three bytes after it. -/
def smallRom : List UInt8 := smallRimg smallPcir ++ [1, 2, 3]

theorem rimgFindPcir_exact_sample : rimgFindPcir smallRom smallRom.length = .ok (some 0x1c) ∧ imageSz smallRom 0x1c = 512 ∧
    rimgFindPcir (smallRom.take (imageSz smallRom 0x1c)) (imageSz smallRom 0x1c) = .ok (some 0x1c) := by
  have accepted : rimgFindPcir smallRom smallRom.length = .ok (some 0x1c) := by decide +kernel
  have typed : smallRom.length < 2 ^ 64 := by decide +kernel
  exact ⟨accepted, by decide +kernel, ((rimgFindPcir_exact typed).2 0x1c accepted).1⟩

end

end Biefircate
