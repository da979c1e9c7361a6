import Biefircate.Lib.Demand
import Biefircate.Model.Stage1.Rimg

/-! # What `rimg_find_pcir` accepts

Every read is of bytes that a check before it has shown to be in the buffer, and what is accepted depends on the
bytes of the image alone.
-/

namespace Biefircate

section

variable (rimg : List UInt8) (pcir : ℕ)

/-- The size of the PCI data structure as it says. -/
def declaredSz : ℕ := number rimg (pcir + pcirPcirSzAt) 2

/-- The size of the image. -/
def imageSz : ℕ := number rimg (pcir + pcirRimgSzHkibAt) 2 * hkibyte

/-- The buffer begins with an option ROM image, whose PCI data structure is at `pcir`. -/
structure IsImage : Prop where
  long : hkibyte ≤ rimg.length
  sig : slice rimg hdrSigAt 2 = [0x55, 0xaa]
  place : number rimg hdrPcirOffAt 2 = pcir
  nonzero : pcir ≠ 0
  pcirSig : slice rimg pcir 4 = [0x50, 0x43, 0x49, 0x52]
  declared : pcirMinSz ≤ declaredSz rimg pcir
  nonempty : 0 < imageSz rimg pcir
  fits : imageSz rimg pcir ≤ rimg.length
  leastInside : pcir + pcirMinSz ≤ imageSz rimg pcir
  declaredInside : pcir + declaredSz rimg pcir ≤ imageSz rimg pcir
  sum : SumsToZero (rimg.take (imageSz rimg pcir))

end

section

variable {rimg : List UInt8} {pcir : ℕ}

theorem rimgFindPcir_finds (typed : rimg.length < 2 ^ 64) : Finds (IsImage rimg) (rimgFindPcir rimg rimg.length) := by
  unfold rimgFindPcir
  refine .check (fun short _ image => short.not_ge image.long) fun long => ?_
  simp only [hkibyte, kibyte, not_lt] at long
  have sigIff := number_eq_iff [0x55, 0xaa] (show hdrSigAt + 2 ≤ rimg.length by simp only [hdrSigAt]; omega)
  rw [numberIn_of_le (by simp only [hdrSigAt]; omega), ok_bind]
  refine .check (fun bad _ image => bad (sigIff.mpr image.sig)) fun sig => ?_
  rw [numberIn_of_le (by simp only [hdrPcirOffAt]; omega), ok_bind]
  obtain ⟨pcir, place⟩ : ∃ pcir, number rimg hdrPcirOffAt 2 = pcir := ⟨_, rfl⟩
  have only : ∀ {a}, IsImage rimg a → a = pcir := fun image => image.place.symm.trans place
  rw [place]
  refine .check (fun zero a image => image.nonzero (only image ▸ zero)) fun nonzero => ?_
  rw [Word.sub_of_le (by simp only [pcirMinSz, pcirMaxRtSzHkibAt]; omega) typed]
  have least : ∀ a, IsImage rimg a → pcir + pcirMinSz ≤ rimg.length := fun a image =>
    only image ▸ image.leastInside.trans image.fits
  refine .check (fun far a image => absurd (least a image) (by omega)) fun near => ?_
  simp only [pcirMinSz, pcirMaxRtSzHkibAt, not_lt] at near
  have pcirSigIff := number_eq_iff [0x50, 0x43, 0x49, 0x52] (show pcir + 4 ≤ rimg.length by omega)
  rw [numberIn_of_le (by simp only [pcirSigAt]; omega), ok_bind]
  refine .check (fun bad a image => bad (pcirSigIff.mpr (only image ▸ image.pcirSig))) fun pcirSig => ?_
  rw [numberIn_of_le (by simp only [pcirPcirSzAt]; omega), ok_bind, Word.sub_of_le (by omega) typed, ← declaredSz]
  have declaredFits : ∀ a, IsImage rimg a → pcirMinSz ≤ declaredSz rimg pcir ∧ pcir + declaredSz rimg pcir ≤ rimg.length :=
    fun a image => only image ▸ ⟨image.declared, image.declaredInside.trans image.fits⟩
  refine .check (fun bad a image => absurd (declaredFits a image) (by omega)) fun declared => ?_
  rw [numberIn_of_le (by simp only [pcirRimgSzHkibAt]; omega), ok_bind]
  have units : imageSz rimg pcir = number rimg (pcir + pcirRimgSzHkibAt) 2 * 512 := rfl
  have sizeFits : ∀ a, IsImage rimg a → 0 < imageSz rimg pcir ∧ imageSz rimg pcir ≤ rimg.length :=
    fun a image => only image ▸ ⟨image.nonempty, image.fits⟩
  refine .check (fun bad a image => absurd (sizeFits a image) (by simp only [hkibyte, kibyte] at bad; omega)) fun sized => ?_
  simp only [pcirMinSz, pcirMaxRtSzHkibAt, not_or, not_lt] at declared
  have fits : 512 ≤ imageSz rimg pcir ∧ imageSz rimg pcir ≤ rimg.length := by
    simp only [hkibyte, kibyte] at sized
    omega
  rw [← imageSz]
  dsimp only
  rw [Word.sub_of_le (by simp only [pcirMinSz, pcirMaxRtSzHkibAt]; omega) (by omega)]
  have inside : ∀ a, IsImage rimg a → pcir + 22 ≤ imageSz rimg pcir ∧ pcir + declaredSz rimg pcir ≤ imageSz rimg pcir :=
    fun a image => only image ▸ ⟨image.leastInside, image.declaredInside⟩
  rw [show pcirMinSz = 22 from rfl]
  have test : imageSz rimg pcir - 22 < pcir ∨ Word.sub 64 (imageSz rimg pcir) pcir < declaredSz rimg pcir ↔
      ¬ (pcir + 22 ≤ imageSz rimg pcir ∧ pcir + declaredSz rimg pcir ≤ imageSz rimg pcir) := by
    by_cases far : imageSz rimg pcir - 22 < pcir
    · exact iff_of_true (.inl far) (by omega)
    · rw [Word.sub_of_le (by omega) (by omega)]
      omega
  refine .check (fun bad a image => test.mp bad (inside a image)) fun within => ?_
  obtain ⟨leastInside, declaredInside⟩ := not_not.mp (mt test.mpr within)
  rw [bytesIn_of_le (by omega), ok_bind, slice_zero]
  refine .check (fun bad a image => bad ((computeCksum_eq_zero_iff _).mpr (only image ▸ image.sum))) fun sum => ?_
  refine .some fun a => ⟨fun image => (only image).symm, ?_⟩
  rintro rfl
  exact ⟨long, sigIff.mp (not_not.mp sig), place, nonzero, pcirSigIff.mp (not_not.mp pcirSig), declared.1, by omega,
    fits.2, leastInside, declaredInside, (computeCksum_eq_zero_iff _).mp (not_not.mp sum)⟩

/-- A multiple of 512 bytes that holds the least PCI data structure has at least 512. -/
theorem IsImage.long_image (image : IsImage rimg pcir) : hkibyte ≤ imageSz rimg pcir := by
  have units : imageSz rimg pcir = number rimg (pcir + pcirRimgSzHkibAt) 2 * hkibyte := rfl
  exact Nat.le_of_dvd image.nonempty ⟨_, units.trans (Nat.mul_comm ..)⟩

/-! ## Buffers that begin alike -/

section

variable {short long : List UInt8}

theorem declaredSz_longer (before : short <+: long) (inside : pcir + pcirMinSz ≤ short.length) :
    declaredSz long pcir = declaredSz short pcir :=
  number_longer before (by simp only [pcirMinSz, pcirMaxRtSzHkibAt, pcirPcirSzAt] at inside ⊢; omega)

theorem imageSz_longer (before : short <+: long) (inside : pcir + pcirMinSz ≤ short.length) :
    imageSz long pcir = imageSz short pcir := by
  rw [imageSz, imageSz, number_longer before (by simp only [pcirMinSz, pcirMaxRtSzHkibAt, pcirRimgSzHkibAt] at inside ⊢; omega)]

/-- Whether a buffer begins with an image is decided by the bytes of the image. -/
theorem isImage_longer (before : short <+: long) (least : pcir + pcirMinSz ≤ short.length) (header : hkibyte ≤ short.length)
    (enough : imageSz short pcir ≤ short.length) : IsImage long pcir ↔ IsImage short pcir := by
  have declaredSame := declaredSz_longer before least
  have sizeSame := imageSz_longer before least
  have sigSame : slice long hdrSigAt 2 = slice short hdrSigAt 2 :=
    slice_longer before (by simp only [hkibyte, kibyte, hdrSigAt] at header ⊢; omega)
  have placeSame : number long hdrPcirOffAt 2 = number short hdrPcirOffAt 2 :=
    number_longer before (by simp only [hkibyte, kibyte, hdrPcirOffAt] at header ⊢; omega)
  have pcirSigSame : slice long pcir 4 = slice short pcir 4 :=
    slice_longer before (by simp only [pcirMinSz, pcirMaxRtSzHkibAt] at least; omega)
  have bytesSame : long.take (imageSz short pcir) = short.take (imageSz short pcir) := by
    rw [← slice_zero, ← slice_zero]
    exact slice_longer before (by rwa [Nat.zero_add])
  have longer := before.length_le
  constructor
  · rintro ⟨-, sig, place, nonzero, pcirSig, declared, nonempty, -, leastInside, declaredInside, sum⟩
    rw [sizeSame] at nonempty leastInside declaredInside sum
    rw [declaredSame] at declared declaredInside
    exact ⟨header, sigSame ▸ sig, placeSame ▸ place, nonzero, pcirSigSame ▸ pcirSig, declared, nonempty, enough,
      leastInside, declaredInside, bytesSame ▸ sum⟩
  · rintro ⟨-, sig, place, nonzero, pcirSig, declared, nonempty, fits, leastInside, declaredInside, sum⟩
    rw [← sizeSame] at nonempty fits leastInside declaredInside
    rw [← declaredSame] at declared declaredInside
    rw [← bytesSame, ← sizeSame] at sum
    exact ⟨header.trans longer, sigSame.trans sig, placeSame.trans place, nonzero, pcirSigSame.trans pcirSig, declared, nonempty,
      fits.trans longer, leastInside, declaredInside, sum⟩

/-- An image is one on its own, with the same size. -/
theorem IsImage.alone (image : IsImage rimg pcir) :
    IsImage (rimg.take (imageSz rimg pcir)) pcir ∧
      imageSz (rimg.take (imageSz rimg pcir)) pcir = imageSz rimg pcir := by
  have before : rimg.take (imageSz rimg pcir) <+: rimg := List.take_prefix ..
  have length : (rimg.take (imageSz rimg pcir)).length = imageSz rimg pcir := List.length_take_of_le image.fits
  have size := imageSz_longer before (by rw [length]; exact image.leastInside)
  refine ⟨(isImage_longer before ?_ ?_ ?_).mp image, size.symm⟩
  · rw [length]
    exact image.leastInside
  · rw [length]
    exact image.long_image
  · rw [length, ← size]

/-- Bytes after the image do not matter. -/
theorem IsImage.extend (image : IsImage short pcir) (before : short <+: long) : IsImage long pcir :=
  (isImage_longer before (image.leastInside.trans image.fits) image.long image.fits).mpr image

end

end

end Biefircate
