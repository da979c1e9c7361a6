import Biefircate.Proofs.Stage1.HandOver
import Biefircate.Soundness.BaseMemory
import Biefircate.Soundness.RimgParser

/-! # Where `get_rimg` leaves an image

An image is left where it is or copied to base memory, and real mode code finds it at a segment. The test for leaving
it where it is subtracts its size from 1 MiB, which a larger image wraps around.
-/

namespace Biefircate

/-- The boot parameter says where the bytes of the image are, below 1 MiB. -/
structure ImagePlaced (mem : Mem) (rimg sz : ℕ) (s : Placement) : Prop where
  size : s.bd.rimgSz = sz
  below : s.bd.rimgSeg * paraSize + s.bd.rimgSz ≤ bmemMaxAddr
  bytes : s.mem.read (s.bd.rimgSeg * paraSize) s.bd.rimgSz = mem.read rimg sz

/-- A larger image than base memory is left where it is: it has another size at run time, it is aligned, and there is
room for its run time part. -/
structure Stranded (s : Placement) (rimg sz pcir : ℕ) : Prop where
  large : bmemMaxAddr < sz
  late : 3 ≤ s.mem.readLE (pcir + pcirPcirRevAt) 1
  other : s.mem.readLE (pcir + pcirMaxRtSzHkibAt) 2 * hkibyte ≠ sz
  aligned : hkibyte ∣ rimg
  room : s.bmem.HasRunTimeRoom (s.mem.readLE (pcir + pcirMaxRtSzHkibAt) 2 * hkibyte) hkibyte

section

variable {s out : Placement} {mem : Mem} {rimg sz pcir copy : ℕ}

/-- A copy in base memory is placed. -/
theorem placed_of_copied (nonempty : 0 < sz) (aligned : paraSize ∣ copy) (below : copy + sz ≤ bmemMaxAddr)
    (size : out.bd.rimgSz = sz) (seg : out.bd.rimgSeg = addrToRmSeg copy) (copied : out.mem = memcpy mem copy rimg sz) :
    ImagePlaced mem rimg sz out := by
  have place := addrToRmSeg_mul aligned (show copy < bmemMaxAddr by omega)
  have readBack := Mem.read_write mem copy (mem.read rimg sz)
  rw [Mem.read_length] at readBack
  refine ⟨size, ?_, ?_⟩
  · rwa [seg, place, size]
  · rw [seg, place, size, copied]
    exact readBack

/-- The image stays where it is, and has a run time part. -/
structure LeftInPlace (s : Placement) (rimg sz pcir : ℕ) : Prop where
  late : 3 ≤ s.mem.readLE (pcir + pcirPcirRevAt) 1
  other : s.mem.readLE (pcir + pcirMaxRtSzHkibAt) 2 * hkibyte ≠ sz
  fits : rimg ≤ Word.sub 64 bmemMaxAddr sz
  aligned : rimg % hkibyte = 0

/-- The image is copied, or is left in place and its run time part is allocated. -/
theorem getRimg_cases (blks : ∀ b ∈ s.bmem.blk, b.Ok) (ran : s.getRimg rimg sz (some pcir) = .ok out) :
    out.bd.rimgSz = sz ∧ (LeftInPlace s rimg sz pcir ∧ out.mem = s.mem ∧ out.bd.rimgSeg = addrToRmSeg rimg ∧
        s.bmem.HasRunTimeRoom (s.mem.readLE (pcir + pcirMaxRtSzHkibAt) 2 * hkibyte) hkibyte ∨
      ∃ copy, paraSize ∣ copy ∧ copy + sz ≤ bmemMaxAddr ∧ out.bd.rimgSeg = addrToRmSeg copy ∧
        out.mem = memcpy s.mem copy rimg sz) := by
  have whole : ∀ {out}, (do
      let placed ← bmemAlloc s.bmem sz (2 * kibyte)
      return (⟨memcpy s.mem placed.1 rimg sz, placed.2, { s.bd with
        rimgSz := sz, rimgSeg := addrToRmSeg placed.1, rimgRtSeg := addrToRmSeg placed.1 }⟩ : Placement)) = Except.ok out →
      out.bd.rimgSz = sz ∧ ∃ copy, paraSize ∣ copy ∧ copy + sz ≤ bmemMaxAddr ∧ out.bd.rimgSeg = addrToRmSeg copy ∧
        out.mem = memcpy s.mem copy rimg sz := by
    intro out ran
    obtain ⟨⟨copy, bmem⟩, allocated, done⟩ := bind_eq_ok.mp ran
    cases done
    obtain ⟨below, aligned⟩ := bmemAlloc_region (k := 11) blks rfl allocated
    exact ⟨rfl, copy, dvd_trans (by decide) aligned, below, rfl, rfl⟩
  unfold Placement.getRimg at ran
  dsimp only at ran
  split at ran
  · next late =>
    split at ran
    · next other =>
      split at ran
      · next stays =>
        rw [pure_bind] at ran
        obtain ⟨⟨rt, bmem⟩, allocated, done⟩ := bind_eq_ok.mp ran
        cases done
        exact ⟨rfl, .inl ⟨⟨late, other, stays.1, stays.2⟩, rfl, rfl, (bmemAlloc_isOk ..).mp ⟨_, allocated⟩⟩⟩
      · obtain ⟨⟨copy, after⟩, boottime, ran⟩ := bind_eq_ok.mp ran
        rw [pure_bind] at ran
        obtain ⟨⟨rt, bmem⟩, -, done⟩ := bind_eq_ok.mp ran
        cases done
        obtain ⟨below, aligned⟩ := bmemAllocBoottime_region (k := 9) blks rfl (by decide) boottime
        exact ⟨rfl, .inr ⟨copy, dvd_trans (by decide) aligned, below, rfl, rfl⟩⟩
    · obtain ⟨size, copied⟩ := whole ran
      exact ⟨size, .inr copied⟩
  · obtain ⟨size, copied⟩ := whole ran
    exact ⟨size, .inr copied⟩

/-- The run time part of an image that is left in place only needs room. -/
theorem getRimg_of_leftInPlace (stays : LeftInPlace s rimg sz pcir)
    (room : s.bmem.HasRunTimeRoom (s.mem.readLE (pcir + pcirMaxRtSzHkibAt) 2 * hkibyte) hkibyte) :
    ∃ out, s.getRimg rimg sz (some pcir) = .ok out ∧ out.bd.rimgSz = sz := by
  obtain ⟨⟨rt, bmem⟩, allocated⟩ := (bmemAlloc_isOk ..).mpr room
  unfold Placement.getRimg
  dsimp only
  rw [if_pos stays.late, if_pos stays.other, if_pos ⟨stays.fits, stays.aligned⟩, pure_bind]
  dsimp only
  rw [allocated]
  exact ⟨_, rfl, rfl⟩

/-- `get_rimg` places an image that `rimg_find_pcir` accepted, whenever it returns, exactly when the image is not a
stranded one. -/
theorem getRimg_placed_iff {granted : ℕ → Bool} {romSz off : ℕ} (inv : s.bmem.Inv granted) (typed : romSz < 2 ^ 64)
    (inMemory : rimg + romSz ≤ 2 ^ 64) (accepted : rimgFindPcir (s.mem.read rimg romSz) romSz = .ok (some off))
    (size : sz = imageSz (s.mem.read rimg romSz) off) :
    (∀ out, s.getRimg rimg sz (some (rimg + off)) = .ok out → ImagePlaced s.mem rimg sz out) ↔
      ¬ Stranded s rimg sz (rimg + off) := by
  have length : (s.mem.read rimg romSz).length = romSz := Mem.read_length ..
  have image : IsImage (s.mem.read rimg romSz) off := (rimgFindPcir_eq_some_iff (by rwa [length])).mp (by rwa [length])
  have nonempty : 0 < sz := size ▸ image.nonempty
  have within := image.fits
  rw [length, ← size] at within
  constructor
  · intro placed stranded
    have wraps : rimg ≤ Word.sub 64 bmemMaxAddr sz := by
      have large := stranded.large
      simp only [Word.sub, bmemMaxAddr] at large ⊢
      omega
    obtain ⟨out, ran, sameSize⟩ := getRimg_of_leftInPlace
      ⟨stranded.late, stranded.other, wraps, Nat.mod_eq_zero_of_dvd stranded.aligned⟩ stranded.room
    have below := (placed out ran).below
    have large := stranded.large
    omega
  · intro free out ran
    obtain ⟨sameSize, ⟨stays, sameMem, seg, room⟩ | ⟨copy, aligned, below, seg, copied⟩⟩ := getRimg_cases inv.blks ran
    · have small : sz ≤ bmemMaxAddr := not_lt.mp fun large =>
        free ⟨large, stays.late, stays.other, Nat.dvd_of_mod_eq_zero stays.aligned, room⟩
      have fits := stays.fits
      rw [Word.sub_of_le small (by decide)] at fits
      have place := addrToRmSeg_mul (dvd_trans (by decide) (Nat.dvd_of_mod_eq_zero stays.aligned)) (show rimg < bmemMaxAddr by omega)
      refine ⟨sameSize, ?_, ?_⟩
      · rw [seg, place, sameSize]
        omega
      · rw [seg, place, sameSize, sameMem]
    · exact placed_of_copied nonempty aligned below sameSize seg copied

/-- In base memory and the boot parameter, placing an image does what `getRimg` says. -/
theorem getRimg_refines (s : Placement) (rimg sz : ℕ) (pcir : Option ℕ) :
    (fun out : Placement => (out.bmem, out.bd)) <$> s.getRimg rimg sz pcir =
      getRimg s.bmem s.bd ⟨rimg, sz, pcir.map fun pcir =>
        ⟨s.mem.readLE (pcir + pcirPcirRevAt) 1, s.mem.readLE (pcir + pcirMaxRtSzHkibAt) 2⟩⟩ := by
  cases pcir with
  | none => rfl
  | some pcir =>
    have whole : (fun out : Placement => (out.bmem, out.bd)) <$> (do
        let placed ← bmemAlloc s.bmem sz (2 * kibyte)
        return (⟨memcpy s.mem placed.1 rimg sz, placed.2, { s.bd with
          rimgSz := sz, rimgSeg := addrToRmSeg placed.1, rimgRtSeg := addrToRmSeg placed.1 }⟩ : Placement)) =
        copyRimg s.bmem { s.bd with rimgSz := sz } ⟨rimg, sz, some
          ⟨s.mem.readLE (pcir + pcirPcirRevAt) 1, s.mem.readLE (pcir + pcirMaxRtSzHkibAt) 2⟩⟩ := by
      rw [copyRimg]
      dsimp only
      cases bmemAlloc s.bmem sz (2 * kibyte) <;> rfl
    have place : ∀ fields, (Rimg.mk rimg sz fields).StaysInPlace ↔ rimg ≤ Word.sub 64 bmemMaxAddr sz ∧ rimg % hkibyte = 0 :=
      fun _ => Iff.rfl
    unfold Placement.getRimg getRimg
    dsimp only [Option.map_some]
    by_cases late : 3 ≤ s.mem.readLE (pcir + pcirPcirRevAt) 1
    · by_cases other : s.mem.readLE (pcir + pcirMaxRtSzHkibAt) 2 * hkibyte ≠ sz
      · have both : 3 ≤ s.mem.readLE (pcir + pcirPcirRevAt) 1 ∧ s.mem.readLE (pcir + pcirMaxRtSzHkibAt) 2 * hkibyte ≠ sz :=
          ⟨late, other⟩
        rw [if_pos late, if_pos other, if_pos both, placeRimg]
        by_cases stays : rimg ≤ Word.sub 64 bmemMaxAddr sz ∧ rimg % hkibyte = 0
        · rw [if_pos stays, if_pos ((place _).mpr stays), pure_bind, ok_bind]
          dsimp only
          cases bmemAlloc s.bmem (s.mem.readLE (pcir + pcirMaxRtSzHkibAt) 2 * hkibyte) hkibyte <;> rfl
        · rw [if_neg stays, if_neg (mt (place _).mp stays)]
          cases bmemAllocBoottime s.bmem sz hkibyte with
          | error stop => rfl
          | ok placed =>
            rw [ok_bind, ok_bind, pure_bind]
            dsimp only
            cases bmemAlloc placed.2 (s.mem.readLE (pcir + pcirMaxRtSzHkibAt) 2 * hkibyte) hkibyte <;> rfl
      · rw [if_pos late, if_neg other, if_neg fun both => other both.2]
        exact whole
    · rw [if_neg late, if_neg fun both => late both.1]
      exact whole

end

/-- Base memory right after its initialization. -/
def freshBmem : Bmem := ⟨[⟨0x1000, 0x9f000, 0x9f000⟩], 0x1000, 0x9f000, 0xb, []⟩

theorem freshBmem_inv : freshBmem.Inv sampleGranted :=
  (bmemInit_ok (show bmemInit sampleGranted sampleDescs = .ok freshBmem by decide +kernel)).1

/-- An image of 512 bytes, which is larger than it is at run time and is copied. -/
def smallPlacement : Placement where
  mem := Mem.zero.write 0x7f00010 (smallRimg (overwrite smallPcir pcirMaxRtSzHkibAt [0, 0]))
  bmem := freshBmem
  bd := default

theorem getRimg_placed_sample : ∃ out, smallPlacement.getRimg 0x7f00010 512 (some 0x7f0002c) = .ok out ∧
    ImagePlaced smallPlacement.mem 0x7f00010 512 out := by
  obtain ⟨out, ran⟩ := exists_of_isOk (x := smallPlacement.getRimg 0x7f00010 512 (some 0x7f0002c)) (by decide +kernel)
  have length : (smallRimg (overwrite smallPcir pcirMaxRtSzHkibAt [0, 0])).length = 512 := by decide +kernel
  have image : smallPlacement.mem.read 0x7f00010 512 = smallRimg (overwrite smallPcir pcirMaxRtSzHkibAt [0, 0]) := by
    rw [← length]
    exact Mem.read_write ..
  have accepted : rimgFindPcir (smallPlacement.mem.read 0x7f00010 512) 512 = .ok (some 0x1c) := by
    rw [image]
    decide +kernel
  have small : ¬ Stranded smallPlacement 0x7f00010 512 (0x7f00010 + 0x1c) := fun stranded =>
    absurd stranded.large (by decide)
  exact ⟨out, ran, (getRimg_placed_iff freshBmem_inv (by decide) (by decide) accepted (by decide +kernel)).mpr small out ran⟩

/-- The first bytes of an image of 2049 units, which has one unit at run time. All other bytes are zero. -/
def largeStart : List UInt8 :=
  let bytes := [0x55, 0xaa, 0] ++ List.replicate 21 0 ++ [0x1c, 0, 0, 0] ++ overwrite smallPcir pcirRimgSzHkibAt [1, 8]
  overwrite bytes 2 [computeCksum bytes]

def largePlacement : Placement := ⟨Mem.zero.write 0x7f00000 largeStart, freshBmem, default⟩

private theorem sum_read_zero {m : Mem} {a n : ℕ} (zero : ∀ x, a ≤ x → x < a + n → m x = 0) :
    ((m.read a n).map UInt8.toNat).sum = 0 := by
  induction n generalizing a with
  | zero => rfl
  | succ n ih =>
    rw [Mem.read, List.map_cons, List.sum_cons, zero a le_rfl (by omega), ih fun x low high => zero x (by omega) (by omega)]
    rfl

theorem imageSz_large : imageSz (largePlacement.mem.read 0x7f00000 0x100200) 0x1c = 0x100200 := by
  have units : number (largePlacement.mem.read 0x7f00000 0x100200) (0x1c + pcirRimgSzHkibAt) 2 =
      largePlacement.mem.readLE (0x7f00000 + (0x1c + pcirRimgSzHkibAt)) 2 := congrArg ofBytes (slice_read _ _ (by decide))
  rw [imageSz, units]
  decide +kernel

theorem largeStart_isImage : IsImage (largePlacement.mem.read 0x7f00000 0x100200) 0x1c := by
  have part : ∀ off n, off + n ≤ 0x100200 → slice (largePlacement.mem.read 0x7f00000 0x100200) off n =
      largePlacement.mem.read (0x7f00000 + off) n := fun off n inside => slice_read _ _ inside
  have numbers : ∀ off n, off + n ≤ 0x100200 → number (largePlacement.mem.read 0x7f00000 0x100200) off n =
      largePlacement.mem.readLE (0x7f00000 + off) n := fun off n inside => congrArg ofBytes (part off n inside)
  have size := imageSz_large
  have declared : declaredSz (largePlacement.mem.read 0x7f00000 0x100200) 0x1c = 24 := by
    rw [declaredSz, numbers _ _ (by decide)]
    decide +kernel
  have start : ((largePlacement.mem.read 0x7f00000 52).map UInt8.toNat).sum % 256 = 0 := by decide +kernel
  have rest : ((largePlacement.mem.read (0x7f00000 + 52) (0x100200 - 52)).map UInt8.toNat).sum = 0 :=
    sum_read_zero fun x low _ => Mem.write_of_outside (.inr (le_trans (by decide +kernel) low))
  refine ⟨?_, ?_, ?_, by decide, ?_, ?_, ?_, ?_, ?_, ?_, ?_⟩
  · rw [Mem.read_length]
    decide
  · rw [part _ _ (by decide)]
    decide +kernel
  · rw [numbers _ _ (by decide)]
    decide +kernel
  · rw [part _ _ (by decide)]
    decide +kernel
  · rw [declared]
    decide
  · rw [size]
    decide
  · rw [size, Mem.read_length]
  · rw [size]
    decide
  · rw [size, declared]
    decide
  · rw [size, List.take_of_length_le (Mem.read_length ..).le, SumsToZero, show 0x100200 = 52 + (0x100200 - 52) from rfl,
      Mem.read_add, List.map_append, List.sum_append, rest]
    exact start

/-- It stays above 1 MiB. -/
theorem large_image_left : ¬ ∀ (s : Placement) (rimg romSz off sz : ℕ), s.bmem.Inv sampleGranted → romSz < 2 ^ 64 →
    rimg + romSz ≤ 2 ^ 64 → rimgFindPcir (s.mem.read rimg romSz) romSz = .ok (some off) →
      sz = imageSz (s.mem.read rimg romSz) off → ∀ out, s.getRimg rimg sz (some (rimg + off)) = .ok out →
        ImagePlaced s.mem rimg sz out := by
  intro always
  have length : (largePlacement.mem.read 0x7f00000 0x100200).length = 0x100200 := Mem.read_length ..
  have accepted := (rimgFindPcir_eq_some_iff (by rw [length]; decide)).mpr largeStart_isImage
  rw [length] at accepted
  obtain ⟨out, ran, size⟩ := getRimg_of_leftInPlace
    (show LeftInPlace largePlacement 0x7f00000 0x100200 (0x7f00000 + 0x1c) from
      ⟨by decide +kernel, by decide +kernel, by decide +kernel, by decide +kernel⟩) (by decide +kernel)
  have placed := always largePlacement 0x7f00000 0x100200 0x1c 0x100200 freshBmem_inv (by decide) (by decide) accepted
    imageSz_large.symm out ran
  have below := placed.below
  rw [size] at below
  exact absurd ((Nat.le_add_left ..).trans below) (by decide)

end Biefircate
