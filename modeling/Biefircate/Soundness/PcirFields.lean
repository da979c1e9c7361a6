import Biefircate.Soundness.RimgParser

/-! # The fields read of a PCI data structure

`rimg_find_pcir` accepts a structure that ends before `max_rt_sz_hkib`, which `get_rimg` reads of every structure from
revision 3 on.
-/

namespace Biefircate

/-- Every reader of a PCI data structure finds its fields in these bytes. -/
structure HoldsFields (view : List UInt8) : Prop where
  getRimg : ∃ fields, getRimgPcir view = .ok fields
  fvCacheRimg : ∃ fields, fvCacheRimgPcir view = .ok fields
  fvGather : ∃ fields, fvGatherPcir view = .ok fields
  findDevIdList : ∃ devIdsOff, findDevIdListPcir view = .ok devIdsOff

/-- The revision of a PCI data structure. -/
def pcirRevOf (rimg : List UInt8) (pcir : ℕ) : ℕ := number rimg (pcir + pcirPcirRevAt) 1

section

variable {view rimg : List UInt8} {pcir : ℕ}

/-- A structure of the least size holds all fields but `max_rt_sz_hkib`. -/
theorem holdsFields_iff (least : pcirMinSz ≤ view.length) :
    HoldsFields view ↔ number view pcirPcirRevAt 1 < 3 ∨ pcirMinSz + 2 ≤ view.length := by
  have inside : ∀ {off n}, off + n ≤ pcirMinSz → numberIn view off n = .ok (number view off n) :=
    fun within => numberIn_of_le (within.trans least)
  have cache : ∃ fields, fvCacheRimgPcir view = .ok fields := by
    rw [fvCacheRimgPcir, inside (by decide), inside (by decide), inside (by decide), inside (by decide)]
    exact ⟨_, rfl⟩
  have gather : ∃ fields, fvGatherPcir view = .ok fields := by
    rw [fvGatherPcir, inside (by decide), inside (by decide), inside (by decide), inside (by decide)]
    exact ⟨_, rfl⟩
  have devIds : ∃ devIdsOff, findDevIdListPcir view = .ok devIdsOff := by
    rw [findDevIdListPcir, inside (by decide), inside (by decide), ok_bind]
    split <;> exact ⟨_, rfl⟩
  have runTime : (∃ fields, getRimgPcir view = .ok fields) ↔
      number view pcirPcirRevAt 1 < 3 ∨ pcirMinSz + 2 ≤ view.length := by
    rw [getRimgPcir, inside (by decide), ok_bind]
    split
    · next late =>
      rw [numberIn, show pcirMaxRtSzHkibAt = pcirMinSz from rfl]
      split
      · next long => exact iff_of_true ⟨_, rfl⟩ (.inr long)
      · next short =>
        apply iff_of_false
        · rintro ⟨_, stopped⟩
          cases stopped
        · exact not_or.mpr ⟨late.not_gt, short⟩
    · next early => exact iff_of_true ⟨_, rfl⟩ (.inl (not_le.mp early))
  exact ⟨fun holds => runTime.mp holds.getRimg, fun cond => ⟨runTime.mpr cond, cache, gather, devIds⟩⟩

/-- What is read of an accepted structure lies in the bytes that it declares, and so in the image, exactly when it is
of a revision before 3 or declares at least 24 bytes. -/
theorem fields_declared_iff (typed : rimg.length < 2 ^ 64) (accepted : rimgFindPcir rimg rimg.length = .ok (some pcir)) :
    HoldsFields (slice rimg pcir (declaredSz rimg pcir)) ∧ pcir + declaredSz rimg pcir ≤ imageSz rimg pcir ↔
      pcirRevOf rimg pcir < 3 ∨ pcirMinSz + 2 ≤ declaredSz rimg pcir := by
  have image := (rimgFindPcir_eq_some_iff typed).mp accepted
  have inside := image.declaredInside.trans image.fits
  have least := image.declared
  have length := slice_length inside
  have revSame : number (slice rimg pcir (declaredSz rimg pcir)) pcirPcirRevAt 1 = pcirRevOf rimg pcir :=
    number_slice (by simp only [pcirMinSz, pcirMaxRtSzHkibAt, pcirPcirRevAt] at least ⊢; omega) inside
  rw [holdsFields_iff (by rwa [length]), length, revSame]
  exact and_iff_left image.declaredInside

theorem fields_declared_sample : HoldsFields (slice smallRom 0x1c (declaredSz smallRom 0x1c)) := by
  have accepted : rimgFindPcir smallRom smallRom.length = .ok (some 0x1c) := by decide +kernel
  exact ((fields_declared_iff (by decide +kernel) accepted).mpr (by decide +kernel)).1

/-- The same image with a structure that declares 22 bytes. -/
def shortRimg : List UInt8 := smallRimg (overwrite smallPcir pcirPcirSzAt [22, 0])

/-- Its size at run time is read past the structure. -/
theorem max_rt_undeclared : ¬ ∀ (rimg : List UInt8) (pcir : ℕ), rimgFindPcir rimg rimg.length = .ok (some pcir) →
    HoldsFields (slice rimg pcir (declaredSz rimg pcir)) := by
  intro always
  have accepted : rimgFindPcir shortRimg shortRimg.length = .ok (some 0x1c) := by decide +kernel
  obtain ⟨_, found⟩ := (always shortRimg 0x1c accepted).getRimg
  have outside : getRimgPcir (slice shortRimg 0x1c (declaredSz shortRimg 0x1c)) = .error .outside := by decide +kernel
  rw [outside] at found
  cases found

end

end Biefircate
