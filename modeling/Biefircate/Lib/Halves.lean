import Mathlib.Data.UInt

/-! # The halves of a 16-bit register

A register has a high and a low byte, which may be written one at a time.
-/

namespace Biefircate

/-- The register with the given halves. -/
@[irreducible] def ofHalves (hi lo : UInt8) : UInt16 := UInt16.ofNat (hi.toNat * 256 + lo.toNat)

@[irreducible] def hiByte (w : UInt16) : UInt8 := UInt8.ofNat (w.toNat / 256)

@[irreducible] def loByte (w : UInt16) : UInt8 := UInt8.ofNat w.toNat

@[irreducible] def setHi (w : UInt16) (hi : UInt8) : UInt16 := ofHalves hi (loByte w)

@[irreducible] def setLo (w : UInt16) (lo : UInt8) : UInt16 := ofHalves (hiByte w) lo

section

variable {w : UInt16} {hi lo hi' lo' : UInt8}

theorem toNat_ofHalves (hi lo : UInt8) : (ofHalves hi lo).toNat = hi.toNat * 256 + lo.toNat := by
  have high := hi.toNat_lt
  have low := lo.toNat_lt
  rw [ofHalves, UInt16.toNat_ofNat', Nat.mod_eq_of_lt (by omega)]

@[simp] theorem hiByte_ofHalves (hi lo : UInt8) : hiByte (ofHalves hi lo) = hi := by
  have low := lo.toNat_lt
  rw [hiByte, toNat_ofHalves, show (hi.toNat * 256 + lo.toNat) / 256 = hi.toNat by omega, UInt8.ofNat_toNat]

@[simp] theorem loByte_ofHalves (hi lo : UInt8) : loByte (ofHalves hi lo) = lo := by
  have high := hi.toNat_lt
  have low := lo.toNat_lt
  apply UInt8.toNat_inj.mp
  rw [loByte, toNat_ofHalves, UInt8.toNat_ofNat']
  omega

@[simp] theorem setHi_ofHalves (hi lo hi' : UInt8) : setHi (ofHalves hi lo) hi' = ofHalves hi' lo := by
  rw [setHi, loByte_ofHalves]

@[simp] theorem setLo_ofHalves (hi lo lo' : UInt8) : setLo (ofHalves hi lo) lo' = ofHalves hi lo' := by
  rw [setLo, hiByte_ofHalves]

@[simp] theorem setLo_setLo (w : UInt16) (lo lo' : UInt8) : setLo (setLo w lo) lo' = setLo w lo' := by
  rw [setLo, setLo, setLo, hiByte_ofHalves]

@[simp] theorem loByte_setLo (w : UInt16) (lo : UInt8) : loByte (setLo w lo) = lo := by rw [setLo, loByte_ofHalves]

@[simp] theorem hiByte_setLo (w : UInt16) (lo : UInt8) : hiByte (setLo w lo) = hiByte w := by rw [setLo, hiByte_ofHalves]

/-- A register written half by half. -/
@[simp] theorem setHi_setLo (w : UInt16) (hi lo : UInt8) : setHi (setLo w lo) hi = ofHalves hi lo := by
  rw [setHi, loByte_setLo]

theorem ofHalves_inj : ofHalves hi lo = ofHalves hi' lo' ↔ hi = hi' ∧ lo = lo' := by
  constructor
  · intro same
    have high := congrArg hiByte same
    have low := congrArg loByte same
    rw [hiByte_ofHalves, hiByte_ofHalves] at high
    rw [loByte_ofHalves, loByte_ofHalves] at low
    exact ⟨high, low⟩
  · rintro ⟨rfl, rfl⟩
    rfl

end

end Biefircate
