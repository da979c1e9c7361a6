import Mathlib.Data.List.Basic
import Mathlib.Data.UInt

/-! # Checksums

`util.c` sums bytes by subtraction modulo 256.
-/

namespace Biefircate

/-- `compute_cksum`. -/
def computeCksum (bytes : List UInt8) : UInt8 := bytes.foldl (· - ·) 0

/-- What `update_cksum` stores, in an area given by what the byte for the checksum makes of it. -/
def updateCksum (area : UInt8 → List UInt8) : UInt8 := computeCksum (area 0)

/-- The bytes add up to a multiple of 256. -/
def SumsToZero (bytes : List UInt8) : Prop := (bytes.map UInt8.toNat).sum % 256 = 0

instance (bytes : List UInt8) : Decidable (SumsToZero bytes) := inferInstanceAs (Decidable (_ = _))

private theorem foldl_sub (bytes : List UInt8) (cksum : UInt8) :
    ((bytes.foldl (· - ·) cksum).toNat + (bytes.map UInt8.toNat).sum) % 256 = cksum.toNat := by
  induction bytes generalizing cksum with
  | nil => simp [Nat.mod_eq_of_lt cksum.toNat_lt]
  | cons byte rest ih =>
    have next := ih (cksum - byte)
    have low := cksum.toNat_lt
    have small := byte.toNat_lt
    have step : (cksum - byte).toNat = (2 ^ 8 - byte.toNat + cksum.toNat) % 2 ^ 8 := UInt8.toNat_sub ..
    rw [List.foldl_cons, List.map_cons, List.sum_cons]
    omega

theorem computeCksum_eq_zero_iff (bytes : List UInt8) : computeCksum bytes = 0 ↔ SumsToZero bytes := by
  have sum := foldl_sub bytes 0
  have low := (computeCksum bytes).toNat_lt
  have zero : computeCksum bytes = 0 ↔ (computeCksum bytes).toNat = 0 := by rw [← UInt8.toNat_inj]; rfl
  rw [zero, SumsToZero]
  rw [← computeCksum, UInt8.toNat_zero] at sum
  omega

/-- An area with its checksum stored, wherever in it that is. -/
theorem updateCksum_sumsToZero {area : UInt8 → List UInt8} (before after : List UInt8)
    (holds : ∀ cksum, area cksum = before ++ cksum :: after) : SumsToZero (area (updateCksum area)) := by
  have sum := foldl_sub (area 0) 0
  rw [← computeCksum, ← updateCksum] at sum
  simp only [SumsToZero, holds, List.map_append, List.map_cons, List.sum_append, List.sum_cons, UInt8.toNat_zero] at sum ⊢
  omega

end Biefircate
