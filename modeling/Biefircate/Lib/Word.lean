import Mathlib.Data.Nat.Bitwise
import Mathlib.Tactic.Ring

/-! # Fixed-width unsigned arithmetic on naturals

A `w`-bit word is a natural below `2 ^ w`. Sums and differences wrap; `mask w a` is the two's
complement `-a`, so that `x &&& mask w a` is the C idiom `x & -a` for rounding down to a multiple
of `a`. Every operation has one lemma saying when it does not wrap, which is the form the callers
use.
-/

namespace Biefircate.Word

/-- `a + b` in `w` bits. -/
def add (w a b : ℕ) : ℕ := (a + b) % 2 ^ w

/-- `a - b` in `w` bits, for operands that fit. -/
def sub (w a b : ℕ) : ℕ := (a + (2 ^ w - b)) % 2 ^ w

/-- `a * b` in `w` bits. -/
def mul (w a b : ℕ) : ℕ := a * b % 2 ^ w

/-- `-a` in `w` bits, where `a` is first converted to the width. -/
def mask (w a : ℕ) : ℕ := (2 ^ w - a % 2 ^ w) % 2 ^ w

theorem add_lt (w a b : ℕ) : add w a b < 2 ^ w := Nat.mod_lt _ (Nat.two_pow_pos w)

theorem sub_lt (w a b : ℕ) : sub w a b < 2 ^ w := Nat.mod_lt _ (Nat.two_pow_pos w)

theorem mask_lt (w a : ℕ) : mask w a < 2 ^ w := Nat.mod_lt _ (Nat.two_pow_pos w)

theorem add_of_lt {w a b : ℕ} (fits : a + b < 2 ^ w) : add w a b = a + b := Nat.mod_eq_of_lt fits

/-- A difference of ordered operands does not wrap. -/
theorem sub_of_le {w a b : ℕ} (ordered : b ≤ a) (fits : a < 2 ^ w) : sub w a b = a - b := by
  have shift : a + (2 ^ w - b) = a - b + 2 ^ w := by omega
  rw [sub, shift, Nat.add_mod_right, Nat.mod_eq_of_lt (by omega)]

/-- The end of a range of positive length, less one, never wraps: not even at the top of the
address space, where the end itself does. -/
theorem sub_one_add {w a b : ℕ} (positive : 0 < a + b) (fits : a + b ≤ 2 ^ w) :
    sub w (add w a b) 1 = a + b - 1 := by
  rcases Nat.lt_or_eq_of_le fits with below | top
  · rw [add_of_lt below, sub_of_le positive below]
  · have one : 0 < 2 ^ w := Nat.two_pow_pos w
    rw [add, top, Nat.mod_self, sub, Nat.zero_add, Nat.mod_eq_of_lt (by omega)]

theorem mul_of_lt {w a b : ℕ} (fits : a * b < 2 ^ w) : mul w a b = a * b := Nat.mod_eq_of_lt fits

theorem mask_of_lt {w a : ℕ} (positive : 0 < a) (fits : a < 2 ^ w) : mask w a = 2 ^ w - a := by
  rw [mask, Nat.mod_eq_of_lt fits, Nat.mod_eq_of_lt (by omega)]

/-- An alignment that the width cannot hold gives the empty mask. -/
theorem mask_of_dvd {w a : ℕ} (multiple : 2 ^ w ∣ a) : mask w a = 0 := by
  rw [mask, Nat.mod_eq_zero_of_dvd multiple, Nat.sub_zero, Nat.mod_self]

private theorem two_pow_sub_two_pow {w k : ℕ} (narrow : k ≤ w) :
    2 ^ w - 2 ^ k = (2 ^ (w - k) - 1) <<< k := by
  rw [Nat.shiftLeft_eq, Nat.sub_mul, one_mul, ← pow_add, Nat.sub_add_cancel narrow]

/-- `x & -(1 << k)` clears the low `k` bits. -/
theorem and_mask_two_pow {w k x : ℕ} (narrow : k ≤ w) (fits : x < 2 ^ w) :
    x &&& mask w (2 ^ k) = x - x % 2 ^ k := by
  rcases Nat.lt_or_eq_of_le narrow with below | rfl
  · rw [mask_of_lt (Nat.two_pow_pos k) (Nat.pow_lt_pow_right (by decide) below),
      two_pow_sub_two_pow narrow]
    have clear : x - x % 2 ^ k = (x / 2 ^ k) <<< k := by
      have := Nat.div_add_mod x (2 ^ k)
      rw [Nat.shiftLeft_eq, Nat.mul_comm]
      omega
    rw [clear]
    apply Nat.eq_of_testBit_eq
    intro bit
    rw [Nat.testBit_and, Nat.testBit_shiftLeft, Nat.testBit_shiftLeft, Nat.testBit_two_pow_sub_one,
      Nat.testBit_div_two_pow]
    by_cases high : k ≤ bit
    · rw [Nat.sub_add_cancel high]
      by_cases inside : bit < w
      · simp [high, show bit - k < w - k by omega]
      · have zero : x.testBit bit = false :=
          Nat.testBit_lt_two_pow (lt_of_lt_of_le fits (Nat.pow_le_pow_right (by decide) (by omega)))
        simp [zero]
    · simp [high]
  · rw [mask_of_dvd dvd_rfl, Nat.and_zero, Nat.mod_eq_of_lt fits, Nat.sub_self]

/-- Masking a word never raises it. -/
theorem and_mask_le (w a x : ℕ) : x &&& mask w a ≤ x := Nat.and_le_left

/-- A word whose low `k` bits are clear is or-ed with a `k`-bit word by adding it. -/
theorem or_of_dvd {k p f : ℕ} (aligned : 2 ^ k ∣ p) (small : f < 2 ^ k) : p ||| f = p + f := by
  obtain ⟨q, rfl⟩ := aligned
  exact (Nat.two_pow_add_eq_or_of_lt small q).symm

/-- The multiple of `a` at or below `x`. -/
def alignDown (x a : ℕ) : ℕ := x - x % a

/-- The multiple of `a` at or above `x`. -/
def alignUp (x a : ℕ) : ℕ := alignDown (x + a - 1) a

/-- The C idiom for rounding down to a power of two. -/
theorem and_mask_eq {w k a x : ℕ} (pow : a = 2 ^ k) (narrow : k ≤ w) (fits : x < 2 ^ w) :
    x &&& mask w a = alignDown x a := by
  rw [pow, and_mask_two_pow narrow fits, alignDown]

/-- The C idiom for rounding up to a power of two. -/
theorem add_sub_one_and_mask_eq {w k a x : ℕ} (pow : a = 2 ^ k) (narrow : k ≤ w) (fits : x + a < 2 ^ w) :
    sub w (add w x a) 1 &&& mask w a = alignUp x a := by
  have positive : 0 < a := pow ▸ Nat.two_pow_pos k
  rw [add_of_lt fits, sub_of_le (by omega) fits, and_mask_eq pow narrow (by omega), alignUp]

theorem alignDown_eq (x a : ℕ) : alignDown x a = a * (x / a) := by
  have := Nat.div_add_mod x a
  rw [alignDown]
  omega

theorem alignDown_le (x a : ℕ) : alignDown x a ≤ x := Nat.sub_le _ _

theorem dvd_alignDown (x a : ℕ) : a ∣ alignDown x a := ⟨x / a, alignDown_eq x a⟩

theorem lt_alignDown_add {a : ℕ} (positive : 0 < a) (x : ℕ) : x < alignDown x a + a := by
  have := Nat.mod_lt x positive
  rw [alignDown]
  omega

/-- Rounding down is the greatest multiple below: anything aligned that fits under `x` fits under it. -/
theorem le_alignDown {a b x : ℕ} (aligned : a ∣ b) (below : b ≤ x) : b ≤ alignDown x a := by
  obtain ⟨q, rfl⟩ := aligned
  rw [alignDown_eq]
  rcases Nat.eq_zero_or_pos a with rfl | positive
  · simp
  · exact Nat.mul_le_mul_left a ((Nat.le_div_iff_mul_le positive).mpr (by rwa [Nat.mul_comm]))

theorem dvd_alignUp (x a : ℕ) : a ∣ alignUp x a := dvd_alignDown _ _

theorem le_alignUp {a : ℕ} (positive : 0 < a) (x : ℕ) : x ≤ alignUp x a := by
  have := lt_alignDown_add positive (x + a - 1)
  rw [alignUp]
  omega

theorem alignUp_lt_add {a : ℕ} (positive : 0 < a) (x : ℕ) : alignUp x a < x + a := by
  have := alignDown_le (x + a - 1) a
  rw [alignUp]
  omega

theorem alignUp_le {a b x : ℕ} (aligned : a ∣ b) (above : x ≤ b) : alignUp x a ≤ b := by
  rcases Nat.eq_zero_or_pos a with rfl | positive
  · rw [Nat.zero_dvd.mp aligned] at above ⊢
    simp [alignUp, alignDown, Nat.le_zero.mp above]
  · obtain ⟨q, rfl⟩ := aligned
    rw [alignUp, alignDown_eq]
    have : (x + a - 1) / a ≤ q := by
      rw [Nat.div_le_iff_le_mul_add_pred positive]
      omega
    exact Nat.mul_le_mul_left a this

/-- An aligned address stays put. -/
theorem alignDown_of_dvd {a x : ℕ} (aligned : a ∣ x) : alignDown x a = x := by
  rw [alignDown, Nat.mod_eq_zero_of_dvd aligned, Nat.sub_zero]

theorem alignUp_of_dvd {a x : ℕ} (positive : 0 < a) (aligned : a ∣ x) : alignUp x a = x :=
  le_antisymm (alignUp_le aligned le_rfl) (le_alignUp positive x)

/-! ## Fields of a word -/

/-- Words of two fields are and-ed field by field. -/
theorem mul_add_and_mul_add {k a b c d : ℕ} (low : b < 2 ^ k) (low' : d < 2 ^ k) :
    (a * 2 ^ k + b) &&& (c * 2 ^ k + d) = (a &&& c) * 2 ^ k + (b &&& d) := by
  apply Nat.eq_of_testBit_eq
  intro i
  have both : b &&& d < 2 ^ k := Nat.and_le_left.trans_lt low
  rw [Nat.testBit_and, Nat.mul_comm a, Nat.mul_comm c, Nat.mul_comm (a &&& c),
    Nat.testBit_two_pow_mul_add _ low, Nat.testBit_two_pow_mul_add _ low',
    Nat.testBit_two_pow_mul_add _ both]
  split <;> rw [Nat.testBit_and]

/-- A mask of low bits sees only the low field. -/
theorem and_of_dvd {k p f c : ℕ} (aligned : 2 ^ k ∣ p) (low : f < 2 ^ k) (mask : c < 2 ^ k) :
    (p + f) &&& c = f &&& c := by
  obtain ⟨q, rfl⟩ := aligned
  have fields := mul_add_and_mul_add (a := q) (c := 0) low mask
  rwa [Nat.zero_mul, Nat.zero_add, Nat.and_zero, Nat.zero_mul, Nat.zero_add, Nat.mul_comm q] at fields

/-- A mask of `j` bits from bit `k` on selects that field, in place. -/
theorem and_field (x j k : ℕ) : x &&& (2 ^ j - 1) * 2 ^ k = x / 2 ^ k % 2 ^ j * 2 ^ k := by
  have fields := mul_add_and_mul_add (k := k) (a := x / 2 ^ k) (c := 2 ^ j - 1)
    (Nat.mod_lt x (Nat.two_pow_pos k)) (Nat.two_pow_pos k)
  rwa [Nat.mul_comm (x / 2 ^ k), Nat.div_add_mod, Nat.add_zero, Nat.and_zero, Nat.add_zero,
    Nat.and_two_pow_sub_one_eq_mod] at fields

end Biefircate.Word
