import Mathlib.Data.Nat.Bitwise

/-! # Flags of a status byte

A flag is a byte with one bit set. Setting, clearing and toggling some bits of a status byte does to a flag what
it does to the flag's bit.
-/

namespace Biefircate

/-- A byte with one bit set. -/
def IsFlag (flag : UInt8) : Prop := ∃ i < 8, flag.toNat = 2 ^ i

instance (flag : UInt8) : Decidable (IsFlag flag) :=
  decidable_of_iff ((List.range 8).any (fun i => flag.toNat == 2 ^ i) = true) (by
    simp only [IsFlag, List.any_eq_true, List.mem_range, beq_iff_eq])

/-- Whether a flag is set. -/
def hasFlag (x flag : UInt8) : Bool := decide (x &&& flag ≠ 0)

section

variable {x y flag : UInt8} {i : ℕ}

theorem hasFlag_eq_testBit (single : flag.toNat = 2 ^ i) (x : UInt8) : hasFlag x flag = x.toNat.testBit i := by
  have zero : x &&& flag = 0 ↔ x.toNat &&& 2 ^ i = 0 := by
    rw [← UInt8.toNat_inj, UInt8.toNat_and, single, UInt8.toNat_zero]
  rw [hasFlag, Bool.eq_iff_iff, decide_eq_true_iff, ne_eq, zero, Nat.and_two_pow]
  cases x.toNat.testBit i <;> simp

theorem hasFlag_or (isFlag : IsFlag flag) : hasFlag (x ||| y) flag = (hasFlag x flag || hasFlag y flag) := by
  obtain ⟨i, _, single⟩ := isFlag
  rw [hasFlag_eq_testBit single, hasFlag_eq_testBit single, hasFlag_eq_testBit single, UInt8.toNat_or, Nat.testBit_or]

theorem hasFlag_xor (isFlag : IsFlag flag) : hasFlag (x ^^^ y) flag = (hasFlag x flag ^^ hasFlag y flag) := by
  obtain ⟨i, _, single⟩ := isFlag
  rw [hasFlag_eq_testBit single, hasFlag_eq_testBit single, hasFlag_eq_testBit single, UInt8.toNat_xor, Nat.testBit_xor]

theorem hasFlag_clear (isFlag : IsFlag flag) : hasFlag (x &&& ~~~y) flag = (hasFlag x flag && !hasFlag y flag) := by
  obtain ⟨i, low, single⟩ := isFlag
  have rest : (~~~y).toNat = 2 ^ 8 - (y.toNat + 1) := by
    have bound := y.toNat_lt
    rw [UInt8.toNat_not, UInt8.size]
    omega
  rw [hasFlag_eq_testBit single, hasFlag_eq_testBit single, hasFlag_eq_testBit single, UInt8.toNat_and, Nat.testBit_and, rest,
    Nat.testBit_two_pow_sub_succ y.toNat_lt]
  simp [low]

end

end Biefircate
