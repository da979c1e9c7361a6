import Biefircate.Lib.Copy
import Biefircate.Lib.Machine
import Biefircate.Model.Stage2.Clib

/-! # `memmove`

Each of the two copies, in units of 4 bytes and then byte by byte, extends the part of the span that has been copied, at its
upper end or at its lower.
-/

namespace Biefircate.Clib

open Machine

variable {dst src lo hi count : ℕ} {size : UInt32} {mem : Mem}

theorem toNat_ofNat_of_lt {a : ℕ} (fits : a < 2 ^ 32) : (UInt32.ofNat a).toNat = a := by
  rw [UInt32.toNat_ofNat', Nat.mod_eq_of_lt fits]

/-- Units copied upwards, from the end of what has been copied. -/
theorem repMovs_up (below : dst ≤ src) (some_ : 0 < size.toNat) (high : src + (hi + size.toNat * count) ≤ 2 ^ 32) :
    repMovs false size count (UInt32.ofNat (src + hi)) (UInt32.ofNat (dst + hi)) (mem.copied dst src 0 hi) =
      (UInt32.ofNat (src + (hi + size.toNat * count)), UInt32.ofNat (dst + (hi + size.toNat * count)),
        mem.copied dst src 0 (hi + size.toNat * count)) := by
  induction count generalizing hi with
  | zero => rfl
  | succ count ih =>
    rw [Nat.mul_succ] at high
    have advance (a : ℕ) : UInt32.ofNat (a + hi) + size = UInt32.ofNat (a + (hi + size.toNat)) := by
      rw [← Nat.add_assoc, UInt32.ofNat_add (a + hi), UInt32.ofNat_toNat]
    rw [repMovs, toNat_ofNat_of_lt (by omega), toNat_ofNat_of_lt (by omega), Mem.copied_up below (Nat.zero_le hi),
      if_neg (by decide), advance, advance, ih (by omega), Nat.mul_succ, Nat.add_assoc, Nat.add_comm size.toNat]

/-- Units copied downwards, to the start of what has been copied. The pointers are one unit below it. -/
theorem repMovs_down (above : src ≤ dst) (some_ : 0 < size.toNat) (high : dst + (lo + size.toNat * count) ≤ 2 ^ 32)
    (inside : lo + size.toNat * count ≤ hi) :
    repMovs true size count (UInt32.ofNat (src + (lo + size.toNat * count)) - size)
        (UInt32.ofNat (dst + (lo + size.toNat * count)) - size) (mem.copied dst src (lo + size.toNat * count) hi) =
      (UInt32.ofNat (src + lo) - size, UInt32.ofNat (dst + lo) - size, mem.copied dst src lo hi) := by
  induction count with
  | zero => rfl
  | succ count ih =>
    rw [Nat.mul_succ] at high inside
    have advance (a : ℕ) : UInt32.ofNat (a + (lo + (size.toNat * count + size.toNat))) - size =
        UInt32.ofNat (a + (lo + size.toNat * count)) := by
      rw [← Nat.add_assoc lo, ← Nat.add_assoc a, UInt32.ofNat_add (a + (lo + size.toNat * count)), UInt32.ofNat_toNat,
        UInt32.add_sub_cancel]
    rw [repMovs, Nat.mul_succ, advance, advance, toNat_ofNat_of_lt (by omega), toNat_ofNat_of_lt (by omega),
      ← Nat.add_assoc lo, Mem.copied_down above (by omega), if_pos rfl, ih (by omega) (by omega)]

/-- Units of 4 bytes upwards, then the bytes that are left. -/
theorem copy_up {n : ℕ} (below : dst ≤ src) (high : src + n ≤ 2 ^ 32) {esi edi : UInt32} {copy : Mem}
    (units : repMovs false 4 (n / 4) (UInt32.ofNat src) (UInt32.ofNat dst) mem = (esi, edi, copy)) :
    (repMovs false 1 (n % 4) esi edi copy).2.2 = mem.copied dst src 0 n := by
  have four : (4 : UInt32).toNat = 4 := rfl
  have one : (1 : UInt32).toNat = 1 := rfl
  have words := @repMovs_up dst src 0 (n / 4) 4 mem below (by decide) (by rw [four]; omega)
  rw [Mem.copied_empty, Nat.add_zero, Nat.add_zero, four, Nat.zero_add, units] at words
  cases words
  have bytes := @repMovs_up dst src (4 * (n / 4)) (n % 4) 1 mem below (by decide) (by rw [one]; omega)
  rw [bytes, one, Nat.one_mul, Nat.div_add_mod]

/-- Units of 4 bytes downwards, then the bytes that are left, which the pointers are moved to. -/
theorem copy_down {n : ℕ} (above : src ≤ dst) (high : dst + n ≤ 2 ^ 32) {esi edi : UInt32} {copy : Mem}
    (units : repMovs true 4 (n / 4) (UInt32.ofNat (src + n) - 4) (UInt32.ofNat (dst + n) - 4) mem = (esi, edi, copy)) :
    (repMovs true 1 (n % 4) (esi + 3) (edi + 3) copy).2.2 = mem.copied dst src 0 n := by
  have four : (4 : UInt32).toNat = 4 := rfl
  have one : (1 : UInt32).toNat = 1 := rfl
  have total : n % 4 + 4 * (n / 4) = n := Nat.mod_add_div n 4
  have words := @repMovs_down dst src (n % 4) n (n / 4) 4 mem above (by decide) (by rw [four]; omega) (by rw [four]; omega)
  rw [four, total, Mem.copied_empty, units] at words
  cases words
  have moved (a : UInt32) : a - 4 + 3 = a - 1 := by grind
  have bytes := @repMovs_down dst src 0 n (n % 4) 1 mem above (by decide) (by rw [one]; omega) (by rw [one]; omega)
  rw [one, Nat.one_mul, Nat.zero_add] at bytes
  rw [moved, moved, bytes]

/-! ## The parts of the routine -/

/-- No state is watched. -/
def quiet : Cpu → Bool := fun _ => false

theorem toNat_setCl {ecx : UInt32} (small : ecx.toNat < 256) (cl : UInt8) : (setCl ecx cl).toNat = cl.toNat := by
  have byte := cl.toNat_lt
  rw [setCl, Nat.div_eq_of_lt small, toNat_ofNat_of_lt (by omega), Nat.zero_mul, Nat.zero_add]

/-- The number of bytes after the last whole unit. -/
theorem setCl_and (n : UInt32) : (setCl (setCl 0 n.toUInt8) ((setCl 0 n.toUInt8).toUInt8 &&& 3)).toNat = n.toNat % 4 := by
  have low : (setCl 0 n.toUInt8).toNat = n.toNat % 256 := by rw [toNat_setCl (by decide), UInt32.toNat_toUInt8]
  have mask : (3 : UInt8).toNat = 2 ^ 2 - 1 := rfl
  rw [toNat_setCl (by rw [low]; exact Nat.mod_lt _ (by decide)), UInt8.toNat_and, UInt32.toNat_toUInt8, low, mask,
    Nat.and_two_pow_sub_one_eq_mod]
  omega

theorem units_eq (n : UInt32) : (UInt32.ofNat (n.toNat / 2 ^ 2)).toNat = n.toNat / 4 := by
  have bound := n.toNat_lt
  exact toNat_ofNat_of_lt (by omega)

/-- The routine returns, with the given registers, stack and memory, and the direction flag clear. -/
def Returns (s : Cpu) (eax esi edi eip : UInt32) (below : List UInt32) (mem : Mem) : Prop :=
  ∃ t, Finishes step quiet s [] t ∧ t.place = .returned eip ∧ t.stack = below ∧ t.eax = eax ∧ t.esi = esi ∧ t.edi = edi ∧
    t.df = false ∧ t.mem = mem

theorem Returns.after {s u : Cpu} {eax esi edi eip : UInt32} {below : List UInt32} (passes : Passes step quiet s [] u)
    (returns : Returns u eax esi edi eip below mem) : Returns s eax esi edi eip below mem := by
  obtain ⟨t, finishes, left⟩ := returns
  exact ⟨t, Passes.after passes finishes, left⟩

/-- The end of both copies: the bytes that are left, and the registers. -/
theorem finish_returns (eax edx esi edi esi' edi' eip : UInt32) (zf cf df : Bool) (below : List UInt32) (mem : Mem) :
    Returns ⟨eax, 0, edx, esi', edi', zf, cf, df, edi :: esi :: eip :: below, mem, .inside finish⟩ eax esi edi eip below
      (repMovs df 1 (edx.toNat % 4) esi' edi' mem).2.2 := by
  refine ⟨_, ⟨⟨7, rfl, rfl⟩, rfl⟩, rfl, rfl, rfl, rfl, rfl, rfl, ?_⟩
  change (repMovs df 1 (setCl (setCl 0 edx.toUInt8) ((setCl 0 edx.toUInt8).toUInt8 &&& 3)).toNat esi' edi' mem).2.2 = _
  rw [setCl_and]

/-- The comparison of the two addresses, with the registers saved. -/
theorem compare_passes (eax ecx edx esi edi : UInt32) (zf cf : Bool) (stack : List UInt32) (mem : Mem) :
    Passes step quiet ⟨eax, ecx, edx, esi, edi, zf, cf, false, stack, mem, .inside memmove⟩ []
      ⟨eax, ecx, edx, edx, eax, eax - edx == 0, decide (eax < edx), false, edi :: esi :: stack, mem,
        .inside (memmove.drop 5)⟩ := ⟨5, rfl, rfl⟩

/-- The units of a copy upwards. -/
theorem forward_passes (eax ecx edx esi edi : UInt32) (stack : List UInt32) (mem : Mem) : ∃ zf cf,
    Passes step quiet ⟨eax, ecx, edx, esi, edi, false, true, false, stack, mem, .inside (memmove.drop 5)⟩ []
      ⟨eax, 0, ecx, (repMovs false 4 (UInt32.ofNat (ecx.toNat / 2 ^ 2)).toNat esi edi mem).1,
        (repMovs false 4 (UInt32.ofNat (ecx.toNat / 2 ^ 2)).toNat esi edi mem).2.1, zf, cf, false, stack,
        (repMovs false 4 (UInt32.ofNat (ecx.toNat / 2 ^ 2)).toNat esi edi mem).2.2, .inside finish⟩ :=
  ⟨_, _, 5, rfl, rfl⟩

/-- The units of a copy downwards. -/
theorem backward_passes (eax ecx edx esi edi : UInt32) (stack : List UInt32) (mem : Mem) : ∃ zf cf,
    Passes step quiet ⟨eax, ecx, edx, esi, edi, false, false, false, stack, mem, .inside (memmove.drop 5)⟩ []
      ⟨eax, 0, ecx, (repMovs true 4 (UInt32.ofNat (ecx.toNat / 2 ^ 2)).toNat (esi + ecx - 4) (edi + ecx - 4) mem).1 + 3,
        (repMovs true 4 (UInt32.ofNat (ecx.toNat / 2 ^ 2)).toNat (esi + ecx - 4) (edi + ecx - 4) mem).2.1 + 3, zf, cf, true,
        stack, (repMovs true 4 (UInt32.ofNat (ecx.toNat / 2 ^ 2)).toNat (esi + ecx - 4) (edi + ecx - 4) mem).2.2,
        .inside finish⟩ :=
  ⟨_, _, 10, rfl, rfl⟩

/-- The end, where there is nothing to copy. -/
theorem same_returns (eax ecx edx esi edi esi' edi' eip : UInt32) (below : List UInt32) (mem : Mem) :
    Returns ⟨eax, ecx, edx, esi', edi', true, false, false, edi :: esi :: eip :: below, mem, .inside (memmove.drop 5)⟩
      eax esi edi eip below mem :=
  ⟨_, ⟨⟨5, rfl, rfl⟩, rfl⟩, rfl, rfl, rfl, rfl, rfl, rfl, rfl⟩

/-! ## The routine -/

/-- The flags of a comparison. -/
theorem sub_beq_zero {a b : UInt32} (differ : a ≠ b) : (a - b == 0) = false := by
  apply beq_eq_false_iff_ne.mpr
  intro zero
  exact differ (by grind)

/-- From its entry, the routine returns with memory copied. -/
theorem memmove_returns (eax ecx edx esi edi eip : UInt32) (zf cf : Bool) (below : List UInt32) (mem : Mem)
    (dst : eax.toNat + ecx.toNat ≤ 2 ^ 32) (src : edx.toNat + ecx.toNat ≤ 2 ^ 32) :
    Returns ⟨eax, ecx, edx, esi, edi, zf, cf, false, eip :: below, mem, .inside memmove⟩ eax esi edi eip below
      (mem.copied eax.toNat edx.toNat 0 ecx.toNat) := by
  apply Returns.after (compare_passes eax ecx edx esi edi zf cf (eip :: below) mem)
  rcases Nat.lt_trichotomy eax.toNat edx.toNat with before | same | after
  · have carry : decide (eax < edx) = true := decide_eq_true (UInt32.lt_iff_toNat_lt.mpr before)
    have differ : eax ≠ edx := by
      rintro rfl
      exact lt_irrefl _ before
    obtain ⟨zf', cf', passes⟩ := forward_passes eax ecx edx edx eax (edi :: esi :: eip :: below) mem
    rw [units_eq] at passes
    rw [carry, sub_beq_zero differ, ← copy_up before.le src (by rw [UInt32.ofNat_toNat, UInt32.ofNat_toNat])]
    exact Returns.after passes (finish_returns ..)
  · obtain rfl := UInt32.toNat_inj.mp same
    have carry : decide (eax < eax) = false := decide_eq_false (UInt32.lt_irrefl eax)
    have zero : (eax - eax == 0) = true := by simp
    rw [carry, zero, Mem.copied_same]
    exact same_returns ..
  · have carry : decide (eax < edx) = false := decide_eq_false fun before => lt_asymm after (UInt32.lt_iff_toNat_lt.mp before)
    have differ : eax ≠ edx := by
      rintro rfl
      exact lt_irrefl _ after
    obtain ⟨zf', cf', passes⟩ := backward_passes eax ecx edx edx eax (edi :: esi :: eip :: below) mem
    rw [units_eq] at passes
    rw [carry, sub_beq_zero differ, ← copy_down after.le dst (by
      rw [UInt32.ofNat_add, UInt32.ofNat_add, UInt32.ofNat_toNat, UInt32.ofNat_toNat, UInt32.ofNat_toNat])]
    exact Returns.after passes (finish_returns ..)

end Biefircate.Clib
