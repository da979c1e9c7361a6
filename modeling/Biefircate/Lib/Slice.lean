import Biefircate.Lib.Bytes

/-! # Slices of a buffer

A buffer is a list of bytes. What lies in a slice does not depend on how the buffer goes on after it.
-/

namespace Biefircate

section

variable {buf short long : List UInt8} {off n k : ℕ}

/-- The `n` bytes from an offset on, as far as the buffer has them. -/
def slice (buf : List UInt8) (off n : ℕ) : List UInt8 := (buf.drop off).take n

/-- The `n`-byte number at an offset. -/
def number (buf : List UInt8) (off n : ℕ) : ℕ := ofBytes (slice buf off n)

theorem slice_length (inside : off + n ≤ buf.length) : (slice buf off n).length = n := by
  rw [slice, List.length_take, List.length_drop]
  omega

theorem slice_zero (buf : List UInt8) (n : ℕ) : slice buf 0 n = buf.take n := rfl

theorem slice_drop (buf : List UInt8) (k off n : ℕ) : slice (buf.drop k) off n = slice buf (k + off) n := by
  rw [slice, slice, List.drop_drop]

theorem number_drop (buf : List UInt8) (k off n : ℕ) : number (buf.drop k) off n = number buf (k + off) n := by
  rw [number, number, slice_drop]

/-- A part of a buffer put together from parts. -/
theorem slice_append (before part after : List UInt8) (starts : before.length = off) (length : part.length = n) :
    slice (before ++ part ++ after) off n = part := by
  rw [slice, List.append_assoc, List.drop_left' starts, List.take_left' length]

theorem slice_longer (before : short <+: long) (inside : off + n ≤ short.length) : slice long off n = slice short off n := by
  obtain ⟨rest, rfl⟩ := before
  rw [slice, slice, List.drop_append_of_le_length (by omega), List.take_append_of_le_length (by rw [List.length_drop]; omega)]

theorem number_longer (before : short <+: long) (inside : off + n ≤ short.length) :
    number long off n = number short off n := by
  rw [number, number, slice_longer before inside]

/-- A slice is its first part and its second. -/
theorem slice_add (buf : List UInt8) (off n k : ℕ) : slice buf off (n + k) = slice buf off n ++ slice buf (off + n) k := by
  rw [slice, slice, slice, ← List.drop_drop, List.take_add]

theorem number_add (inside : off + n ≤ buf.length) :
    number buf off (n + k) = number buf off n + 256 ^ n * number buf (off + n) k := by
  rw [number, slice_add, ofBytes_append, slice_length inside]
  rfl

/-- A number in a slice is one in the buffer. -/
theorem number_slice {base : ℕ} (within : off + n ≤ k) (inside : base + k ≤ buf.length) :
    number (slice buf base k) off n = number buf (base + off) n := by
  rw [← number_drop]
  refine (number_longer (List.take_prefix ..) ?_).symm
  rwa [← slice, slice_length inside]

/-- A slice of what was read from memory is memory. -/
theorem slice_read (m : Mem) (a : ℕ) (inside : off + n ≤ k) : slice (m.read a k) off n = m.read (a + off) n := by
  obtain ⟨rest, rfl⟩ := Nat.exists_eq_add_of_le inside
  have length : (m.read a off).length = off := Mem.read_length ..
  have length' : (m.read (a + off) n).length = n := Mem.read_length ..
  rw [slice, Nat.add_assoc, Mem.read_add, List.drop_left' length, Mem.read_add, List.take_left' length']

/-- A number at an offset has one spelling in bytes. -/
theorem number_eq_iff (bytes : List UInt8) (inside : off + bytes.length ≤ buf.length) :
    number buf off bytes.length = ofBytes bytes ↔ slice buf off bytes.length = bytes :=
  ⟨fun same => ofBytes_inj (slice_length inside) same, fun same => congrArg ofBytes same⟩

theorem number_lt (buf : List UInt8) (off n : ℕ) : number buf off n < 256 ^ n := by
  have bound := ofBytes_lt (slice buf off n)
  have short : (slice buf off n).length ≤ n := List.length_take_le ..
  exact bound.trans_le (Nat.pow_le_pow_right (by decide) short)

end

end Biefircate
