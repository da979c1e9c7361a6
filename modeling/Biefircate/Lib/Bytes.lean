import Mathlib.Data.Nat.Basic
import Mathlib.Tactic.Ring

/-! # Byte-addressed memory

Memory is a function from addresses to bytes. Numbers are stored little-endian, so a read narrower
than the write gives the low part of the number. What a read returns depends on its own span alone,
and a write changes its own span alone.
-/

namespace Biefircate

/-! ## Numbers as bytes -/

/-- The low `n` bytes of a number, lowest first. -/
def toBytes : ℕ → ℕ → List UInt8
  | 0, _ => []
  | n + 1, v => UInt8.ofNat v :: toBytes n (v / 256)

/-- The number that some bytes stand for, lowest first. -/
def ofBytes : List UInt8 → ℕ
  | [] => 0
  | b :: rest => b.toNat + 256 * ofBytes rest

@[simp] theorem toBytes_length (n v : ℕ) : (toBytes n v).length = n := by
  induction n generalizing v with
  | zero => rfl
  | succ n ih => rw [toBytes, List.length_cons, ih]

theorem ofBytes_toBytes (n v : ℕ) : ofBytes (toBytes n v) = v % 256 ^ n := by
  induction n generalizing v with
  | zero => rw [toBytes, ofBytes, pow_zero, Nat.mod_one]
  | succ n ih =>
    have byte : (UInt8.ofNat v).toNat = v % 256 := UInt8.toNat_ofNat'
    rw [toBytes, ofBytes, ih, byte, pow_succ', Nat.mod_mul]

theorem ofBytes_append (low high : List UInt8) :
    ofBytes (low ++ high) = ofBytes low + 256 ^ low.length * ofBytes high := by
  induction low with
  | nil => simp [ofBytes]
  | cons b rest ih =>
    rw [List.cons_append, ofBytes, ofBytes, ih, List.length_cons, pow_succ]
    ring

theorem ofBytes_lt (bytes : List UInt8) : ofBytes bytes < 256 ^ bytes.length := by
  induction bytes with
  | nil => simp [ofBytes]
  | cons b rest ih =>
    have byte := b.toNat_lt
    rw [ofBytes, List.length_cons, pow_succ]
    omega

/-- Bytes are determined by their number. -/
theorem ofBytes_inj {first second : List UInt8} (sameLength : first.length = second.length)
    (same : ofBytes first = ofBytes second) : first = second := by
  induction first generalizing second with
  | nil => exact (List.length_eq_zero_iff.mp sameLength.symm).symm
  | cons b rest ih =>
    obtain ⟨c, others, rfl⟩ := List.exists_cons_of_length_eq_add_one sameLength.symm
    have byte := b.toNat_lt
    have other := c.toNat_lt
    rw [ofBytes, ofBytes] at same
    rw [UInt8.toNat_inj.mp (show b.toNat = c.toNat by omega), ih (by simpa using sameLength) (by omega)]

/-- Bytes with some of them replaced from `offset` on. -/
def overwrite (old : List UInt8) (offset : ℕ) (bytes : List UInt8) : List UInt8 :=
  old.take offset ++ bytes ++ old.drop (offset + bytes.length)

theorem overwrite_length {old bytes : List UInt8} {offset : ℕ} (inside : offset + bytes.length ≤ old.length) :
    (overwrite old offset bytes).length = old.length := by
  simp only [overwrite, List.length_append, List.length_take, List.length_drop]
  omega

/-! ## Memory -/

/-- The contents of memory. -/
abbrev Mem := ℕ → UInt8

namespace Mem

def zero : Mem := fun _ => 0

/-- The `n` bytes from `a` on. -/
def read (m : Mem) : ℕ → ℕ → List UInt8
  | _, 0 => []
  | a, n + 1 => m a :: read m (a + 1) n

/-- Memory with the given bytes from `a` on. -/
def write (m : Mem) (a : ℕ) (bytes : List UInt8) : Mem :=
  fun x => if a ≤ x then (bytes[x - a]?).getD (m x) else m x

/-- The `n`-byte number at `a`. -/
def readLE (m : Mem) (a n : ℕ) : ℕ := ofBytes (m.read a n)

/-- Memory with an `n`-byte number at `a`. -/
def writeLE (m : Mem) (a n v : ℕ) : Mem := m.write a (toBytes n v)

variable {m m' : Mem} {a b n k v : ℕ} {bytes : List UInt8}

@[simp] theorem read_length (m : Mem) (a n : ℕ) : (m.read a n).length = n := by
  induction n generalizing a with
  | zero => rfl
  | succ n ih => rw [read, List.length_cons, ih]

theorem read_add (m : Mem) (a n k : ℕ) : m.read a (n + k) = m.read a n ++ m.read (a + n) k := by
  induction n generalizing a with
  | zero => simp [read]
  | succ n ih =>
    rw [Nat.succ_add, read, ih, read, List.cons_append, Nat.add_assoc, Nat.add_comm 1 n]

/-- A read depends on the bytes of its span alone. -/
theorem read_congr (same : ∀ x, a ≤ x → x < a + n → m x = m' x) : m.read a n = m'.read a n := by
  induction n generalizing a with
  | zero => rfl
  | succ n ih =>
    rw [read, read, same a le_rfl (by omega), ih fun x low high => same x (by omega) (by omega)]

theorem readLE_congr (same : ∀ x, a ≤ x → x < a + n → m x = m' x) : m.readLE a n = m'.readLE a n := by
  rw [readLE, readLE, read_congr same]

/-- A narrower read gives the low part. -/
theorem readLE_mod (m : Mem) (a : ℕ) (narrow : k ≤ n) : m.readLE a k = m.readLE a n % 256 ^ k := by
  obtain ⟨rest, rfl⟩ := Nat.exists_eq_add_of_le narrow
  have low := ofBytes_lt (m.read a k)
  rw [read_length] at low
  rw [readLE, readLE, read_add, ofBytes_append, read_length, Nat.add_mul_mod_self_left,
    Nat.mod_eq_of_lt low]

/-- A number is read as its low and its high part. -/
theorem readLE_add (m : Mem) (a n k : ℕ) : m.readLE a (n + k) = m.readLE a n + 256 ^ n * m.readLE (a + n) k := by
  rw [readLE, read_add, ofBytes_append, read_length, ← readLE, ← readLE]

theorem readLE_lt (m : Mem) (a n : ℕ) : m.readLE a n < 256 ^ n := by
  have bound := ofBytes_lt (m.read a n)
  rwa [read_length] at bound

theorem getElem?_read (m : Mem) (a : ℕ) (inside : k < n) : (m.read a n)[k]? = some (m (a + k)) := by
  induction n generalizing a k with
  | zero => exact absurd inside (Nat.not_lt_zero k)
  | succ n ih =>
    cases k with
    | zero => rfl
    | succ k => rw [read, List.getElem?_cons_succ, ih (a + 1) (Nat.lt_of_succ_lt_succ inside), Nat.add_right_comm, Nat.add_assoc]

theorem write_of_inside (inside : k < bytes.length) : m.write a bytes (a + k) = bytes[k] := by
  rw [write, if_pos (Nat.le_add_right ..), Nat.add_sub_cancel_left, List.getElem?_eq_getElem inside, Option.getD_some]

theorem write_of_outside {x : ℕ} (outside : x < a ∨ a + bytes.length ≤ x) : m.write a bytes x = m x := by
  unfold write
  split
  · rw [List.getElem?_eq_none (by omega), Option.getD_none]
  · rfl

theorem writeLE_of_outside {x : ℕ} (outside : x < a ∨ a + n ≤ x) : m.writeLE a n v x = m x :=
  write_of_outside (by rwa [toBytes_length])

@[simp] theorem write_nil (m : Mem) (a : ℕ) : m.write a [] = m :=
  funext fun x => write_of_outside (Nat.lt_or_ge x a)

theorem write_cons (m : Mem) (a : ℕ) (byte : UInt8) (rest : List UInt8) :
    m.write a (byte :: rest) a = byte := by simp [write]

private theorem read_write_prefix (m : Mem) (a : ℕ) (first second : List UInt8) :
    (m.write a (first ++ second)).read (a + first.length) second.length = second := by
  induction second generalizing first with
  | nil => rfl
  | cons byte rest ih =>
    have next := ih (first ++ [byte])
    rw [List.append_assoc, List.singleton_append, List.length_append, List.length_singleton,
      ← Nat.add_assoc] at next
    have here : m.write a (first ++ byte :: rest) (a + first.length) = byte := by
      rw [write, if_pos (Nat.le_add_right ..), Nat.add_sub_cancel_left,
        List.getElem?_append_right le_rfl, Nat.sub_self]
      rfl
    rw [List.length_cons, read, here, next]

/-- What was written is read back. -/
theorem read_write (m : Mem) (a : ℕ) (bytes : List UInt8) :
    (m.write a bytes).read a bytes.length = bytes := read_write_prefix m a [] bytes

/-- A write elsewhere does not matter. -/
theorem read_write_apart (apart : a + n ≤ b ∨ b + bytes.length ≤ a) :
    (m.write b bytes).read a n = m.read a n :=
  read_congr fun x low high => write_of_outside (by omega)

theorem readLE_writeLE (m : Mem) (a n v : ℕ) : (m.writeLE a n v).readLE a n = v % 256 ^ n := by
  have same := read_write m a (toBytes n v)
  rw [toBytes_length] at same
  rw [readLE, writeLE, same, ofBytes_toBytes]

theorem readLE_write_apart (apart : a + n ≤ b ∨ b + bytes.length ≤ a) :
    (m.write b bytes).readLE a n = m.readLE a n := by
  rw [readLE, readLE, read_write_apart apart]

theorem readLE_writeLE_apart (apart : a + n ≤ b ∨ b + k ≤ a) :
    (m.writeLE b k v).readLE a n = m.readLE a n :=
  readLE_write_apart (by rwa [toBytes_length])

/-- A write inside a span replaces that part of it. -/
theorem read_write_inside (m : Mem) (a : ℕ) {offset : ℕ} (inside : offset + bytes.length ≤ n) :
    (m.write (a + offset) bytes).read a n = overwrite (m.read a n) offset bytes := by
  obtain ⟨rest, rfl⟩ := Nat.exists_eq_add_of_le inside
  have before : (m.write (a + offset) bytes).read a offset = m.read a offset :=
    read_write_apart (by omega)
  have after : (m.write (a + offset) bytes).read (a + (offset + bytes.length)) rest =
      m.read (a + (offset + bytes.length)) rest := read_write_apart (by omega)
  have here := read_write m (a + offset) bytes
  rw [read_add, read_add, before, here, after, read_add, read_add]
  simp [overwrite, List.drop_append]

end Mem

end Biefircate
