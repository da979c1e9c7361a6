import Biefircate.Lib.Bytes

/-! # Copying within memory

A copy that goes on part by part is described by the memory it started from and the part that it has copied so far. A part may
overlap with what it is copied to. Going up is safe where the copy is to lower addresses, and going down where it is to higher
ones. So is memory that is zeroed part by part.
-/

namespace Biefircate.Mem

variable {m m' : Mem} {dst src lo hi w x : ℕ}

/-- Memory in which the bytes from `lo` up to `hi` of the span at `src` have been copied to the span at `dst`. -/
def copied (m : Mem) (dst src lo hi : ℕ) : Mem :=
  fun x => if dst + lo ≤ x ∧ x < dst + hi then m (src + (x - dst)) else m x

theorem copied_of_outside (outside : x < dst + lo ∨ dst + hi ≤ x) : m.copied dst src lo hi x = m x :=
  if_neg (by omega)

@[simp] theorem copied_empty (m : Mem) (dst src lo : ℕ) : m.copied dst src lo lo = m :=
  funext fun _ => copied_of_outside (by omega)

@[simp] theorem copied_same (m : Mem) (dst lo hi : ℕ) : m.copied dst dst lo hi = m := by
  funext x
  rw [copied]
  split
  · next inside => rw [Nat.add_sub_cancel' (by omega)]
  · rfl

theorem read_copied (m : Mem) (dst src n : ℕ) : (m.copied dst src 0 n).read dst n = m.read src n := by
  apply List.ext_getElem?
  intro k
  rcases Nat.lt_or_ge k n with inside | outside
  · rw [getElem?_read _ _ inside, getElem?_read _ _ inside, copied, if_pos (by omega), Nat.add_sub_cancel_left]
  · rw [List.getElem?_eq_none (by rwa [read_length]), List.getElem?_eq_none (by rwa [read_length])]

/-- A part of what is read. -/
theorem read_part (m : Mem) (a : ℕ) {k n : ℕ} (inside : k + w ≤ n) : m.read (a + k) w = ((m.read a n).drop k).take w := by
  obtain ⟨rest, rfl⟩ := Nat.exists_eq_add_of_le inside
  have first : (m.read a k).length = k := read_length m a k
  have second : (m.read (a + k) w).length = w := read_length m (a + k) w
  rw [Nat.add_assoc, read_add, read_add, List.drop_left' first, List.take_left' second]

/-- What is read alike is read alike in parts. -/
theorem readLE_part {a b k n : ℕ} (same : m.read a n = m'.read b n) (inside : k + w ≤ n) :
    m.readLE (a + k) w = m'.readLE (b + k) w := by
  rw [readLE, readLE, read_part m a inside, read_part m' b inside, same]

/-- What is read where bytes were replaced. -/
theorem readLE_overwrite {a n k v : ℕ} {old : List UInt8} (same : m.read a n = overwrite old k (toBytes w v))
    (inside : k + w ≤ n) (short : k ≤ old.length) : m.readLE (a + k) w = v % 256 ^ w := by
  have first : (old.take k).length = k := List.length_take_of_le short
  rw [readLE, read_part m a inside, same, overwrite, List.append_assoc, List.drop_left' first,
    List.take_left' (toBytes_length w v), ofBytes_toBytes]

/-- What a write of what was read leaves. -/
theorem write_read (m m' : Mem) (dst src w x : ℕ) : m.write dst (m'.read src w) x =
    if dst ≤ x ∧ x < dst + w then m' (src + (x - dst)) else m x := by
  split
  · next inside =>
    obtain ⟨k, rfl⟩ := Nat.exists_eq_add_of_le inside.1
    have below : k < w := by omega
    rw [write, if_pos inside.1, Nat.add_sub_cancel_left, getElem?_read _ _ below, Option.getD_some]
  · next outside => exact write_of_outside (by rw [read_length]; omega)

/-- The next part, when nothing of it was copied to. -/
theorem copied_next (ordered : lo ≤ hi) (apart : dst + hi ≤ src + hi ∨ src + hi + w ≤ dst + lo) :
    (m.copied dst src lo hi).write (dst + hi) ((m.copied dst src lo hi).read (src + hi) w) = m.copied dst src lo (hi + w) := by
  have fresh : (m.copied dst src lo hi).read (src + hi) w = m.read (src + hi) w :=
    read_congr fun x low high => copied_of_outside (by omega)
  funext x
  rw [fresh, write_read]
  split
  · next here => rw [copied, if_pos (by omega), show src + hi + (x - (dst + hi)) = src + (x - dst) by omega]
  · next there =>
    unfold copied
    exact if_congr (by omega) rfl rfl

/-- The next part, going up. -/
theorem copied_up (below : dst ≤ src) (ordered : lo ≤ hi) : (m.copied dst src lo hi).write (dst + hi)
    ((m.copied dst src lo hi).read (src + hi) w) = m.copied dst src lo (hi + w) :=
  copied_next ordered (.inl (Nat.add_le_add_right below hi))

/-- The next part, going down. -/
theorem copied_down (above : src ≤ dst) (ordered : lo + w ≤ hi) : (m.copied dst src (lo + w) hi).write (dst + lo)
    ((m.copied dst src (lo + w) hi).read (src + lo) w) = m.copied dst src lo hi := by
  have fresh : (m.copied dst src (lo + w) hi).read (src + lo) w = m.read (src + lo) w :=
    read_congr fun x low high => copied_of_outside (by omega)
  funext x
  rw [fresh, write_read]
  split
  · next here => rw [copied, if_pos (by omega), show src + lo + (x - (dst + lo)) = src + (x - dst) by omega]
  · next there =>
    unfold copied
    exact if_congr (by omega) rfl rfl

/-! ## Zeros -/

/-- Memory in which the bytes from `lo` up to `hi` are zero. -/
def zeroed (m : Mem) (lo hi : ℕ) : Mem := fun x => if lo ≤ x ∧ x < hi then 0 else m x

theorem zeroed_of_outside (outside : x < lo ∨ hi ≤ x) : m.zeroed lo hi x = m x := if_neg (by omega)

@[simp] theorem zeroed_empty (m : Mem) (lo : ℕ) : m.zeroed lo lo = m := funext fun _ => zeroed_of_outside (by omega)

theorem toBytes_zero (n : ℕ) : toBytes n 0 = List.replicate n 0 := by
  induction n with
  | zero => rfl
  | succ n ih =>
    rw [toBytes, Nat.zero_div, ih, List.replicate_succ]
    rfl

/-- One part after the other. -/
theorem zeroed_zeroed {mid : ℕ} (first : lo ≤ mid) (second : mid ≤ hi) : (m.zeroed lo mid).zeroed mid hi = m.zeroed lo hi := by
  funext x
  unfold zeroed
  rcases Nat.lt_or_ge x mid with before | after
  · rw [if_neg (by omega)]
    exact if_congr (by omega) rfl rfl
  · rw [if_neg (show ¬ (lo ≤ x ∧ x < mid) by omega)]
    exact if_congr (by omega) rfl rfl

/-- The next part. -/
theorem zeroed_up (ordered : lo ≤ hi) : (m.zeroed lo hi).writeLE hi w 0 = m.zeroed lo (hi + w) := by
  funext x
  rcases Nat.lt_or_ge x hi with before | after
  · rw [writeLE_of_outside (.inl before)]
    exact if_congr (by omega) rfl rfl
  · obtain ⟨k, rfl⟩ := Nat.exists_eq_add_of_le after
    rcases Nat.lt_or_ge k w with inside | beyond
    · rw [writeLE, write_of_inside (by rwa [toBytes_length]), zeroed, if_pos (by omega)]
      simp only [toBytes_zero, List.getElem_replicate]
    · rw [writeLE_of_outside (.inr (by omega)), zeroed_of_outside (.inr (by omega)), zeroed_of_outside (.inr (by omega))]

end Biefircate.Mem
