import Biefircate.Lib.Ring
import Biefircate.Model.Stage2.Kb

/-! # The keyboard buffer as a queue

The slots of the buffer form a ring. Where the buffer does not lie over the keyboard variables, `addKey`
adds the key to the queue in the ring, or leaves memory alone when only one slot is free.
-/

namespace Biefircate.Kb

variable {bda bda' : Mem} {a : ℕ}

def head (bda : Mem) : ℕ := bda.readLE kbBufHead 2
def tail (bda : Mem) : ℕ := bda.readLE kbBufTail 2
def start (bda : Mem) : ℕ := bda.readLE kbBufStart 2
def stop (bda : Mem) : ℕ := bda.readLE kbBufEnd 2

/-- The offset is that of a slot of the buffer. -/
def OnSlot (bda : Mem) (a : ℕ) : Prop := start bda ≤ a ∧ a < stop bda ∧ 2 ∣ a - start bda

/-- A buffer with its head and tail. -/
structure Ready (bda : Mem) : Prop where
  ordered : start bda < stop bda
  even : 2 ∣ stop bda - start bda
  headOn : OnSlot bda (head bda)
  tailOn : OnSlot bda (tail bda)

/-- The buffer does not lie over the status bytes, the head and tail, or its own bounds. -/
structure Clear (bda : Mem) : Prop where
  position : stop bda ≤ kbStat1 ∨ kbBufTail + 2 ≤ start bda
  bounds : stop bda ≤ kbBufStart ∨ kbBufEnd + 2 ≤ start bda

/-! ## The ring -/

def slots (bda : Mem) : ℕ := (stop bda - start bda) / 2

/-- The number of the slot at an offset. -/
def slotAt (bda : Mem) (a : ℕ) : ℕ := (a - start bda) / 2

def word (bda : Mem) (i : ℕ) : ℕ := bda.readLE (start bda + 2 * i) 2

/-- The words from the head up to the tail. -/
def queue (bda : Mem) : List ℕ := Ring.contents (word bda) (slots bda) (slotAt bda (head bda)) (slotAt bda (tail bda))

theorem stop_lt (bda : Mem) : stop bda < 2 ^ 16 := bda.readLE_lt kbBufEnd 2

theorem OnSlot.eq (on : OnSlot bda a) : a = start bda + 2 * slotAt bda a := by
  obtain ⟨low, -, even⟩ := on
  unfold slotAt
  omega

theorem OnSlot.slotAt_lt (ready : Ready bda) (on : OnSlot bda a) : slotAt bda a < slots bda := by
  obtain ⟨low, high, even⟩ := on
  have whole := ready.even
  unfold slotAt slots
  omega

/-- The last byte of a slot is in the buffer. -/
theorem OnSlot.fits (ready : Ready bda) (on : OnSlot bda a) : a + 2 ≤ stop bda := by
  obtain ⟨low, high, even⟩ := on
  have whole := ready.even
  omega

theorem onSlot_of_lt {i : ℕ} (inside : i < slots bda) : OnSlot bda (start bda + 2 * i) := by
  unfold slots at inside
  refine ⟨by omega, by omega, by omega⟩

theorem slotAt_start (bda : Mem) (i : ℕ) : slotAt bda (start bda + 2 * i) = i := by
  unfold slotAt
  omega

/-- The offset after a slot, with the test that `handle_code` makes for the end of the buffer. -/
theorem next_offset (ready : Ready bda) (on : OnSlot bda a) :
    (if Word.sub 16 (stop bda) (Word.add 16 a 2) < 2 then start bda else Word.add 16 a 2) =
      start bda + 2 * Ring.next (slots bda) (slotAt bda a) := by
  have fits := on.fits ready
  have below := stop_lt bda
  have place := on.eq
  have whole := ready.even
  rw [Word.add_of_lt (by omega), Word.sub_of_le fits below]
  unfold Ring.next slots
  split <;> split <;> omega

/-- The length of the queue is the number of slots from head to tail. -/
theorem queue_length (bda : Mem) :
    (queue bda).length = Ring.count (slots bda) (slotAt bda (head bda)) (slotAt bda (tail bda)) :=
  Ring.contents_length

theorem queue_length_lt (ready : Ready bda) : (queue bda).length < slots bda := by
  rw [queue_length]
  exact Ring.count_lt (ready.tailOn.slotAt_lt ready)

/-! ## Memory that keeps the buffer where it is -/

/-- The bounds of the buffer are the same. -/
structure SameBuffer (bda bda' : Mem) : Prop where
  start : start bda' = start bda
  stop : stop bda' = stop bda

namespace SameBuffer

theorem refl (bda : Mem) : SameBuffer bda bda := ⟨rfl, rfl⟩

theorem trans {bda'' : Mem} (first : SameBuffer bda bda') (second : SameBuffer bda' bda'') :
    SameBuffer bda bda'' := ⟨second.start.trans first.start, second.stop.trans first.stop⟩

variable (same : SameBuffer bda bda')
include same

theorem slots : slots bda' = slots bda := by rw [Kb.slots, Kb.slots, same.start, same.stop]

theorem slotAt (a : ℕ) : slotAt bda' a = slotAt bda a := by rw [Kb.slotAt, Kb.slotAt, same.start]

theorem onSlot : OnSlot bda' a ↔ OnSlot bda a := by rw [OnSlot, OnSlot, same.start, same.stop]

theorem clear (clear : Clear bda) : Clear bda' := by
  obtain ⟨position, bounds⟩ := clear
  constructor
  · rwa [same.start, same.stop]
  · rwa [same.start, same.stop]

theorem ready (ready : Ready bda) (headOn : OnSlot bda (head bda')) (tailOn : OnSlot bda (tail bda')) :
    Ready bda' where
  ordered := by rw [same.start, same.stop]; exact ready.ordered
  even := by rw [same.start, same.stop]; exact ready.even
  headOn := same.onSlot.mpr headOn
  tailOn := same.onSlot.mpr tailOn

end SameBuffer

/-! ## Adding a key -/

/-- One slot of the buffer is free. -/
def Full (bda : Mem) : Prop := (queue bda).length = slots bda - 1

theorem full_iff (ready : Ready bda) :
    Full bda ↔ Ring.next (slots bda) (slotAt bda (tail bda)) = slotAt bda (head bda) := by
  rw [Full, queue_length]
  exact (Ring.next_tail_eq_head_iff (ready.headOn.slotAt_lt ready) (ready.tailOn.slotAt_lt ready)).symm

/-- What `addKey` does, in terms of slots. -/
theorem addKey_eq (ready : Ready bda) (key : ℕ) :
    addKey bda key = if Ring.next (slots bda) (slotAt bda (tail bda)) = slotAt bda (head bda) then bda
      else (bda.writeLE (tail bda) 2 key).writeLE kbBufTail 2
        (start bda + 2 * Ring.next (slots bda) (slotAt bda (tail bda))) := by
  have next := next_offset ready ready.tailOn
  have place := ready.headOn.eq
  have test : start bda + 2 * Ring.next (slots bda) (slotAt bda (tail bda)) = head bda ↔
      Ring.next (slots bda) (slotAt bda (tail bda)) = slotAt bda (head bda) := by omega
  unfold addKey
  unfold tail start stop at next
  simp only [next]
  exact if_congr test rfl rfl

/-- Memory after a key was added, before its status bytes count. -/
structure Added (bda bda' : Mem) (key : ℕ) : Prop where
  buffer : SameBuffer bda bda'
  head : head bda' = head bda
  tailOn : OnSlot bda (tail bda')
  queue : queue bda' = queue bda ++ [key % 0x10000]

theorem addKey_full (ready : Ready bda) (full : Full bda) (key : ℕ) : addKey bda key = bda := by
  rw [addKey_eq ready, if_pos ((full_iff ready).mp full)]

theorem addKey_room (ready : Ready bda) (clear : Clear bda) (room : ¬ Full bda) (key : ℕ) :
    Added bda (addKey bda key) key := by
  have ⟨position, bounds⟩ := clear
  have fits := ready.tailOn.fits ready
  obtain ⟨low, -, -⟩ := ready.tailOn
  have headSlot := ready.headOn.slotAt_lt ready
  have tailSlot := ready.tailOn.slotAt_lt ready
  have nextOn := onSlot_of_lt (Ring.next_lt tailSlot)
  have free : Ring.next (slots bda) (slotAt bda (tail bda)) ≠ slotAt bda (head bda) := by
    rwa [Ne, ← full_iff ready]
  rw [addKey_eq ready, if_neg free]
  generalize next : start bda + 2 * Ring.next (slots bda) (slotAt bda (tail bda)) = newTail at nextOn ⊢
  have nextFits : newTail < 0x10000 := lt_trans nextOn.2.1 (stop_lt bda)
  generalize left : (bda.writeLE (tail bda) 2 key).writeLE kbBufTail 2 newTail = bda'
  -- Both writes miss the other variables, and the write of the tail misses the buffer.
  have tailIs : tail bda' = newTail := by
    rw [← left, tail, Mem.readLE_writeLE]
    exact Nat.mod_eq_of_lt nextFits
  have apart : ∀ b, b + 2 ≤ kbBufTail ∨ kbBufTail + 2 ≤ b → b + 2 ≤ tail bda ∨ tail bda + 2 ≤ b →
      bda'.readLE b 2 = bda.readLE b 2 := by
    intro b offTail offSlot
    rw [← left, Mem.readLE_writeLE_apart offTail, Mem.readLE_writeLE_apart offSlot]
  have startIs : start bda' = start bda := apart kbBufStart (by decide) (by
    simp only [kbBufStart, kbBufEnd] at bounds ⊢; omega)
  have stopIs : stop bda' = stop bda := apart kbBufEnd (by decide) (by
    simp only [kbBufStart, kbBufEnd] at bounds ⊢; omega)
  have headIs : head bda' = head bda := apart kbBufHead (by decide) (by
    simp only [kbBufHead, kbBufTail, kbStat1] at position ⊢; omega)
  have buffer : SameBuffer bda bda' := ⟨startIs, stopIs⟩
  have others : ∀ i < slots bda, i ≠ slotAt bda (tail bda) → word bda' i = word bda i := by
    intro i inside other
    have place := ready.tailOn.eq
    rw [word, word, startIs]
    apply apart
    · simp only [kbBufTail, kbStat1] at position ⊢
      have := (onSlot_of_lt inside).fits ready
      omega
    · omega
  have here : word bda' (slotAt bda (tail bda)) = key % 0x10000 := by
    have off : tail bda + 2 ≤ kbBufTail ∨ kbBufTail + 2 ≤ tail bda := by
      simp only [kbBufTail, kbStat1] at position ⊢
      omega
    rw [word, startIs, ← ready.tailOn.eq, ← left, Mem.readLE_writeLE_apart off, Mem.readLE_writeLE]
    rfl
  refine ⟨buffer, headIs, tailIs ▸ nextOn, ?_⟩
  rw [queue, buffer.slots, buffer.slotAt, buffer.slotAt, headIs, tailIs, ← next, slotAt_start,
    Ring.contents_append headSlot tailSlot free others, here, ← queue]

/-- In any data area, adding a key writes the slot at the tail and the tail. -/
theorem addKey_frame (bda : Mem) (key : ℕ) (offSlot : a < tail bda ∨ tail bda + 2 ≤ a)
    (offTail : a < kbBufTail ∨ kbBufTail + 2 ≤ a) : addKey bda key a = bda a := by
  have stored : ∀ v, (bda.writeLE (tail bda) 2 key).writeLE kbBufTail 2 v a = bda a := by
    intro v
    rw [Mem.writeLE_of_outside offTail, Mem.writeLE_of_outside offSlot]
  simp only [addKey]
  split
  · split
    · rfl
    · exact stored _
  · split
    · rfl
    · exact stored _

/-! ## The status bytes -/

/-- The words of the queue are the same when its bounds, its ends and its bytes are. -/
theorem queue_congr (ready : Ready bda) (buffer : SameBuffer bda bda') (headIs : head bda' = head bda)
    (tailIs : tail bda' = tail bda) (bytes : ∀ x, start bda ≤ x → x < stop bda → bda' x = bda x) :
    queue bda' = queue bda := by
  have words : ∀ i < slots bda, i ≠ slotAt bda (tail bda) → word bda' i = word bda i := by
    intro i inside _
    have fits := (onSlot_of_lt inside).fits ready
    rw [word, word, buffer.start]
    exact Mem.readLE_congr fun x low high => bytes x (by omega) (by omega)
  rw [queue, buffer.slots, buffer.slotAt, buffer.slotAt, headIs, tailIs]
  exact Ring.contents_congr (ready.headOn.slotAt_lt ready) (ready.tailOn.slotAt_lt ready) words

/-- Storing the status leaves every other byte as it was. -/
theorem stat_of_ne (bda : Mem) (s : KbStat) {x : ℕ} (first : x ≠ kbStat1) (second : x ≠ kbStat2) :
    bda.write kbStat1 [s.stat1, s.stat2] x = bda x := by
  apply Mem.write_of_outside
  simp only [kbStat1, kbStat2, List.length_cons, List.length_nil] at first second ⊢
  omega

/-- Memory with the buffer, its ends and its words as they were. -/
structure Kept (bda bda' : Mem) : Prop where
  buffer : SameBuffer bda bda'
  head : head bda' = head bda
  tail : tail bda' = tail bda
  queue : queue bda' = queue bda

theorem Kept.ready (kept : Kept bda bda') (ready : Ready bda) : Ready bda' :=
  kept.buffer.ready ready (kept.head ▸ ready.headOn) (kept.tail ▸ ready.tailOn)

theorem Kept.full (kept : Kept bda bda') : Full bda' ↔ Full bda := by
  rw [Full, Full, kept.queue, kept.buffer.slots]

theorem kept_stat (ready : Ready bda) (clear : Clear bda) (s : KbStat) :
    Kept bda (bda.write kbStat1 [s.stat1, s.stat2]) := by
  have variable_same : ∀ b, kbBufHead ≤ b → (bda.write kbStat1 [s.stat1, s.stat2]).readLE b 2 = bda.readLE b 2 := by
    intro b above
    apply Mem.readLE_write_apart
    simp only [kbBufHead, kbStat1, List.length_cons, List.length_nil] at above ⊢
    omega
  have buffer : SameBuffer bda (bda.write kbStat1 [s.stat1, s.stat2]) :=
    ⟨variable_same kbBufStart (by decide), variable_same kbBufEnd (by decide)⟩
  have headIs : head (bda.write kbStat1 [s.stat1, s.stat2]) = head bda := variable_same kbBufHead (by decide)
  have tailIs : tail (bda.write kbStat1 [s.stat1, s.stat2]) = tail bda := variable_same kbBufTail (by decide)
  refine ⟨buffer, headIs, tailIs, queue_congr ready buffer headIs tailIs fun x low high => ?_⟩
  have position := clear.position
  simp only [kbStat1, kbBufTail] at position
  exact stat_of_ne bda s (by simp only [kbStat1]; omega) (by simp only [kbStat2]; omega)

/-! ## Taking a key -/

/-- A reader finds nothing exactly when the queue is empty. -/
theorem readKey_eq_none_iff (ready : Ready bda) : readKey bda = none ↔ queue bda = [] := by
  have empty : queue bda = [] ↔ slotAt bda (head bda) = slotAt bda (tail bda) :=
    Ring.contents_eq_nil_iff (ready.headOn.slotAt_lt ready) (ready.tailOn.slotAt_lt ready)
  have headPlace := ready.headOn.eq
  have tailPlace := ready.tailOn.eq
  have none : readKey bda = none ↔ head bda = tail bda := by
    unfold readKey head tail
    simp
  rw [none, empty]
  omega

/-- Memory after the word at the head was taken. -/
structure Taken (bda bda' : Mem) (key : ℕ) : Prop where
  buffer : SameBuffer bda bda'
  tail : tail bda' = tail bda
  headOn : OnSlot bda (head bda')
  queue : queue bda = key :: queue bda'

/-- What a reader does, in terms of slots. -/
theorem readKey_eq (ready : Ready bda) :
    readKey bda = if head bda = tail bda then none
      else some (bda.readLE (head bda) 2,
        bda.writeLE kbBufHead 2 (start bda + 2 * Ring.next (slots bda) (slotAt bda (head bda)))) := by
  have place := ready.headOn.eq
  have next : (if head bda + 2 = stop bda then start bda else head bda + 2) =
      start bda + 2 * Ring.next (slots bda) (slotAt bda (head bda)) := by
    have whole := ready.even
    have fits := ready.headOn.fits ready
    unfold Ring.next slots
    split <;> split <;> omega
  unfold head start stop at next
  unfold readKey
  simp only [next]
  rfl

theorem readKey_some (ready : Ready bda) (clear : Clear bda) {key : ℕ} (read : readKey bda = some (key, bda')) :
    Taken bda bda' key := by
  have position := clear.position
  have headSlot := ready.headOn.slotAt_lt ready
  have tailSlot := ready.tailOn.slotAt_lt ready
  have headPlace := ready.headOn.eq
  have tailPlace := ready.tailOn.eq
  have nextOn := onSlot_of_lt (Ring.next_lt headSlot)
  have nextFits := lt_trans nextOn.2.1 (stop_lt bda)
  rw [readKey_eq ready, Option.ite_none_left_eq_some] at read
  obtain ⟨pending, taken⟩ := read
  obtain ⟨rfl, left⟩ := Prod.mk.inj (Option.some.inj taken)
  have apart : ∀ b, b + 2 ≤ kbBufHead ∨ kbBufHead + 2 ≤ b → bda'.readLE b 2 = bda.readLE b 2 := by
    intro b off
    rw [← left, Mem.readLE_writeLE_apart off]
  have headIs : head bda' = start bda + 2 * Ring.next (slots bda) (slotAt bda (head bda)) := by
    rw [← left, head, Mem.readLE_writeLE]
    exact Nat.mod_eq_of_lt nextFits
  have buffer : SameBuffer bda bda' := ⟨apart kbBufStart (by decide), apart kbBufEnd (by decide)⟩
  have tailIs : tail bda' = tail bda := apart kbBufTail (by decide)
  have words : ∀ i < slots bda, i ≠ slotAt bda (tail bda) → word bda' i = word bda i := by
    intro i inside _
    have fits := (onSlot_of_lt inside).fits ready
    rw [word, word, buffer.start]
    apply apart
    simp only [kbStat1, kbBufTail, kbBufHead] at position ⊢
    omega
  have apartSlots : slotAt bda (head bda) ≠ slotAt bda (tail bda) := by omega
  refine ⟨buffer, tailIs, headIs ▸ nextOn, ?_⟩
  rw [queue, queue, buffer.slots, buffer.slotAt, buffer.slotAt, headIs, tailIs, slotAt_start,
    Ring.contents_cons headSlot tailSlot apartSlots,
    Ring.contents_congr (Ring.next_lt headSlot) tailSlot words, word, ← headPlace]

end Biefircate.Kb
