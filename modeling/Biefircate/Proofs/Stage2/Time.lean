import Biefircate.Model.Stage2.Time

/-! # What each time service does to the count

The timer below a day and the overflow byte, after each of the three services.
-/

namespace Biefircate.Time

variable {bda : Mem}

def timer (bda : Mem) : ℕ := bda.readLE bdaTimer 4
def timerOvf (bda : Mem) : ℕ := bda.readLE bdaTimerOvf 1

/-- `cx:dx`. -/
def pair (cx dx : UInt16) : ℕ := cx.toNat * 0x10000 + dx.toNat

theorem timerOvf_lt (bda : Mem) : timerOvf bda < 256 := bda.readLE_lt bdaTimerOvf 1

/-- The next timer interrupt is the last of its day. -/
def AtMidnight (bda : Mem) : Prop := timer bda + 1 = ticksPerDay

instance (bda : Mem) : Decidable (AtMidnight bda) := inferInstanceAs (Decidable (_ = _))

theorem irq0_eq (below : timer bda < ticksPerDay) :
    irq0 bda = if AtMidnight bda then
      (bda.writeLE bdaTimerOvf 1 ((timerOvf bda + 1) % 256)).writeLE bdaTimer 4 0
    else bda.writeLE bdaTimer 4 (timer bda + 1) := by
  have next : Word.add 32 (timer bda) 1 = timer bda + 1 := Word.add_of_lt (by unfold ticksPerDay at below; omega)
  have last : ticksPerDay ≤ timer bda + 1 ↔ AtMidnight bda := by unfold AtMidnight; omega
  unfold timer at next last
  simp only [irq0, next, last]
  rfl

theorem irq0_midnight (midnight : AtMidnight bda) :
    timer (irq0 bda) = 0 ∧ timerOvf (irq0 bda) = (timerOvf bda + 1) % 256 := by
  have below : timer bda < ticksPerDay := by unfold AtMidnight at midnight; omega
  rw [irq0_eq below, if_pos midnight]
  constructor
  · rw [timer, Mem.readLE_writeLE, Nat.zero_mod]
  · rw [timerOvf, Mem.readLE_writeLE_apart (by decide), Mem.readLE_writeLE, pow_one, Nat.mod_mod]

theorem irq0_day (below : timer bda < ticksPerDay) (day : ¬ AtMidnight bda) :
    timer (irq0 bda) = timer bda + 1 ∧ timerOvf (irq0 bda) = timerOvf bda := by
  rw [irq0_eq below, if_neg day]
  constructor
  · rw [timer, Mem.readLE_writeLE]
    exact Nat.mod_eq_of_lt (by unfold ticksPerDay at below; unfold timer at below ⊢; omega)
  · rw [timerOvf, Mem.readLE_writeLE_apart (by decide), ← timerOvf]

/-- Reading the time returns it whole and clears the overflow byte. -/
theorem fn0x00_spec (bda : Mem) :
    (isr16x1aFn0x00 bda).1.cx * 0x10000 + (isr16x1aFn0x00 bda).1.dx = timer bda ∧
      (isr16x1aFn0x00 bda).1.al = timerOvf bda ∧ timer (isr16x1aFn0x00 bda).2 = timer bda ∧
      timerOvf (isr16x1aFn0x00 bda).2 = 0 := by
  have halves := bda.readLE_add bdaTimer 2 2
  refine ⟨?_, rfl, ?_, ?_⟩
  · change bda.readLE (bdaTimer + 2) 2 * 0x10000 + bda.readLE bdaTimer 2 = bda.readLE bdaTimer (2 + 2)
    omega
  · exact Mem.readLE_writeLE_apart (by decide)
  · change (bda.writeLE bdaTimerOvf 1 0).readLE bdaTimerOvf 1 = 0
    rw [Mem.readLE_writeLE, Nat.zero_mod]

/-- The comparison in halves is that of the whole count. -/
theorem pair_lt_iff (cx dx : UInt16) :
    pair cx dx < ticksPerDay ↔ ¬ 0x18 < cx ∧ (cx < 0x18 ∨ ¬ 0x00b0 ≤ dx) := by
  have low := dx.toNat_lt
  simp only [pair, ticksPerDay, UInt16.lt_iff_toNat_lt, UInt16.le_iff_toNat_le, UInt16.reduceToNat]
  omega

theorem fn0x01_eq (bda : Mem) (cx dx : UInt16) :
    isr16x1aFn0x01 bda cx dx = if pair cx dx < ticksPerDay then
      (bda.writeLE (bdaTimer + 2) 2 cx.toNat).writeLE bdaTimer 2 dx.toNat else bda := by
  rw [if_congr (pair_lt_iff cx dx) rfl rfl, isr16x1aFn0x01]
  by_cases above : 0x18 < cx
  · simp [above]
  · by_cases under : cx < 0x18
    · simp [above, under]
    · by_cases late : 0x00b0 ≤ dx <;> simp [above, under, late]

theorem fn0x01_refused {cx dx : UInt16} (late : ¬ pair cx dx < ticksPerDay) : isr16x1aFn0x01 bda cx dx = bda := by
  rw [fn0x01_eq, if_neg late]

/-- Setting the time stores it and nothing else. -/
theorem fn0x01_accepted {cx dx : UInt16} (valid : pair cx dx < ticksPerDay) :
    timer (isr16x1aFn0x01 bda cx dx) = pair cx dx ∧
      ∀ x, x < bdaTimer ∨ bdaTimer + 4 ≤ x → isr16x1aFn0x01 bda cx dx x = bda x := by
  have high := cx.toNat_lt
  have low := dx.toNat_lt
  rw [fn0x01_eq, if_pos valid]
  constructor
  · change ((bda.writeLE (bdaTimer + 2) 2 cx.toNat).writeLE bdaTimer 2 dx.toNat).readLE bdaTimer (2 + 2) = _
    rw [Mem.readLE_add, Mem.readLE_writeLE, Mem.readLE_writeLE_apart (by decide), Mem.readLE_writeLE, pair]
    omega
  · intro x outside
    rw [Mem.writeLE_of_outside (by omega), Mem.writeLE_of_outside (by omega)]

/-- The overflow byte is not part of the time. -/
theorem fn0x01_timerOvf (bda : Mem) (cx dx : UInt16) : timerOvf (isr16x1aFn0x01 bda cx dx) = timerOvf bda := by
  by_cases valid : pair cx dx < ticksPerDay
  · exact Mem.readLE_congr fun x low _ => (fn0x01_accepted valid).2 x (Or.inr low)
  · rw [fn0x01_refused valid]

end Biefircate.Time
