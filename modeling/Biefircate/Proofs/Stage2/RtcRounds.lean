import Biefircate.Proofs.Stage2.Int1a

/-! # Function 0x02 of int 0x1a

A round reads the clock twice. A reading that times out leaves in the registers what was there before: the first one of a round
a value from the round before, the second one the date half of the first. The rounds are a function of the CMOS bytes and of
the registers that the handler is called with.
-/

namespace Biefircate.Int1a

open Machine

variable {cmos : ℕ → UInt8} {s t : Cpu} {seen : List Cpu} {stack below : List Slot}

/-! ## Rounds -/

/-- Where a round starts in the CMOS bytes, and the registers that a reading may leave alone. -/
structure RoundRegs where
  pos : ℕ
  ax : UInt16
  cx : UInt16
  dx : UInt16
deriving DecidableEq, Repr

/-- The registers at the start of a round. -/
def Cpu.roundRegs (s : Cpu) : RoundRegs := ⟨s.reads, s.ax, s.cx, s.dx⟩

namespace RoundRegs

/-- Hours and minutes, seconds and daylight saving time, as the handler has them after the first reading. -/
def first (cmos : ℕ → UInt8) (r : RoundRegs) : UInt16 × UInt16 :=
  ((reading cmos r.pos).elim r.cx RtcTime.cx, (reading cmos r.pos).elim r.dx RtcTime.dx)

/-- Where the second reading starts. -/
def mid (cmos : ℕ → UInt8) (r : RoundRegs) : ℕ := readingEnd cmos r.pos

/-- The same after the second reading. -/
def second (cmos : ℕ → UInt8) (r : RoundRegs) : UInt16 × UInt16 :=
  ((reading cmos (r.mid cmos)).elim r.ax RtcTime.cx, (reading cmos (r.mid cmos)).elim (r.first cmos).2 RtcTime.dx)

/-- The registers after a round. -/
def next (cmos : ℕ → UInt8) (r : RoundRegs) : RoundRegs :=
  ⟨readingEnd cmos (r.mid cmos), (r.first cmos).1, (r.second cmos).1, (r.second cmos).2⟩

/-- The handler takes the two readings for the same in hours and minutes. -/
def SameCx (cmos : ℕ → UInt8) (r : RoundRegs) : Prop := (r.first cmos).1 = (r.second cmos).1

/-- The same in seconds and daylight saving time. -/
def SameDx (cmos : ℕ → UInt8) (r : RoundRegs) : Prop := (r.first cmos).2 = (r.second cmos).2

instance (cmos : ℕ → UInt8) (r : RoundRegs) : Decidable (r.SameCx cmos) := inferInstanceAs (Decidable (_ = _))
instance (cmos : ℕ → UInt8) (r : RoundRegs) : Decidable (r.SameDx cmos) := inferInstanceAs (Decidable (_ = _))

/-- Neither reading times out. -/
def Complete (cmos : ℕ → UInt8) (r : RoundRegs) : Prop :=
  (reading cmos r.pos).isSome = true ∧ (reading cmos (r.mid cmos)).isSome = true

end RoundRegs

/-- The state after the readings of a round, with a value of the retry counter and the code that comes next. -/
def roundEnd (cmos : ℕ → UInt8) (s : Cpu) (si : UInt16) (zf cf : Bool) (code : List Instr) : Cpu :=
  { s with ax := (s.roundRegs.first cmos).1, bx := (s.roundRegs.first cmos).2, cx := (s.roundRegs.second cmos).1,
           dx := (s.roundRegs.second cmos).2, si := si, zf := zf, cf := cf, reads := (s.roundRegs.next cmos).pos }.doing code

theorem roundRegs_roundEnd (cmos : ℕ → UInt8) (s : Cpu) (si : UInt16) (zf cf : Bool) (code : List Instr) :
    (roundEnd cmos s si zf cf code).roundRegs = s.roundRegs.next cmos := rfl

/-- The state between the two readings, with the code that comes next. -/
def between (cmos : ℕ → UInt8) (s : Cpu) (zf cf : Bool) (code : List Instr) : Cpu :=
  { s with ax := (s.roundRegs.first cmos).1, bx := (s.roundRegs.first cmos).2, cx := s.ax,
           dx := (s.roundRegs.first cmos).2, zf := zf, cf := cf, reads := s.roundRegs.mid cmos }.doing code

/-- The two readings of a round. -/
theorem readings_pass (cmos : ℕ → UInt8) (s : Cpu) (at_ : s.place = .inside wait0x02) : ∃ again zf cf,
    Passes (step cmos) atReadRtc s [s, again] (roundEnd cmos s s.si zf cf (wait0x02.drop 4)) ∧
      again.reads = s.roundRegs.mid cmos := by
  obtain ⟨zf, cf, earlier⟩ := readRtc_passes cmos s at_
  obtain ⟨zf', cf', later⟩ := readRtc_passes cmos (between cmos s zf cf (wait0x02.drop 3)) rfl
  refine ⟨between cmos s zf cf (wait0x02.drop 3), zf', cf', earlier.trans ?_, rfl⟩
  refine Passes.head rfl rfl (Passes.head rfl rfl ?_)
  exact later

/-! ## Before the first round -/

/-- The state at the start of the first round. Three registers have been saved. -/
def firstRound (s : Cpu) : Cpu :=
  { s with si := 0, zf := true, cf := false, reads := s.reads + 1,
           stack := .value 4 :: .value s.bx :: .value s.ax :: .value s.si :: s.stack }.doing wait0x02

theorem firstRound_stack (saved : s.stack = stack) :
    (firstRound s).stack = .value 4 :: .value s.bx :: .value s.ax :: .value s.si :: stack := by
  rw [← saved]
  rfl

theorem fn0x02_passes (entry : s.place = .inside isr16x1a) (ah : hiByte s.ax = 2) : ∃ cf,
    Passes (step cmos) atReadRtc s [] ({ s with si := 4, zf := cmos s.reads &&& diagBad == 0, cf := cf, reads := s.reads + 1,
                                                stack := .value s.si :: s.stack }.doing (fn0x02.drop 1)) := by
  obtain ⟨zf, cf, entered⟩ := dispatch_passes cmos s entry ah (by decide) (show _ = some .fn0x02 from rfl)
  exact ⟨false, entered.trans (isRtcOk_passes cmos _ rfl)⟩

theorem firstRound_passes (entry : s.place = .inside isr16x1a) (ah : hiByte s.ax = 2)
    (trusted : cmos s.reads &&& diagBad = 0) : Passes (step cmos) atReadRtc s [] (firstRound s) := by
  have flag : (cmos s.reads &&& diagBad == 0) = true := beq_iff_eq.mpr trusted
  obtain ⟨cf, checked⟩ := fn0x02_passes entry ah
  rw [flag] at checked
  refine checked.trans (Passes.head rfl rfl ?_)
  dsimp only [Cpu.doing, Cpu.jumpIf, Bool.not_true]
  iterate 4
    refine Passes.head rfl rfl ?_
    dsimp only [Cpu.doing, Cpu.get, Cpu.set, Cpu.flags]
  rw [UInt16.xor_self]
  exact Passes.refl _

/-! ## The end of a round -/

section

variable (si : UInt16) (zf cf : Bool)

/-- Hours and minutes differ: another round, which the counter does not count. -/
theorem differs_passes (differs : ¬ s.roundRegs.SameCx cmos) : ∃ cf',
    Passes (step cmos) atReadRtc (roundEnd cmos s si zf cf (wait0x02.drop 4)) [] (roundEnd cmos s si false cf' wait0x02) := by
  have flag : ((s.roundRegs.first cmos).1 == (s.roundRegs.second cmos).1) = false := beq_eq_false_iff_ne.mpr differs
  refine ⟨decide ((s.roundRegs.first cmos).1 < (s.roundRegs.second cmos).1), Passes.head rfl rfl (Passes.head rfl rfl ?_)⟩
  simp only [roundEnd, Cpu.doing, Cpu.get, Cpu.flags, Cpu.jumpIf, flag, Bool.not_false, if_true]
  exact Passes.refl _

/-- Hours and minutes are the same, so the rest is compared. -/
theorem same_passes (same : s.roundRegs.SameCx cmos) :
    Passes (step cmos) atReadRtc (roundEnd cmos s si zf cf (wait0x02.drop 4)) [] (roundEnd cmos s si
      ((s.roundRegs.first cmos).2 == (s.roundRegs.second cmos).2)
      ((s.roundRegs.first cmos).2 < (s.roundRegs.second cmos).2) (wait0x02.drop 7)) := by
  have flag : ((s.roundRegs.first cmos).1 == (s.roundRegs.second cmos).1) = true := beq_iff_eq.mpr same
  refine Passes.head rfl rfl (Passes.head rfl rfl ?_)
  simp only [roundEnd, Cpu.doing, Cpu.get, Cpu.flags, Cpu.jumpIf, flag, Bool.not_true, Bool.false_eq_true, if_false]
  exact Passes.head rfl rfl (Passes.refl _)

/-- The two readings are the same. -/
theorem agrees_passes (same : s.roundRegs.SameCx cmos) (agrees : s.roundRegs.SameDx cmos) : ∃ cf',
    Passes (step cmos) atReadRtc (roundEnd cmos s si zf cf (wait0x02.drop 4)) [] (roundEnd cmos s si true cf' ok0x02) := by
  have flag : ((s.roundRegs.first cmos).2 == (s.roundRegs.second cmos).2) = true := beq_iff_eq.mpr agrees
  have compared := same_passes si zf cf same
  rw [flag] at compared
  refine ⟨decide ((s.roundRegs.first cmos).2 < (s.roundRegs.second cmos).2), compared.trans (Passes.head rfl rfl ?_)⟩
  simp only [roundEnd, Cpu.doing, Cpu.jumpIf, if_true]
  exact Passes.refl _

/-- The rest differs: the retry counter goes down. -/
theorem retry_passes (same : s.roundRegs.SameCx cmos) (differs : ¬ s.roundRegs.SameDx cmos) : ∃ cf',
    Passes (step cmos) atReadRtc (roundEnd cmos s si zf cf (wait0x02.drop 4)) []
      (roundEnd cmos s (si - 1) (si - 1 == 0) cf' (wait0x02.drop 9)) := by
  have flag : ((s.roundRegs.first cmos).2 == (s.roundRegs.second cmos).2) = false := beq_eq_false_iff_ne.mpr differs
  have compared := same_passes si zf cf same
  rw [flag] at compared
  refine ⟨decide ((s.roundRegs.first cmos).2 < (s.roundRegs.second cmos).2), compared.trans (Passes.head rfl rfl ?_)⟩
  simp only [roundEnd, Cpu.doing, Cpu.jumpIf, Bool.false_eq_true, if_false]
  exact Passes.head rfl rfl (Passes.refl _)

theorem again_passes (more : si ≠ 0) : Passes (step cmos) atReadRtc (roundEnd cmos s si (si == 0) cf (wait0x02.drop 9)) []
    (roundEnd cmos s si false cf wait0x02) := by
  have flag : (si == 0) = false := beq_eq_false_iff_ne.mpr more
  rw [flag]
  refine Passes.head rfl rfl ?_
  simp only [roundEnd, Cpu.doing, Cpu.jumpIf, Bool.not_false, if_true]
  exact Passes.refl _

theorem last_passes : Passes (step cmos) atReadRtc (roundEnd cmos s 0 (0 == 0) cf (wait0x02.drop 9)) []
    (roundEnd cmos s 0 true cf (wait0x02.drop 10)) := by
  refine Passes.head rfl rfl ?_
  exact Passes.refl _

end

/-! ## The exits -/

/-- The success exit, on the stack that the rounds leave: two words short of where the handler was entered. -/
theorem ok_finishes {bx ax ip cs : UInt16} {word : Slot}
    (stack : s.stack = .value bx :: .value ax :: .value ip :: .value cs :: word :: below) :
    Finishes (step cmos) atReadRtc (s.doing ok0x02) []
      { s with bx := bx, ax := ax, cf := false, stack := below, place := .returned cs ip } := by
  obtain ⟨_, _, cx, dx, si, bp, ds, zf, cf, _, mem, reads, place⟩ := s
  cases stack
  refine ⟨?_, rfl⟩
  iterate 5
    refine Passes.head rfl rfl ?_
    dsimp only [Cpu.doing, Cpu.get, Cpu.set]
  exact Passes.refl _

/-- The error exit. -/
theorem error_finishes {si ip cs : UInt16} {word : Slot}
    (stack : s.stack = .value si :: .value ip :: .value cs :: word :: below) :
    Finishes (step cmos) atReadRtc (s.doing error) []
      { s with si := si, cf := true, stack := below, place := .returned cs ip } := by
  obtain ⟨ax, bx, cx, dx, _, bp, ds, zf, cf, _, mem, reads, place⟩ := s
  cases stack
  refine ⟨?_, rfl⟩
  iterate 5
    refine Passes.head rfl rfl ?_
    dsimp only [Cpu.doing, Cpu.get, Cpu.set]
  exact Passes.refl _

/-- The error exit, after the last retry. -/
theorem last_finishes {bx ax si ip cs : UInt16} {word : Slot}
    (stack : s.stack = .value bx :: .value ax :: .value si :: .value ip :: .value cs :: word :: below) :
    Finishes (step cmos) atReadRtc (s.doing (wait0x02.drop 10)) []
      { s with bx := bx, ax := ax, si := si, cf := true, stack := below, place := .returned cs ip } := by
  obtain ⟨_, _, cx, dx, _, bp, ds, zf, cf, _, mem, reads, place⟩ := s
  cases stack
  refine ⟨?_, rfl⟩
  iterate 7
    refine Passes.head rfl rfl ?_
    dsimp only [Cpu.doing, Cpu.get, Cpu.set]
  exact Passes.refl _

/-- If the clock is not to be trusted, nothing has been saved yet. -/
theorem untrusted_finishes {ip cs : UInt16} {word : Slot} (entry : s.place = .inside isr16x1a) (ah : hiByte s.ax = 2)
    (untrusted : cmos s.reads &&& diagBad ≠ 0) (stack : s.stack = .value ip :: .value cs :: word :: below) :
    Finishes (step cmos) atReadRtc s []
      { s with zf := false, cf := true, stack := below, reads := s.reads + 1, place := .returned cs ip } := by
  have flag : (cmos s.reads &&& diagBad == 0) = false := beq_eq_false_iff_ne.mpr untrusted
  obtain ⟨cf, checked⟩ := @fn0x02_passes cmos s entry ah
  rw [flag, stack] at checked
  have jumped : Passes (step cmos) atReadRtc s [] ({ s with si := 4, zf := false, cf := cf, reads := s.reads + 1,
                                                            stack := .value s.si :: .value ip :: .value cs :: word :: below }.doing
      error) := checked.trans (Passes.head rfl rfl (Passes.refl _))
  exact Passes.after jumped (error_finishes rfl)

/-! ## Whole rounds -/

/-- The handler takes the two readings for the same. -/
def RoundRegs.Agrees (cmos : ℕ → UInt8) (r : RoundRegs) : Prop := r.SameCx cmos ∧ r.SameDx cmos

instance (cmos : ℕ → UInt8) (r : RoundRegs) : Decidable (r.Agrees cmos) := inferInstanceAs (Decidable (_ ∧ _))

/-- A round comes to the success exit, to the error exit, or to the next round. The retry counter counts the rounds in which
hours and minutes are the same. -/
theorem round_cases (cmos : ℕ → UInt8) (s : Cpu) (at_ : s.place = .inside wait0x02) : ∃ again cf,
    again.reads = s.roundRegs.mid cmos ∧
    (s.roundRegs.Agrees cmos ∧ Passes (step cmos) atReadRtc s [s, again] (roundEnd cmos s s.si true cf ok0x02) ∨
      ¬ s.roundRegs.Agrees cmos ∧ (s.roundRegs.SameCx cmos ∧ s.si = 1 ∧
          Passes (step cmos) atReadRtc s [s, again] (roundEnd cmos s 0 true cf (wait0x02.drop 10)) ∨
        s.roundRegs.SameCx cmos ∧ s.si ≠ 1 ∧
          Passes (step cmos) atReadRtc s [s, again] (roundEnd cmos s (s.si - 1) false cf wait0x02) ∨
        ¬ s.roundRegs.SameCx cmos ∧
          Passes (step cmos) atReadRtc s [s, again] (roundEnd cmos s s.si false cf wait0x02))) := by
  obtain ⟨again, zf, cf, read, reads⟩ := readings_pass cmos s at_
  rcases Classical.em (s.roundRegs.SameCx cmos) with same | differs
  · rcases Classical.em (s.roundRegs.SameDx cmos) with agrees | differs
    · obtain ⟨cf', compared⟩ := agrees_passes s.si zf cf same agrees
      exact ⟨again, cf', reads, .inl ⟨⟨same, agrees⟩, read.trans compared⟩⟩
    · obtain ⟨cf', compared⟩ := retry_passes s.si zf cf same differs
      refine ⟨again, cf', reads, .inr ⟨fun agrees => differs agrees.2, ?_⟩⟩
      rcases Classical.em (s.si = 1) with last | more
      · have zero : s.si - 1 = 0 := by
          rw [last]
          rfl
        rw [zero] at compared
        exact .inl ⟨same, last, read.trans (compared.trans (last_passes cf'))⟩
      · have nonzero : s.si - 1 ≠ 0 := fun zero => more (sub_eq_zero.mp zero)
        exact .inr (.inl ⟨same, more, read.trans (compared.trans (again_passes _ cf' nonzero))⟩)
  · obtain ⟨cf', compared⟩ := differs_passes s.si zf cf differs
    exact ⟨again, cf', reads, .inr ⟨fun agrees => differs agrees.1, .inr (.inr ⟨differs, read.trans compared⟩)⟩⟩

/-! ## Many rounds -/

/-- The registers at the start of a round, by its number. -/
def rounds (cmos : ℕ → UInt8) (r : RoundRegs) : ℕ → RoundRegs
  | 0 => r
  | k + 1 => (rounds cmos r k).next cmos

/-- How often the retry counter has gone down at the start of a round. -/
def retries (cmos : ℕ → UInt8) (r : RoundRegs) : ℕ → ℕ
  | 0 => 0
  | k + 1 => if (rounds cmos r k).SameCx cmos then retries cmos r k + 1 else retries cmos r k

section

variable {r : RoundRegs} {k n : ℕ}

theorem retries_le_succ (cmos : ℕ → UInt8) (r : RoundRegs) (k : ℕ) : retries cmos r k ≤ retries cmos r (k + 1) := by
  rw [retries]
  split
  · exact Nat.le_succ _
  · exact le_rfl

theorem retries_le (cmos : ℕ → UInt8) (r : RoundRegs) (k : ℕ) : retries cmos r k ≤ k := by
  induction k with
  | zero => exact le_rfl
  | succ k ih =>
    rw [retries]
    split
    · exact Nat.succ_le_succ ih
    · exact Nat.le_succ_of_le ih

/-- A round in which hours and minutes differ is never made up for. -/
theorem retries_lt (differs : ¬ (rounds cmos r k).SameCx cmos) (later : k < n) : retries cmos r n < n := by
  induction n with
  | zero => exact absurd later (Nat.not_lt_zero k)
  | succ n ih =>
    rw [retries]
    rcases Nat.lt_succ_iff_lt_or_eq.mp later with later | rfl
    · split
      · exact Nat.succ_lt_succ (ih later)
      · exact Nat.lt_succ_of_lt (ih later)
    · rw [if_neg differs]
      exact Nat.lt_succ_of_le (retries_le cmos r k)

theorem retries_eq (same : ∀ j < k, (rounds cmos r j).SameCx cmos) : retries cmos r k = k := by
  induction k with
  | zero => rfl
  | succ k ih => rw [retries, if_pos (same k (Nat.lt_succ_self k)), ih fun j before => same j (Nat.lt_succ_of_lt before)]

/-- The retry counter counts down from zero. -/
theorem counter_succ (n : ℕ) : 0 - UInt16.ofNat n - 1 = 0 - UInt16.ofNat (n + 1) := by
  rw [UInt16.ofNat_add, sub_sub]
  rfl

theorem counter_eq_zero (small : n < 65536) : 0 - UInt16.ofNat n = 0 ↔ n = 0 := by
  rw [zero_sub, neg_eq_zero, ofNat_eq_zero small]

/-- Rounds go on as long as no two readings agree and the counter does not run out. -/
theorem rounds_pass (at_ : s.place = .inside wait0x02) (count : s.si = 0)
    (none : ∀ j < k, ¬ (rounds cmos s.roundRegs j).Agrees cmos) (few : retries cmos s.roundRegs k < 65536) :
    ∃ seen t, Passes (step cmos) atReadRtc s seen t ∧ seen.length = 2 * k ∧ t.place = .inside wait0x02 ∧
      t.si = 0 - UInt16.ofNat (retries cmos s.roundRegs k) ∧ t.stack = s.stack ∧
      t.roundRegs = rounds cmos s.roundRegs k := by
  induction k with
  | zero => exact ⟨[], s, Passes.refl s, rfl, at_, count.trans ((counter_eq_zero (by decide)).mpr rfl).symm, rfl, rfl⟩
  | succ k ih =>
    have fewer := lt_of_le_of_lt (retries_le_succ cmos s.roundRegs k) few
    obtain ⟨seen, t, passes, length, at_, count, stack, regs⟩ := ih (fun j before => none j (Nat.lt_succ_of_lt before)) fewer
    have disagree := none k (Nat.lt_succ_self k)
    obtain ⟨again, cf, -, outcome⟩ := round_cases cmos t at_
    rw [regs] at outcome
    rw [retries] at few ⊢
    have longer : ∀ two : List Cpu, two.length = 2 → (seen ++ two).length = 2 * (k + 1) := by
      intro two pair
      rw [List.length_append, length, pair, Nat.mul_succ]
    rcases outcome with ⟨agrees, _⟩ | ⟨_, ⟨same, last, _⟩ | ⟨same, _, round⟩ | ⟨differs, round⟩⟩
    · exact absurd agrees disagree
    · rw [if_pos same] at few
      have zero : t.si - 1 = 0 := by
        rw [last]
        rfl
      rw [count, counter_succ, counter_eq_zero few] at zero
      cases zero
    · rw [if_pos same]
      refine ⟨_, _, passes.trans round, longer _ rfl, rfl, ?_, stack, ?_⟩
      · rw [← counter_succ, ← count]
        rfl
      · rw [roundRegs_roundEnd, regs]
        rfl
    · rw [if_neg differs]
      refine ⟨_, _, passes.trans round, longer _ rfl, rfl, count, stack, ?_⟩
      rw [roundRegs_roundEnd, regs]
      rfl

end

end Biefircate.Int1a
