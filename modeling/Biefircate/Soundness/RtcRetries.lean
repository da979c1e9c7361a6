import Biefircate.Soundness.Int1aReturn

/-! # The retries of the clock

Function 0x02 of int 0x1a reads the clock until two readings agree, and has a counter to give up with. Two readings that
differ in hours or minutes do not count, and a reading that has timed out is compared like any other. The time comes in bounded
time, and as read twice, if and only if the first two readings that are taken to agree come soon enough and are complete, or
the readings differ in seconds or daylight saving time alone until the counter runs out.
-/

namespace Biefircate.Int1a

open Machine

variable {cmos : ℕ → UInt8} {s t : Cpu} {seen : List Cpu} {below : List Slot} {ip cs flags : UInt16} {k : ℕ}

/-- The registers have the time that both of the last two readings gave. -/
def ReadTwice (cmos : ℕ → UInt8) (seen : List Cpu) (t : Cpu) : Prop :=
  ∃ before first second time, seen = before ++ [first, second] ∧
    reading cmos first.reads = some time ∧ reading cmos second.reads = some time ∧
    hiByte t.cx = time.hr ∧ loByte t.cx = time.min ∧ hiByte t.dx = time.sec ∧ loByte t.dx = time.dst

/-- The handler returns within 65536 rounds of two readings each, with an error or the time. -/
def TimeRead (cmos : ℕ → UInt8) (s : Cpu) : Prop :=
  ∃ seen t, Finishes (step cmos) atReadRtc s seen t ∧ (∃ cs ip, t.place = .returned cs ip) ∧
    seen.length ≤ 2 * 65536 ∧ (t.cf = false → ReadTwice cmos seen t)

/-- A run that has read the clock more often. -/
theorem not_timeRead (passes : Passes (step cmos) atReadRtc s seen t) (many : 2 * 65536 < seen.length) : ¬ TimeRead cmos s := by
  rintro ⟨seen, t, finishes, -, bounded, -⟩
  obtain ⟨rest, rfl, -⟩ := passes.finishes finishes
  rw [List.length_append] at bounded
  omega

/-! ## Readings -/

theorem RtcTime.eq_of_regs {first second : RtcTime} (sameCx : first.cx = second.cx) (sameDx : first.dx = second.dx) :
    first = second := by
  obtain ⟨hr, min⟩ := ofHalves_inj.mp sameCx
  obtain ⟨sec, dst⟩ := ofHalves_inj.mp sameDx
  cases first
  cases second
  cases hr
  cases min
  cases sec
  cases dst
  rfl

/-- Two complete readings agree if the handler takes them to. -/
theorem RoundRegs.Agrees.readings {r : RoundRegs} (agrees : r.Agrees cmos) (complete : r.Complete cmos) :
    ∃ time, reading cmos r.pos = some time ∧ reading cmos (r.mid cmos) = some time ∧
      (r.second cmos) = (time.cx, time.dx) := by
  obtain ⟨earlier, first⟩ := Option.isSome_iff_exists.mp complete.1
  obtain ⟨later, second⟩ := Option.isSome_iff_exists.mp complete.2
  obtain ⟨sameCx, sameDx⟩ := agrees
  simp only [SameCx, SameDx, RoundRegs.first, RoundRegs.second, first, second, Option.elim_some] at sameCx sameDx
  obtain rfl := RtcTime.eq_of_regs sameCx sameDx
  refine ⟨earlier, first, second, ?_⟩
  rw [RoundRegs.second, second]
  rfl

/-! ## Outcomes -/

section

variable (at_ : s.place = .inside wait0x02) (count : s.si = 0)
include at_ count

/-- The first round in which two readings are taken to agree is the last one. -/
theorem agree_finishes {bx ax ip cs : UInt16} {word : Slot}
    (stack : s.stack = .value bx :: .value ax :: .value ip :: .value cs :: word :: below)
    (none : ∀ j < k, ¬ (rounds cmos s.roundRegs j).Agrees cmos) (agrees : (rounds cmos s.roundRegs k).Agrees cmos)
    (small : k < 65536) : ∃ before first second t, Finishes (step cmos) atReadRtc s (before ++ [first, second]) t ∧
      before.length = 2 * k ∧ first.reads = (rounds cmos s.roundRegs k).pos ∧
      second.reads = (rounds cmos s.roundRegs k).mid cmos ∧ t.place = .returned cs ip ∧ t.cf = false ∧
      (t.cx, t.dx) = (rounds cmos s.roundRegs k).second cmos := by
  have few : retries cmos s.roundRegs k < 65536 := lt_of_le_of_lt (retries_le cmos s.roundRegs k) small
  obtain ⟨before, u, passes, length, at_, _, stack', regs⟩ := rounds_pass at_ count none few
  obtain ⟨again, cf, reads, outcome⟩ := round_cases cmos u at_
  rw [regs] at outcome reads
  rw [stack] at stack'
  rcases outcome with ⟨_, round⟩ | ⟨differs, _⟩
  · have finishes := (passes.trans round).after
      (@ok_finishes cmos (roundEnd cmos u u.si true cf ok0x02) _ _ _ _ _ _ stack')
    rw [List.append_nil] at finishes
    refine ⟨before, u, again, _, finishes, length, congrArg RoundRegs.pos regs, reads, rfl, rfl, ?_⟩
    rw [← regs]
    rfl
  · exact absurd agrees differs

/-- If every round counts, the counter runs out after the last one that there may be. -/
theorem counted_finishes {bx ax si ip cs : UInt16} {word : Slot}
    (stack : s.stack = .value bx :: .value ax :: .value si :: .value ip :: .value cs :: word :: below)
    (counted : ∀ k < 65536, (rounds cmos s.roundRegs k).SameCx cmos ∧ ¬ (rounds cmos s.roundRegs k).SameDx cmos) :
    ∃ seen t, Finishes (step cmos) atReadRtc s seen t ∧ seen.length = 2 * 65536 ∧ t.place = .returned cs ip ∧ t.cf = true := by
  have none : ∀ j < 65535, ¬ (rounds cmos s.roundRegs j).Agrees cmos := fun j before agrees =>
    (counted j (Nat.lt_succ_of_lt before)).2 agrees.2
  have down : retries cmos s.roundRegs 65535 = 65535 := retries_eq fun j before => (counted j (Nat.lt_succ_of_lt before)).1
  obtain ⟨before, u, passes, length, at_, left, stack', regs⟩ := rounds_pass at_ count none (down.trans_lt (Nat.lt_succ_self 65535))
  obtain ⟨again, cf, -, outcome⟩ := round_cases cmos u at_
  obtain ⟨same, differs⟩ := counted 65535 (Nat.lt_succ_self 65535)
  rw [regs] at outcome
  rw [stack] at stack'
  have one : u.si = 1 := by
    rw [left, down]
    rfl
  rcases outcome with ⟨agrees, _⟩ | ⟨_, ⟨_, _, round⟩ | ⟨_, more, _⟩ | ⟨unlike, _⟩⟩
  · exact absurd agrees.2 differs
  · refine ⟨_, _, (passes.trans round).after (last_finishes stack'), ?_, rfl, rfl⟩
    rw [List.append_nil, List.length_append, length]
    exact (Nat.mul_succ 2 65535).symm
  · exact absurd one more
  · exact absurd same unlike

/-- If not every round counts, and the readings never agree, there is one round more. -/
theorem reads_on (none : ∀ k < 65536, ¬ (rounds cmos s.roundRegs k).Agrees cmos) {k : ℕ} (small : k < 65536)
    (differs : ¬ (rounds cmos s.roundRegs k).SameCx cmos) :
    ∃ seen t, Passes (step cmos) atReadRtc s seen t ∧ 2 * 65536 < seen.length := by
  obtain ⟨before, u, passes, length, at_, -⟩ := rounds_pass at_ count none (retries_lt differs small)
  obtain ⟨again, _, _, read, -⟩ := readings_pass cmos u at_
  refine ⟨_, _, passes.trans read, ?_⟩
  rw [List.length_append, length]
  exact Nat.lt_add_of_pos_right Nat.two_pos

end

/-! ## Function 0x02 -/

section

variable (entry : s.place = .inside isr16x1a) (stack : s.stack = .value ip :: .value cs :: .value flags :: below)
  (ah : hiByte s.ax = 2)
include entry stack ah

theorem untrusted_timeRead (untrusted : cmos s.reads &&& diagBad ≠ 0) : TimeRead cmos s := by
  have finishes := untrusted_finishes entry ah untrusted stack
  exact ⟨_, _, finishes, ⟨cs, ip, rfl⟩, Nat.zero_le _, fun success => nomatch success⟩

/-- If two readings are taken to agree, all is well if and only if they are complete. -/
theorem agree_timeRead_iff (trusted : cmos s.reads &&& diagBad = 0)
    (none : ∀ j < k, ¬ (rounds cmos (firstRound s).roundRegs j).Agrees cmos)
    (agrees : (rounds cmos (firstRound s).roundRegs k).Agrees cmos) (small : k < 65536) :
    TimeRead cmos s ↔ (rounds cmos (firstRound s).roundRegs k).Complete cmos := by
  have started := firstRound_passes entry ah trusted
  obtain ⟨before, first, second, t, finishes, length, firstAt, secondAt, place, success, regs⟩ :=
    agree_finishes rfl rfl (firstRound_stack stack) none agrees small
  have finishes : Finishes (step cmos) atReadRtc s (before ++ [first, second]) t := started.after finishes
  constructor
  · rintro ⟨seen, t', finishes', -, -, twice⟩
    obtain ⟨rfl, rfl⟩ := finishes.unique finishes'
    obtain ⟨before', first', second', time, split, earlier, later, -⟩ := twice success
    obtain ⟨-, same⟩ := List.append_inj' split rfl
    cases same
    rw [firstAt] at earlier
    rw [secondAt] at later
    exact ⟨earlier ▸ rfl, later ▸ rfl⟩
  · intro complete
    obtain ⟨time, earlier, later, given⟩ := agrees.readings complete
    rw [given] at regs
    obtain ⟨cx, dx⟩ := Prod.mk.inj regs
    refine ⟨_, t, finishes, ⟨_, _, place⟩, ?_, fun _ => ?_⟩
    · rw [List.length_append, length]
      exact Nat.mul_le_mul_left 2 small
    · refine ⟨before, first, second, time, rfl, firstAt ▸ earlier, secondAt ▸ later, ?_⟩
      rw [cx, dx, RtcTime.cx, RtcTime.dx, hiByte_ofHalves, loByte_ofHalves, hiByte_ofHalves, loByte_ofHalves]
      exact ⟨rfl, rfl, rfl, rfl⟩

theorem counted_timeRead (trusted : cmos s.reads &&& diagBad = 0)
    (counted : ∀ k < 65536, (rounds cmos (firstRound s).roundRegs k).SameCx cmos ∧
      ¬ (rounds cmos (firstRound s).roundRegs k).SameDx cmos) : TimeRead cmos s := by
  have started := firstRound_passes entry ah trusted
  obtain ⟨seen, t, finishes, length, place, failure⟩ := counted_finishes rfl rfl (firstRound_stack stack) counted
  refine ⟨_, t, started.after finishes, ⟨_, _, place⟩, length.le, fun success => ?_⟩
  rw [failure] at success
  cases success

/-- Function 0x02 returns the time or an error in bounded time if and only if it does not trust the clock, or the first two
readings of a round that are taken to agree are complete and come before the counter can run out, or every round counts. -/
theorem fn0x02_timeRead_iff : TimeRead cmos s ↔
    cmos s.reads &&& diagBad ≠ 0 ∨
    (∃ k < 65536, (∀ j < k, ¬ (rounds cmos (firstRound s).roundRegs j).Agrees cmos) ∧
      (rounds cmos (firstRound s).roundRegs k).Agrees cmos ∧ (rounds cmos (firstRound s).roundRegs k).Complete cmos) ∨
    ∀ k < 65536, (rounds cmos (firstRound s).roundRegs k).SameCx cmos ∧
      ¬ (rounds cmos (firstRound s).roundRegs k).SameDx cmos := by
  constructor
  · intro time
    rcases Classical.em (cmos s.reads &&& diagBad = 0) with trusted | untrusted
    · right
      rcases Classical.em (∃ k < 65536, (rounds cmos (firstRound s).roundRegs k).Agrees cmos) with some | none
      · left
        obtain ⟨small, agrees⟩ := Nat.find_spec some
        have first : ∀ j < Nat.find some, ¬ (rounds cmos (firstRound s).roundRegs j).Agrees cmos := fun j before agrees =>
          Nat.find_min some before ⟨before.trans small, agrees⟩
        exact ⟨_, small, first, agrees, (agree_timeRead_iff entry stack ah trusted first agrees small).mp time⟩
      · right
        have disagree : ∀ k < 65536, ¬ (rounds cmos (firstRound s).roundRegs k).Agrees cmos := fun k small agrees =>
          none ⟨k, small, agrees⟩
        have started := firstRound_passes entry ah trusted
        intro k small
        have same : (rounds cmos (firstRound s).roundRegs k).SameCx cmos := by
          -- Otherwise another round would come after all that there may be.
          apply Classical.byContradiction
          intro differs
          obtain ⟨_, _, passes, many⟩ := reads_on rfl rfl disagree small differs
          exact not_timeRead (started.trans passes) many time
        exact ⟨same, fun agrees => disagree k small ⟨same, agrees⟩⟩
    · exact .inl untrusted
  · rcases Classical.em (cmos s.reads &&& diagBad = 0) with trusted | untrusted
    · rintro (untrusted | ⟨k, small, none, agrees, complete⟩ | counted)
      · exact absurd trusted untrusted
      · exact (agree_timeRead_iff entry stack ah trusted none agrees small).mpr complete
      · exact counted_timeRead entry stack ah trusted counted
    · exact fun _ => untrusted_timeRead entry stack ah untrusted

end

theorem fn0x02_timeRead_iff_midnight : TimeRead midnight (caller 2) := by
  have agrees : (firstRound (caller 2)).roundRegs.Agrees midnight := ⟨rfl, rfl⟩
  have complete : (firstRound (caller 2)).roundRegs.Complete midnight := ⟨rfl, rfl⟩
  apply (fn0x02_timeRead_iff rfl rfl (hiByte_ofHalves 2 0)).mpr
  exact .inr (.inl ⟨0, by decide, fun j before => absurd before (Nat.not_lt_zero j), agrees, complete⟩)

/-! ## A clock that never stops updating -/

/-- Only the diagnostic status is not the update flag. -/
def updating (pos : ℕ) : UInt8 := if pos = 0 then 0 else rtcAUip

theorem pollUip_updating {pos : ℕ} (late : 0 < pos) (left : ℕ) : pollUip updating left pos = none := by
  induction left generalizing pos with
  | zero => rfl
  | succ left ih =>
    have set : updating pos &&& rtcAUip ≠ 0 := by
      rw [updating, if_neg (Nat.ne_of_gt late)]
      decide
    rw [pollUip, if_neg set, ih (Nat.succ_pos pos)]

theorem reading_updating {pos : ℕ} (late : 0 < pos) : reading updating pos = none := by
  rw [reading, pollUip_updating late, Option.map_none]

theorem readingEnd_updating {pos : ℕ} (late : 0 < pos) : 0 < readingEnd updating pos := by
  rw [readingEnd, pollUip_updating late]
  exact Nat.add_pos_left late 65536

section

variable {r : RoundRegs}

/-- Readings that time out have the handler compare what was in CX and AX before. -/
theorem timedOut_round (late : 0 < r.pos) :
    (r.first updating).1 = r.cx ∧ (r.second updating).1 = r.ax ∧ 0 < (r.next updating).pos := by
  have mid : 0 < r.mid updating := readingEnd_updating late
  rw [RoundRegs.first, RoundRegs.second, reading_updating late, reading_updating mid]
  exact ⟨rfl, rfl, readingEnd_updating mid⟩

theorem rounds_updating (late : 0 < r.pos) (unlike : r.cx ≠ r.ax) (k : ℕ) :
    0 < (rounds updating r k).pos ∧ (rounds updating r k).cx ≠ (rounds updating r k).ax := by
  induction k with
  | zero => exact ⟨late, unlike⟩
  | succ k ih =>
    obtain ⟨late, unlike⟩ := ih
    obtain ⟨first, second, later⟩ := timedOut_round late
    refine ⟨later, ?_⟩
    rw [rounds, RoundRegs.next, first, second]
    exact unlike.symm

theorem differs_updating (late : 0 < r.pos) (unlike : r.cx ≠ r.ax) (k : ℕ) : ¬ (rounds updating r k).SameCx updating := by
  obtain ⟨late, unlike⟩ := rounds_updating late unlike k
  obtain ⟨first, second, -⟩ := timedOut_round late
  rw [RoundRegs.SameCx, first, second]
  exact unlike

end

/-- The handler reads on and on. -/
theorem fn0x02_readsOn : ¬ TimeRead updating (caller 2) := by
  have unlike : (firstRound (caller 2)).roundRegs.cx ≠ (firstRound (caller 2)).roundRegs.ax := fun same => by
    have value : 2 = 2 * 256 + 0 := (congrArg UInt16.toNat same).trans (toNat_ofHalves 2 0)
    omega
  have differs := differs_updating (Nat.succ_pos 0) unlike
  have started := @firstRound_passes updating (caller 2) rfl (hiByte_ofHalves 2 0) (by decide)
  obtain ⟨_, _, passes, many⟩ := reads_on rfl rfl (fun k _ agrees => differs k agrees.1) (Nat.succ_pos 65535) (differs 0)
  exact not_timeRead (started.trans passes) many

end Biefircate.Int1a
