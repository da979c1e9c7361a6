import Mathlib.Data.Int.Basic
import Mathlib.Data.List.Induction
import Biefircate.Proofs.Stage2.Time

/-! # No tick and no midnight is lost

Timer interrupts, reads and sets of the time come in any order, from a zeroed data area on. The timer stays
below a day. Until a set is accepted, the interrupts are the days that reads have returned, with those not
yet returned, and the change of the timer, if no 256 midnights pass without a read.
-/

namespace Biefircate.Time

inductive Event where
  | irq0
  | getTime
  | setTime (cx dx : UInt16)
deriving DecidableEq

def step (bda : Mem) : Event → Mem
  | .irq0 => Biefircate.irq0 bda
  | .getTime => (isr16x1aFn0x00 bda).2
  | .setTime cx dx => isr16x1aFn0x01 bda cx dx

def exec (bda : Mem) (events : List Event) : Mem := events.foldl step bda

@[simp] theorem exec_append (bda : Mem) (first second : List Event) :
    exec bda (first ++ second) = exec (exec bda first) second := List.foldl_append ..

/-- The sum of the values of `al` that reads return. -/
def returned (bda : Mem) : List Event → ℕ
  | [] => 0
  | event :: rest =>
    (if event = .getTime then (isr16x1aFn0x00 bda).1.al else 0) + returned (step bda event) rest

/-- The timer interrupts that fall on midnight. -/
def rollovers (bda : Mem) : List Event → ℕ
  | [] => 0
  | event :: rest => (if event = .irq0 ∧ AtMidnight bda then 1 else 0) + rollovers (step bda event) rest

/-- An event that moves the timer other than by a tick. -/
def Event.Accepted : Event → Prop
  | .setTime cx dx => pair cx dx < ticksPerDay
  | _ => False

/-- From boot on, fewer than 256 midnights pass in any window without a read that ends in the stretch. -/
def ReadInTime (past stretch : List Event) : Prop :=
  ∀ earlier window later, earlier ++ window ++ later = past ++ stretch → later.length ≤ stretch.length →
    Event.getTime ∉ window → rollovers (exec .zero earlier) window < 256

/-! ## One event -/

theorem timer_step {bda : Mem} (below : timer bda < ticksPerDay) (event : Event) :
    timer (step bda event) < ticksPerDay := by
  cases event with
  | irq0 =>
    by_cases midnight : AtMidnight bda
    · exact (irq0_midnight midnight).1 ▸ lt_of_le_of_lt (Nat.zero_le _) below
    · have next : timer (Biefircate.irq0 bda) = timer bda + 1 := (irq0_day below midnight).1
      unfold AtMidnight at midnight
      change timer (Biefircate.irq0 bda) < _
      omega
  | getTime => exact (fn0x00_spec bda).2.2.1 ▸ below
  | setTime cx dx =>
    by_cases valid : pair cx dx < ticksPerDay
    · rw [step, (fn0x01_accepted valid).1]
      exact valid
    · rw [step, fn0x01_refused valid]
      exact below

theorem timer_lt (events : List Event) : timer (exec .zero events) < ticksPerDay := by
  have start : timer .zero < ticksPerDay := by decide +kernel
  unfold exec
  generalize Mem.zero = bda at start
  induction events generalizing bda with
  | nil => exact start
  | cons event rest ih => exact ih _ (timer_step start event)

/-- The overflow byte counts midnights until it is read. -/
theorem timerOvf_step {bda : Mem} (below : timer bda < ticksPerDay) {event : Event} (unread : event ≠ .getTime) :
    timerOvf (step bda event) = (timerOvf bda + rollovers bda [event]) % 256 := by
  have byte := timerOvf_lt bda
  cases event with
  | irq0 =>
    by_cases midnight : AtMidnight bda
    · simp only [rollovers, midnight, and_self, if_true, Nat.add_zero]
      exact (irq0_midnight midnight).2
    · simp only [rollovers, midnight, and_false, if_false, Nat.add_zero, Nat.mod_eq_of_lt byte]
      exact (irq0_day below midnight).2
  | getTime => exact absurd rfl unread
  | setTime cx dx =>
    simp only [rollovers, reduceCtorEq, false_and, if_false, Nat.add_zero, Nat.mod_eq_of_lt byte]
    exact fn0x01_timerOvf bda cx dx

/-- Time passes in one event: the days returned and those not yet returned count no midnight twice, unless
the overflow byte wraps. -/
theorem balance_step {bda : Mem} (below : timer bda < ticksPerDay) {event : Event} (free : ¬ event.Accepted)
    (room : timerOvf bda + rollovers bda [event] < 256) :
    [event].count .irq0 + ticksPerDay * timerOvf bda + timer bda =
      ticksPerDay * (returned bda [event] + timerOvf (step bda event)) + timer (step bda event) := by
  cases event with
  | irq0 =>
    by_cases midnight : AtMidnight bda
    · have ⟨timerIs, ovfIs⟩ := irq0_midnight midnight
      simp only [rollovers, midnight, and_self, if_true, Nat.add_zero] at room
      rw [Nat.mod_eq_of_lt room] at ovfIs
      unfold AtMidnight at midnight
      simp only [step, returned, timerIs, ovfIs, reduceCtorEq, if_false, List.count_cons_self, List.count_nil,
        Nat.zero_add, Nat.mul_add]
      omega
    · have ⟨timerIs, ovfIs⟩ := irq0_day below midnight
      simp only [step, returned, timerIs, ovfIs, reduceCtorEq, if_false, List.count_cons_self, List.count_nil,
        Nat.zero_add]
      omega
  | getTime =>
    obtain ⟨-, al, timerIs, ovfIs⟩ := fn0x00_spec bda
    simp only [step, returned, al, timerIs, ovfIs, if_true, List.count_singleton]
    simp
  | setTime cx dx =>
    have same : step bda (.setTime cx dx) = bda := fn0x01_refused free
    simp [same, returned]

/-! ## Runs -/

theorem rollovers_append (bda : Mem) (first second : List Event) :
    rollovers bda (first ++ second) = rollovers bda first + rollovers (exec bda first) second := by
  induction first generalizing bda with
  | nil => simp [rollovers, exec]
  | cons event rest ih =>
    rw [List.cons_append, rollovers, rollovers, ih, Nat.add_assoc]
    rfl

/-- At any time the overflow byte is the number, modulo 256, of the midnights since the last read. -/
theorem exists_window (past : List Event) : ∃ earlier window, past = earlier ++ window ∧
    Event.getTime ∉ window ∧ timerOvf (exec .zero past) = rollovers (exec .zero earlier) window % 256 := by
  induction past using List.reverseRecOn with
  | nil => exact ⟨[], [], rfl, List.not_mem_nil, by decide +kernel⟩
  | append_singleton past event ih =>
    have stepped : exec .zero (past ++ [event]) = step (exec .zero past) event := exec_append ..
    by_cases read : event = .getTime
    · subst read
      refine ⟨past ++ [.getTime], [], (List.append_nil _).symm, List.not_mem_nil, ?_⟩
      rw [stepped]
      exact (fn0x00_spec _).2.2.2
    · obtain ⟨earlier, window, cut, unread, counted⟩ := ih
      refine ⟨earlier, window ++ [event], by rw [cut, List.append_assoc], ?_, ?_⟩
      · simp only [List.mem_append, List.mem_singleton, not_or]
        exact ⟨unread, fun same => read same.symm⟩
      · rw [stepped, timerOvf_step (timer_lt past) read, rollovers_append, counted, ← exec_append, ← cut, Nat.mod_add_mod]

/-- With reads in time the next event does not wrap the overflow byte. -/
theorem ReadInTime.room {past rest : List Event} {event : Event} (inTime : ReadInTime past (event :: rest)) :
    timerOvf (exec .zero past) + rollovers (exec .zero past) [event] < 256 := by
  obtain ⟨earlier, window, cut, unread, counted⟩ := exists_window past
  by_cases read : event = .getTime
  · subst read
    exact timerOvf_lt _
  · have longer := inTime earlier (window ++ [event]) rest (by rw [cut]; simp) (by simp) (by
      simp only [List.mem_append, List.mem_singleton, not_or]
      exact ⟨unread, fun same => read same.symm⟩)
    rw [rollovers_append, ← exec_append, ← cut] at longer
    rw [counted, Nat.mod_eq_of_lt (by omega)]
    exact longer

theorem ReadInTime.next {past rest : List Event} {event : Event} (inTime : ReadInTime past (event :: rest)) :
    ReadInTime (past ++ [event]) rest := by
  intro earlier window later whole late unread
  refine inTime earlier window later ?_ (by rw [List.length_cons]; omega) unread
  rw [whole, List.append_assoc, List.singleton_append]

theorem balance {past stretch : List Event} (free : ∀ event ∈ stretch, ¬ event.Accepted)
    (inTime : ReadInTime past stretch) :
    stretch.count .irq0 + ticksPerDay * timerOvf (exec .zero past) + timer (exec .zero past) =
      ticksPerDay * (returned (exec .zero past) stretch + timerOvf (exec .zero (past ++ stretch))) +
        timer (exec .zero (past ++ stretch)) := by
  induction stretch generalizing past with
  | nil => simp [returned]
  | cons event rest ih =>
    have first := balance_step (timer_lt past) (free event List.mem_cons_self) inTime.room
    have later := ih (fun other member => free other (List.mem_cons_of_mem _ member)) inTime.next
    have stepped : exec .zero (past ++ [event]) = step (exec .zero past) event := exec_append ..
    have split : returned (exec .zero past) (event :: rest) =
        returned (exec .zero past) [event] + returned (step (exec .zero past) event) rest := by
      simp [returned]
    rw [stepped, List.append_assoc, List.singleton_append] at later
    rw [List.count_cons, split]
    rw [List.count_singleton] at first
    simp only [Nat.mul_add] at first later ⊢
    omega

/-- What the time services keep, in the state after a stretch of a run from boot. -/
structure Kept (past stretch : List Event) : Prop where
  below : timer (exec .zero (past ++ stretch)) < ticksPerDay
  set : ∀ cx dx, pair cx dx < ticksPerDay →
    timer (step (exec .zero (past ++ stretch)) (.setTime cx dx)) = pair cx dx ∧
      ∀ x, x < bdaTimer ∨ bdaTimer + 4 ≤ x →
        step (exec .zero (past ++ stretch)) (.setTime cx dx) x = exec .zero (past ++ stretch) x
  refused : ∀ cx dx, ¬ pair cx dx < ticksPerDay →
    step (exec .zero (past ++ stretch)) (.setTime cx dx) = exec .zero (past ++ stretch)
  conserved : (∀ event ∈ stretch, ¬ event.Accepted) → ReadInTime past stretch →
    (stretch.count .irq0 : ℤ) = ticksPerDay * (returned (exec .zero past) stretch +
      timerOvf (exec .zero (past ++ stretch)) - timerOvf (exec .zero past)) +
        timer (exec .zero (past ++ stretch)) - timer (exec .zero past)

/-- Over every run from a zeroed data area and every stretch of it. -/
theorem time_kept (past stretch : List Event) : Kept past stretch where
  below := timer_lt _
  set _ _ valid := fn0x01_accepted valid
  refused _ _ late := fn0x01_refused late
  conserved free inTime := by
    have law := balance free inTime
    simp only [Nat.mul_add] at law
    simp only [mul_add, mul_sub]
    omega

theorem rollovers_le_length (bda : Mem) (events : List Event) : rollovers bda events ≤ events.length := by
  induction events generalizing bda with
  | nil => exact le_rfl
  | cons event rest ih =>
    have later := ih (step bda event)
    rw [rollovers, List.length_cons]
    split <;> omega

/-- A short run needs no read at all. -/
theorem readInTime_of_short {past stretch : List Event} (short : (past ++ stretch).length < 256) :
    ReadInTime past stretch := by
  intro earlier window later whole _ _
  have bound := rollovers_le_length (exec .zero earlier) window
  rw [← whole, List.length_append, List.length_append] at short
  omega

def overMidnight : List Event := [.irq0, .irq0, .getTime, .irq0]

/-- From two ticks before midnight on, a read returns the midnight. -/
theorem time_kept_midnight : Kept [.setTime 0x18 0xae] overMidnight ∧
    (overMidnight.count .irq0 : ℤ) = ticksPerDay * (returned (exec .zero [.setTime 0x18 0xae]) overMidnight +
      timerOvf (exec .zero ([.setTime 0x18 0xae] ++ overMidnight)) - timerOvf (exec .zero [.setTime 0x18 0xae])) +
        timer (exec .zero ([.setTime 0x18 0xae] ++ overMidnight)) - timer (exec .zero [.setTime 0x18 0xae]) := by
  refine ⟨time_kept _ _, (time_kept _ _).conserved ?_ (readInTime_of_short (by decide))⟩
  intro event member accepted
  simp only [overMidnight, List.mem_cons, List.not_mem_nil, or_false] at member
  obtain rfl | rfl | rfl | rfl := member <;> exact accepted

end Biefircate.Time
