import Biefircate.Lib.Shared
import Biefircate.Soundness.KeyboardBuffer
import Biefircate.Soundness.TimeOfDay

/-! # The clock and the keyboard do not interfere

Timer interrupts, reads and sets of the time, scan codes and reads of keys come in any order, and all of them work in the BIOS
data area. Each side answers as it would alone, as long as the keyboard buffer does not lie over the time.
-/

namespace Biefircate.DataArea

open Shared

/-! ## The two sides -/

/-- An event of the clock; only a read is answered. -/
def timeStep (bda : Mem) (event : Time.Event) : Option TimeRegs × Mem :=
  (if event = .getTime then some (isr16x1aFn0x00 bda).1 else none, Time.step bda event)

/-- An event of the keyboard: the key accepted and the key taken. -/
def kbStep (bda : Mem) : Kb.Event → (Option ℕ × Option ℕ) × Mem
  | .code code => ((Kb.accepts bda code, none), handleCode bda code)
  | .dequeue => ((none, (readKey bda).map Prod.fst), (readKey bda).elim bda Prod.snd)

def timeAt : Set ℕ := Set.Ico bdaTimer (bdaTimerOvf + 1)

/-- The keyboard variables, and a buffer. -/
def kbAt (start stop : ℕ) : Set ℕ :=
  Set.Ico kbStat1 (kbBufTail + 2) ∪ Set.Ico kbBufStart (kbBufEnd + 2) ∪ Set.Ico start stop

/-- A buffer at known bounds. -/
structure KbInv (start stop : ℕ) (bda : Mem) : Prop where
  ready : Kb.Ready bda
  clear : Kb.Clear bda
  bounds : Kb.start bda = start ∧ Kb.stop bda = stop

/-! ## What is served -/

/-- Events of both sides, in the order in which they come. -/
abbrev Events := List (Time.Event ⊕ Kb.Event)

def Events.times (events : Events) : List Time.Event := events.filterMap Sum.getLeft?
def Events.keys (events : Events) : List Kb.Event := events.filterMap Sum.getRight?

/-- The sum of the values of `al` that were answered. -/
def days (answers : List (Option TimeRegs)) : ℕ := (answers.reduceOption.map TimeRegs.al).sum

def served (bda : Mem) (events : Events) : List (Option TimeRegs ⊕ Option ℕ × Option ℕ) × Mem :=
  exec (both timeStep kbStep) bda events

/-- The clock runs as from a zeroed data area, the keyboard as from `bda`, and neither loses anything. -/
structure Served (bda : Mem) (events : Events) : Prop where
  alone : Independent timeAt (kbAt (Kb.start bda) (Kb.stop bda)) bda (served bda events) (exec timeStep Mem.zero events.times)
    (exec kbStep bda events.keys)
  keys : Kb.queue bda ++ ((served bda events).1.filterMap Sum.getRight?).filterMap Prod.fst =
    ((served bda events).1.filterMap Sum.getRight?).filterMap Prod.snd ++ Kb.queue (served bda events).2
  ticks : (∀ event ∈ events.times, ¬ event.Accepted) → Time.ReadInTime [] events.times →
    events.times.count .irq0 = ticksPerDay * (days ((served bda events).1.filterMap Sum.getLeft?) +
      Time.timerOvf (served bda events).2) + Time.timer (served bda events).2

section

variable {bda bda' : Mem} {start stop : ℕ}

/-! ## The clock -/

theorem not_mem_timeAt {x : ℕ} (outside : x ∉ timeAt) : x < bdaTimer ∨ bdaTimer + 5 ≤ x := by
  simp only [timeAt, Set.mem_Ico, bdaTimer, bdaTimerOvf] at outside ⊢
  omega

theorem timeAt_part {a n : ℕ} (low : bdaTimer ≤ a) (high : a + n ≤ bdaTimer + 5) : ∀ x, a ≤ x → x < a + n → x ∈ timeAt := by
  intro x above below
  simp only [timeAt, Set.mem_Ico, bdaTimer, bdaTimerOvf] at low high ⊢
  omega

theorem timer_eqOn (same : timeAt.EqOn bda bda') : bda.readLE bdaTimer 4 = bda'.readLE bdaTimer 4 :=
  readLE_eqOn same (timeAt_part (by decide) (by decide))

theorem timerOvf_eqOn (same : timeAt.EqOn bda bda') : bda.readLE bdaTimerOvf 1 = bda'.readLE bdaTimerOvf 1 :=
  readLE_eqOn same (timeAt_part (by decide) (by decide))

theorem irq0_eqOn {part : Set ℕ} (time : timeAt ⊆ part) (same : part.EqOn bda bda') : part.EqOn (irq0 bda) (irq0 bda') := by
  unfold irq0
  rw [timer_eqOn (same.mono time), timerOvf_eqOn (same.mono time)]
  exact ite_eqOn (writeLE_eqOn (writeLE_eqOn same ..) ..) (writeLE_eqOn same ..)

theorem fn0x01_eqOn (same : timeAt.EqOn bda bda') (cx dx : UInt16) :
    timeAt.EqOn (isr16x1aFn0x01 bda cx dx) (isr16x1aFn0x01 bda' cx dx) := by
  rw [Time.fn0x01_eq, Time.fn0x01_eq]
  exact ite_eqOn (writeLE_eqOn (writeLE_eqOn same ..) ..) same

theorem fn0x00_eqOn (same : timeAt.EqOn bda bda') : (isr16x1aFn0x00 bda).1 = (isr16x1aFn0x00 bda').1 := by
  have low : bda.readLE bdaTimer 2 = bda'.readLE bdaTimer 2 := readLE_eqOn same (timeAt_part (by decide) (by decide))
  have high : bda.readLE (bdaTimer + 2) 2 = bda'.readLE (bdaTimer + 2) 2 :=
    readLE_eqOn same (timeAt_part (by decide) (by decide))
  unfold isr16x1aFn0x00
  rw [low, high, timerOvf_eqOn same]

theorem step_eqOn (same : timeAt.EqOn bda bda') (event : Time.Event) :
    timeAt.EqOn (Time.step bda event) (Time.step bda' event) := by
  cases event with
  | irq0 => exact irq0_eqOn subset_rfl same
  | getTime => exact writeLE_eqOn same bdaTimerOvf 1 0
  | setTime cx dx => exact fn0x01_eqOn same cx dx

theorem step_frame (bda : Mem) (event : Time.Event) : timeAtᶜ.EqOn (Time.step bda event) bda := by
  intro x outside
  have off := not_mem_timeAt outside
  have ovf : bdaTimerOvf = bdaTimer + 4 := rfl
  cases event with
  | irq0 =>
    change irq0 bda x = bda x
    unfold irq0
    split
    · rw [Mem.writeLE_of_outside (by omega), Mem.writeLE_of_outside (by omega)]
    · rw [Mem.writeLE_of_outside (by omega)]
  | getTime => exact Mem.writeLE_of_outside (by omega)
  | setTime cx dx =>
    change isr16x1aFn0x01 bda cx dx x = bda x
    rw [Time.fn0x01_eq]
    split
    · rw [Mem.writeLE_of_outside (by omega), Mem.writeLE_of_outside (by omega)]
    · rfl

theorem time_local : Local timeAt (fun _ : Mem => True) timeStep where
  congr _ _ := trivial
  keeps _ _ := trivial
  frame _ event := step_frame _ event
  answer := by
    intro m m' _ same event
    unfold timeStep
    rw [fn0x00_eqOn same]
  writes _ same event := step_eqOn same event

/-! ## The keyboard -/

theorem kbAt_vars {x : ℕ} (inside : kbStat1 ≤ x ∧ x < kbBufTail + 2 ∨ kbBufStart ≤ x ∧ x < kbBufEnd + 2) :
    x ∈ kbAt start stop := by
  rcases inside with low | high
  · exact .inl (.inl low)
  · exact .inl (.inr high)

/-- The variables that are words, and the status. -/
structure SameVars (bda bda' : Mem) : Prop where
  start : Kb.start bda = Kb.start bda'
  stop : Kb.stop bda = Kb.stop bda'
  head : Kb.head bda = Kb.head bda'
  tail : Kb.tail bda = Kb.tail bda'
  stat : kbStat bda = kbStat bda'

theorem sameVars_of_eqOn (same : (kbAt start stop).EqOn bda bda') : SameVars bda bda' := by
  have offsets : kbStat1 = 0x17 ∧ kbStat2 = 0x18 ∧ kbBufHead = 0x1a ∧ kbBufTail = 0x1c ∧ kbBufStart = 0x80 ∧ kbBufEnd = 0x82 :=
    ⟨rfl, rfl, rfl, rfl, rfl, rfl⟩
  refine ⟨?_, ?_, ?_, ?_, ?_⟩
  · exact readLE_eqOn same fun x low high => kbAt_vars (by omega)
  · exact readLE_eqOn same fun x low high => kbAt_vars (by omega)
  · exact readLE_eqOn same fun x low high => kbAt_vars (by omega)
  · exact readLE_eqOn same fun x low high => kbAt_vars (by omega)
  · rw [kbStat, kbStat, same (kbAt_vars (by omega)), same (kbAt_vars (by omega))]

theorem SameVars.onSlot (same : SameVars bda bda') (a : ℕ) : Kb.OnSlot bda' a ↔ Kb.OnSlot bda a := by
  rw [Kb.OnSlot, Kb.OnSlot, same.start, same.stop]

theorem SameVars.full (same : SameVars bda bda') : Kb.Full bda ↔ Kb.Full bda' := by
  simp only [Kb.Full, Kb.queue_length, Kb.slots, Kb.slotAt, same.start, same.stop, same.head, same.tail]

theorem KbInv.congr (inv : KbInv start stop bda) (same : (kbAt start stop).EqOn bda bda') : KbInv start stop bda' := by
  have vars := sameVars_of_eqOn same
  obtain ⟨⟨ordered, even, headOn, tailOn⟩, ⟨position, bounds⟩, startIs, stopIs⟩ := inv
  rw [vars.start, vars.stop] at ordered even position bounds
  refine ⟨⟨ordered, even, ?_, ?_⟩, ⟨position, bounds⟩, vars.start ▸ startIs, vars.stop ▸ stopIs⟩
  · rw [vars.onSlot, ← vars.head]
    exact headOn
  · rw [vars.onSlot, ← vars.tail]
    exact tailOn

theorem addKey_eqOn (same : (kbAt start stop).EqOn bda bda') (key : ℕ) :
    (kbAt start stop).EqOn (addKey bda key) (addKey bda' key) := by
  have vars := sameVars_of_eqOn same
  have startIs : bda.readLE kbBufStart 2 = bda'.readLE kbBufStart 2 := vars.start
  have stopIs : bda.readLE kbBufEnd 2 = bda'.readLE kbBufEnd 2 := vars.stop
  have headIs : bda.readLE kbBufHead 2 = bda'.readLE kbBufHead 2 := vars.head
  have tailIs : bda.readLE kbBufTail 2 = bda'.readLE kbBufTail 2 := vars.tail
  unfold addKey
  rw [startIs, stopIs, headIs, tailIs]
  exact ite_eqOn same (writeLE_eqOn (writeLE_eqOn same ..) ..)

theorem handleCode_eqOn (same : (kbAt start stop).EqOn bda bda') (code : UInt8) :
    (kbAt start stop).EqOn (handleCode bda code) (handleCode bda' code) := by
  unfold handleCode
  rw [(sameVars_of_eqOn same).stat]
  exact ite_eqOn (write_eqOn same ..) (addKey_eqOn (write_eqOn same ..) _)

theorem accepts_eqOn (same : (kbAt start stop).EqOn bda bda') (code : UInt8) : Kb.accepts bda code = Kb.accepts bda' code := by
  have vars := sameVars_of_eqOn same
  have arriving : Kb.arriving bda code = Kb.arriving bda' code := by rw [Kb.arriving, Kb.arriving, vars.stat]
  unfold Kb.accepts
  rw [arriving]
  exact if_congr (or_congr Iff.rfl vars.full) rfl rfl

/-- What a reader finds and stores. -/
theorem readKey_eqOn (inv : KbInv start stop bda) (same : (kbAt start stop).EqOn bda bda') :
    (readKey bda).map Prod.fst = (readKey bda').map Prod.fst ∧
      (kbAt start stop).EqOn ((readKey bda).elim bda Prod.snd) ((readKey bda').elim bda' Prod.snd) := by
  have vars := sameVars_of_eqOn same
  have startIs : bda.readLE kbBufStart 2 = bda'.readLE kbBufStart 2 := vars.start
  have stopIs : bda.readLE kbBufEnd 2 = bda'.readLE kbBufEnd 2 := vars.stop
  have headIs : bda.readLE kbBufHead 2 = bda'.readLE kbBufHead 2 := vars.head
  have tailIs : bda.readLE kbBufTail 2 = bda'.readLE kbBufTail 2 := vars.tail
  have key : bda.readLE (bda'.readLE kbBufHead 2) 2 = bda'.readLE (bda'.readLE kbBufHead 2) 2 := by
    refine readLE_eqOn same fun x low high => .inr ?_
    obtain ⟨ready, -, first, last⟩ := inv
    have fits := ready.headOn.fits ready
    have above := ready.headOn.1
    rw [last, vars.head] at fits
    rw [first, vars.head] at above
    exact ⟨above.trans low, lt_of_lt_of_le high fits⟩
  unfold readKey
  rw [startIs, stopIs, headIs, tailIs]
  dsimp only
  rw [key]
  split
  · exact ⟨rfl, same⟩
  · exact ⟨rfl, writeLE_eqOn same ..⟩

/-- What an event does to the traffic so far. -/
theorem traffic_step (t : Kb.Traffic) (event : Kb.Event) : t.step event =
    ⟨(kbStep t.bda event).2, t.accepted ++ (kbStep t.bda event).1.1.toList, t.dequeued ++ (kbStep t.bda event).1.2.toList⟩ := by
  cases event with
  | code code =>
    simp only [kbStep, Option.toList_none, List.append_nil]
    rfl
  | dequeue =>
    unfold Kb.Traffic.step kbStep
    cases readKey t.bda with
    | none => simp
    | some found => simp

theorem kbStep_keeps (inv : KbInv start stop bda) (event : Kb.Event) : KbInv start stop (kbStep bda event).2 := by
  obtain ⟨ready, clear, startIs, stopIs⟩ := inv
  have first : Kb.Traffic.Inv bda ⟨bda, [], []⟩ := ⟨ready, .refl bda, List.append_nil _⟩
  have next := first.step clear event
  rw [traffic_step] at next
  exact ⟨next.ready, next.bounds.clear clear, next.bounds.start.trans startIs, next.bounds.stop.trans stopIs⟩

theorem kbStep_frame (inv : KbInv start stop bda) (event : Kb.Event) : (kbAt start stop)ᶜ.EqOn (kbStep bda event).2 bda := by
  intro x outside
  obtain ⟨ready, -, startIs, stopIs⟩ := inv
  have offsets : kbStat1 = 0x17 ∧ kbStat2 = 0x18 ∧ kbBufHead = 0x1a ∧ kbBufTail = 0x1c := ⟨rfl, rfl, rfl, rfl⟩
  have off : ¬ (kbStat1 ≤ x ∧ x < kbBufTail + 2) := fun inside => outside (kbAt_vars (.inl inside))
  have offBuffer : ¬ (start ≤ x ∧ x < stop) := fun inside => outside (.inr inside)
  cases event with
  | code code =>
    have low := ready.tailOn.1
    have high := ready.tailOn.fits ready
    exact Kb.handleCode_frame bda code (by omega) (by omega) (by omega) (by omega)
  | dequeue =>
    change (readKey bda).elim bda Prod.snd x = bda x
    unfold readKey
    dsimp only
    split
    · rfl
    · exact Mem.writeLE_of_outside (by omega)

theorem kb_local (start stop : ℕ) : Local (kbAt start stop) (KbInv start stop) kbStep where
  congr same inv := inv.congr same
  keeps inv event := kbStep_keeps inv event
  frame inv event := kbStep_frame inv event
  answer := by
    intro m m' inv same event
    cases event with
    | code code => exact congrArg (·, none) (accepts_eqOn same code)
    | dequeue => exact congrArg (none, ·) (readKey_eqOn inv same).1
  writes := by
    intro m m' inv same event
    cases event with
    | code code => exact handleCode_eqOn same code
    | dequeue => exact (readKey_eqOn inv same).2

/-! ## Runs -/

theorem exec_timeStep (bda : Mem) (events : List Time.Event) :
    (exec timeStep bda events).2 = Time.exec bda events ∧ days (exec timeStep bda events).1 = Time.returned bda events := by
  induction events generalizing bda with
  | nil => exact ⟨rfl, rfl⟩
  | cons event rest ih =>
    obtain ⟨memory, answers⟩ := ih (Time.step bda event)
    refine ⟨memory, ?_⟩
    rw [Time.returned, ← answers]
    change days ((if event = .getTime then some (isr16x1aFn0x00 bda).1 else none) ::
      (exec timeStep (Time.step bda event) rest).1) = _
    unfold days
    split
    · rfl
    · rw [Nat.zero_add]
      rfl

theorem traffic_run (t : Kb.Traffic) (events : List Kb.Event) : events.foldl Kb.Traffic.step t =
    ⟨(exec kbStep t.bda events).2, t.accepted ++ (exec kbStep t.bda events).1.filterMap Prod.fst,
      t.dequeued ++ (exec kbStep t.bda events).1.filterMap Prod.snd⟩ := by
  induction events generalizing t with
  | nil => simp [exec]
  | cons event rest ih =>
    rw [List.foldl_cons, ih, traffic_step, exec]
    rcases kbStep t.bda event with ⟨⟨accepted, taken⟩, next⟩
    cases accepted <;> cases taken <;> simp

theorem sameQueue (ready : Kb.Ready bda) (same : (kbAt (Kb.start bda) (Kb.stop bda)).EqOn bda' bda) :
    Kb.queue bda' = Kb.queue bda := by
  have vars := sameVars_of_eqOn same
  exact Kb.queue_congr ready ⟨vars.start, vars.stop⟩ vars.head vars.tail fun x low high => same (.inr ⟨low, high⟩)

/-- In every interleaving from a buffer that is apart from the time and from the other variables, clock and keyboard are served
as if each were alone. -/
theorem dataArea_served (ready : Kb.Ready bda) (clear : Kb.Clear bda)
    (apart : Kb.stop bda ≤ bdaTimer ∨ bdaTimer + 5 ≤ Kb.start bda) (zero : timeAt.EqOn bda Mem.zero) (events : Events) :
    Served bda events := by
  have disjoint : Disjoint timeAt (kbAt (Kb.start bda) (Kb.stop bda)) := by
    rw [Set.disjoint_left]
    intro x time keyboard
    simp only [timeAt, kbAt, Set.mem_union, Set.mem_Ico, bdaTimer, bdaTimerOvf, kbStat1, kbBufTail, kbBufStart, kbBufEnd]
      at time keyboard apart
    omega
  have alone : Independent timeAt (kbAt (Kb.start bda) (Kb.stop bda)) bda (served bda events)
      (exec timeStep Mem.zero events.times) (exec kbStep bda events.keys) :=
    independent_of_eqOn time_local (kb_local _ _) disjoint trivial ⟨ready, clear, rfl, rfl⟩ zero (Set.eqOn_refl bda _) events
  obtain ⟨⟨times, keys⟩, ⟨time, keyboard⟩, rest⟩ := id alone
  refine ⟨alone, ?_, fun free inTime => ?_⟩
  · have inv := Kb.Traffic.Inv.run ready clear events.keys
    rw [Kb.Traffic.run, traffic_run] at inv
    obtain ⟨lastReady, bounds, fifo⟩ := inv
    dsimp only at lastReady bounds fifo
    rw [List.nil_append, List.nil_append] at fifo
    rw [← bounds.start, ← bounds.stop] at keyboard
    rw [keys, sameQueue lastReady keyboard]
    exact fifo
  · obtain ⟨memory, answers⟩ := exec_timeStep Mem.zero events.times
    have balance := Time.balance free inTime
    have start : Time.timerOvf (Time.exec .zero []) = 0 ∧ Time.timer (Time.exec .zero []) = 0 := by decide +kernel
    rw [memory] at time
    have timer : Time.timer (served bda events).2 = Time.timer (Time.exec .zero events.times) := timer_eqOn time
    have timerOvf : Time.timerOvf (served bda events).2 = Time.timerOvf (Time.exec .zero events.times) := timerOvf_eqOn time
    rw [start.1, start.2, Nat.mul_zero] at balance
    rw [times, answers, timer, timerOvf]
    exact balance

/-- `rm16_init` leaves the time alone. -/
theorem rm16InitKb_timeAt (bda : Mem) : timeAt.EqOn (rm16InitKb bda) bda := by
  intro x inside
  simp only [timeAt, Set.mem_Ico, bdaTimer, bdaTimerOvf] at inside
  simp only [rm16InitKb, kbBufStart, kbBufHead, kbBufTail, kbBufEnd]
  rw [Mem.writeLE_of_outside (by omega), Mem.writeLE_of_outside (by omega), Mem.writeLE_of_outside (by omega),
    Mem.writeLE_of_outside (by omega)]

end

/-- In the buffer of `rm16_init`: a key, two ticks with a read of the time between them, and a read of the key. -/
theorem dataArea_served_sample :
    Served (rm16InitKb .zero) [.inr (.code 0x1e), .inl .irq0, .inl .getTime, .inl .irq0, .inr .dequeue] :=
  dataArea_served (Kb.rm16InitKb_ready _).1 (Kb.rm16InitKb_ready _).2.1 (.inl (by decide +kernel)) (rm16InitKb_timeAt _) _

end Biefircate.DataArea
