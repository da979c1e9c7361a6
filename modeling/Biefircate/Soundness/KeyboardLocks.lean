import Biefircate.Lib.Flag
import Biefircate.Soundness.KeyboardBuffer
import Mathlib.Data.List.Induction
import Mathlib.Data.List.Infix

/-! # Caps Lock, Num Lock and Scroll Lock

Every make code of a lock key toggles its lock, and a key that is held sends make codes again and again. So a
lock follows the presses of its key as long as no make code arrives while the key is held.
-/

namespace Biefircate.Kb

/-- A lock key: its make code, its active bit in `kb_stat1` and its pressed bit in `kb_stat2`. -/
structure LockKey where
  code : UInt8
  act : UInt8
  bit : UInt8
deriving DecidableEq, Repr

def capsLock : LockKey := ⟨kbKCaplk, kbS1CaplkAct, kbS2Caplk⟩
def numLock : LockKey := ⟨kbKNumlk, kbS1NumlkAct, kbS2Numlk⟩
def scrollLock : LockKey := ⟨kbKScllk, kbS1ScllkAct, kbS2Scllk⟩

def lockKeys : List LockKey := [capsLock, numLock, scrollLock]

namespace LockKey

variable (lock : LockKey)

def active (s : KbStat) : Bool := hasFlag s.stat1 lock.act
def pressed (s : KbStat) : Bool := hasFlag s.stat2 lock.bit

/-- Whether the key is held after an event: from a make code to the next break code. -/
def holds (held : Bool) (event : Event) : Bool :=
  if event = .code lock.code then true else if event = .code (lock.code ||| kbKKeyUp) then false else held

def held (first : Bool) (events : List Event) : Bool := events.foldl lock.holds first

/-- The presses of the key: the make codes that find its pressed bit clear. -/
def presses (first : Mem) (events : List Event) : ℕ :=
  (List.range events.length).countP fun i =>
    events[i]? = some (.code lock.code) ∧ lock.pressed (kbStat (Traffic.run first (events.take i)).bda) = false

/-- After the events the lock was toggled once for each press, and its pressed bit says whether the key is held. -/
structure Follows (first : Mem) (events : List Event) : Prop where
  active : lock.active (kbStat (Traffic.run first events).bda) =
    (lock.active (kbStat first) ^^ decide (lock.presses first events % 2 = 1))
  pressed : lock.pressed (kbStat (Traffic.run first events).bda) = lock.held (lock.pressed (kbStat first)) events

/-- No make code of the key arrives while the key is held. -/
def NoRepeat (first : Mem) (events : List Event) : Prop :=
  ∀ seen, seen ++ [.code lock.code] <+: events → lock.held (lock.pressed (kbStat first)) seen = false

instance (first : Mem) (events : List Event) : Decidable (lock.NoRepeat first events) :=
  decidable_of_iff
    (∀ seen ∈ events.inits, seen ++ [.code lock.code] <+: events → lock.held (lock.pressed (kbStat first)) seen = false)
    ⟨fun all seen here => all seen ((List.mem_inits ..).mpr ((List.prefix_append ..).trans here)) here,
      fun all seen _ => all seen⟩

end LockKey

section

variable {lock : LockKey} {s t : KbStat} {code : UInt8} {bda first : Mem} {events : List Event} {event : Event}

/-! ## What a code does to the status -/

/-- A code of no lock key. -/
def OtherCode (code : UInt8) : Prop := ∀ lock ∈ lockKeys, code ≠ lock.code ∧ code ≠ lock.code ||| kbKKeyUp

instance (code : UInt8) : Decidable (OtherCode code) := inferInstanceAs (Decidable (∀ lock ∈ lockKeys, _))

/-- The bits of `kb_stat1` for the shift keys. -/
def shiftBits : List UInt8 := [kbS1Lshft, kbS1Rshft, kbS1Ctl, kbS1Alt]

/-- What a code does to the status. -/
inductive Effect (s : KbStat) : UInt8 → KbStat → Prop
  | lock {lock : LockKey} (member : lock ∈ lockKeys) : Effect s lock.code (s.lock lock.act lock.bit)
  | unlock {lock : LockKey} (member : lock ∈ lockKeys) : Effect s (lock.code ||| kbKKeyUp) (s.unlock lock.bit)
  | hold {code bit : UInt8} (other : OtherCode code) (member : bit ∈ shiftBits) : Effect s code (s.hold bit)
  | letGo {code bit : UInt8} (other : OtherCode code) (member : bit ∈ shiftBits) : Effect s code (s.letGo bit)
  | none {code : UInt8} (other : OtherCode code) : Effect s code s

private theorem ite_effect {p : Prop} [Decidable p] {x y : KbStat × ℕ} (first : p → Effect s code x.1)
    (second : ¬ p → Effect s code y.1) : Effect s code (if p then x else y).1 := by
  split
  · next here => exact first here
  · next past => exact second past

theorem switch_effect (s : KbStat) (code : UInt8) : Effect s code (s.switch code).1 := by
  unfold KbStat.switch
  apply ite_effect (fun here => here ▸ .none (by decide))
  intro _
  apply ite_effect (fun here => here ▸ .hold (by decide) (by decide))
  intro _
  apply ite_effect (fun here => here ▸ .letGo (by decide) (by decide))
  intro _
  apply ite_effect (fun here => here ▸ .hold (by decide) (by decide))
  intro _
  apply ite_effect (fun here => here ▸ .letGo (by decide) (by decide))
  intro _
  apply ite_effect (fun here => here ▸ .hold (by decide) (by decide))
  intro _
  apply ite_effect (fun here => here ▸ .letGo (by decide) (by decide))
  intro _
  apply ite_effect (fun here => here ▸ .hold (by decide) (by decide))
  intro _
  apply ite_effect (fun here => here ▸ .letGo (by decide) (by decide))
  intro _
  apply ite_effect (fun here => here ▸ .lock (show capsLock ∈ lockKeys by decide))
  intro caps
  apply ite_effect (fun here => here ▸ .unlock (show capsLock ∈ lockKeys by decide))
  intro capsUp
  apply ite_effect (fun here => here ▸ .lock (show numLock ∈ lockKeys by decide))
  intro num
  apply ite_effect (fun here => here ▸ .unlock (show numLock ∈ lockKeys by decide))
  intro numUp
  apply ite_effect (fun here => here ▸ .lock (show scrollLock ∈ lockKeys by decide))
  intro scroll
  apply ite_effect (fun here => here ▸ .unlock (show scrollLock ∈ lockKeys by decide))
  intro scrollUp
  have other : OtherCode code := by
    intro lock member
    simp only [lockKeys, List.mem_cons, List.not_mem_nil, or_false] at member
    rcases member with rfl | rfl | rfl
    · exact ⟨caps, capsUp⟩
    · exact ⟨num, numUp⟩
    · exact ⟨scroll, scrollUp⟩
  refine ite_effect (fun _ => .none other) fun _ => ?_
  exact ite_effect (fun _ => .none other) fun _ => .none other

/-- The bits of the locks and of the shift keys are apart. -/
theorem lockKeys_flags : ∀ lock ∈ lockKeys, IsFlag lock.act ∧ IsFlag lock.bit ∧ lock.code ≠ lock.code ||| kbKKeyUp ∧
    hasFlag lock.act lock.act = true ∧ hasFlag lock.bit lock.bit = true ∧
      (∀ bit ∈ shiftBits, hasFlag bit lock.act = false) ∧
        ∀ other ∈ lockKeys, other ≠ lock → hasFlag other.act lock.act = false ∧ hasFlag other.bit lock.bit = false ∧
          other.code ≠ lock.code ∧ other.code ≠ lock.code ||| kbKKeyUp ∧ other.code ||| kbKKeyUp ≠ lock.code ∧
            other.code ||| kbKKeyUp ≠ lock.code ||| kbKKeyUp := by
  decide +kernel

theorem Effect.active (member : lock ∈ lockKeys) (effect : Effect s code t) :
    lock.active t = (lock.active s ^^ decide (code = lock.code)) := by
  obtain ⟨act, -, apart, self, -, shifts, others⟩ := lockKeys_flags lock member
  cases effect with
  | @lock other found =>
    rw [LockKey.active, KbStat.lock, hasFlag_xor act]
    by_cases same : other = lock
    · simp [LockKey.active, same, self]
    · simp [LockKey.active, others other found same]
  | @unlock other found =>
    by_cases same : other = lock
    · simp [LockKey.active, KbStat.unlock, same, apart.symm]
    · simp [LockKey.active, KbStat.unlock, others other found same]
  | hold other found => simp [LockKey.active, KbStat.hold, hasFlag_or act, shifts _ found, other lock member]
  | letGo other found => simp [LockKey.active, KbStat.letGo, hasFlag_clear act, shifts _ found, other lock member]
  | none other => simp [other lock member]

theorem Effect.pressed (member : lock ∈ lockKeys) (effect : Effect s code t) :
    lock.pressed t = lock.holds (lock.pressed s) (.code code) := by
  obtain ⟨-, bit, apart, -, self, -, others⟩ := lockKeys_flags lock member
  cases effect with
  | @lock other found =>
    by_cases same : other = lock
    · simp [LockKey.pressed, LockKey.holds, KbStat.lock, hasFlag_or bit, same, self]
    · simp [LockKey.pressed, LockKey.holds, KbStat.lock, hasFlag_or bit, others other found same]
  | @unlock other found =>
    by_cases same : other = lock
    · simp [LockKey.pressed, LockKey.holds, KbStat.unlock, hasFlag_clear bit, same, self, apart.symm]
    · simp [LockKey.pressed, LockKey.holds, KbStat.unlock, hasFlag_clear bit, others other found same]
  | hold other found => simp [LockKey.pressed, LockKey.holds, KbStat.hold, other lock member]
  | letGo other found => simp [LockKey.pressed, LockKey.holds, KbStat.letGo, other lock member]
  | none other => simp [LockKey.holds, other lock member]

/-! ## What an event does to the status -/

theorem kbStat_write (bda : Mem) (s : KbStat) : kbStat (bda.write kbStat1 [s.stat1, s.stat2]) = s := by
  simp [kbStat, Mem.write, kbStat1, kbStat2]

/-- The slot at the tail is not over the status. -/
theorem kbStat_addKey (ready : Ready bda) (clear : Clear bda) (key : ℕ) : kbStat (addKey bda key) = kbStat bda := by
  have fits := ready.tailOn.fits ready
  have low := ready.tailOn.1
  have position := clear.position
  simp only [kbStat1, kbBufTail] at position
  have first : addKey bda key kbStat1 = bda kbStat1 := addKey_frame bda key (by simp only [kbStat1]; omega) (by decide)
  have second : addKey bda key kbStat2 = bda kbStat2 := addKey_frame bda key (by simp only [kbStat2]; omega) (by decide)
  rw [kbStat, kbStat, first, second]

theorem kbStat_handleCode (ready : Ready bda) (clear : Clear bda) (code : UInt8) :
    kbStat (handleCode bda code) = ((kbStat bda).switch code).1 := by
  generalize effect : (kbStat bda).switch code = left
  obtain ⟨s, key⟩ := left
  have kept := kept_stat ready clear s
  simp only [handleCode, effect]
  split
  · exact kbStat_write bda s
  · rw [kbStat_addKey (kept.ready ready) (kept.buffer.clear clear), kbStat_write]

theorem kbStat_readKey {key : ℕ} {bda' : Mem} (read : readKey bda = some (key, bda')) : kbStat bda' = kbStat bda := by
  simp only [readKey, Option.ite_none_left_eq_some, Option.some.injEq, Prod.mk.injEq] at read
  obtain ⟨-, -, rfl⟩ := read
  rw [kbStat, kbStat, Mem.writeLE_of_outside (by decide), Mem.writeLE_of_outside (by decide)]

/-- An event toggles a lock exactly when it is the lock's make code. -/
theorem event_stat (member : lock ∈ lockKeys) {t : Traffic} (ready : Ready t.bda) (clear : Clear t.bda) (event : Event) :
    lock.active (kbStat (t.step event).bda) = (lock.active (kbStat t.bda) ^^ decide (event = .code lock.code)) ∧
      lock.pressed (kbStat (t.step event).bda) = lock.holds (lock.pressed (kbStat t.bda)) event := by
  cases event with
  | code code =>
    have effect := switch_effect (kbStat t.bda) code
    rw [← kbStat_handleCode ready clear] at effect
    refine ⟨?_, effect.pressed member⟩
    rw [Traffic.step, effect.active member]
    simp
  | dequeue =>
    have same : kbStat (t.step .dequeue).bda = kbStat t.bda := by
      cases read : readKey t.bda with
      | none => simp [Traffic.step, read]
      | some found => simpa [Traffic.step, read] using kbStat_readKey read
    rw [same]
    simp [LockKey.holds]

/-! ## Runs -/

theorem Traffic.run_concat (bda : Mem) (events : List Event) (event : Event) :
    Traffic.run bda (events ++ [event]) = (Traffic.run bda events).step event := by
  rw [Traffic.run, List.foldl_append]
  rfl

theorem LockKey.held_concat (lock : LockKey) (first : Bool) (events : List Event) (event : Event) :
    lock.held first (events ++ [event]) = lock.holds (lock.held first events) event := by
  rw [LockKey.held, List.foldl_append]
  rfl

theorem LockKey.presses_concat (lock : LockKey) (first : Mem) (events : List Event) (event : Event) :
    lock.presses first (events ++ [event]) = lock.presses first events +
      if event = .code lock.code ∧ lock.pressed (kbStat (Traffic.run first events).bda) = false then 1 else 0 := by
  rw [LockKey.presses, LockKey.presses, List.length_append, List.length_singleton, List.range_succ, List.countP_append,
    List.countP_singleton]
  congr 1
  · apply List.countP_congr
    intro i inside
    have before := List.mem_range.mp inside
    rw [List.getElem?_append_left before, List.take_append_of_le_length before.le]
  · simp

private theorem odd_succ (n : ℕ) : decide ((n + 1) % 2 = 1) = (decide (n % 2 = 1) ^^ true) := by
  rcases Nat.mod_two_eq_zero_or_one n with even | odd
  · simp [Nat.add_mod, even]
  · simp [Nat.add_mod, odd]

/-- As long as a lock follows its key, an event breaks the law exactly when it is a make code for a held key. -/
theorem LockKey.Follows.concat_iff (member : lock ∈ lockKeys) (ready : Ready first) (clear : Clear first)
    (follows : lock.Follows first events) :
    lock.Follows first (events ++ [event]) ↔
      (event = .code lock.code → lock.held (lock.pressed (kbStat first)) events = false) := by
  have inv := Traffic.Inv.run ready clear events
  obtain ⟨toggled, held⟩ := event_stat member inv.ready (inv.bounds.clear clear) event
  obtain ⟨active, pressed⟩ := follows
  have still : lock.pressed (kbStat (Traffic.run first (events ++ [event])).bda) =
      lock.held (lock.pressed (kbStat first)) (events ++ [event]) := by
    rw [Traffic.run_concat, held, pressed, LockKey.held_concat]
  have law : lock.active (kbStat (Traffic.run first (events ++ [event])).bda) =
      (lock.active (kbStat first) ^^ decide (lock.presses first (events ++ [event]) % 2 = 1)) ↔
        (event = .code lock.code → lock.held (lock.pressed (kbStat first)) events = false) := by
    rw [Traffic.run_concat, toggled, active, LockKey.presses_concat, pressed]
    by_cases make : event = .code lock.code
    · cases lock.held (lock.pressed (kbStat first)) events with
      | false => simp [make, odd_succ]
      | true => simp [make]
    · simp [make]
  exact ⟨fun next => law.mp next.active, fun free => ⟨law.mpr free, still⟩⟩

/-- A lock follows the presses of its key, at every moment of a run from the buffer of `rm16_init`, exactly when no
make code arrives while the key is held. -/
theorem lock_follows_iff (bda : Mem) (events : List Event) (member : lock ∈ lockKeys) :
    (∀ seen, seen <+: events → lock.Follows (rm16InitKb bda) seen) ↔ lock.NoRepeat (rm16InitKb bda) events := by
  obtain ⟨ready, clear, -⟩ := rm16InitKb_ready bda
  generalize rm16InitKb bda = first at ready clear
  constructor
  · intro follows seen here
    have before := follows seen ((List.prefix_append ..).trans here)
    exact (before.concat_iff member ready clear).mp (follows _ here) rfl
  · intro noRepeat seen
    induction seen using List.reverseRecOn with
    | nil =>
      intro _
      exact ⟨by simp [LockKey.presses, Traffic.run], rfl⟩
    | append_singleton seen event ih =>
      intro here
      have before := ih ((List.prefix_append ..).trans here)
      apply (before.concat_iff member ready clear).mpr
      rintro rfl
      exact noRepeat seen here

end

/-- Caps Lock pressed, let go and pressed, with a key and a reader in between. -/
theorem lock_follows_sample :
    capsLock.Follows (rm16InitKb .zero) [.code 0x3a, .code 0x1e, .dequeue, .code 0xba, .code 0x3a] :=
  (lock_follows_iff .zero _ (by decide)).mpr (by decide +kernel) _ (List.prefix_refl _)

/-- The second make code of a held Caps Lock turns the lock off again. -/
theorem repeat_toggles : ¬ ∀ lock ∈ lockKeys, ∀ (bda : Mem) (events : List Event), lock.Follows (rm16InitKb bda) events := by
  intro always
  have follows := always capsLock (by decide) .zero [.code 0x3a, .code 0x3a]
  exact absurd follows.active (by decide +kernel)

end Biefircate.Kb
