import Biefircate.Lib.Run
import Biefircate.Soundness.KeyboardLocks

/-! # What a keyboard types

A keyboard that knows which modifier keys are down and which locks are on, and which has a queue of keys with a limit, says
what programs may expect. The status bytes and the buffer in the data area are such a keyboard, over every run of codes and of
reads, when the buffer is apart from the variables.
-/

namespace Biefircate.Kb

/-! ## The keyboard -/

/-- The modifier keys that are down, and the locks that change what a key means. -/
structure Mods where
  lshift : Bool
  rshift : Bool
  ctl : Bool
  alt : Bool
  caps : Bool
  num : Bool
deriving DecidableEq, Repr

/-- A key goes down with its make code and up with its break code. -/
def follow (key code : UInt8) (down : Bool) : Bool :=
  if code = key then true else if code = key ||| kbKKeyUp then false else down

namespace Mods

def next (m : Mods) (code : UInt8) : Mods where
  lshift := follow kbKLshft code m.lshift
  rshift := follow kbKRshft code m.rshift
  ctl := follow kbKCtl code m.ctl
  alt := follow kbKAlt code m.alt
  caps := m.caps ^^ decide (code = kbKCaplk)
  num := m.num ^^ decide (code = kbKNumlk)

/-- The keys that only change the status. -/
def silentKeys : List UInt8 := [kbKLshft, kbKRshft, kbKCtl, kbKAlt, kbKCaplk, kbKNumlk, kbKScllk]

def silent (code : UInt8) : Bool := code = kbROverrun || silentKeys.any fun key => code = key || code = key ||| kbKKeyUp

def keypad (code : UInt8) : Bool := kbKKp7 ≤ code && code ≤ kbKDel

def letter (code : UInt8) : Bool :=
  kbKQ ≤ code && code ≤ kbKP || kbKA ≤ code && code ≤ kbKL || kbKZ ≤ code && code ≤ kbKM

/-- The key that a code types, or zero. Shift undoes the lock of a key that has one. -/
def key (m : Mods) (code : UInt8) : ℕ :=
  let locked := if keypad code then m.num else letter code && m.caps
  if silent code then 0
  else if m.alt then altMap[code.toNat]?.getD 0 * 0x100
  else if m.ctl then ctlMap[code.toNat]?.getD 0
  else if (m.lshift || m.rshift) ^^ locked then shiftMap[code.toNat]?.getD 0
  else noShiftMap[code.toNat]?.getD 0

/-- Each modifier changed, with its flag in `kb_stat1`. -/
def map (f : Bool → UInt8 → Bool) (m : Mods) : Mods :=
  ⟨f m.lshift kbS1Lshft, f m.rshift kbS1Rshft, f m.ctl kbS1Ctl, f m.alt kbS1Alt, f m.caps kbS1CaplkAct, f m.num kbS1NumlkAct⟩

/-- The modifiers in the status bytes. -/
def of (s : KbStat) : Mods where
  lshift := hasFlag s.stat1 kbS1Lshft
  rshift := hasFlag s.stat1 kbS1Rshft
  ctl := hasFlag s.stat1 kbS1Ctl
  alt := hasFlag s.stat1 kbS1Alt
  caps := hasFlag s.stat1 kbS1CaplkAct
  num := hasFlag s.stat1 kbS1NumlkAct

end Mods

/-- A keyboard: its modifiers, the keys in its queue, and those that were taken. -/
structure Keyboard where
  mods : Mods
  pending : List ℕ
  taken : List ℕ
deriving DecidableEq, Repr

/-- A key that finds `limit` keys in the queue is dropped. -/
def Keyboard.step (limit : ℕ) (k : Keyboard) : Event → Keyboard
  | .code code =>
    ⟨k.mods.next code, if k.mods.key code = 0 ∨ k.pending.length = limit then k.pending else k.pending ++ [k.mods.key code], k.taken⟩
  | .dequeue =>
    match k.pending with
    | [] => k
    | key :: rest => ⟨k.mods, rest, k.taken ++ [key]⟩

/-- The keyboard in the data area. -/
def Traffic.keyboard (t : Traffic) : Keyboard := ⟨.of (kbStat t.bda), queue t.bda, t.dequeued⟩

/-! ## One code -/

section

variable {s : KbStat} {code : UInt8} {bda : Mem} {events : List Event}

theorem modFlags : IsFlag kbS1Lshft ∧ IsFlag kbS1Rshft ∧ IsFlag kbS1Ctl ∧ IsFlag kbS1Alt ∧ IsFlag kbS1CaplkAct ∧ IsFlag kbS1NumlkAct := by
  decide +kernel

/-- What the switch comes to: the next modifiers and the key. -/
structure Types (s : KbStat) (code : UInt8) (x : KbStat × ℕ) : Prop where
  mods : Mods.of x.1 = (Mods.of s).next code
  key : x.2 = (Mods.of s).key code

private theorem ite_types {p : Prop} [Decidable p] {x y : KbStat × ℕ} (first : p → Types s code x)
    (second : ¬ p → Types s code y) : Types s code (if p then x else y) := by
  split
  · next here => exact first here
  · next past => exact second past

theorem of_hold (s : KbStat) (bit : UInt8) : Mods.of (s.hold bit) = (Mods.of s).map (· || hasFlag bit ·) := by
  obtain ⟨lshift, rshift, ctl, alt, caps, num⟩ := modFlags
  simp only [Mods.of, Mods.map, KbStat.hold, hasFlag_or lshift, hasFlag_or rshift, hasFlag_or ctl, hasFlag_or alt, hasFlag_or caps,
    hasFlag_or num]

theorem of_letGo (s : KbStat) (bit : UInt8) : Mods.of (s.letGo bit) = (Mods.of s).map (· && !hasFlag bit ·) := by
  obtain ⟨lshift, rshift, ctl, alt, caps, num⟩ := modFlags
  simp only [Mods.of, Mods.map, KbStat.letGo, hasFlag_clear lshift, hasFlag_clear rshift, hasFlag_clear ctl, hasFlag_clear alt,
    hasFlag_clear caps, hasFlag_clear num]

theorem of_lock (s : KbStat) (act bit : UInt8) : Mods.of (s.lock act bit) = (Mods.of s).map (· ^^ hasFlag act ·) := by
  obtain ⟨lshift, rshift, ctl, alt, caps, num⟩ := modFlags
  simp only [Mods.of, Mods.map, KbStat.lock, hasFlag_xor lshift, hasFlag_xor rshift, hasFlag_xor ctl, hasFlag_xor alt, hasFlag_xor caps,
    hasFlag_xor num]

/-- A shift key, with its bit in `kb_stat1`. -/
structure ShiftKey where
  code : UInt8
  bit : UInt8
deriving DecidableEq, Repr

def shiftKeys : List ShiftKey :=
  [⟨kbKLshft, kbS1Lshft⟩, ⟨kbKRshft, kbS1Rshft⟩, ⟨kbKCtl, kbS1Ctl⟩, ⟨kbKAlt, kbS1Alt⟩]

theorem shift_next : ∀ key ∈ shiftKeys, Mods.silent key.code = true ∧ Mods.silent (key.code ||| kbKKeyUp) = true ∧
    ∀ a b c d e f, (Mods.mk a b c d e f).map (· || hasFlag key.bit ·) = (Mods.mk a b c d e f).next key.code ∧
      (Mods.mk a b c d e f).map (· && !hasFlag key.bit ·) = (Mods.mk a b c d e f).next (key.code ||| kbKKeyUp) := by
  decide +kernel

theorem lock_next : ∀ lock ∈ lockKeys, Mods.silent lock.code = true ∧ Mods.silent (lock.code ||| kbKKeyUp) = true ∧
    ∀ a b c d e f, (Mods.mk a b c d e f).map (· ^^ hasFlag lock.act ·) = (Mods.mk a b c d e f).next lock.code ∧
      Mods.mk a b c d e f = (Mods.mk a b c d e f).next (lock.code ||| kbKKeyUp) := by
  decide +kernel

theorem key_silent {m : Mods} (silent : Mods.silent code = true) : 0 = m.key code := by
  unfold Mods.key
  rw [if_pos silent]

theorem hold_types {key bit : UInt8} (member : ⟨key, bit⟩ ∈ shiftKeys) :
    Types s key (s.hold bit, 0) ∧ Types s (key ||| kbKKeyUp) (s.letGo bit, 0) := by
  obtain ⟨down, up, next⟩ := shift_next _ member
  obtain ⟨held, free⟩ := next (Mods.of s).lshift (Mods.of s).rshift (Mods.of s).ctl (Mods.of s).alt (Mods.of s).caps (Mods.of s).num
  exact ⟨⟨(of_hold s bit).trans held, key_silent down⟩, ⟨(of_letGo s bit).trans free, key_silent up⟩⟩

theorem lock_types {lock : LockKey} (member : lock ∈ lockKeys) :
    Types s lock.code (s.lock lock.act lock.bit, 0) ∧ Types s (lock.code ||| kbKKeyUp) (s.unlock lock.bit, 0) := by
  obtain ⟨down, up, next⟩ := lock_next _ member
  obtain ⟨toggled, same⟩ := next (Mods.of s).lshift (Mods.of s).rshift (Mods.of s).ctl (Mods.of s).alt (Mods.of s).caps (Mods.of s).num
  exact ⟨⟨(of_lock s lock.act lock.bit).trans toggled, key_silent down⟩, ⟨same, key_silent up⟩⟩

theorem hasFlag_union (x a b : UInt8) : hasFlag x (a ||| b) = (hasFlag x a || hasFlag x b) := by
  have split : x &&& (a ||| b) = (x &&& a) ||| (x &&& b) := by
    rw [← UInt8.toNat_inj]
    simp only [UInt8.toNat_and, UInt8.toNat_or, Nat.and_or_distrib_left]
  unfold hasFlag
  rw [← Bool.decide_or, decide_eq_decide, split, ne_eq, UInt8.or_eq_zero_iff, not_and_or]

/-- The keys in the maps are those of the keyboard. -/
theorem key_loud (loud : Mods.silent code = false) (shifted : Bool)
    (locked : shifted = if Mods.keypad code then (Mods.of s).num else Mods.letter code && (Mods.of s).caps) :
    s.key code shifted = (Mods.of s).key code := by
  have shift : decide (s.stat1 &&& (kbS1Rshft ||| kbS1Lshft) ≠ 0) = ((Mods.of s).lshift || (Mods.of s).rshift) := by
    rw [Bool.or_comm]
    exact hasFlag_union ..
  have undone : (if s.stat1 &&& (kbS1Rshft ||| kbS1Lshft) ≠ 0 then !shifted else shifted) =
      (((Mods.of s).lshift || (Mods.of s).rshift) ^^ shifted) := by
    rw [← shift]
    split
    · next down => rw [decide_eq_true down, Bool.true_xor]
    · next up => rw [decide_eq_false up, Bool.false_xor]
  unfold KbStat.key Mods.key
  dsimp only
  rw [undone, ← locked, loud, if_neg Bool.false_ne_true]
  exact if_congr decide_eq_true_iff.symm rfl (if_congr decide_eq_true_iff.symm rfl rfl)

/-- A code of none of these keys. -/
def Apart (code : UInt8) : Prop := ∀ key ∈ Mods.silentKeys, code ≠ key ∧ code ≠ key ||| kbKKeyUp

instance (code : UInt8) : Decidable (Apart code) := List.decidableBAll _ _

theorem silent_eq_false_iff : Mods.silent code = false ↔ code ≠ kbROverrun ∧ Apart code := by
  simp only [Mods.silent, Apart, Bool.or_eq_false_iff, List.any_eq_false, Bool.or_eq_true, not_or, decide_eq_true_eq,
    decide_eq_false_iff_not, ne_eq]

theorem next_apart (apart : Apart code) (m : Mods) : m = m.next code := by
  have still : ∀ key ∈ Mods.silentKeys, ∀ down, follow key code down = down := fun key member down => by
    rw [follow, if_neg (apart key member).1, if_neg (apart key member).2]
  unfold Mods.next
  rw [still _ (by decide), still _ (by decide), still _ (by decide), still _ (by decide),
    decide_eq_false (apart kbKCaplk (by decide)).1, decide_eq_false (apart kbKNumlk (by decide)).1, Bool.xor_false, Bool.xor_false]

/-- The switch is the keyboard. -/
theorem switch_types (s : KbStat) (code : UInt8) : Types s code (s.switch code) := by
  have shift : ∀ key ∈ shiftKeys, Types s key.code (s.hold key.bit, 0) ∧ Types s (key.code ||| kbKKeyUp) (s.letGo key.bit, 0) :=
    fun _ member => hold_types member
  have lock : ∀ lock ∈ lockKeys, Types s lock.code (s.lock lock.act lock.bit, 0) ∧
      Types s (lock.code ||| kbKKeyUp) (s.unlock lock.bit, 0) := fun _ member => lock_types member
  unfold KbStat.switch
  apply ite_types (fun here => here ▸ ⟨next_apart (by decide) _, key_silent (by decide)⟩)
  intro overrun
  apply ite_types (fun here => here ▸ (shift ⟨kbKLshft, kbS1Lshft⟩ (by decide)).1)
  intro lshift
  apply ite_types (fun here => here ▸ (shift ⟨kbKLshft, kbS1Lshft⟩ (by decide)).2)
  intro lshiftUp
  apply ite_types (fun here => here ▸ (shift ⟨kbKRshft, kbS1Rshft⟩ (by decide)).1)
  intro rshift
  apply ite_types (fun here => here ▸ (shift ⟨kbKRshft, kbS1Rshft⟩ (by decide)).2)
  intro rshiftUp
  apply ite_types (fun here => here ▸ (shift ⟨kbKCtl, kbS1Ctl⟩ (by decide)).1)
  intro ctl
  apply ite_types (fun here => here ▸ (shift ⟨kbKCtl, kbS1Ctl⟩ (by decide)).2)
  intro ctlUp
  apply ite_types (fun here => here ▸ (shift ⟨kbKAlt, kbS1Alt⟩ (by decide)).1)
  intro alt
  apply ite_types (fun here => here ▸ (shift ⟨kbKAlt, kbS1Alt⟩ (by decide)).2)
  intro altUp
  apply ite_types (fun here => here ▸ (lock capsLock (by decide)).1)
  intro caps
  apply ite_types (fun here => here ▸ (lock capsLock (by decide)).2)
  intro capsUp
  apply ite_types (fun here => here ▸ (lock numLock (by decide)).1)
  intro num
  apply ite_types (fun here => here ▸ (lock numLock (by decide)).2)
  intro numUp
  apply ite_types (fun here => here ▸ (lock scrollLock (by decide)).1)
  intro scroll
  apply ite_types (fun here => here ▸ (lock scrollLock (by decide)).2)
  intro scrollUp
  have apart : Apart code := by
    intro key member
    simp only [Mods.silentKeys, List.mem_cons, List.not_mem_nil, or_false] at member
    rcases member with rfl | rfl | rfl | rfl | rfl | rfl | rfl
    · exact ⟨lshift, lshiftUp⟩
    · exact ⟨rshift, rshiftUp⟩
    · exact ⟨ctl, ctlUp⟩
    · exact ⟨alt, altUp⟩
    · exact ⟨caps, capsUp⟩
    · exact ⟨num, numUp⟩
    · exact ⟨scroll, scrollUp⟩
  have loud : Mods.silent code = false := silent_eq_false_iff.mpr ⟨overrun, apart⟩
  apply ite_types
  · intro keypad
    have inside : Mods.keypad code = true := by
      simp only [Mods.keypad, keypad, decide_true, Bool.and_true]
    exact ⟨next_apart apart _, key_loud loud _ (if_pos inside).symm⟩
  intro offKeypad
  have outside : ¬ Mods.keypad code = true := by
    simp only [Mods.keypad, Bool.and_eq_true, decide_eq_true_eq]
    exact offKeypad
  apply ite_types
  · intro letter
    have inside : Mods.letter code = true := by
      simp only [Mods.letter, Bool.or_eq_true, Bool.and_eq_true, decide_eq_true_eq, or_assoc]
      exact letter
    refine ⟨next_apart apart _, key_loud loud _ ?_⟩
    rw [if_neg outside, inside, Bool.true_and]
    rfl
  · intro other
    have none : Mods.letter code = false := by
      rw [Bool.eq_false_iff]
      simp only [ne_eq, Mods.letter, Bool.or_eq_true, Bool.and_eq_true, decide_eq_true_eq, or_assoc]
      exact other
    refine ⟨next_apart apart _, key_loud loud _ ?_⟩
    rw [if_neg outside, none, Bool.false_and]

/-! ## Runs -/

theorem step_keyboard {first : Mem} {t : Traffic} (clear : Clear first) (inv : t.Inv first) (event : Event) :
    (t.step event).keyboard = t.keyboard.step (slots first - 1) event := by
  obtain ⟨ready, bounds, -⟩ := inv
  have clear := bounds.clear clear
  cases event with
  | code code =>
    have handled := handleCode_handled ready clear code
    have types := switch_types (kbStat t.bda) code
    have mods : Mods.of (kbStat (handleCode t.bda code)) = (Mods.of (kbStat t.bda)).next code := by
      rw [kbStat_handleCode ready clear, types.mods]
    have arrives : arriving t.bda code = (Mods.of (kbStat t.bda)).key code := types.key
    have full : Full t.bda ↔ (queue t.bda).length = slots first - 1 := by rw [Full, bounds.slots]
    have pending : queue (handleCode t.bda code) =
        if (Mods.of (kbStat t.bda)).key code = 0 ∨ (queue t.bda).length = slots first - 1 then queue t.bda
        else queue t.bda ++ [(Mods.of (kbStat t.bda)).key code] := by
      rw [handled.queue, accepts, arrives, apply_ite Option.toList, apply_ite (queue t.bda ++ ·)]
      exact if_congr (or_congr Iff.rfl full) (List.append_nil _) rfl
    exact congrArg₂ (Keyboard.mk · · t.dequeued) mods pending
  | dequeue =>
    cases read : readKey t.bda with
    | none =>
      have empty := (readKey_eq_none_iff ready).mp read
      simp only [Traffic.step, read, Option.elim_none, Traffic.keyboard, Keyboard.step, empty]
    | some found =>
      obtain ⟨key, bda⟩ := found
      have taken := readKey_some ready clear read
      simp only [Traffic.step, read, Option.elim_some, Traffic.keyboard, Keyboard.step, taken.queue, kbStat_readKey read]

/-- Over every run, from any buffer apart from the variables, the data area is the keyboard. -/
theorem keyboard_typed (ready : Ready bda) (clear : Clear bda) (events : List Event) :
    (Traffic.run bda events).keyboard = events.foldl (Keyboard.step (slots bda - 1)) ⟨.of (kbStat bda), queue bda, []⟩ := by
  have start : Traffic.Inv bda ⟨bda, [], []⟩ := ⟨ready, .refl bda, List.append_nil _⟩
  exact Run.foldl_refines (Traffic.Inv bda) (fun _ event inv => inv.step clear event) (fun _ event inv => step_keyboard clear inv event)
    start events

end

/-- Shift held, a letter, Shift let go, Caps Lock, the letter again and the break code of the letter: `A` twice. -/
theorem keyboard_typed_sample : (Traffic.run (rm16InitKb .zero) [.code 0x2a, .code 0x1e, .code 0xaa, .code 0x3a, .code 0x1e,
    .code 0x9e]).keyboard.pending = [0x1e41, 0x1e41] := by
  obtain ⟨ready, clear, empty⟩ := rm16InitKb_ready .zero
  rw [keyboard_typed ready clear, empty]
  decide +kernel

end Biefircate.Kb
