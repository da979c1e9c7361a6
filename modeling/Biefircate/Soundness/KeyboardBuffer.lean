import Biefircate.Proofs.Stage2.Kb

/-! # The keyboard buffer keeps every key once and in order

Scan codes arrive and a reader takes keys, in any order. What is between head and tail is then what
was there first and what was accepted since, less what was taken. This needs a buffer that does not
lie over the keyboard variables of the data area, which the handler does not check.
-/

namespace Biefircate.Kb

instance (bda : Mem) : Decidable (Full bda) := inferInstanceAs (Decidable (_ = _))

/-- The key that a code stands for, or zero. -/
def arriving (bda : Mem) (code : UInt8) : ℕ := ((kbStat bda).switch code).2

/-- A key that finds room is accepted. -/
def accepts (bda : Mem) (code : UInt8) : Option ℕ :=
  if arriving bda code = 0 ∨ Full bda then none else some (arriving bda code)

inductive Event where
  | code (code : UInt8)
  | dequeue
deriving DecidableEq, Repr

/-- The data area, with the keys accepted and the keys taken so far. -/
structure Traffic where
  bda : Mem
  accepted : List ℕ
  dequeued : List ℕ

def Traffic.step (t : Traffic) : Event → Traffic
  | .code code => ⟨handleCode t.bda code, t.accepted ++ (accepts t.bda code).toList, t.dequeued⟩
  | .dequeue => (readKey t.bda).elim t fun (key, bda) => ⟨bda, t.accepted, t.dequeued ++ [key]⟩

def Traffic.run (bda : Mem) (events : List Event) : Traffic := events.foldl Traffic.step ⟨bda, [], []⟩

/-- What the buffer and the handler promise after a run that began with `first`. -/
structure Faithful (first : Mem) (t : Traffic) : Prop where
  bounds : SameBuffer first t.bda
  headOn : OnSlot first (head t.bda)
  tailOn : OnSlot first (tail t.bda)
  fifo : queue first ++ t.accepted = t.dequeued ++ queue t.bda
  pending : (queue t.bda).length ≤ (stop first - start first) / 2 - 1
  full : Full t.bda → ∀ code a, a ≠ kbStat1 → a ≠ kbStat2 → handleCode t.bda code a = t.bda a
  writes : ∀ code a, handleCode t.bda code a ≠ t.bda a → a = kbStat1 ∨ a = kbStat2 ∨
    tail t.bda ≤ a ∧ a < tail t.bda + 2 ∨ kbBufTail ≤ a ∧ a < kbBufTail + 2

/-! ## One code -/

private theorem getD_lt {map : List ℕ} {bound : ℕ} (positive : 0 < bound) (below : ∀ k ∈ map, k < bound) (i : ℕ) :
    map[i]?.getD 0 < bound := by
  cases found : map[i]? with
  | none => exact positive
  | some k => exact below k (List.mem_of_getElem? found)

theorem key_lt (s : KbStat) (code : UInt8) (shifted : Bool) : s.key code shifted < 0x10000 := by
  have alt := getD_lt (by decide) (show ∀ k ∈ altMap, k < 0x100 by decide) code.toNat
  have ctl := getD_lt (by decide) (show ∀ k ∈ ctlMap, k < 0x10000 by decide) code.toNat
  have shift := getD_lt (by decide) (show ∀ k ∈ shiftMap, k < 0x10000 by decide) code.toNat
  have noShift := getD_lt (by decide) (show ∀ k ∈ noShiftMap, k < 0x10000 by decide) code.toNat
  unfold KbStat.key
  split
  · omega
  · split
    · exact ctl
    · dsimp only
      split <;> split <;> assumption

private theorem snd_ite_lt {p : Prop} [Decidable p] {x y : KbStat × ℕ} {bound : ℕ} (first : x.2 < bound)
    (second : y.2 < bound) : (if p then x else y).2 < bound := by
  split
  · exact first
  · exact second

/-- A key fits in a slot. -/
theorem arriving_lt (bda : Mem) (code : UInt8) : arriving bda code < 0x10000 := by
  unfold arriving KbStat.switch
  repeat' apply snd_ite_lt
  -- Every case of the switch has no key or takes one from the maps.
  all_goals first
    | exact key_lt ..
    | exact Nat.two_pow_pos 16

variable {bda : Mem}

/-- The handler stores the status and then, given a key, adds it. -/
theorem handleCode_eq (bda : Mem) (code : UInt8) : ∃ s : KbStat,
    handleCode bda code = if arriving bda code = 0 then bda.write kbStat1 [s.stat1, s.stat2]
      else addKey (bda.write kbStat1 [s.stat1, s.stat2]) (arriving bda code) :=
  ⟨((kbStat bda).switch code).1, rfl⟩

/-- After a code the buffer is where it was, and an accepted key is at the end of its queue. -/
structure Handled (bda bda' : Mem) (accepted : Option ℕ) : Prop where
  buffer : SameBuffer bda bda'
  headOn : OnSlot bda (head bda')
  tailOn : OnSlot bda (tail bda')
  queue : queue bda' = queue bda ++ accepted.toList

theorem Kept.handled {bda' : Mem} (ready : Ready bda) (kept : Kept bda bda') : Handled bda bda' none where
  buffer := kept.buffer
  headOn := kept.head ▸ ready.headOn
  tailOn := kept.tail ▸ ready.tailOn
  queue := by rw [kept.queue, Option.toList_none, List.append_nil]

theorem handleCode_handled (ready : Ready bda) (clear : Clear bda) (code : UInt8) :
    Handled bda (handleCode bda code) (accepts bda code) := by
  obtain ⟨s, ran⟩ := handleCode_eq bda code
  have kept := kept_stat ready clear s
  rw [ran, accepts]
  by_cases none : arriving bda code = 0
  · rw [if_pos none, if_pos (Or.inl none)]
    exact kept.handled ready
  · rw [if_neg none]
    by_cases full : Full bda
    · rw [addKey_full (kept.ready ready) (kept.full.mpr full), if_pos (Or.inr full)]
      exact kept.handled ready
    · have added := addKey_room (kept.ready ready) (kept.buffer.clear clear) (mt kept.full.mp full) (arriving bda code)
      rw [if_neg (not_or.mpr ⟨none, full⟩)]
      refine ⟨kept.buffer.trans added.buffer, ?_, kept.buffer.onSlot.mp added.tailOn, ?_⟩
      · rw [added.head, kept.head]
        exact ready.headOn
      · rw [added.queue, kept.queue, Nat.mod_eq_of_lt (arriving_lt bda code), Option.toList_some]

/-- A code that finds the buffer full changes the status at most. -/
theorem handleCode_of_full (ready : Ready bda) (clear : Clear bda) (full : Full bda) (code : UInt8) {a : ℕ}
    (first : a ≠ kbStat1) (second : a ≠ kbStat2) : handleCode bda code a = bda a := by
  obtain ⟨s, ran⟩ := handleCode_eq bda code
  have kept := kept_stat ready clear s
  rw [ran, addKey_full (kept.ready ready) (kept.full.mpr full), ite_self]
  exact stat_of_ne bda s first second

/-- In any data area, a byte outside the status, the slot at the tail and the tail itself is left alone. -/
theorem handleCode_frame (bda : Mem) (code : UInt8) {a : ℕ} (first : a ≠ kbStat1) (second : a ≠ kbStat2)
    (offSlot : a < tail bda ∨ tail bda + 2 ≤ a) (offTail : a < kbBufTail ∨ kbBufTail + 2 ≤ a) :
    handleCode bda code a = bda a := by
  obtain ⟨s, ran⟩ := handleCode_eq bda code
  have tailIs : tail (bda.write kbStat1 [s.stat1, s.stat2]) = tail bda := by
    apply Mem.readLE_write_apart
    simp [kbStat1, kbBufTail]
  have stored := stat_of_ne bda s first second
  rw [ran]
  split
  · exact stored
  · rw [addKey_frame _ _ (tailIs ▸ offSlot) offTail, stored]

/-! ## Runs -/

/-- What holds of the traffic after any number of events. -/
structure Traffic.Inv (first : Mem) (t : Traffic) : Prop where
  ready : Ready t.bda
  bounds : SameBuffer first t.bda
  fifo : queue first ++ t.accepted = t.dequeued ++ queue t.bda

theorem Traffic.Inv.step {first : Mem} (clear : Clear first) {t : Traffic} (inv : t.Inv first) (event : Event) :
    (t.step event).Inv first := by
  obtain ⟨ready, bounds, fifo⟩ := inv
  cases event with
  | code code =>
    have handled := handleCode_handled ready (bounds.clear clear) code
    refine ⟨handled.buffer.ready ready handled.headOn handled.tailOn, bounds.trans handled.buffer, ?_⟩
    change queue first ++ (t.accepted ++ (accepts t.bda code).toList) =
      t.dequeued ++ queue (handleCode t.bda code)
    rw [handled.queue, ← List.append_assoc, fifo, List.append_assoc]
  | dequeue =>
    cases read : readKey t.bda with
    | none =>
      simp only [Traffic.step, read, Option.elim_none]
      exact ⟨ready, bounds, fifo⟩
    | some found =>
      obtain ⟨key, bda⟩ := found
      have taken := readKey_some ready (bounds.clear clear) read
      simp only [Traffic.step, read, Option.elim_some]
      refine ⟨taken.buffer.ready ready taken.headOn (taken.tail ▸ ready.tailOn), bounds.trans taken.buffer, ?_⟩
      rw [fifo, taken.queue, List.append_assoc, List.singleton_append]

theorem Traffic.Inv.run {first : Mem} (ready : Ready first) (clear : Clear first) (events : List Event) :
    (Traffic.run first events).Inv first := by
  have start : Traffic.Inv first ⟨first, [], []⟩ := ⟨ready, .refl first, List.append_nil _⟩
  unfold Traffic.run
  generalize (⟨first, [], []⟩ : Traffic) = t at start ⊢
  induction events generalizing t with
  | nil => exact start
  | cons event rest ih => exact ih (t.step event) (start.step clear event)

/-- Over a buffer apart from the keyboard variables, no run of codes and dequeues loses, repeats or
reorders a key. -/
theorem keyboard_faithful {bda : Mem} (ready : Ready bda) (clear : Clear bda) (events : List Event) :
    Faithful bda (Traffic.run bda events) := by
  have inv := Traffic.Inv.run ready clear events
  generalize Traffic.run bda events = t at inv
  have headOn := inv.bounds.onSlot.mp inv.ready.headOn
  have tailOn := inv.bounds.onSlot.mp inv.ready.tailOn
  have length := queue_length_lt inv.ready
  rw [inv.bounds.slots] at length
  refine ⟨inv.bounds, headOn, tailOn, inv.fifo, Nat.le_sub_one_of_lt length, ?_, ?_⟩
  · intro full code a first second
    exact handleCode_of_full inv.ready (inv.bounds.clear clear) full code first second
  · intro code a written
    by_contra elsewhere
    simp only [not_or, not_and, not_lt] at elsewhere
    obtain ⟨first, second, offSlot, offTail⟩ := elsewhere
    exact written (handleCode_frame t.bda code first second (by omega) (by omega))

/-- The buffer that `rm16_init` sets up is empty and apart from the variables. -/
theorem rm16InitKb_ready (bda : Mem) : Ready (rm16InitKb bda) ∧ Clear (rm16InitKb bda) ∧ queue (rm16InitKb bda) = [] := by
  have startIs : start (rm16InitKb bda) = defKbBuf := by
    rw [start, rm16InitKb, Mem.readLE_writeLE_apart (by decide), Mem.readLE_writeLE_apart (by decide),
      Mem.readLE_writeLE_apart (by decide), Mem.readLE_writeLE]
    rfl
  have headIs : head (rm16InitKb bda) = defKbBuf := by
    rw [head, rm16InitKb, Mem.readLE_writeLE_apart (by decide), Mem.readLE_writeLE_apart (by decide),
      Mem.readLE_writeLE]
    rfl
  have tailIs : tail (rm16InitKb bda) = defKbBuf := by
    rw [tail, rm16InitKb, Mem.readLE_writeLE_apart (by decide), Mem.readLE_writeLE]
    rfl
  have stopIs : stop (rm16InitKb bda) = defKbBufEnd := by
    rw [stop, rm16InitKb, Mem.readLE_writeLE]
    rfl
  have on : OnSlot (rm16InitKb bda) defKbBuf := by
    rw [OnSlot, startIs, stopIs]
    decide
  refine ⟨⟨?_, ?_, headIs ▸ on, tailIs ▸ on⟩, ⟨?_, ?_⟩, ?_⟩
  · rw [startIs, stopIs]
    decide
  · rw [startIs, stopIs]
    decide
  · rw [startIs, stopIs]
    decide
  · rw [startIs, stopIs]
    decide
  · rw [queue, headIs, tailIs, Ring.contents_self]

/-- Three keys, one of them taken, in the buffer of `rm16_init`. -/
theorem keyboard_faithful_init : Faithful (rm16InitKb .zero)
    (Traffic.run (rm16InitKb .zero) [.code 0x1e, .code 0x2a, .code 0x30, .dequeue, .code 0x2e]) :=
  keyboard_faithful (rm16InitKb_ready _).1 (rm16InitKb_ready _).2.1 _

/-- A buffer of two slots over `kb_buf_start` and `kb_buf_end`, empty. -/
def overBounds : Mem :=
  (((Mem.zero.writeLE kbBufStart 2 0x80).writeLE kbBufEnd 2 0x84).writeLE kbBufHead 2 0x80).writeLE
    kbBufTail 2 0x80

/-- There the first key replaces the start of the buffer. -/
theorem keyboard_not_faithful : ¬ ∀ (bda : Mem) (events : List Event), Ready bda →
    Faithful bda (Traffic.run bda events) := by
  intro always
  have ready : Ready overBounds := ⟨by decide +kernel, by decide +kernel,
    ⟨by decide +kernel, by decide +kernel, by decide +kernel⟩,
    ⟨by decide +kernel, by decide +kernel, by decide +kernel⟩⟩
  have moved : start (Traffic.run overBounds [.code 0x1e]).bda ≠ start overBounds := by decide +kernel
  exact moved (always overBounds [.code 0x1e] ready).bounds.start

end Biefircate.Kb
