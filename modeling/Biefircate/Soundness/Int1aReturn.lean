import Biefircate.Proofs.Stage2.RtcRounds

/-! # How int 0x1a returns

Functions 0x00 and 0x01 and the functions that there are not return as they should. Function 0x02 saves three registers and
restores two of them before it shares its exits with the rest of the handler, so that it returns to where it happens to find
on the stack. It gets back only if it does not trust the clock, since then it has not saved anything yet.
-/

namespace Biefircate.Int1a

open Machine

variable {cmos : ℕ → UInt8} {s t : Cpu} {seen : List Cpu} {below : List Slot} {ip cs flags : UInt16}

/-- The handler has returned to where it was called from, with the stack and the registers as they were. -/
structure Restored (s : Cpu) (cs ip : UInt16) (below : List Slot) (t : Cpu) : Prop where
  place : t.place = .returned cs ip
  stack : t.stack = below
  si : t.si = s.si
  bx : t.bx = s.bx
  ds : t.ds = s.ds
  bp : t.bp = s.bp

/-! ## Functions 0x00 and 0x01

They do to the BIOS data area what their models do.
-/

/-- The BIOS data area. -/
def bdaOf (mem : Mem) : Mem := fun x => mem (0x0400 + x)

theorem readLE_bdaOf (mem : Mem) (a n : ℕ) : (bdaOf mem).readLE a n = mem.readLE (0x0400 + a) n := by
  have same : (bdaOf mem).read a n = mem.read (0x0400 + a) n := by
    induction n generalizing a with
    | zero => rfl
    | succ n ih => rw [Mem.read, Mem.read, ih, Nat.add_assoc, bdaOf]
  rw [Mem.readLE, Mem.readLE, same]

theorem bdaOf_write (mem : Mem) (a : ℕ) (bytes : List UInt8) :
    bdaOf (mem.write (0x0400 + a) bytes) = (bdaOf mem).write a bytes := by
  funext x
  simp only [bdaOf, Mem.write, Nat.add_le_add_iff_left, Nat.add_sub_add_left]

theorem toNat_ofNat_readLE (mem : Mem) (a : ℕ) : (UInt16.ofNat (mem.readLE a 2)).toNat = mem.readLE a 2 := by
  have small : mem.readLE a 2 < 65536 := mem.readLE_lt a 2
  rw [UInt16.toNat_ofNat', Nat.mod_eq_of_lt small]

/-- The checks are those of the model. -/
theorem checked_cases (cx dx : UInt16) :
    checked cx dx = .iret ∧ (∀ bda, isr16x1aFn0x01 bda cx dx = bda) ∨ checked cx dx = .ok0x01 ∧
      ∀ bda, isr16x1aFn0x01 bda cx dx = (bda.writeLE (bdaTimer + 2) 2 cx.toNat).writeLE bdaTimer 2 dx.toNat := by
  unfold checked isr16x1aFn0x01
  split
  · exact .inl ⟨rfl, fun _ => rfl⟩
  · split
    · exact .inr ⟨rfl, fun _ => rfl⟩
    · split
      · exact .inl ⟨rfl, fun _ => rfl⟩
      · exact .inr ⟨rfl, fun _ => rfl⟩

section

variable (entry : s.place = .inside isr16x1a) (stack : s.stack = .value ip :: .value cs :: .value flags :: below)
include entry stack

theorem fn0x00_finishes (ah : hiByte s.ax = 0) : ∃ t, Finishes (step cmos) atReadRtc s [] t ∧ Restored s cs ip below t ∧
    (⟨t.cx.toNat, t.dx.toNat, (loByte t.ax).toNat⟩, bdaOf t.mem) = isr16x1aFn0x00 (bdaOf s.mem) := by
  obtain ⟨zf, cf, entered⟩ := dispatch_passes cmos s entry ah (by decide) (show _ = some .fn0x00 from rfl)
  have saved := congrArg (List.cons (.value s.si)) stack
  have returns := entered.trans (fn0x00_passes cmos (chosen s 0 zf cf .fn0x00) saved)
  refine ⟨_, ⟨returns, rfl⟩, ⟨rfl, rfl, rfl, rfl, rfl, rfl⟩, ?_⟩
  have cleared := bdaOf_write s.mem bdaTimerOvf [0]
  simp only [isr16x1aFn0x00, readLE_bdaOf, toNat_ofNat_readLE, loByte_setLo]
  exact congrArg₂ Prod.mk rfl cleared

theorem fn0x01_finishes (ah : hiByte s.ax = 1) : ∃ t, Finishes (step cmos) atReadRtc s [] t ∧ Restored s cs ip below t ∧
    bdaOf t.mem = isr16x1aFn0x01 (bdaOf s.mem) s.cx s.dx := by
  obtain ⟨zf, cf, entered⟩ := dispatch_passes cmos s entry ah (by decide) (show _ = some .fn0x01 from rfl)
  have saved := congrArg (List.cons (.value s.si)) stack
  obtain ⟨zf', cf', compared⟩ := fn0x01_passes cmos (chosen s 1 zf cf .fn0x01)
  rcases checked_cases (chosen s 1 zf cf .fn0x01).cx (chosen s 1 zf cf .fn0x01).dx with ⟨refused, same⟩ | ⟨accepted, set⟩
  · rw [refused] at compared
    have returns := entered.trans (compared.trans (iret_passes cmos _ saved))
    exact ⟨_, ⟨returns, rfl⟩, ⟨rfl, rfl, rfl, rfl, rfl, rfl⟩, (same _).symm⟩
  · rw [accepted] at compared
    have returns := entered.trans (compared.trans (ok0x01_passes cmos _ saved))
    refine ⟨_, ⟨returns, rfl⟩, ⟨rfl, rfl, rfl, rfl, rfl, rfl⟩, ?_⟩
    have high := bdaOf_write s.mem (bdaTimer + 2) (toBytes 2 s.cx.toNat)
    have low := bdaOf_write (s.mem.writeLE (timerAt + 2) 2 s.cx.toNat) bdaTimer (toBytes 2 s.dx.toNat)
    exact low.trans ((congrArg (fun bda => bda.write bdaTimer (toBytes 2 s.dx.toNat)) high).trans (set _).symm)

end

/-! ## Function 0x02 -/

/-- Once three registers have been saved, every exit returns from the wrong place in the stack. -/
theorem wait0x02_stack {a b ax si ip cs : UInt16} {word : Slot} (at_ : s.place = .inside wait0x02)
    (stack : s.stack = .value a :: .value b :: .value ax :: .value si :: .value ip :: .value cs :: word :: below)
    (finishes : Finishes (step cmos) atReadRtc s seen t) :
    t.stack = .value cs :: word :: below ∨ t.stack = word :: below := by
  obtain ⟨n, length⟩ : ∃ n, seen.length = n := ⟨_, rfl⟩
  -- Every round reads the clock twice, so the readings that are left get fewer.
  induction n using Nat.strong_induction_on generalizing s seen with
  | h n ih =>
    obtain ⟨again, cf, _, outcome⟩ := round_cases cmos s at_
    rcases outcome with ⟨_, passes⟩ | ⟨_, ⟨_, _, passes⟩ | ⟨_, _, passes⟩ | ⟨_, passes⟩⟩
    · left
      exact ((passes.after (@ok_finishes cmos _ _ _ _ _ _ _ stack)).unique finishes).1 ▸ rfl
    · right
      exact ((passes.after (@last_finishes cmos _ _ _ _ _ _ _ _ stack)).unique finishes).1 ▸ rfl
    · obtain ⟨rest, rfl, left⟩ := passes.finishes finishes
      have shorter : rest.length < n := length ▸ List.length_append ▸ Nat.lt_add_of_pos_left Nat.two_pos
      apply ih rest.length shorter rfl _ left rfl
      exact stack
    · obtain ⟨rest, rfl, left⟩ := passes.finishes finishes
      have shorter : rest.length < n := length ▸ List.length_append ▸ Nat.lt_add_of_pos_left Nat.two_pos
      apply ih rest.length shorter rfl _ left rfl
      exact stack

/-! ## Every function -/

theorem hndl_cases (ah : UInt8) : ah = 0 ∨ ah = 1 ∨ ah = 2 ∨ ¬ ah < UInt8.ofNat hndl.length := by
  have three : UInt8.ofNat hndl.length = 3 := rfl
  simp only [three, UInt8.lt_iff_toNat_lt, ← UInt8.toNat_inj, UInt8.toNat_ofNat]
  omega

/-- The paths that save and restore the same registers. -/
theorem restores (entry : s.place = .inside isr16x1a) (stack : s.stack = .value ip :: .value cs :: .value flags :: below)
    (safe : hiByte s.ax ≠ 2 ∨ cmos s.reads &&& diagBad ≠ 0) :
    ∃ t, Finishes (step cmos) atReadRtc s [] t ∧ Restored s cs ip below t := by
  rcases hndl_cases (hiByte s.ax) with zero | one | two | other
  · obtain ⟨t, finishes, restored, -⟩ := @fn0x00_finishes cmos s below ip cs flags entry stack zero
    exact ⟨t, finishes, restored⟩
  · obtain ⟨t, finishes, restored, -⟩ := @fn0x01_finishes cmos s below ip cs flags entry stack one
    exact ⟨t, finishes, restored⟩
  · have untrusted := safe.resolve_left fun other => other two
    exact ⟨_, untrusted_finishes entry two untrusted stack, ⟨rfl, rfl, rfl, rfl, rfl, rfl⟩⟩
  · obtain ⟨zf, finishes⟩ := @notTimeFn_finishes cmos s ip cs _ _ entry other stack
    exact ⟨_, finishes, ⟨rfl, rfl, rfl, rfl, rfl, rfl⟩⟩

/-- A finished run returns as it should if and only if it has not come to trust the clock. -/
theorem isr16x1a_restores_iff (entry : s.place = .inside isr16x1a)
    (stack : s.stack = .value ip :: .value cs :: .value flags :: below) (finishes : Finishes (step cmos) atReadRtc s seen t) :
    Restored s cs ip below t ↔ (hiByte s.ax ≠ 2 ∨ cmos s.reads &&& diagBad ≠ 0) := by
  constructor
  · intro restored
    rw [Ne, Ne, ← not_and_or]
    rintro ⟨ah, trusted⟩
    obtain ⟨rest, -, left⟩ := (firstRound_passes entry ah trusted).finishes finishes
    rcases wait0x02_stack rfl (firstRound_stack stack) left with wrong | wrong
    · have long := congrArg List.length (wrong.symm.trans restored.stack)
      exact absurd long (Nat.ne_of_gt (Nat.lt_add_of_pos_right Nat.two_pos))
    · exact List.cons_ne_self _ _ (wrong.symm.trans restored.stack)
  · intro safe
    obtain ⟨t', finishes', restored⟩ := restores entry stack safe
    obtain ⟨rfl, -⟩ := finishes'.unique finishes
    exact restored

/-- A clock at midnight. -/
def midnight : ℕ → UInt8 := fun _ => 0

/-- A call of the handler. -/
def caller (ah : UInt8) : Cpu :=
  { ax := ofHalves ah 0, bx := 1, cx := 2, dx := 3, si := 4, bp := 5, ds := 6, zf := false, cf := false,
    stack := [.value 7, .value 8, .value 9], mem := .zero, reads := 0, place := .inside isr16x1a }

theorem isr16x1a_restores_iff_five : ∃ t, Finishes (step midnight) atReadRtc (caller 5) [] t ∧
    (Restored (caller 5) 8 7 [] t ↔ (hiByte (caller 5).ax ≠ 2 ∨ midnight 0 &&& diagBad ≠ 0)) := by
  have ah : hiByte (caller 5).ax = 5 := hiByte_ofHalves 5 0
  have other : ¬ hiByte (caller 5).ax < UInt8.ofNat hndl.length := by
    rw [ah]
    decide
  obtain ⟨zf, finishes⟩ := @notTimeFn_finishes midnight (caller 5) 7 8 _ _ rfl other rfl
  exact ⟨_, finishes, isr16x1a_restores_iff rfl rfl finishes⟩

/-- At midnight the handler takes AX and SI for the return address. -/
theorem isr16x1a_lost : ∃ seen t, Finishes (step midnight) atReadRtc (caller 2) seen t ∧
    t.place = .returned 4 (ofHalves 2 0) ∧ t.stack = [.value 8, .value 9] ∧ ¬ Restored (caller 2) 8 7 [] t := by
  have started := @firstRound_passes midnight (caller 2) rfl (hiByte_ofHalves 2 0) rfl
  obtain ⟨again, zf, cf, read, -⟩ := readings_pass midnight (firstRound (caller 2)) rfl
  obtain ⟨cf', compared⟩ := @agrees_passes midnight (firstRound (caller 2)) 0 zf cf rfl rfl
  have finishes := Passes.after (started.trans (read.trans compared)) (ok_finishes rfl)
  refine ⟨_, _, finishes, rfl, rfl, fun restored => ?_⟩
  exact List.cons_ne_nil _ _ restored.stack

end Biefircate.Int1a
