import Biefircate.Lib.Machine
import Biefircate.Model.Stage2.Int1a

/-! # The routines of the int 0x1a handler

What each routine does to the registers, for any code that calls it. A reading of the clock is a function of where in the
sequence of CMOS bytes it starts.
-/

namespace Biefircate.Int1a

open Machine

variable {cmos : ℕ → UInt8} {s : Cpu} {rest : List Instr}

/-! ## Readings of the clock -/

/-- Look at the update flag until it is clear, at most `left` times. The result is where the bytes of the time start. -/
def pollUip (cmos : ℕ → UInt8) : ℕ → ℕ → Option ℕ
  | 0, _ => none
  | left + 1, pos => if cmos pos &&& rtcAUip = 0 then some (pos + 1) else pollUip cmos left (pos + 1)

/-- A time of day as the clock gives it. -/
structure RtcTime where
  hr : UInt8
  min : UInt8
  sec : UInt8
  dst : UInt8
deriving DecidableEq, Repr

/-- The registers in which `read_rtc` returns a time. -/
def RtcTime.cx (time : RtcTime) : UInt16 := ofHalves time.hr time.min
def RtcTime.dx (time : RtcTime) : UInt16 := ofHalves time.sec time.dst

/-- The reading that starts at a byte, unless it times out. -/
def reading (cmos : ℕ → UInt8) (pos : ℕ) : Option RtcTime :=
  (pollUip cmos 65536 pos).map fun p => ⟨cmos (p + 3), cmos (p + 2), cmos (p + 1), cmos p &&& rtcBDst⟩

/-- Where the reading that starts at a byte ends. -/
def readingEnd (cmos : ℕ → UInt8) (pos : ℕ) : ℕ :=
  match pollUip cmos 65536 pos with
  | some p => p + 4
  | none => pos + 65536

/-! ## Reading a byte -/

theorem Cpu.doing_of_place (at_ : s.place = .inside rest) : s.doing rest = s := by
  cases s
  cases at_
  rfl

theorem readCmos_passes (cmos : ℕ → UInt8) (s : Cpu) (rest : List Instr) :
    Passes (step cmos) atReadRtc (s.doing (.call .readCmos :: rest)) []
      ({ s with ax := setLo s.ax (cmos s.reads), zf := loByte s.ax ||| cmosNmiDis == 0, cf := false,
                reads := s.reads + 1 }.doing rest) := by
  rw [← setLo_setLo s.ax (loByte s.ax ||| cmosNmiDis)]
  iterate 11
    refine Passes.head rfl rfl ?_
    dsimp only [Cpu.doing, Cpu.get, Cpu.set, Cpu.flags]
  exact Passes.refl _

/-- A register of the CMOS. -/
theorem readReg_passes (cmos : ℕ → UInt8) (s : Cpu) {idx : UInt8} (at_ : s.place = .inside (.movAl idx :: .call .readCmos :: rest)) :
    Passes (step cmos) atReadRtc s []
      ({ s with ax := setLo s.ax (cmos s.reads), zf := idx ||| cmosNmiDis == 0, cf := false,
                reads := s.reads + 1 }.doing rest) := by
  have passes := readCmos_passes cmos { s with ax := setLo s.ax idx } rest
  rw [setLo_setLo, loByte_setLo] at passes
  rw [← Cpu.doing_of_place at_]
  exact passes.head rfl rfl

/-! ## Waiting for the clock -/

/-- One look at the update flag. -/
theorem lookUip_passes (cmos : ℕ → UInt8) (s : Cpu) : Passes (step cmos) atReadRtc (s.doing waitForNoUpd) []
    ({ s with ax := setLo s.ax (cmos s.reads), zf := cmos s.reads &&& rtcAUip == 0, cf := false, reads := s.reads + 1 }.doing
      (waitForNoUpd.drop 3)) := by
  refine (readReg_passes cmos (s.doing waitForNoUpd) rfl).trans (Passes.head rfl rfl ?_)
  dsimp only [Cpu.doing, Cpu.flags]
  rw [loByte_setLo]
  exact Passes.refl _

theorem ofNat_succ_sub_one (left : ℕ) : UInt16.ofNat (left + 1) - 1 = UInt16.ofNat left := by
  rw [UInt16.ofNat_add]
  exact UInt16.add_sub_cancel ..

theorem ofNat_eq_zero {left : ℕ} (small : left < 65536) : UInt16.ofNat left = 0 ↔ left = 0 := by
  rw [← UInt16.toNat_inj, UInt16.toNat_ofNat', Nat.mod_eq_of_lt small]
  rfl

/-- The state after one look, with the code that comes next. -/
def looked (cmos : ℕ → UInt8) (s : Cpu) (code : List Instr) : Cpu :=
  { s with ax := setLo s.ax (cmos s.reads), cx := s.cx - 1, zf := cmos s.reads &&& rtcAUip == 0, cf := false,
           reads := s.reads + 1 }.doing code

theorem lookUip_clear (clear : cmos s.reads &&& rtcAUip = 0) :
    Passes (step cmos) atReadRtc (s.doing waitForNoUpd) [] (looked cmos s (waitForNoUpd.drop 5)) := by
  have flag : (cmos s.reads &&& rtcAUip == 0) = true := beq_iff_eq.mpr clear
  have passes := lookUip_passes cmos s
  rw [flag] at passes
  refine passes.trans (Passes.head rfl rfl ?_)
  simp only [Cpu.doing, Cpu.jumpIf, Bool.not_true, Bool.and_false, Bool.false_eq_true, if_false]
  refine Passes.head rfl rfl ?_
  simp only [looked, flag, Cpu.doing, Cpu.jumpIf, Bool.not_true, Bool.false_eq_true, if_false]
  exact Passes.refl _

theorem lookUip_again (set : cmos s.reads &&& rtcAUip ≠ 0) (more : s.cx - 1 ≠ 0) :
    Passes (step cmos) atReadRtc (s.doing waitForNoUpd) [] (looked cmos s waitForNoUpd) := by
  have flag : (cmos s.reads &&& rtcAUip == 0) = false := beq_eq_false_iff_ne.mpr set
  have nonzero : (s.cx - 1 != 0) = true := bne_iff_ne.mpr more
  have passes := lookUip_passes cmos s
  rw [flag] at passes
  refine passes.trans (Passes.head rfl rfl ?_)
  simp only [looked, flag, Cpu.doing, Cpu.jumpIf, nonzero, Bool.not_false, Bool.and_true, if_true]
  exact Passes.refl _

theorem lookUip_error (set : cmos s.reads &&& rtcAUip ≠ 0) (last : s.cx - 1 = 0) :
    Passes (step cmos) atReadRtc (s.doing waitForNoUpd) [] (looked cmos s readRtcError) := by
  have flag : (cmos s.reads &&& rtcAUip == 0) = false := beq_eq_false_iff_ne.mpr set
  have zero : (s.cx - 1 != 0) = false := bne_eq_false_iff_eq.mpr last
  have passes := lookUip_passes cmos s
  rw [flag] at passes
  refine passes.trans (Passes.head rfl rfl ?_)
  simp only [Cpu.doing, Cpu.jumpIf, zero, Bool.not_false, Bool.false_and, Bool.false_eq_true, if_false]
  refine Passes.head rfl rfl ?_
  simp only [looked, flag, Cpu.doing, Cpu.jumpIf, Bool.not_false, if_true]
  exact Passes.refl _

/-- What the wait for the update flag leaves: only AX, CX and the flags have changed, and bytes have been read. -/
def Waited (s t : Cpu) (reads : ℕ) (code : List Instr) : Prop :=
  ∃ ax cx zf cf, t = { s with ax := ax, cx := cx, zf := zf, cf := cf, reads := reads }.doing code

/-- With a number of looks left in CX, the loop comes to the bytes of the time if one of them finds the flag clear. -/
theorem wait_clear {left p : ℕ} (small : left < 65536) (count : s.cx = UInt16.ofNat (left + 1))
    (found : pollUip cmos (left + 1) s.reads = some p) :
    ∃ t, Passes (step cmos) atReadRtc (s.doing waitForNoUpd) [] t ∧ Waited s t p (waitForNoUpd.drop 5) := by
  induction left generalizing s with
  | zero =>
    rw [pollUip] at found
    split at found
    · next clear =>
      cases found
      exact ⟨_, lookUip_clear clear, ⟨_, _, _, _, rfl⟩⟩
    · cases found
  | succ left ih =>
    rw [pollUip] at found
    split at found
    · next clear =>
      cases found
      exact ⟨_, lookUip_clear clear, ⟨_, _, _, _, rfl⟩⟩
    · next set =>
      have down : s.cx - 1 = UInt16.ofNat (left + 1) := by rw [count, ofNat_succ_sub_one]
      have more : s.cx - 1 ≠ 0 := by
        rw [down, Ne, ofNat_eq_zero small]
        exact Nat.succ_ne_zero left
      obtain ⟨t, passes, waited⟩ := @ih (looked cmos s waitForNoUpd) (Nat.lt_of_succ_lt small) down found
      exact ⟨t, (lookUip_again set more).trans passes, waited⟩

/-- Otherwise it comes to the error exit after all of them. -/
theorem wait_error {left : ℕ} (small : left < 65536) (count : s.cx = UInt16.ofNat (left + 1))
    (timedOut : pollUip cmos (left + 1) s.reads = none) :
    ∃ t, Passes (step cmos) atReadRtc (s.doing waitForNoUpd) [] t ∧ Waited s t (s.reads + (left + 1)) readRtcError := by
  induction left generalizing s with
  | zero =>
    rw [pollUip] at timedOut
    split at timedOut
    · cases timedOut
    · next set =>
      have down : s.cx - 1 = 0 := by
        rw [count, ofNat_succ_sub_one]
        rfl
      exact ⟨_, lookUip_error set down, ⟨_, _, _, _, rfl⟩⟩
  | succ left ih =>
    rw [pollUip] at timedOut
    split at timedOut
    · cases timedOut
    · next set =>
      have down : s.cx - 1 = UInt16.ofNat (left + 1) := by rw [count, ofNat_succ_sub_one]
      have more : s.cx - 1 ≠ 0 := by
        rw [down, Ne, ofNat_eq_zero small]
        exact Nat.succ_ne_zero left
      obtain ⟨t, passes, waited⟩ := @ih (looked cmos s waitForNoUpd) (Nat.lt_of_succ_lt small) down timedOut
      have total : s.reads + 1 + (left + 1) = s.reads + (left + 1 + 1) := by omega
      exact ⟨t, (lookUip_again set more).trans passes, total ▸ waited⟩

/-! ## Reading the clock -/

/-- The bytes of the time, once the update flag is clear. -/
theorem readTime_passes (cmos : ℕ → UInt8) (s : Cpu) {ax cx : UInt16} {stack : List Slot}
    (saved : s.stack = .value cx :: .value ax :: .back rest :: stack) :
    Passes (step cmos) atReadRtc (s.doing (waitForNoUpd.drop 5)) []
      ({ s with ax := ax, cx := ofHalves (cmos (s.reads + 3)) (cmos (s.reads + 2)),
                dx := ofHalves (cmos (s.reads + 1)) (cmos s.reads &&& rtcBDst), zf := cmosRtcHr ||| cmosNmiDis == 0,
                cf := false, stack := stack, reads := s.reads + 4 }.doing rest) := by
  obtain ⟨_, bx, _, dx, si, bp, ds, zf, cf, _, mem, reads, place⟩ := s
  cases saved
  refine Passes.head rfl rfl ?_
  dsimp only [Cpu.doing, Cpu.get, Cpu.set, Cpu.flags]
  refine (readReg_passes cmos _ rfl).trans ?_
  dsimp only [Cpu.doing]
  iterate 2
    refine Passes.head rfl rfl ?_
    dsimp only [Cpu.doing, Cpu.get, Cpu.set, Cpu.flags]
  refine (readReg_passes cmos _ rfl).trans ?_
  refine Passes.head rfl rfl ?_
  dsimp only [Cpu.doing]
  refine (readReg_passes cmos _ rfl).trans ?_
  refine Passes.head rfl rfl ?_
  dsimp only [Cpu.doing, Cpu.get, Cpu.set, Cpu.flags]
  refine (readReg_passes cmos _ rfl).trans ?_
  dsimp only [Cpu.doing]
  iterate 4
    refine Passes.head rfl rfl ?_
    dsimp only [Cpu.doing, Cpu.get, Cpu.set, Cpu.flags]
  simp only [loByte_setLo, setLo_setLo, setHi_setLo]
  exact Passes.refl _

/-- The state in which `read_rtc` comes to wait for the clock. -/
def waiting (s : Cpu) (rest : List Instr) : Cpu :=
  { s with cx := 0, zf := true, cf := false, stack := .value s.cx :: .value s.ax :: .back rest :: s.stack }.doing waitForNoUpd

theorem waiting_passes (cmos : ℕ → UInt8) (s : Cpu) (at_ : s.place = .inside (.call .readRtc :: rest)) :
    Passes (step cmos) atReadRtc s [s] (waiting s rest) := by
  rw [← Cpu.doing_of_place at_]
  refine Passes.watched rfl rfl ?_
  iterate 3
    refine Passes.head rfl rfl ?_
    dsimp only [Cpu.doing, Cpu.get, Cpu.set, Cpu.flags]
  rw [UInt16.xor_self]
  exact Passes.refl _

/-- `read_rtc` returns a time in CX and DX, and leaves them alone if it times out. -/
theorem readRtc_passes (cmos : ℕ → UInt8) (s : Cpu) (at_ : s.place = .inside (.call .readRtc :: rest)) : ∃ zf cf,
    Passes (step cmos) atReadRtc s [s]
      ({ s with cx := (reading cmos s.reads).elim s.cx RtcTime.cx, dx := (reading cmos s.reads).elim s.dx RtcTime.dx,
                zf := zf, cf := cf, reads := readingEnd cmos s.reads }.doing rest) := by
  have entered := waiting_passes cmos s at_
  have count : (waiting s rest).cx = UInt16.ofNat (65535 + 1) := rfl
  unfold reading readingEnd
  rcases found : pollUip cmos 65536 s.reads with _ | p
  · obtain ⟨_, waits, _, _, zf, _, rfl⟩ := @wait_error cmos (waiting s rest) 65535 (by decide) count found
    refine ⟨zf, true, entered.trans (waits.trans ?_)⟩
    iterate 4
      refine Passes.head rfl rfl ?_
      dsimp only [Cpu.doing, Cpu.get, Cpu.set, Cpu.flags, waiting]
    exact Passes.refl _
  · obtain ⟨_, waits, _, _, _, _, rfl⟩ := @wait_clear cmos (waiting s rest) 65535 p (by decide) count found
    exact ⟨_, _, entered.trans (waits.trans (readTime_passes cmos _ rfl))⟩

/-- The bits of the diagnostic status with which the clock is not to be trusted. -/
def diagBad : UInt8 := diagBadBat ||| diagBadCksum ||| diagBadClk

theorem isRtcOk_passes (cmos : ℕ → UInt8) (s : Cpu) (at_ : s.place = .inside (.call .isRtcOk :: rest)) :
    Passes (step cmos) atReadRtc s []
      ({ s with zf := cmos s.reads &&& diagBad == 0, cf := false, reads := s.reads + 1 }.doing rest) := by
  rw [← Cpu.doing_of_place at_]
  iterate 2
    refine Passes.head rfl rfl ?_
    dsimp only [Cpu.doing, Cpu.get]
  refine (readReg_passes cmos _ rfl).trans ?_
  iterate 3
    refine Passes.head rfl rfl ?_
    dsimp only [Cpu.doing, Cpu.set, Cpu.flags]
  rw [loByte_setLo]
  exact Passes.refl _

/-! ## Choosing the function -/

/-- The state in which a function of the handler is entered: SI is saved, and has an index into the table. -/
def chosen (s : Cpu) (ah : UInt8) (zf cf : Bool) (label : Label) : Cpu :=
  { s with si := ah.toUInt16 <<< 1, zf := zf, cf := cf, stack := .value s.si :: s.stack }.doing label.code

/-- A function that there is. -/
theorem dispatch_passes (cmos : ℕ → UInt8) (s : Cpu) {ah : UInt8} {label : Label} (at_ : s.place = .inside isr16x1a)
    (fn : hiByte s.ax = ah) (below : ah < UInt8.ofNat hndl.length)
    (entry : hndl[(ah.toUInt16 <<< 1).toNat / 2]? = some label) : ∃ zf cf,
    Passes (step cmos) atReadRtc s [] (chosen s ah zf cf label) := by
  have carry : decide (ah < UInt8.ofNat hndl.length) = true := decide_eq_true below
  rw [← Cpu.doing_of_place at_]
  refine ⟨ah.toUInt16 <<< 1 == 0, ah.toUInt16.toNat.testBit 15, Passes.head rfl rfl (Passes.head rfl rfl ?_)⟩
  simp only [Cpu.doing, Cpu.flags, Cpu.jumpIf, fn, carry, Bool.not_true, Bool.false_eq_true, if_false]
  iterate 3
    refine Passes.head rfl rfl ?_
    dsimp only [Cpu.doing, Cpu.get, Cpu.flags]
  rw [fn]
  refine Passes.head (by simp only [step, exec, Cpu.doing, entry]; rfl) rfl ?_
  exact Passes.refl _

/-- No such function. -/
theorem notTimeFn_finishes {ip cs : UInt16} {word : Slot} {stack : List Slot} (at_ : s.place = .inside isr16x1a)
    (other : ¬ hiByte s.ax < UInt8.ofNat hndl.length) (top : s.stack = .value ip :: .value cs :: word :: stack) : ∃ zf,
    Finishes (step cmos) atReadRtc s [] { s with zf := zf, cf := true, stack := stack, place := .returned cs ip } := by
  have carry : decide (hiByte s.ax < UInt8.ofNat hndl.length) = false := decide_eq_false other
  rw [← Cpu.doing_of_place at_]
  refine ⟨hiByte s.ax == UInt8.ofNat hndl.length, Passes.head rfl rfl (Passes.head rfl rfl ?_), rfl⟩
  simp only [Cpu.doing, Cpu.flags, Cpu.jumpIf, carry, Bool.not_false, if_true, top]
  iterate 4
    refine Passes.head rfl rfl ?_
    dsimp only [Cpu.doing]
  exact Passes.refl _

/-! ## Functions 0x00 and 0x01 -/

section

variable {si ip cs flags : UInt16} {below : List Slot}

/-- The registers are loaded with the timer, and the midnight flag is cleared. -/
theorem fn0x00_passes (cmos : ℕ → UInt8) (s : Cpu)
    (stack : s.stack = .value si :: .value ip :: .value cs :: .value flags :: below) :
    Passes (step cmos) atReadRtc (s.doing fn0x00) []
      { s with ax := setLo s.ax (s.mem timerOvfAt), cx := UInt16.ofNat (s.mem.readLE (timerAt + 2) 2),
               dx := UInt16.ofNat (s.mem.readLE timerAt 2), si := si, zf := flags.toNat.testBit 6,
               cf := flags.toNat.testBit 0, stack := below, mem := s.mem.write timerOvfAt [0],
               place := .returned cs ip } := by
  obtain ⟨ax, bx, cx, dx, _, bp, ds, zf, cf, _, mem, reads, place⟩ := s
  cases stack
  iterate 10
    refine Passes.head rfl rfl ?_
    dsimp only [Cpu.doing, Cpu.get, Cpu.set, Cpu.flags, Cpu.addr]
  simp only [UInt16.xor_self, UInt16.toNat_zero, Nat.zero_mul, Nat.zero_add, loByte_setLo, setLo_setLo]
  exact Passes.refl _

theorem iret_passes (cmos : ℕ → UInt8) (s : Cpu)
    (stack : s.stack = .value si :: .value ip :: .value cs :: .value flags :: below) :
    Passes (step cmos) atReadRtc (s.doing iret) []
      { s with si := si, zf := flags.toNat.testBit 6, cf := flags.toNat.testBit 0, stack := below,
               place := .returned cs ip } := by
  obtain ⟨ax, bx, cx, dx, _, bp, ds, zf, cf, _, mem, reads, place⟩ := s
  cases stack
  iterate 2
    refine Passes.head rfl rfl ?_
    dsimp only [Cpu.doing, Cpu.set, Cpu.flags]
  exact Passes.refl _

/-- The timer is set from CX and DX. -/
theorem ok0x01_passes (cmos : ℕ → UInt8) (s : Cpu)
    (stack : s.stack = .value si :: .value ip :: .value cs :: .value flags :: below) :
    Passes (step cmos) atReadRtc (s.doing ok0x01) []
      { s with si := si, zf := flags.toNat.testBit 6, cf := flags.toNat.testBit 0, stack := below,
               mem := (s.mem.writeLE (timerAt + 2) 2 s.cx.toNat).writeLE timerAt 2 s.dx.toNat,
               place := .returned cs ip } := by
  obtain ⟨ax, bx, cx, dx, _, bp, ds, zf, cf, _, mem, reads, place⟩ := s
  cases stack
  iterate 8
    refine Passes.head rfl rfl ?_
    dsimp only [Cpu.doing, Cpu.get, Cpu.set, Cpu.flags, Cpu.addr]
  simp only [UInt16.toNat_zero, Nat.zero_mul, Nat.zero_add]
  exact Passes.refl _

/-- Where the checks of function 0x01 lead. -/
def checked (cx dx : UInt16) : Label :=
  if 0x18 < cx then .iret else if cx < 0x18 then .ok0x01 else if 0x00b0 ≤ dx then .iret else .ok0x01

theorem cmpImm_step {reg : Reg} {imm : UInt16} {zf cf : Bool} (zero : (s.get reg == imm) = zf) (carry : decide (s.get reg < imm) = cf) :
    step cmos (s.doing (.cmpImm reg imm :: rest)) = some ({ s with zf := zf, cf := cf }.doing rest) := by
  subst zero carry
  cases reg <;> rfl

theorem fn0x01_passes (cmos : ℕ → UInt8) (s : Cpu) : ∃ zf cf,
    Passes (step cmos) atReadRtc (s.doing fn0x01) []
      ({ s with zf := zf, cf := cf }.doing (checked s.cx s.dx).code) := by
  unfold checked
  split
  · next more =>
    have unequal : (s.cx == 0x18) = false := beq_eq_false_iff_ne.mpr (UInt16.ne_of_lt more).symm
    have carry : decide (s.cx < 0x18) = false := decide_eq_false (UInt16.lt_asymm more)
    exact ⟨false, false, Passes.head (cmpImm_step unequal carry) rfl (Passes.head rfl rfl (Passes.refl _))⟩
  · next notMore =>
    split
    · next less =>
      have unequal : (s.cx == 0x18) = false := beq_eq_false_iff_ne.mpr (UInt16.ne_of_lt less)
      have carry : decide (s.cx < 0x18) = true := decide_eq_true less
      refine ⟨false, true, Passes.head (cmpImm_step unequal carry) rfl ?_⟩
      exact Passes.head rfl rfl (Passes.head rfl rfl (Passes.refl _))
    · next notLess =>
      have equal : (s.cx == 0x18) = true :=
        beq_iff_eq.mpr (UInt16.le_antisymm (UInt16.not_lt.mp notMore) (UInt16.not_lt.mp notLess))
      have carry : decide (s.cx < 0x18) = false := decide_eq_false notLess
      split
      · next high =>
        have flag : decide (s.dx < 0x00b0) = false := decide_eq_false (UInt16.not_lt.mpr high)
        refine ⟨s.dx == 0x00b0, false, Passes.head (cmpImm_step equal carry) rfl (Passes.head rfl rfl (Passes.head rfl rfl ?_))⟩
        exact Passes.head (@cmpImm_step cmos _ _ .dx _ _ _ rfl flag) rfl (Passes.head rfl rfl (Passes.refl _))
      · next low =>
        have flag : decide (s.dx < 0x00b0) = true := decide_eq_true (UInt16.not_le.mp low)
        refine ⟨s.dx == 0x00b0, true, Passes.head (cmpImm_step equal carry) rfl (Passes.head rfl rfl (Passes.head rfl rfl ?_))⟩
        exact Passes.head (@cmpImm_step cmos _ _ .dx _ _ _ rfl flag) rfl (Passes.head rfl rfl (Passes.refl _))

end

end Biefircate.Int1a
