import Biefircate.Lib.Word
import Biefircate.Lib.Bytes

/-! # The time of day of stage 2

`time.asm` counts timer interrupts in the BIOS data area and lets programs read and set the count. The
interrupts are disabled while it does so. The handler of int 0x1c, which IRQ 0 calls, is not part of
stage 2 and is taken to leave the data area alone; so do the parts of int 0x1a that read the CMOS clock.
-/

namespace Biefircate

/-- `bda.timer`, 32 bits wide, and `bda.timer_ovf`, a byte. -/
def bdaTimer : ℕ := 0x6c
def bdaTimerOvf : ℕ := 0x70

/-- The timer interrupts in 24 hours. -/
def ticksPerDay : ℕ := 0x1800b0

/-- `irq0`, up to the end of interrupt. -/
def irq0 (bda : Mem) : Mem :=
  let eax := Word.add 32 (bda.readLE bdaTimer 4) 1
  if ticksPerDay ≤ eax then
    (bda.writeLE bdaTimerOvf 1 (Word.add 8 (bda.readLE bdaTimerOvf 1) 1)).writeLE bdaTimer 4 0
  else bda.writeLE bdaTimer 4 eax

/-- What function 0x00 returns. -/
structure TimeRegs where
  cx : ℕ
  dx : ℕ
  al : ℕ
deriving DecidableEq, Repr

/-- Function 0x00: get system time & midnight flag. -/
def isr16x1aFn0x00 (bda : Mem) : TimeRegs × Mem :=
  (⟨bda.readLE (bdaTimer + 2) 2, bda.readLE bdaTimer 2, bda.readLE bdaTimerOvf 1⟩, bda.writeLE bdaTimerOvf 1 0)

/-- Function 0x01: set system time. -/
def isr16x1aFn0x01 (bda : Mem) (cx dx : UInt16) : Mem :=
  let ok := (bda.writeLE (bdaTimer + 2) 2 cx.toNat).writeLE bdaTimer 2 dx.toNat
  if 0x18 < cx then bda
  else if cx < 0x18 then ok
  else if 0x00b0 ≤ dx then bda
  else ok

end Biefircate
