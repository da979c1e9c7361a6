import Biefircate.Lib.Ports
import Biefircate.Model.Stage2.Kb

/-! # IRQ 1

`irq1_impl` of `kb.c` with the ports of the keyboard controller and of the PIC. Interrupts are disabled. The byte that `inp_w`
writes to port 0x80 before it reads is whatever AL happens to have, and only the delay counts.
-/

namespace Biefircate

open Ports

def kbPortA : ℕ := 0x0060
def kbSta : ℕ := 0x0064
def pic1CmdPort : ℕ := 0x0020

def kbStaInFull : UInt8 := 0x02
def kbStaDis : UInt8 := 0xad
def kbStaEna : UInt8 := 0xae
def picEoi : UInt8 := 0x20

variable {δ : Type} (devs : Devices δ)

/-- `--cnt` comes before the first look at the status, and `cnt` begins at zero. -/
def waitKbInBufClear (io : Io δ) : Io δ := devs.poll kbSta (fun sta => sta &&& kbStaInFull != 0) (Word.sub 16 0 1) io

/-- Send a command to the 8042 status port (to disable or enable the keyboard). -/
def sndSta (io : Io δ) (cmd : UInt8) : Io δ := devs.write (waitKbInBufClear devs io) kbSta cmd

/-- The data area is that of `bda`. -/
def irq1Impl (io : Io δ) (bda : Mem) : Io δ × Mem :=
  let io := sndSta devs io kbStaDis
  let io := waitKbInBufClear devs io
  let (code, io) := devs.read io kbPortA
  let bda := handleCode bda code
  let io := devs.write io pic1CmdPort picEoi
  (sndSta devs io kbStaEna, bda)

end Biefircate
