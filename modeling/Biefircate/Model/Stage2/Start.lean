import Biefircate.Model.Stage2.Rm16Call

/-! # The start of stage 2

`_start` sets up the stack and the segments of stage 2 and calls `stage2_main` with the boot parameters. The table of interrupt
vectors, which is that of real mode, is left out.
-/

namespace Biefircate.Start

open X86 Rm16

/-- Labels of `start.asm`. -/
structure Labels where
  startingStack : ℕ
  gdtr : ℕ
  cont : ℕ
  /-- The instruction after the call. -/
  back : ℕ
  stage2Main : ℕ
deriving DecidableEq, Repr

/-- `_start`, up to `stage2_main`. -/
def start (l : Labels) (s : Cpu) : Cpu :=
  let s := { s with eflags := clear s.eflags flagIf }
  let s := { s with eflags := clear s.eflags (1 <<< 10) }
  let s := { s with esp := l.startingStack }
  let s := { s with gdtr := s.mem.readLE (s.ds.base + l.gdtr) 6 }
  let s := { s with cs := s.loadSeg s.cs selCs32, eip := l.cont }
  let s := { s with eax := setLow s.eax selDs32 }
  let s := { s with ds := s.loadSeg s.ds (s.eax % 2 ^ 16) }
  let s := { s with es := s.loadSeg s.es (s.eax % 2 ^ 16) }
  let s := { s with ss := s.loadSeg s.ss (s.eax % 2 ^ 16) }
  let s := { s with fs := s.loadSeg s.fs (s.eax % 2 ^ 16) }
  let s := { s with gs := s.loadSeg s.gs (s.eax % 2 ^ 16) }
  let s := { s with eax := s.ebp }
  let s := s.push 4 l.back
  { s with eip := l.stage2Main }

end Biefircate.Start
