import Biefircate.Lib.X86
import Biefircate.Model.Stage2.Rm16
import Biefircate.Model.Stage2.Time

/-! # Interrupt handlers in real mode

The handlers of `vecs16.asm` that come back, and `irq0` of `time.asm`, instruction by instruction. What they call is a
parameter: the C routine for IRQ 1, and the handler of int 0x1c, which programs may replace. It gives the state in which the
call or the interrupt has come back, if it ever does.
-/

namespace Biefircate.Vecs16

open X86 Rm16

def bdaEqpt : ℕ := 0x10
def bdaBaseKib : ℕ := 0x13

/-- An I/O port, and the byte that is written to it. -/
structure Out where
  port : ℕ
  byte : ℕ
deriving DecidableEq, Repr

def pic1Cmd : ℕ := 0x0020
def ocw2Eoi : ℕ := 0x20

/-! ## IRQs implemented in C -/

/-- The instruction after the call of the C routine, and the routine. -/
structure IrqC where
  back : ℕ
  impl : ℕ
deriving DecidableEq, Repr

/-- The pushes at the start of `ISR_IRQ_C`. -/
def saveRegs (s : Cpu) : Cpu :=
  let s := s.push 2 s.ds.sel
  let s := s.push 2 s.es.sel
  let s := s.push 2 s.fs.sel
  let s := s.push 2 s.gs.sel
  let s := s.push 4 s.eax
  let s := s.push 4 s.ecx
  s.push 4 s.edx

/-- The stack is aligned, and the segment registers are set up. -/
def setUp (s : Cpu) : Cpu :=
  let s := { s with eax := s.esp }
  let s := { s with esp := clear s.esp 3 }
  let s := s.push 4 s.eax
  let s := { s with eax := setLow s.eax 0 }
  let s := { s with gs := s.loadSeg s.gs (s.eax % 2 ^ 16) }
  let s := { s with fs := s.loadSeg s.fs (s.mem.readLE (s.gs.base + (bdaAt + bdaEbda)) 2) }
  let s := { s with eax := setLow s.eax s.ss.sel }
  let s := { s with ds := s.loadSeg s.ds (s.eax % 2 ^ 16) }
  { s with es := s.loadSeg s.es (s.eax % 2 ^ 16) }

/-- The call, with a return address of 32 bits. -/
def callImpl (l : IrqC) (s : Cpu) : Cpu :=
  let s := s.push 2 0
  let s := s.push 2 l.back
  { s with eip := l.impl }

/-- The rest of `ISR_IRQ_C`. -/
def restoreRegs (s : Cpu) : Cpu :=
  let s := s.pop 4 fun s v => { s with esp := v }
  let s := s.pop 4 fun s v => { s with edx := v }
  let s := s.pop 4 fun s v => { s with ecx := v }
  let s := s.pop 4 fun s v => { s with eax := v }
  let s := s.pop 2 fun s v => { s with gs := s.loadSeg s.gs v }
  let s := s.pop 2 fun s v => { s with fs := s.loadSeg s.fs v }
  let s := s.pop 2 fun s v => { s with es := s.loadSeg s.es v }
  let s := s.pop 2 fun s v => { s with ds := s.loadSeg s.ds v }
  s.iret

def irqC (l : IrqC) (impl : Cpu → Option Cpu) (s : Cpu) : Option Cpu := do
  let s ← impl (callImpl l (setUp (saveRegs s)))
  return restoreRegs s

/-! ## IRQ 0 -/

/-- `irq0` up to int 0x1c. -/
def irq0Count (s : Cpu) : Cpu :=
  let s := s.push 2 s.ds.sel
  let s := s.push 4 s.eax
  let s := { s with eax := setLow s.eax 0 }
  let s := { s with ds := s.loadSeg s.ds (s.eax % 2 ^ 16) }
  let s := { s with eax := s.mem.readLE (s.ds.base + (bdaAt + bdaTimer)) 4 }
  let s := { s with eax := Word.add 32 s.eax 1 }
  let s :=
    if ticksPerDay ≤ s.eax then
      let ovf := s.ds.base + (bdaAt + bdaTimerOvf)
      let s := { s with mem := s.mem.writeLE ovf 1 (Word.add 8 (s.mem.readLE ovf 1) 1) }
      { s with eax := 0 }
    else s
  { s with mem := s.mem.writeLE (s.ds.base + (bdaAt + bdaTimer)) 4 s.eax }

/-- AL for the end of interrupt. -/
def irq0Eoi (s : Cpu) : Cpu := { s with eax := s.eax / 2 ^ 8 * 2 ^ 8 + ocw2Eoi }

/-- The rest of `irq0`. -/
def irq0Return (s : Cpu) : Cpu :=
  let s := s.pop 4 fun s v => { s with eax := v }
  let s := s.pop 2 fun s v => { s with ds := s.loadSeg s.ds v }
  s.iret

def irq0 (isr16x1c : Cpu → Option Cpu) (s : Cpu) : Option (Cpu × List Out) := do
  let s ← isr16x1c ((irq0Count s).interrupt 0x1c)
  let s := irq0Eoi s
  return (irq0Return s, [⟨pic1Cmd, s.eax % 2 ^ 8⟩])

/-! ## Handlers that read a variable -/

/-- What the two handlers share: `load` puts the variable into EAX. -/
def readVar (load : ℕ → ℕ → ℕ) (var : ℕ) (s : Cpu) : Cpu :=
  let s := s.push 2 s.ds.sel
  let s := { s with eax := setLow s.eax 0 }
  let s := { s with ds := s.loadSeg s.ds (s.eax % 2 ^ 16) }
  let s := { s with eax := load s.eax (s.mem.readLE (s.ds.base + (bdaAt + var)) 2) }
  let s := s.pop 2 fun s v => { s with ds := s.loadSeg s.ds v }
  s.iret

/-- Handler for int 0x11 (get equipment list), with a `movzx`. -/
def isr16x11 : Cpu → Cpu := readVar (fun _ v => v) bdaEqpt

/-- Handler for int 0x12 (get memory size). -/
def isr16x12 : Cpu → Cpu := readVar setLow bdaBaseKib

/-- Handler for interrupts that need nothing done. -/
def iret16 (s : Cpu) : Cpu := s.iret

end Biefircate.Vecs16
