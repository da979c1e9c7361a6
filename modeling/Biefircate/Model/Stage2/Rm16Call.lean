import Biefircate.Lib.X86
import Biefircate.Model.Stage2.Rm16

/-! # Calling real mode code from stage 2

`rm16_call` switches to real mode, calls a routine at a far address, and switches back. What is called may do as it likes, so it
is a parameter, `callee`: the state in which it has returned to the address on top of its stack, if it ever does. The arithmetic
flags are not kept up.
-/

namespace Biefircate.Rm16

open X86

/-! ## Symbols -/

/-- The selectors of `stage2.inc`. -/
def selCs32 : ℕ := 0x0008
def selDs32 : ℕ := 0x0010
def selCs16 : ℕ := 0x0018
def selDs16Zero : ℕ := 0x0020

def cr0Pe : ℕ := 1 <<< 0
def cr0Pg : ℕ := 1 <<< 31
def cr4Pae : ℕ := 1 <<< 5

/-- Labels of `rm16_call` and of its 16-bit part, and variables of the latter. -/
structure Labels where
  /-- The instruction after `call SEL_CS16:rm16_call.cont1`. -/
  back : ℕ
  cont1 : ℕ
  cont2 : ℕ
  /-- The instruction after `call far word [fs:edi]`. -/
  back16 : ℕ
  rmCs16 : ℕ
  sp32 : ℕ
  stack16 : ℕ
deriving DecidableEq, Repr

/-- The variables after `sp32`. -/
def Labels.ptpd32 (l : Labels) : ℕ := l.sp32 + 4
def Labels.gdtr (l : Labels) : ℕ := l.sp32 + 8

/-! ## Into real mode -/

/-- The flags that `pushfd` pushes. -/
def pushedFlags (eflags : ℕ) : ℕ := eflags &&& 0x00fcffff

/-- The pushes at the start of `rm16_call`. -/
def pushRegs (s : Cpu) : Cpu :=
  let s := s.push 4 s.ebx
  let s := s.push 4 s.esi
  let s := s.push 4 s.edi
  let s := s.push 4 s.ebp
  s.push 4 (pushedFlags s.eflags)

/-- `rm16_call`, up to the call of its 16-bit part. -/
def enter (l : Labels) (s : Cpu) : Cpu :=
  let s := pushRegs s
  let s := { s with ebx := s.mem.readLE (s.ss.base + Word.add 32 s.esp (5 * 4 + 4)) 4 }
  let s := { s with edi := Word.add 32 s.esp (5 * 4 + 4 + 4) }
  let s := { s with eflags := clear s.eflags flagIf }
  let s := s.push 4 s.cs.sel
  let s := s.push 4 l.back
  { s with cs := s.loadSeg s.cs selCs16, eip := l.cont1 }

/-- `rm16_call.cont1`. -/
def cont1 (l : Labels) (s : Cpu) : Cpu :=
  let s := { s with esi := setLow s.esi selDs16Zero }
  let s := { s with ds := s.loadSeg s.ds (s.esi % 2 ^ 16) }
  let s := { s with es := s.loadSeg s.es (s.esi % 2 ^ 16) }
  let s := { s with fs := s.loadSeg s.fs (s.esi % 2 ^ 16) }
  let s := { s with gs := s.loadSeg s.gs (s.esi % 2 ^ 16) }
  let s := { s with esi := s.cr0 }
  let s := { s with esi := clear s.esi (cr0Pg ||| cr0Pe) }
  let s := { s with cr0 := s.esi }
  -- The segment number in the jump is that which `rm16_init` has filled in.
  { s with cs := s.loadSeg s.cs (s.mem.readLE (s.cs.base + l.rmCs16) 2), eip := l.cont2 }

/-- `rm16_call.cont2`, up to the call. -/
def cont2 (l : Labels) (s : Cpu) : Cpu :=
  let s := { s with esi := setLow s.esi (s.mem.readLE (s.ds.base + (bdaAt + bdaEbda)) 2) }
  let s := { s with ds := s.loadSeg s.ds (s.esi % 2 ^ 16) }
  let s := { s with mem := s.mem.writeLE (s.ds.base + l.sp32) 4 s.esp }
  let s := { s with esp := s.cr3 }
  let s := { s with mem := s.mem.writeLE (s.ds.base + l.ptpd32) 4 s.esp }
  let s := { s with ss := s.loadSeg s.ss (s.esi % 2 ^ 16) }
  let s := { s with esp := l.stack16 }
  let s := { s with es := s.loadSeg s.es (s.esi % 2 ^ 16) }
  let s := { s with esi := setLow s.esi 0 }
  let s := { s with fs := s.loadSeg s.fs (s.esi % 2 ^ 16) }
  let s := { s with gs := s.loadSeg s.gs (s.esi % 2 ^ 16) }
  let s := { s with mem := s.mem.writeLE (s.ds.base + l.gdtr) 6 s.gdtr }
  let s := { s with esi := s.cr4 }
  let s := { s with esi := setLow s.esi (clear s.esi cr4Pae) }
  { s with cr4 := s.esi }

/-- `call far word [fs:edi]`. -/
def callFar (l : Labels) (s : Cpu) : Cpu :=
  let off := s.mem.readLE (s.fs.base + s.edi) 2
  let sel := s.mem.readLE (s.fs.base + Word.add 32 s.edi 2) 2
  let s := s.push 2 s.cs.sel
  let s := s.push 2 l.back16
  { s with cs := s.loadSeg s.cs sel, eip := off }

/-- The state in which the callee starts. -/
def called (l : Labels) (s : Cpu) : Cpu := callFar l (cont2 l (cont1 l (enter l s)))

/-! ## Back to protected mode -/

/-- From the instruction after the call on, up to `jmp far dword [esp-8]`. -/
def resume (l : Labels) (s : Cpu) : Cpu :=
  let s := { s with eflags := clear s.eflags flagIf }
  let s := { s with esi := setLow s.esi 0 }
  let s := { s with ss := s.loadSeg s.ss (s.esi % 2 ^ 16) }
  let s := { s with ds := s.loadSeg s.ds (s.mem.readLE (s.ss.base + (bdaAt + bdaEbda)) 2) }
  let s := { s with esp := s.mem.readLE (s.ds.base + l.sp32) 4 }
  let s := { s with esi := s.mem.readLE (s.ds.base + l.ptpd32) 4 }
  let s := { s with cr3 := s.esi }
  -- With operands of 16 bits `lgdt` takes 24 bits of the base.
  let s := { s with gdtr := s.mem.readLE (s.ds.base + l.gdtr) 6 % 2 ^ 40 }
  let s := { s with esi := s.cr4 }
  let s := { s with esi := setLow s.esi (s.esi ||| cr4Pae) }
  let s := { s with cr4 := s.esi }
  let s := { s with esi := s.cr0 }
  let s := { s with esi := s.esi ||| (cr0Pg ||| cr0Pe) }
  let s := { s with cr0 := s.esi }
  let s := { s with esp := Word.add 32 s.esp 8 }
  let eip := s.mem.readLE (s.ss.base + Word.sub 32 s.esp 8) 4
  let sel := s.mem.readLE (s.ss.base + Word.sub 32 s.esp 4) 2
  { s with cs := s.loadSeg s.cs sel, eip := eip }

/-- The pops and the return at the end of `rm16_call`. -/
def popRegs (s : Cpu) : Cpu :=
  let s := s.pop 4 fun s v => { s with eflags := v }
  let s := s.pop 4 fun s v => { s with ebp := v }
  let s := s.pop 4 fun s v => { s with edi := v }
  let s := s.pop 4 fun s v => { s with esi := v }
  let s := s.pop 4 fun s v => { s with ebx := v }
  let s := s.pop 4 fun s v => { s with eip := v }
  s.drop 8

/-- The rest of `rm16_call`. -/
def leave (s : Cpu) : Cpu :=
  let s := { s with esi := setLow s.esi selDs32 }
  let s := { s with ds := s.loadSeg s.ds (s.esi % 2 ^ 16) }
  let s := { s with es := s.loadSeg s.es (s.esi % 2 ^ 16) }
  let s := { s with ss := s.loadSeg s.ss (s.esi % 2 ^ 16) }
  let s := { s with fs := s.loadSeg s.fs (s.esi % 2 ^ 16) }
  let s := { s with gs := s.loadSeg s.gs (s.esi % 2 ^ 16) }
  popRegs s

/-- `rm16_call`, with what it calls. -/
def rm16Call (l : Labels) (callee : Cpu → Option Cpu) (s : Cpu) : Option Cpu := do
  let t ← callee (called l s)
  let t := resume l t
  if t.eip = l.back ∧ t.cs.sel = selCs32 then return leave t else none

end Biefircate.Rm16
