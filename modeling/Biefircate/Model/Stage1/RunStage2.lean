import Biefircate.Lib.X86
import Biefircate.Model.Stage2.Rm16Call
import Biefircate.Model.Stage2.Vecs16

/-! # From stage 1 to stage 2

`run_stage2` copies the end of itself, the trampoline, to memory below 4 GiB and jumps there. The trampoline leaves long mode and
jumps to stage 2. Segments are flat in long mode and are left out until the trampoline loads them. Strings are copied upwards, as
the calling convention has it.
-/

namespace Biefircate.RunStage2

open X86 Rm16 Vecs16

/-! ## Long mode -/

/-- Registers of 64 bits, and those of them that `run_stage2` uses. -/
structure Long where
  rax : ℕ
  rbx : ℕ
  rcx : ℕ
  rdx : ℕ
  rsi : ℕ
  rdi : ℕ
  rbp : ℕ
  rsp : ℕ
  r8 : ℕ
  r9 : ℕ
  rip : ℕ
  rflags : ℕ
  cr0 : ℕ
  cr3 : ℕ
  cr4 : ℕ
  efer : ℕ
  /-- The limit and the base of the GDT. -/
  gdtr : ℕ
  mem : Mem

namespace Long

/-- A quadword is pushed. -/
def push (s : Long) (v : ℕ) : Long :=
  let rsp := Word.sub 64 s.rsp 8
  { s with rsp := rsp, mem := s.mem.writeLE rsp 8 v }

/-- A quadword is popped and put where `set` says. -/
def pop (s : Long) (set : Long → ℕ → Long) : Long := set { s with rsp := Word.add 64 s.rsp 8 } (s.mem.readLE s.rsp 8)

/-- `rep stosq`, for the value of RCX. -/
def repStosq : ℕ → Long → Long
  | 0, s => { s with rcx := 0 }
  | n + 1, s => repStosq n { s with rdi := Word.add 64 s.rdi 8, mem := s.mem.writeLE s.rdi 8 s.rax }

/-- `rep movsq`, for the value of RCX. -/
def repMovsq : ℕ → Long → Long
  | 0, s => { s with rcx := 0 }
  | n + 1, s => repMovsq n { s with
      rsi := Word.add 64 s.rsi 8
      rdi := Word.add 64 s.rdi 8
      mem := s.mem.write s.rdi (s.mem.read s.rsi 8) }

end Long

/-! ## Symbols -/

def msrEfer : ℕ := 0xc0000080

/-- Labels of `run-stage2.asm`: `LB`, and the others less `LB`. -/
structure Labels where
  lb : ℕ
  le : ℕ
  pm32 : ℕ
  pm32Gdtr : ℕ
deriving DecidableEq, Repr

/-! ## `run_stage2` -/

/-- The boot parameters, and a stack at the end of the page of the trampoline. -/
def setUpStack (s : Long) : Long :=
  let s := { s with rflags := clear s.rflags flagIf }
  let s := { s with rbp := s.mem.readLE (Word.add 64 s.rsp (8 + 0x20)) 4 }
  let s := { s with rsp := Word.add 32 (s.rdx % 2 ^ 32) 0x1000 }
  let s := { s with mem := s.mem.writeLE (Word.add 32 s.rsp 4) 4 s.rbx }
  let s := { s with rcx := s.rcx % 2 ^ 32 }
  let s := s.push s.rcx
  let s := s.push s.r8
  { s with mem := s.mem.writeLE (Word.add 32 (s.rsp % 2 ^ 32) 4) 4 s.r9 }

/-- The real mode interrupt vectors and the BIOS data area are cleared. -/
def clearLow (s : Long) : Long :=
  let s := { s with rdi := 0 }
  let s := { s with rcx := 0x0600 / 8 }
  let s := { s with rax := 0 }
  Long.repStosq s.rcx s

/-- The trampoline is copied, and its GDTR gets the address of the copy. -/
def copyTrampoline (l : Labels) (s : Long) : Long :=
  let s := { s with rdi := s.rdx % 2 ^ 32 }
  let s := s.push s.rdi
  let s := { s with rsi := l.lb }
  let s := { s with rcx := l.le / 8 }
  let s := Long.repMovsq s.rcx s
  let base := Word.sub 64 s.rdi (l.le - (l.pm32Gdtr + 2))
  { s with mem := s.mem.writeLE base 4 (Word.add 32 (s.mem.readLE base 4) (s.rdx % 2 ^ 32)) }

/-- `run_stage2`, up to its jump to the trampoline. -/
def runStage2 (l : Labels) (s : Long) : Long :=
  (copyTrampoline l (clearLow (setUpStack s))).pop fun s v => { s with rip := v }

/-- The trampoline in long mode, up to its far return, which goes to a code segment of 32 bits. -/
def toPm32 (l : Labels) (s : Long) : Cpu :=
  let s := { s with gdtr := s.mem.readLE (Word.sub 64 s.rdi (l.le - l.pm32Gdtr)) 10 }
  let s := s.push 8
  let s := { s with rdi := Word.sub 64 s.rdi (l.le - l.pm32) }
  let s := s.push s.rdi
  let s := s.pop fun s v => { s with rip := v }
  let sel := s.mem.readLE s.rsp 8 % 2 ^ 16
  let s := s.pop fun s _ => s
  { eax := s.rax % 2 ^ 32
    ebx := s.rbx % 2 ^ 32
    ecx := s.rcx % 2 ^ 32
    edx := s.rdx % 2 ^ 32
    esi := s.rsi % 2 ^ 32
    edi := s.rdi % 2 ^ 32
    ebp := s.rbp % 2 ^ 32
    esp := s.rsp % 2 ^ 32
    cs := gdtSeg s.mem (s.gdtr / 2 ^ 16) sel
    ds := ⟨0, 0, true⟩
    es := ⟨0, 0, true⟩
    fs := ⟨0, 0, true⟩
    gs := ⟨0, 0, true⟩
    ss := ⟨0, 0, true⟩
    eip := s.rip % 2 ^ 32
    eflags := s.rflags % 2 ^ 32
    cr0 := s.cr0
    cr3 := s.cr3
    cr4 := s.cr4
    gdtr := s.gdtr
    mem := s.mem }

/-- A data segment register, which a null selector leaves without a segment. -/
def loadData (s : Cpu) (old : Seg) (sel : ℕ) : Seg := if sel / 4 = 0 then ⟨sel, 0, old.big⟩ else s.loadSeg old sel

/-- AL and AH replaced. -/
def setAl (eax v : ℕ) : ℕ := eax / 2 ^ 8 * 2 ^ 8 + v % 2 ^ 8
def setAh (eax v : ℕ) : ℕ := eax / 2 ^ 16 * 2 ^ 16 + v % 2 ^ 8 * 2 ^ 8 + eax % 2 ^ 8

/-- `Lpm32`, up to the pops: the segments, and the control registers with EFER. -/
def pm32 (efer : ℕ) (s : Cpu) : Cpu × ℕ :=
  let s := { s with eax := setLow s.eax 0x10 }
  let s := { s with ds := loadData s s.ds (s.eax % 2 ^ 16) }
  let s := { s with es := loadData s s.es (s.eax % 2 ^ 16) }
  let s := { s with ss := loadData s s.ss (s.eax % 2 ^ 16) }
  let s := { s with eax := setAl s.eax 0 }
  let s := { s with fs := loadData s s.fs (s.eax % 2 ^ 16) }
  let s := { s with gs := loadData s s.gs (s.eax % 2 ^ 16) }
  let s := { s with eax := s.cr0 }
  let s := { s with eax := clear s.eax cr0Pg }
  let s := { s with cr0 := s.eax }
  let s := { s with ecx := msrEfer }
  let s := { s with eax := efer % 2 ^ 32, edx := efer / 2 ^ 32 }
  -- `(~EFER_LME)>>8`
  let s := { s with eax := setAh s.eax (s.eax / 2 ^ 8 % 2 ^ 8 &&& 0xfe) }
  let efer := s.edx * 2 ^ 32 + s.eax
  let s := { s with eax := s.cr4 }
  -- `~(CR4_PAE|CR4_PSE)`
  let s := { s with eax := setAl s.eax (s.eax % 2 ^ 8 &&& 0xcf) }
  let s := { s with cr4 := s.eax }
  let s := { s with eax := s.cr3 }
  ({ s with cr3 := s.eax }, efer)

def bdaBaseKibAt : ℕ := 0x0413
def bdaEbdaAt : ℕ := 0x040e
def vgaMiscR : ℕ := 0x03cc
def vgaMiscW : ℕ := 0x03c2

/-- The rest of the trampoline. `misc` is what is read from port 0x3cc. -/
def handOver (misc : ℕ) (s : Cpu) : Cpu × List Out :=
  let s := s.pop 4 fun s v => { s with eax := v }
  let s := { s with mem := s.mem.writeLE (s.ds.base + bdaBaseKibAt) 2 (s.eax % 2 ^ 16) }
  let s := s.pop 4 fun s v => { s with eax := v }
  let s := { s with mem := s.mem.writeLE (s.ds.base + bdaEbdaAt) 2 (s.eax % 2 ^ 16) }
  let s := { s with edx := setLow s.edx vgaMiscR }
  let s := { s with eax := setAl s.eax misc }
  let s := { s with eax := setAl s.eax (s.eax % 2 ^ 8 ||| 1) }
  let s := { s with edx := setAl s.edx 0xc2 }
  let out := [⟨s.edx % 2 ^ 16, s.eax % 2 ^ 8⟩]
  (s.pop 4 fun s v => { s with eip := v }, out)

/-- From the call of `run_stage2` to the entry of stage 2, with EFER and what is written to ports. -/
def enterStage2 (l : Labels) (misc : ℕ) (s : Long) : Cpu × ℕ × List Out :=
  let (t, efer) := pm32 s.efer (toPm32 l (runStage2 l s))
  let (t, out) := handOver misc t
  (t, efer, out)

end Biefircate.RunStage2
