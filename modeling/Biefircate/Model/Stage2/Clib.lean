import Biefircate.Lib.Bytes
import Mathlib.Data.UInt

/-! # Copying memory in stage 2

`memcpy` and `memmove` are one routine of `clib.asm`. Its instructions are run one by one, on the registers and the flags
that they use. The stack is kept apart from the rest of memory, the address to return to at first on top of it.
-/

namespace Biefircate.Clib

/-! ## Instructions -/

inductive Reg where
  | eax
  | ecx
  | edx
  | esi
  | edi
deriving DecidableEq, Repr

inductive Label where
  | finish
  | done
  | backward
deriving DecidableEq, Repr

inductive Instr where
  | push (reg : Reg)
  | pop (reg : Reg)
  | mov (dst src : Reg)
  | cmp (dst src : Reg)
  | shr (reg : Reg) (count : ℕ)
  | add (reg : Reg) (imm : UInt32)
  /-- `lea dst, [base + index - disp]`. -/
  | lea (dst base index : Reg) (disp : UInt32)
  | movClDl
  | andCl (imm : UInt8)
  | repMovsd
  | repMovsb
  | cld
  | std
  | ja (label : Label)
  | je (label : Label)
  | jmp (label : Label)
  | ret
deriving DecidableEq, Repr

/-- What there is left to execute, or where the routine has returned to. -/
inductive Place where
  | inside (rest : List Instr)
  | returned (eip : UInt32)
deriving DecidableEq, Repr

structure Cpu where
  eax : UInt32
  ecx : UInt32
  edx : UInt32
  esi : UInt32
  edi : UInt32
  zf : Bool
  cf : Bool
  df : Bool
  stack : List UInt32
  mem : Mem
  place : Place

namespace Cpu

def get (s : Cpu) : Reg → UInt32
  | .eax => s.eax
  | .ecx => s.ecx
  | .edx => s.edx
  | .esi => s.esi
  | .edi => s.edi

def set (s : Cpu) (v : UInt32) : Reg → Cpu
  | .eax => { s with eax := v }
  | .ecx => { s with ecx := v }
  | .edx => { s with edx := v }
  | .esi => { s with esi := v }
  | .edi => { s with edi := v }

/-- The flags after an operation with the given result. -/
def flags (s : Cpu) (result : UInt32) (carry : Bool) : Cpu := { s with zf := result == 0, cf := carry }

end Cpu

/-- ECX with another low byte. -/
def setCl (ecx : UInt32) (cl : UInt8) : UInt32 := UInt32.ofNat (ecx.toNat / 256 * 256 + cl.toNat)

/-- `rep movs`, in units of `size` bytes, for a number of units: ESI, EDI and memory. -/
def repMovs (df : Bool) (size : UInt32) : ℕ → UInt32 → UInt32 → Mem → UInt32 × UInt32 × Mem
  | 0, esi, edi, mem => (esi, edi, mem)
  | count + 1, esi, edi, mem =>
    let mem := mem.write edi.toNat (mem.read esi.toNat size.toNat)
    if df then repMovs df size count (esi - size) (edi - size) mem
    else repMovs df size count (esi + size) (edi + size) mem

def Cpu.repMovs (s : Cpu) (size : UInt32) : Cpu :=
  let moved := Clib.repMovs s.df size s.ecx.toNat s.esi s.edi s.mem
  { s with ecx := 0, esi := moved.1, edi := moved.2.1, mem := moved.2.2 }

/-! ## The routine -/

/-- `.done`. -/
def done : List Instr := [.pop .edi, .pop .esi, .ret]

/-- `.finish`. -/
def finish : List Instr := [.movClDl, .andCl 3, .repMovsb, .cld] ++ done

/-- `.backward`. -/
def backward : List Instr := [.lea .edi .edi .ecx 4, .lea .esi .esi .ecx 4, .mov .edx .ecx, .shr .ecx 2, .std, .repMovsd,
  .add .edi 3, .add .esi 3, .jmp .finish]

/-- `memcpy` and `memmove`. -/
def memmove : List Instr := [.push .esi, .push .edi, .mov .edi .eax, .mov .esi .edx, .cmp .edi .esi, .ja .backward,
  .je .done, .mov .edx .ecx, .shr .ecx 2, .repMovsd] ++ finish

def Label.code : Label → List Instr
  | .finish => Clib.finish
  | .done => Clib.done
  | .backward => Clib.backward

/-- Execute an instruction, which the rest is after. A pop of an empty stack does not happen. -/
def exec (s : Cpu) : Instr → Option Cpu
  | .push reg => some { s with stack := s.get reg :: s.stack }
  | .pop reg =>
    match s.stack with
    | [] => none
    | v :: stack => some ({ s with stack := stack }.set v reg)
  | .mov dst src => some (s.set (s.get src) dst)
  | .cmp dst src => some (s.flags (s.get dst - s.get src) (s.get dst < s.get src))
  | .shr reg count =>
    let v := UInt32.ofNat ((s.get reg).toNat / 2 ^ count)
    some ((s.flags v ((s.get reg).toNat.testBit (count - 1))).set v reg)
  | .add reg imm => some ((s.flags (s.get reg + imm) (s.get reg + imm < imm)).set (s.get reg + imm) reg)
  | .lea dst base index disp => some (s.set (s.get base + s.get index - disp) dst)
  | .movClDl => some { s with ecx := setCl s.ecx s.edx.toUInt8 }
  | .andCl imm =>
    let cl := s.ecx.toUInt8 &&& imm
    some { s.flags cl.toUInt32 false with ecx := setCl s.ecx cl }
  | .repMovsd => some (s.repMovs 4)
  | .repMovsb => some (s.repMovs 1)
  | .cld => some { s with df := false }
  | .std => some { s with df := true }
  | .ja label => some (if !s.cf && !s.zf then { s with place := .inside label.code } else s)
  | .je label => some (if s.zf then { s with place := .inside label.code } else s)
  | .jmp label => some { s with place := .inside label.code }
  | .ret =>
    match s.stack with
    | [] => none
    | eip :: stack => some { s with stack := stack, place := .returned eip }

/-- Execute the next instruction, if the routine has not returned. -/
def step (s : Cpu) : Option Cpu :=
  match s.place with
  | .inside (instr :: rest) => exec { s with place := .inside rest } instr
  | .inside [] => none
  | .returned _ => none

end Biefircate.Clib
