import Biefircate.Lib.Halves
import Biefircate.Model.Stage2.Time

/-! # The handler of int 0x1a

The rest of `time.asm`, instruction by instruction. The CMOS ports return an arbitrary sequence of bytes, so that nothing
depends on what is written to them. Interrupts are disabled until the handler is about to return.
-/

namespace Biefircate.Int1a

/-! ## Constants of `stage2.inc` -/

def portCmosIdx : UInt16 := 0x0070
def portCmosData : UInt16 := 0x0071
def portDummy : UInt16 := 0x0080

def cmosRtcSec : UInt8 := 0x00
def cmosRtcMin : UInt8 := 0x02
def cmosRtcHr : UInt8 := 0x04
def cmosRtcStaA : UInt8 := 0x0a
def cmosRtcStaB : UInt8 := 0x0b
def cmosRtcStaD : UInt8 := 0x0d
def cmosDiag : UInt8 := 0x0e
def cmosNmiDis : UInt8 := 0x80

def rtcAUip : UInt8 := 0x80
def rtcBDst : UInt8 := 0x01

def diagBadBat : UInt8 := 0x80
def diagBadCksum : UInt8 := 0x40
def diagBadClk : UInt8 := 0x04

/-! ## Instructions -/

inductive Reg where
  | ax
  | bx
  | cx
  | dx
  | si
  | ds
deriving DecidableEq, Repr

inductive Label where
  | fn0x00
  | iret
  | fn0x01
  | ok0x01
  | fn0x02
  | wait0x02
  | error
  | ok0x02
  | done
  | notTimeFn
  | isRtcOk
  | readRtc
  | waitForNoUpd
  | readRtcError
  | readCmos
deriving DecidableEq, Repr

inductive Instr where
  | push (reg : Reg)
  | pushImm (imm : UInt16)
  | pop (reg : Reg)
  | mov (dst src : Reg)
  | movAl (imm : UInt8)
  | movChAl
  | movDhAl
  | movzxSiAh
  /-- `mov reg, [offset]` and `mov [offset], reg`. -/
  | load (reg : Reg) (offset : ℕ)
  | store (offset : ℕ) (reg : Reg)
  /-- `xchg al, [offset]`. -/
  | xchgAl (offset : ℕ)
  | xchg (dst src : Reg)
  | xor (dst src : Reg)
  | shlSi
  | decSi
  | cmpAh (imm : UInt8)
  | cmpImm (reg : Reg) (imm : UInt16)
  | cmp (dst src : Reg)
  | testAl (imm : UInt8)
  | andAl (imm : UInt8)
  | orAl (imm : UInt8)
  | inAl (port : UInt16)
  | outAl (port : UInt16)
  | clc
  | stc
  | sti
  | ja (label : Label)
  | jae (label : Label)
  | jb (label : Label)
  | jz (label : Label)
  | jnz (label : Label)
  | loopnz (label : Label)
  | jmp (label : Label)
  /-- `jmp word [cs:table+si]`. -/
  | jmpTable (table : List Label)
  | call (label : Label)
  | ret
  | iret
  /-- `retf 2`. -/
  | retf2
deriving DecidableEq, Repr

/-- A word on the stack: a value, or the address of what there is to execute after a call. -/
inductive Slot where
  | value (v : UInt16)
  | back (rest : List Instr)
deriving DecidableEq, Repr

/-- What there is left to execute, or where the handler has returned to. -/
inductive Place where
  | inside (rest : List Instr)
  | returned (cs ip : UInt16)
deriving DecidableEq, Repr

structure Cpu where
  ax : UInt16
  bx : UInt16
  cx : UInt16
  dx : UInt16
  si : UInt16
  bp : UInt16
  ds : UInt16
  zf : Bool
  cf : Bool
  stack : List Slot
  mem : Mem
  /-- How many bytes have been read from `PORT_CMOS_DATA`. -/
  reads : ℕ
  place : Place

namespace Cpu

def get (s : Cpu) : Reg → UInt16
  | .ax => s.ax
  | .bx => s.bx
  | .cx => s.cx
  | .dx => s.dx
  | .si => s.si
  | .ds => s.ds

def set (s : Cpu) (v : UInt16) : Reg → Cpu
  | .ax => { s with ax := v }
  | .bx => { s with bx := v }
  | .cx => { s with cx := v }
  | .dx => { s with dx := v }
  | .si => { s with si := v }
  | .ds => { s with ds := v }

/-- The same state with other code to execute. -/
def doing (s : Cpu) (code : List Instr) : Cpu := { s with place := .inside code }

/-- The linear address of an offset in the data segment. -/
def addr (s : Cpu) (offset : ℕ) : ℕ := s.ds.toNat * 16 + offset

end Cpu

/-! ## The handler -/

/-- The offsets of `bda.timer` and `bda.timer_ovf` with DS = 0. -/
def timerAt : ℕ := 0x0400 + bdaTimer
def timerOvfAt : ℕ := 0x0400 + bdaTimerOvf

/-- `isr16_0x1a.iret`. -/
def iret : List Instr := [.pop .si, .iret]

/-- Function 0x00: get system time & midnight flag. -/
def fn0x00 : List Instr := [.push .ds, .xor .dx .dx, .mov .ds .dx, .load .cx (timerAt + 2), .load .dx timerAt, .movAl 0,
  .xchgAl timerOvfAt, .pop .ds] ++ iret

def ok0x01 : List Instr := [.push .ds, .pushImm 0, .pop .ds, .store (timerAt + 2) .cx, .store timerAt .dx, .pop .ds,
  .pop .si, .iret]

/-- Function 0x01: set system time. -/
def fn0x01 : List Instr := [.cmpImm .cx 0x18, .ja .iret, .jb .ok0x01, .cmpImm .dx 0x00b0, .jae .iret] ++ ok0x01

def done : List Instr := [.sti, .retf2]

def ok0x02 : List Instr := [.pop .bx, .pop .ax, .clc] ++ done

def error : List Instr := [.pop .si, .stc, .jmp .done]

/-- From `.wait0x02` on, with `.retry0x02` at the decrement. -/
def wait0x02 : List Instr := [.call .readRtc, .xchg .cx .ax, .mov .bx .dx, .call .readRtc, .cmp .ax .cx, .jnz .wait0x02,
  .cmp .bx .dx, .jz .ok0x02, .decSi, .jnz .wait0x02, .pop .bx, .pop .ax] ++ error

/-- Function 0x02: get RTC time. -/
def fn0x02 : List Instr := [.call .isRtcOk, .jnz .error, .push .ax, .push .bx, .push .si, .xor .si .si] ++ wait0x02

def notTimeFn : List Instr := [.stc, .jmp .done]

def hndl : List Label := [.fn0x00, .fn0x01, .fn0x02]

def isr16x1a : List Instr := [.cmpAh (UInt8.ofNat hndl.length), .jae .notTimeFn, .push .si, .movzxSiAh, .shlSi, .jmpTable hndl]

def isRtcOk : List Instr := [.push .ax, .movAl cmosDiag, .call .readCmos,
  .testAl (diagBadBat ||| diagBadCksum ||| diagBadClk), .pop .ax, .ret]

/-- From `.wait_for_no_upd` on. -/
def waitForNoUpd : List Instr := [.movAl cmosRtcStaA, .call .readCmos, .testAl rtcAUip, .loopnz .waitForNoUpd,
  .jnz .readRtcError, .pop .cx, .movAl cmosRtcStaB, .call .readCmos, .andAl rtcBDst, .xchg .dx .ax,
  .movAl cmosRtcSec, .call .readCmos, .movDhAl, .movAl cmosRtcMin, .call .readCmos, .xchg .cx .ax,
  .movAl cmosRtcHr, .call .readCmos, .movChAl, .pop .ax, .clc, .ret]

def readRtc : List Instr := [.push .ax, .push .cx, .xor .cx .cx] ++ waitForNoUpd

/-- `read_rtc.error`. -/
def readRtcError : List Instr := [.pop .cx, .pop .ax, .stc, .ret]

def readCmos : List Instr := [.orAl cmosNmiDis, .outAl portCmosIdx, .outAl portDummy, .inAl portCmosData,
  .push .ax, .movAl cmosRtcStaD, .outAl portCmosIdx, .outAl portDummy, .pop .ax, .ret]

def Label.code : Label → List Instr
  | .fn0x00 => Int1a.fn0x00
  | .iret => Int1a.iret
  | .fn0x01 => Int1a.fn0x01
  | .ok0x01 => Int1a.ok0x01
  | .fn0x02 => Int1a.fn0x02
  | .wait0x02 => Int1a.wait0x02
  | .error => Int1a.error
  | .ok0x02 => Int1a.ok0x02
  | .done => Int1a.done
  | .notTimeFn => Int1a.notTimeFn
  | .isRtcOk => Int1a.isRtcOk
  | .readRtc => Int1a.readRtc
  | .waitForNoUpd => Int1a.waitForNoUpd
  | .readRtcError => Int1a.readRtcError
  | .readCmos => Int1a.readCmos

/-! ## Execution -/

namespace Cpu

/-- The flags after an operation with the given result. -/
def flags (s : Cpu) (zero carry : Bool) : Cpu := { s with zf := zero, cf := carry }

/-- A conditional jump. -/
def jumpIf (s : Cpu) (taken : Bool) (label : Label) : Cpu := if taken then s.doing label.code else s

end Cpu

/-- Execute an instruction that comes before `rest`. The bytes in `cmos` are what the CMOS data port returns, one for every
time it is read. A pop of something else than was pushed does not happen. -/
def exec (cmos : ℕ → UInt8) (s : Cpu) (rest : List Instr) : Instr → Option Cpu
  | .push reg => some { s with stack := .value (s.get reg) :: s.stack }
  | .pushImm imm => some { s with stack := .value imm :: s.stack }
  | .pop reg =>
    match s.stack with
    | .value v :: stack => some ({ s with stack := stack }.set v reg)
    | _ => none
  | .mov dst src => some (s.set (s.get src) dst)
  | .movAl imm => some { s with ax := setLo s.ax imm }
  | .movChAl => some { s with cx := setHi s.cx (loByte s.ax) }
  | .movDhAl => some { s with dx := setHi s.dx (loByte s.ax) }
  | .movzxSiAh => some { s with si := (hiByte s.ax).toUInt16 }
  | .load reg offset => some (s.set (UInt16.ofNat (s.mem.readLE (s.addr offset) 2)) reg)
  | .store offset reg => some { s with mem := s.mem.writeLE (s.addr offset) 2 (s.get reg).toNat }
  | .xchgAl offset =>
    some { s with ax := setLo s.ax (s.mem (s.addr offset)), mem := s.mem.write (s.addr offset) [loByte s.ax] }
  | .xchg dst src => some ((s.set (s.get src) dst).set (s.get dst) src)
  | .xor dst src => some ((s.flags (s.get dst ^^^ s.get src == 0) false).set (s.get dst ^^^ s.get src) dst)
  | .shlSi => some { s.flags (s.si <<< 1 == 0) (s.si.toNat.testBit 15) with si := s.si <<< 1 }
  | .decSi => some { s with si := s.si - 1, zf := s.si - 1 == 0 }
  | .cmpAh imm => some (s.flags (hiByte s.ax == imm) (hiByte s.ax < imm))
  | .cmpImm reg imm => some (s.flags (s.get reg == imm) (s.get reg < imm))
  | .cmp dst src => some (s.flags (s.get dst == s.get src) (s.get dst < s.get src))
  | .testAl imm => some (s.flags (loByte s.ax &&& imm == 0) false)
  | .andAl imm => some { s.flags (loByte s.ax &&& imm == 0) false with ax := setLo s.ax (loByte s.ax &&& imm) }
  | .orAl imm => some { s.flags (loByte s.ax ||| imm == 0) false with ax := setLo s.ax (loByte s.ax ||| imm) }
  | .inAl port =>
    if port = portCmosData then some { s with ax := setLo s.ax (cmos s.reads), reads := s.reads + 1 } else none
  | .outAl _ => some s
  | .clc => some { s with cf := false }
  | .stc => some { s with cf := true }
  | .sti => some s
  | .ja label => some (s.jumpIf (!s.cf && !s.zf) label)
  | .jae label => some (s.jumpIf (!s.cf) label)
  | .jb label => some (s.jumpIf s.cf label)
  | .jz label => some (s.jumpIf s.zf label)
  | .jnz label => some (s.jumpIf (!s.zf) label)
  | .loopnz label => some ({ s with cx := s.cx - 1 }.jumpIf (s.cx - 1 != 0 && !s.zf) label)
  | .jmp label => some (s.doing label.code)
  | .jmpTable table =>
    match table[s.si.toNat / 2]? with
    | some label => some (s.doing label.code)
    | none => none
  | .call label => some { s.doing label.code with stack := .back rest :: s.stack }
  | .ret =>
    match s.stack with
    | .back rest :: stack => some { s.doing rest with stack := stack }
    | _ => none
  | .iret =>
    match s.stack with
    | .value ip :: .value cs :: .value flags :: stack =>
      some { s.flags (flags.toNat.testBit 6) (flags.toNat.testBit 0) with stack := stack, place := .returned cs ip }
    | _ => none
  | .retf2 =>
    match s.stack with
    | .value ip :: .value cs :: _ :: stack => some { s with stack := stack, place := .returned cs ip }
    | _ => none

/-- Execute the next instruction, if the handler has not returned. -/
def step (cmos : ℕ → UInt8) (s : Cpu) : Option Cpu :=
  match s.place with
  | .inside (instr :: rest) => exec cmos (s.doing rest) rest instr
  | .inside [] => none
  | .returned _ _ => none

/-- The handler is about to read the RTC. -/
def atReadRtc (s : Cpu) : Bool :=
  match s.place with
  | .inside (.call .readRtc :: _) => true
  | _ => false

end Biefircate.Int1a
