import Biefircate.Proofs.Stage2.Vecs16
import Biefircate.Soundness.Int1aReturn
import Biefircate.Soundness.Rm16Init
import Biefircate.Soundness.SharedDataArea

/-! # Interrupts in real mode

An interrupt may stop a program anywhere, so its handler has to give back what it found. `ISR_IRQ_C` does so around any C routine
that keeps to its calling convention, and it enters the routine with the segments and the alignment that the compiler counts on.
`irq0` does so around any handler of int 0x1c, and to the BIOS data area it does what its model does.
-/

namespace Biefircate.Vecs16

open X86 Rm16

/-! ## What is given back -/

/-- The most that a handler needs of the stack. -/
def frameBytes : ℕ := 37

/-- A program in real mode, with room on its stack. -/
structure Interruptible (p : Cpu) : Prop where
  real : ¬ p.Protected
  words : p.eax < 2 ^ 32 ∧ p.ecx < 2 ^ 32 ∧ p.edx < 2 ^ 32 ∧ p.esp < 2 ^ 32
  eip : p.eip < 2 ^ 16
  segs : RealSeg p.cs ∧ RealSeg p.ds ∧ RealSeg p.es ∧ RealSeg p.fs ∧ RealSeg p.gs ∧ RealSeg p.ss
  room : frameBytes ≤ p.sp
  /-- The vectors and the BIOS data area are below. -/
  high : bdaStop ≤ p.ss.base + (p.sp - frameBytes)

/-- The program goes on. -/
structure Resumed (p q : Cpu) : Prop where
  real : ¬ q.Protected
  regs : q.eax = p.eax ∧ q.ebx = p.ebx ∧ q.ecx = p.ecx ∧ q.edx = p.edx ∧ q.esi = p.esi ∧ q.edi = p.edi ∧ q.ebp = p.ebp
  stack : q.esp = p.esp ∧ q.ss = p.ss
  segs : SameSeg q.cs p.cs ∧ SameSeg q.ds p.ds ∧ SameSeg q.es p.es ∧ SameSeg q.fs p.fs ∧ SameSeg q.gs p.gs
  eip : q.eip = p.eip
  flags : q.eflags % 2 ^ 16 = p.eflags % 2 ^ 16

/-- What was entered in state `c`, on the stack of `p`, has come back: `n` bytes are off the stack, and those above them and the
registers that a call saves are as they were. -/
structure CameBack (p : Cpu) (n : ℕ) (c r : Cpu) : Prop where
  real : ¬ r.Protected
  stack : r.ss = c.ss ∧ r.esp = c.esp + n
  regs : r.ebx = c.ebx ∧ r.esi = c.esi ∧ r.edi = c.edi ∧ r.ebp = c.ebp
  frame : ∀ x, p.ss.base + (c.sp + n) ≤ x → x < p.ss.base + p.sp → r.mem x = c.mem x

/-- Memory below the stack of a program and above what it has on it. -/
def Off (p : Cpu) (n x : ℕ) : Prop := x < p.ss.base + (p.sp - n) ∨ p.ss.base + p.sp ≤ x

/-! ## Entering the C routine -/

/-- The state in which the C routine is entered. -/
def entered (l : IrqC) (n : ℕ) (p : Cpu) : Cpu := callImpl l (setUp (saveRegs (p.interrupt n)))

/-- How far the stack of the program is down then. -/
def depth (p : Cpu) : ℕ := (p.sp - 26) % 4 + 34

/-- What the C routine finds. -/
structure Entered (l : IrqC) (p c : Cpu) : Prop where
  real : ¬ c.Protected
  eip : c.eip = l.impl
  off : c.eflags.testBit 9 = false ∧ c.eflags.testBit 8 = false
  zero : c.gs.sel = 0 ∧ c.gs.base = 0
  data : c.fs.sel = ebda p.mem ∧ c.fs.base = ebda p.mem * 16
  stack : c.ss = p.ss ∧ SameSeg c.ds p.ss ∧ SameSeg c.es p.ss
  aligned : 4 ∣ c.esp
  /-- The return address has 32 bits. -/
  back : c.mem.readLE (c.ss.base + c.sp) 4 = l.back
  frame : ∀ x, Off p frameBytes x → c.mem x = p.mem x

/-! ## Entering the handler of int 0x1c -/

/-- The state in which the handler of int 0x1c is entered. -/
def ticking (n : ℕ) (p : Cpu) : Cpu := (irq0Count (p.interrupt n)).interrupt 0x1c

/-- What the handler of int 0x1c finds: the time has gone on. -/
structure Ticking (p c : Cpu) : Prop where
  real : ¬ c.Protected
  /-- The handler comes from its vector. -/
  handler : c.cs.sel = p.mem.readLE (4 * 0x1c + 2) 2 ∧ c.cs.base = c.cs.sel * 16 ∧ c.eip = p.mem.readLE (4 * 0x1c) 2
  off : c.eflags.testBit 9 = false ∧ c.eflags.testBit 8 = false
  regs : c.ebx = p.ebx ∧ c.ecx = p.ecx ∧ c.edx = p.edx ∧ c.esi = p.esi ∧ c.edi = p.edi ∧ c.ebp = p.ebp
  segs : c.es = p.es ∧ c.fs = p.fs ∧ c.gs = p.gs ∧ c.ss = p.ss ∧ c.ds.base = 0
  time : (Set.Iio (bdaStop - bdaAt)).EqOn (Int1a.bdaOf c.mem) (Biefircate.irq0 (Int1a.bdaOf p.mem))
  frame : ∀ x, Off p frameBytes x → x < bdaAt ∨ bdaStop ≤ x → c.mem x = p.mem x

/-- The handler of int 0x1c, entered in state `c`, has come back and changed no more registers than EAX and DS. -/
structure TickDone (p c r : Cpu) : Prop extends CameBack p 6 c r where
  counts : r.ecx = c.ecx ∧ r.edx = c.edx
  segs : SameSeg r.es c.es ∧ SameSeg r.fs c.fs ∧ SameSeg r.gs c.gs

section

variable {p q c r : Cpu} {l : IrqC} {n : ℕ}

theorem entered_eq (stopped : Interruptible p) (l : IrqC) (n : ℕ) : ∃ cs mem,
    Holds mem (p.ss.base + (p.sp - depth p)) [(2, l.back), (2, 0), (4, p.esp - 26)] ∧
    Holds mem (p.ss.base + (p.sp - 26)) (savedItems p) ∧ (∀ x, Off p (depth p) x → mem x = p.mem x) ∧ entered l n p =
      { p with
        eax := setLow (setLow (p.esp - 26) 0) p.ss.sel
        esp := p.esp - depth p
        cs := cs
        ds := ⟨p.ss.sel, p.ss.sel * 16, p.ds.big⟩
        es := ⟨p.ss.sel, p.ss.sel * 16, p.es.big⟩
        fs := ⟨ebda p.mem, ebda p.mem * 16, p.fs.big⟩
        gs := ⟨0, 0, p.gs.big⟩
        eip := l.impl
        eflags := clear p.eflags (flagIf ||| flagTf)
        mem := mem } := by
  obtain ⟨-, -, -, word⟩ := stopped.words
  have room := stopped.room
  have high := stopped.high
  have most : frameBytes = 37 := rfl
  have stop : bdaStop = 0x484 := rfl
  have below := p.sp_le
  obtain ⟨t, pushed, atVector⟩ := interrupt_pushed word (by omega) n
  generalize t.loadSeg p.cs (t.mem.readLE (4 * n + 2) 2) = cs at atVector
  generalize t.mem.readLE (4 * n) 2 = eip at atVector
  obtain ⟨u, saved, regs⟩ := saveRegs_pushed pushed word (by omega) cs eip (clear p.eflags (flagIf ||| flagTf))
  obtain ⟨eq, sp, stacked, frame⟩ := saved
  have bytesIs : bytes (savedItems p) = 26 := rfl
  rw [bytesIs] at eq sp frame
  generalize u.mem = mem at eq frame
  subst eq
  rw [Cpu.Stacked, sp] at stacked
  dsimp only at stacked
  let s : Cpu := { p with esp := p.esp - 26, cs := cs, eip := eip, eflags := clear p.eflags (flagIf ||| flagTf), mem := mem }
  have spIs : s.sp = p.sp - 26 := sp
  have slotIs : slot s + 30 = depth p := by
    unfold slot depth
    rw [spIs]
  have deep : 34 ≤ depth p ∧ depth p ≤ frameBytes := by
    unfold depth
    omega
  obtain ⟨-, -, -, -, -, ssReal⟩ := stopped.segs
  have set := setUp_eq (s := s) stopped.real (by dsimp only [s]; omega) (by omega) ssReal.sel
  have spSet : (setUp s).sp = s.sp - slot s := by
    rw [set]
    exact Cpu.sp_sub rfl rfl (by omega)
  have called := callImpl_eq (s := setUp s) l (by rw [set]; dsimp only [s]; omega) (by omega)
  rw [spSet, set] at called
  dsimp only at called
  let left : Mem := ((withEsp s).writeLE (p.ss.base + (s.sp - slot s - 2)) 2 0).writeLE (p.ss.base + (s.sp - slot s - 4)) 2 l.back
  have above : ∀ x, x < p.ss.base + (p.sp - depth p) ∨ p.ss.base + (p.sp - 26) ≤ x → left x = mem x := fun x outside => by
    dsimp only [left]
    rw [Mem.writeLE_of_outside (by omega), Mem.writeLE_of_outside (by omega), withEsp, Mem.writeLE_of_outside]
    change x < p.ss.base + (s.sp - slot s) ∨ p.ss.base + (s.sp - slot s) + 4 ≤ x
    omega
  have seg : ebda (withEsp s) = ebda p.mem := by
    refine Mem.readLE_congr fun x low high => ?_
    have at40e : bdaAt + bdaEbda = 0x40e := rfl
    rw [withEsp, Mem.writeLE_of_outside]
    · exact frame x (by omega)
    · change x < p.ss.base + (s.sp - slot s) ∨ _
      omega
  refine ⟨cs, left, ⟨?_, ?_, ?_, trivial⟩, stacked.congr fun x low _ => above x (.inr low), fun x outside => ?_, ?_⟩
  · rw [show p.ss.base + (p.sp - depth p) = p.ss.base + (s.sp - slot s - 4) by omega]
    exact Mem.readLE_writeLE ..
  · rw [show p.ss.base + (p.sp - depth p) + 2 = p.ss.base + (s.sp - slot s - 2) by omega]
    exact (Mem.readLE_writeLE_apart (by omega)).trans (Mem.readLE_writeLE ..)
  · rw [show p.ss.base + (p.sp - depth p) + 2 + 2 = p.ss.base + (s.sp - slot s) by omega]
    refine ((Mem.readLE_writeLE_apart (by omega)).trans (Mem.readLE_writeLE_apart (by omega))).trans ?_
    exact Mem.readLE_writeLE s.mem _ 4 s.esp
  · unfold Off at outside
    rw [above x (by omega)]
    exact frame x (by omega)
  · unfold entered
    rw [atVector, regs]
    change callImpl l (setUp s) = _
    have espIs : s.esp = p.esp - 26 := rfl
    rw [set, called, seg, show s.esp - slot s - 4 = p.esp - depth p by omega]

theorem depth_bounds (p : Cpu) : 34 ≤ depth p ∧ depth p ≤ frameBytes := by
  unfold depth frameBytes
  omega

theorem sp_entered (stopped : Interruptible p) (l : IrqC) (n : ℕ) : (entered l n p).ss = p.ss ∧
    (entered l n p).sp = p.sp - depth p := by
  obtain ⟨cs, mem, -, -, -, eq⟩ := entered_eq stopped l n
  have room := stopped.room
  have deep := depth_bounds p
  rw [eq]
  exact ⟨rfl, Cpu.sp_sub rfl rfl (by omega)⟩

/-- The C routine finds what it counts on. -/
theorem entered_entered (stopped : Interruptible p) (back : l.back < 2 ^ 16) (n : ℕ) : Entered l p (entered l n p) := by
  obtain ⟨ss, sp⟩ := sp_entered stopped l n
  obtain ⟨cs, mem, ⟨low, high, -⟩, -, frame, eq⟩ := entered_eq stopped l n
  have room := stopped.room
  have deep := depth_bounds p
  obtain ⟨-, -, -, -, -, stack⟩ := stopped.segs
  have base : p.ss.base = p.ss.sel * 16 := stack.base
  rw [eq] at sp ⊢
  constructor
  · exact stopped.real
  · rfl
  · exact ⟨testBit_clear _ (by decide) (by decide), testBit_clear _ (by decide) (by decide)⟩
  · exact ⟨rfl, rfl⟩
  · exact ⟨rfl, rfl⟩
  · exact ⟨rfl, ⟨rfl, base.symm⟩, ⟨rfl, base.symm⟩⟩
  · have same := p.sp_mod_four
    have below := p.sp_le
    dsimp only
    unfold depth at *
    omega
  · change mem.readLE (p.ss.base + _) (2 + 2) = _
    rw [sp, Mem.readLE_add, low, high, Nat.zero_mod, Nat.mul_zero, Nat.add_zero]
    exact Nat.mod_eq_of_lt back
  · intro x outside
    refine frame x ?_
    unfold Off at *
    omega

/-- Once the C routine has come back, the program goes on. -/
theorem irqC_back {impl : Cpu → Option Cpu} (stopped : Interruptible p) (ran : impl (entered l n p) = some r)
    (came : CameBack p 4 (entered l n p) r) :
    ∃ q, irqC l impl (p.interrupt n) = some q ∧ Resumed p q ∧ q.mem = r.mem := by
  obtain ⟨ss, sp⟩ := sp_entered stopped l n
  obtain ⟨real, ⟨rss, resp⟩, regs, frame⟩ := came
  obtain ⟨cs, mem, ⟨-, -, espAt, -⟩, saved, -, eq⟩ := entered_eq stopped l n
  obtain ⟨eaxWord, ecxWord, edxWord, espWord⟩ := stopped.words
  have room := stopped.room
  have deep := depth_bounds p
  have low := p.sp_le
  have width : p.sp < 2 ^ p.spWidth := Cpu.sp_lt espWord
  have sameWidth : ∀ t : Cpu, t.ss = p.ss → t.spWidth = p.spWidth := fun t same => by rw [Cpu.spWidth, Cpu.spWidth, same]
  have most : frameBytes = 37 := rfl
  have ret : r.sp = p.sp - depth p + 4 := by
    rw [Cpu.sp_add rss resp (by rw [sameWidth _ ss]; omega), sp]
  have esp : (p.esp - 26) % 256 ^ 4 = p.esp - 26 := Nat.mod_eq_of_lt (by omega)
  rw [sp] at frame
  rw [eq] at frame regs
  dsimp only at frame regs
  have top : r.OnStack [(4, p.esp - 26)] := by
    refine ⟨⟨?_, trivial⟩, ?_⟩
    · rw [rss, ss, ret]
      refine (Mem.readLE_congr fun x _ _ => frame x (by omega) (by omega)).trans ?_
      rw [← Nat.add_assoc]
      exact espAt
    · rw [ret, sameWidth _ (rss.trans ss)]
      change _ + 4 < _
      omega
  have below : ({ r with esp := (p.esp - 26) % 256 ^ 4 } : Cpu).OnStack (savedItems p) := by
    have spBelow : ({ r with esp := (p.esp - 26) % 256 ^ 4 } : Cpu).sp = p.sp - 26 := Cpu.sp_sub (rss.trans ss) esp (by omega)
    have bytesIs : bytes (savedItems p) = 26 := rfl
    refine ⟨?_, ?_⟩
    · rw [Cpu.Stacked, spBelow, show r.ss.base = p.ss.base by rw [rss, ss]]
      exact saved.congr fun x above before => frame x (by omega) (by omega)
    · rw [spBelow, bytesIs, sameWidth { r with esp := (p.esp - 26) % 256 ^ 4 } (rss.trans ss)]
      omega
  have restored := restoreRegs_eq real top below
  obtain ⟨csReal, dsReal, esReal, fsReal, gsReal, -⟩ := stopped.segs
  refine ⟨restoreRegs r, ?_, ?_, ?_⟩
  · change impl (entered l n p) >>= _ = _
    rw [ran]
    rfl
  · rw [restored]
    constructor
    · exact real
    · exact ⟨Nat.mod_eq_of_lt eaxWord, regs.1, Nat.mod_eq_of_lt ecxWord, Nat.mod_eq_of_lt edxWord, regs.2⟩
    · dsimp only
      exact ⟨by omega, rss.trans ss⟩
    · exact ⟨csReal.popped, dsReal.popped, esReal.popped, fsReal.popped, gsReal.popped⟩
    · exact Nat.mod_eq_of_lt stopped.eip
    · exact (setLow_mod ..).trans (Nat.mod_mod ..)
  · rw [restored]

/-- An IRQ that is handled in C. -/
theorem irqC_resumes (stopped : Interruptible p) (back : l.back < 2 ^ 16) (n : ℕ) : Entered l p (entered l n p) ∧
    ∀ impl r, impl (entered l n p) = some r → CameBack p 4 (entered l n p) r →
      ∃ q, irqC l impl (p.interrupt n) = some q ∧ Resumed p q ∧ q.mem = r.mem :=
  ⟨entered_entered stopped back n, fun _ _ ran came => irqC_back stopped ran came⟩

/-! ## IRQ 0 -/

theorem bdaOf_writeLE (mem : Mem) (a n v : ℕ) : Int1a.bdaOf (mem.writeLE (bdaAt + a) n v) = (Int1a.bdaOf mem).writeLE a n v :=
  Int1a.bdaOf_write mem a _

theorem bdaOf_ticked (mem : Mem) : Int1a.bdaOf (ticked mem) = Biefircate.irq0 (Int1a.bdaOf mem) := by
  unfold ticked Biefircate.irq0
  dsimp only
  rw [Int1a.readLE_bdaOf, Int1a.readLE_bdaOf, apply_ite Int1a.bdaOf, bdaOf_writeLE, bdaOf_writeLE, bdaOf_writeLE]
  rfl

theorem ticking_eq (stopped : Interruptible p) (n : ℕ) : ∃ eax mem counted,
    Cpu.Pushed p { p with esp := p.esp - 12, mem := counted } (tickItems p) ∧
    (∀ x, x < p.ss.base + (p.sp - 18) ∨ p.ss.base + (p.sp - 12) ≤ x → mem x = ticked counted x) ∧ ticking n p =
      { p with
        eax := eax
        esp := p.esp - 18
        cs := ⟨p.mem.readLE (4 * 0x1c + 2) 2, p.mem.readLE (4 * 0x1c + 2) 2 * 16, p.cs.big⟩
        ds := ⟨0, 0, p.ds.big⟩
        eip := p.mem.readLE (4 * 0x1c) 2
        eflags := clear (clear p.eflags (flagIf ||| flagTf)) (flagIf ||| flagTf)
        mem := mem } := by
  obtain ⟨-, -, -, word⟩ := stopped.words
  have room := stopped.room
  have high := stopped.high
  have most : frameBytes = 37 := rfl
  have stop : bdaStop = 0x484 := rfl
  obtain ⟨t, pushed, atVector⟩ := interrupt_pushed word (by omega) n
  have real : ¬ t.Protected := by
    rw [pushed.eq]
    exact stopped.real
  rw [Cpu.loadSeg_real _ _ _ real] at atVector
  obtain ⟨eax, counted, on, counts⟩ := irq0Count_eq stopped.real pushed word (by omega)
    ⟨t.mem.readLE (4 * n + 2) 2, t.mem.readLE (4 * n + 2) 2 * 16, p.cs.big⟩ (t.mem.readLE (4 * n) 2)
    (clear p.eflags (flagIf ||| flagTf))
  rw [← atVector] at counts
  unfold ticking
  generalize irq0Count (p.interrupt n) = s at counts
  have sp : s.sp = p.sp - 12 := by
    rw [counts]
    exact Cpu.sp_sub rfl rfl (by omega)
  obtain ⟨u, pushed', eq⟩ := interrupt_pushed (s := s) (by rw [counts]; dsimp only; omega) (by omega) 0x1c
  have real' : ¬ u.Protected := by
    rw [pushed'.eq, counts]
    exact stopped.real
  obtain ⟨down, -, -, frame⟩ := pushed'
  have outside : ∀ x, x < p.ss.base + (p.sp - 18) ∨ p.ss.base + (p.sp - 12) ≤ x → u.mem x = ticked counted x := fun x off => by
    have bytesIs : bytes (returnItems s) = 6 := rfl
    have base : s.ss.base = p.ss.base := by rw [counts]
    rw [frame x (by omega), counts]
  have vector : ∀ x, x < bdaAt → u.mem x = p.mem x := fun x low => by
    have at400 : bdaAt = 0x400 := rfl
    have bytesIs : bytes (tickItems p) = 12 := rfl
    rw [outside x (by omega), ticked_of_outside (by omega)]
    exact on.frame x (by omega)
  rw [Cpu.loadSeg_real _ _ _ real', Mem.readLE_congr fun x _ high => vector x (lt_of_lt_of_le high (by decide)),
    Mem.readLE_congr fun x _ high => vector x (lt_of_lt_of_le high (by decide))] at eq
  refine ⟨eax, u.mem, counted, on, outside, ?_⟩
  generalize u.mem = mem at down
  rw [eq, down, counts]
  rfl

/-- The handler of int 0x1c finds that the time has gone on. -/
theorem ticking_ticking (stopped : Interruptible p) (n : ℕ) : Ticking p (ticking n p) := by
  obtain ⟨eax, mem, counted, on, outside, eq⟩ := ticking_eq stopped n
  have room := stopped.room
  have high := stopped.high
  have most : frameBytes = 37 := rfl
  have ends : bdaStop = 0x484 ∧ bdaAt = 0x400 ∧ bdaAt + bdaTimer = 0x46c := ⟨rfl, rfl, rfl⟩
  have bytesIs : bytes (tickItems p) = 12 := rfl
  rw [eq]
  constructor
  · exact stopped.real
  · exact ⟨rfl, rfl, rfl⟩
  · exact ⟨testBit_clear _ (by decide) (by decide), testBit_clear _ (by decide) (by decide)⟩
  · exact ⟨rfl, rfl, rfl, rfl, rfl, rfl⟩
  · exact ⟨rfl, rfl, rfl, rfl, rfl⟩
  · intro x inside
    have low : x < bdaStop - bdaAt := inside
    have same : (Set.Iio (bdaStop - bdaAt)).EqOn (Int1a.bdaOf counted) (Int1a.bdaOf p.mem) := fun y inside => by
      have low : y < bdaStop - bdaAt := inside
      exact on.frame (0x0400 + y) (by omega)
    have time : DataArea.timeAt ⊆ Set.Iio (bdaStop - bdaAt) := fun y inside => lt_trans inside.2 (by decide)
    have next := DataArea.irq0_eqOn time same inside
    rw [← bdaOf_ticked] at next
    exact (outside (0x0400 + x) (by omega)).trans next
  · intro x off apart
    unfold Off at off
    dsimp only
    rw [outside x (by omega), ticked_of_outside (by omega)]
    exact on.frame x (by omega)

/-- Once the handler of int 0x1c has come back, the program goes on. -/
theorem irq0_back {isr16x1c : Cpu → Option Cpu} (stopped : Interruptible p) (ran : isr16x1c (ticking n p) = some r)
    (done : TickDone p (ticking n p) r) :
    ∃ q, irq0 isr16x1c (p.interrupt n) = some (q, [⟨pic1Cmd, ocw2Eoi⟩]) ∧ Resumed p q ∧ q.mem = r.mem := by
  have ticks := ticking_ticking stopped n
  obtain ⟨eax, mem, counted, on, outside, eq⟩ := ticking_eq stopped n
  obtain ⟨⟨real, ⟨rss, resp⟩, ⟨rbx, rsi, rdi, rbp⟩, frame⟩, ⟨rcx, rdx⟩, res, rfs, rgs⟩ := done
  obtain ⟨ebx, ecx, edx, esi, edi, ebp⟩ := ticks.regs
  obtain ⟨es, fs, gs, ss, -⟩ := ticks.segs
  obtain ⟨eaxWord, -, -, espWord⟩ := stopped.words
  obtain ⟨csReal, dsReal, -, -, -, -⟩ := stopped.segs
  have room := stopped.room
  have high := stopped.high
  have low := p.sp_le
  have most : frameBytes = 37 := rfl
  have ends : bdaStop = 0x484 ∧ bdaAt + bdaTimer = 0x46c := ⟨rfl, rfl⟩
  have bytesIs : bytes (tickItems p) = 12 := rfl
  have esp : r.esp = p.esp - 12 := by
    rw [resp, eq]
    dsimp only
    omega
  have ret : (irq0Eoi r).sp = p.sp - 12 := Cpu.sp_sub (rss.trans ss) esp (by omega)
  have sp : (ticking n p).sp = p.sp - 18 := Cpu.sp_sub ss (by rw [eq]) (by omega)
  have top : (irq0Eoi r).OnStack (tickItems p) := by
    refine ⟨?_, ?_⟩
    · rw [Cpu.Stacked, ret, show (irq0Eoi r).ss.base = p.ss.base from congrArg Seg.base (rss.trans ss)]
      have stacked : Holds counted (p.ss.base + (p.sp - 12)) (tickItems p) := by
        have items := on.stacked
        rw [Cpu.Stacked, on.sp] at items
        exact items
      refine stacked.congr fun x above before => ?_
      change r.mem x = counted x
      rw [frame x (by omega) (by omega), eq]
      dsimp only
      rw [outside x (by omega), ticked_of_outside (by omega)]
    · have width : (irq0Eoi r).spWidth = p.spWidth := by
        rw [Cpu.spWidth, Cpu.spWidth, show (irq0Eoi r).ss = p.ss from rss.trans ss]
      have wide : p.sp < 2 ^ p.spWidth := Cpu.sp_lt espWord
      rw [ret, bytesIs, width]
      omega
  have restored := irq0Return_eq (s := irq0Eoi r) real top
  refine ⟨irq0Return (irq0Eoi r), ?_, ?_, ?_⟩
  · change isr16x1c (ticking n p) >>= _ = _
    have al : (irq0Eoi r).eax % 2 ^ 8 = ocw2Eoi := by
      change (r.eax / 2 ^ 8 * 2 ^ 8 + 0x20) % 2 ^ 8 = 0x20
      omega
    rw [ran, ← al]
    rfl
  · rw [restored]
    constructor
    · exact real
    · exact ⟨Nat.mod_eq_of_lt eaxWord, rbx.trans ebx, rcx.trans ecx, rdx.trans edx, rsi.trans esi, rdi.trans edi, rbp.trans ebp⟩
    · refine ⟨?_, rss.trans ss⟩
      change r.esp + 12 = p.esp
      omega
    · exact ⟨csReal.popped, dsReal.popped, es ▸ res, fs ▸ rfs, gs ▸ rgs⟩
    · exact Nat.mod_eq_of_lt stopped.eip
    · exact (setLow_mod ..).trans (Nat.mod_mod ..)
  · rw [restored]
    rfl

/-- The timer IRQ, with a handler of int 0x1c that comes back. -/
theorem irq0_resumes (stopped : Interruptible p) (n : ℕ) : Ticking p (ticking n p) ∧
    ∀ isr16x1c r, isr16x1c (ticking n p) = some r → TickDone p (ticking n p) r →
      ∃ q, irq0 isr16x1c (p.interrupt n) = some (q, [⟨pic1Cmd, ocw2Eoi⟩]) ∧ Resumed p q ∧ q.mem = r.mem :=
  ⟨ticking_ticking stopped n, fun _ _ ran done => irq0_back stopped ran done⟩

/-! ## Handlers that read a variable -/

theorem readVar_resumes (stopped : Interruptible p) (load : ℕ → ℕ → ℕ) {var : ℕ} (inside : bdaAt + var + 2 ≤ bdaStop) (n : ℕ) :
    Resumed { p with eax := load (setLow p.eax 0) (p.mem.readLE (bdaAt + var) 2) } (readVar load var (p.interrupt n)) ∧
      ∀ x, Off p frameBytes x → (readVar load var (p.interrupt n)).mem x = p.mem x := by
  obtain ⟨-, -, -, word⟩ := stopped.words
  have room := stopped.room
  have high := stopped.high
  have most : frameBytes = 37 := rfl
  obtain ⟨t, pushed, atVector⟩ := interrupt_pushed word (by omega) n
  generalize t.loadSeg p.cs (t.mem.readLE (4 * n + 2) 2) = cs at atVector
  generalize t.mem.readLE (4 * n) 2 = eip at atVector
  have all := pushed.push 2 p.ds.sel word (by simp [returnItems]; omega)
  obtain ⟨eq, -⟩ := id all
  have regs : t.ds = p.ds := by rw [pushed.eq]
  generalize topIs : t.push 2 p.ds.sel = u at all eq
  generalize u.mem = mem at eq
  subst eq
  have bytesIs : bytes ((2, p.ds.sel) :: returnItems p) = 8 := rfl
  obtain ⟨-, sp, stacked, frame⟩ := all
  rw [bytesIs] at sp frame
  dsimp only at frame
  have same : mem.readLE (bdaAt + var) 2 = p.mem.readLE (bdaAt + var) 2 :=
    Mem.readLE_congr fun x _ _ => frame x (by omega)
  have zero : ∀ v, setLow v 0 % 2 ^ 16 = 0 := fun v => setLow_mod v 0
  let s : Cpu := { p with
    eax := load (setLow p.eax 0) (p.mem.readLE (bdaAt + var) 2)
    esp := p.esp - 8
    cs := cs
    ds := ⟨0, 0, p.ds.big⟩
    eip := eip
    eflags := clear p.eflags (flagIf ||| flagTf)
    mem := mem }
  have on : s.OnStack ((2, p.ds.sel) :: returnItems p) := by
    have wide : p.sp < 2 ^ p.spWidth := Cpu.sp_lt word
    refine ⟨stacked, ?_⟩
    change Cpu.sp _ + 8 < 2 ^ p.spWidth
    rw [show s.sp = p.sp - 8 from sp]
    omega
  have popped₁ : (s.pop 2 fun s v => { s with ds := s.loadSeg s.ds v }) =
      { s with esp := p.esp - 8 + 2, ds := popped s.ds p.ds.sel } := by
    rw [on.pop, Cpu.loadSeg_real]
    · rfl
    · exact stopped.real
  have back := iret_eq (s := { s with esp := p.esp - 8 + 2, ds := popped s.ds p.ds.sel }) stopped.real (on.rest rfl rfl rfl)
  have ran : readVar load var (p.interrupt n) = (s.pop 2 fun s v => { s with ds := s.loadSeg s.ds v }).iret := by
    have pe : p.cr0.testBit 0 = false := Bool.eq_false_iff.mpr stopped.real
    rw [atVector]
    unfold readVar
    simp only [Cpu.push_jump, Cpu.jump_ds, regs, topIs]
    simp only [Cpu.jump, Cpu.loadSeg, Cpu.Protected, pe, Bool.false_eq_true, if_false, zero, Nat.zero_mul, Nat.zero_add, same, s]
    rfl
  rw [ran, popped₁, back]
  obtain ⟨csReal, dsReal, -⟩ := stopped.segs
  have low := p.sp_le
  refine ⟨⟨stopped.real, ⟨rfl, rfl, rfl, rfl, rfl, rfl, rfl⟩, ⟨?_, rfl⟩, ?_, Nat.mod_eq_of_lt stopped.eip, ?_⟩, fun x off => ?_⟩
  · dsimp only
    omega
  · exact ⟨csReal.popped, dsReal.popped, ⟨rfl, rfl⟩, ⟨rfl, rfl⟩, ⟨rfl, rfl⟩⟩
  · exact (setLow_mod ..).trans (Nat.mod_mod ..)
  · unfold Off at off
    exact frame x (by omega)

/-- Int 0x11 and int 0x12 answer in EAX and in AX, and change nothing else. -/
theorem equipment_and_size (stopped : Interruptible p) (n : ℕ) :
    (Resumed { p with eax := p.mem.readLE (bdaAt + bdaEqpt) 2 } (isr16x11 (p.interrupt n)) ∧
      Resumed { p with eax := setLow p.eax (p.mem.readLE (bdaAt + bdaBaseKib) 2) } (isr16x12 (p.interrupt n))) ∧
        ∀ x, Off p frameBytes x → (isr16x11 (p.interrupt n)).mem x = p.mem x ∧ (isr16x12 (p.interrupt n)).mem x = p.mem x := by
  obtain ⟨equipment, frame⟩ := readVar_resumes stopped (fun _ v => v) (show bdaAt + bdaEqpt + 2 ≤ bdaStop by decide) n
  obtain ⟨size, frame'⟩ := readVar_resumes stopped setLow (show bdaAt + bdaBaseKib + 2 ≤ bdaStop by decide) n
  have low : ∀ v, setLow (setLow p.eax 0) v = setLow p.eax v := fun v => by
    unfold setLow
    omega
  rw [low] at size
  exact ⟨⟨equipment, size⟩, fun x off => ⟨frame x off, frame' x off⟩⟩

/-! ## The handler that stage 2 has for int 0x1c -/

theorem iret_keeps (off : ¬ c.Protected) (room : c.sp + 6 < 2 ^ c.spWidth) : ∃ cs eip eflags, iret16 c =
    { c with esp := c.esp + 6, cs := cs, eip := eip, eflags := eflags } := by
  have same : ∀ a, c.mem.readLE a 2 = c.mem.readLE a 2 % 256 ^ 2 := fun a => (Nat.mod_eq_of_lt (c.mem.readLE_lt a 2)).symm
  exact ⟨_, _, _, iret_eq off ⟨⟨same _, same _, same _, trivial⟩, room⟩⟩

theorem iret16_done (off : ¬ c.Protected) (room : c.sp + 6 < 2 ^ c.spWidth) : TickDone p c (iret16 c) := by
  obtain ⟨cs, eip, eflags, back⟩ := iret_keeps off room
  rw [back]
  exact ⟨⟨off, ⟨rfl, rfl⟩, ⟨rfl, rfl, rfl, rfl⟩, fun _ _ _ => rfl⟩, ⟨rfl, rfl⟩, ⟨rfl, rfl⟩, ⟨rfl, rfl⟩, ⟨rfl, rfl⟩⟩

theorem ticking_room (stopped : Interruptible p) (n : ℕ) : (ticking n p).sp + 6 < 2 ^ (ticking n p).spWidth := by
  obtain ⟨-, -, -, ss, -⟩ := (ticking_ticking stopped n).segs
  obtain ⟨-, -, -, espWord⟩ := stopped.words
  obtain ⟨eax, mem, counted, -, -, eq⟩ := ticking_eq stopped n
  have room := stopped.room
  have most : frameBytes = 37 := rfl
  have wide : p.sp < 2 ^ p.spWidth := Cpu.sp_lt espWord
  have sp : (ticking n p).sp = p.sp - 18 := Cpu.sp_sub ss (by rw [eq]) (by omega)
  have width : (ticking n p).spWidth = p.spWidth := by rw [Cpu.spWidth, Cpu.spWidth, ss]
  rw [sp, width]
  omega

end

/-! ## A program in the middle of its work -/

def realSeg (sel : ℕ) : Seg := ⟨sel, sel * 16, false⟩

/-- A program with a stack of 16 bits at the end of its segment; there are 639 KiB of base memory. -/
def program : Cpu where
  eax := 1
  ebx := 2
  ecx := 3
  edx := 4
  esi := 5
  edi := 6
  ebp := 7
  esp := 0xfffe
  cs := realSeg 0x1000
  ds := realSeg 0x2000
  es := realSeg 0xb800
  fs := realSeg 0
  gs := realSeg 0
  ss := realSeg 0x2000
  eip := 0x100
  eflags := 0x0202
  cr0 := 0
  cr3 := 0
  cr4 := 0
  gdtr := 0
  mem := (Mem.zero.writeLE 0x410 2 0x0021).writeLE 0x413 2 639

theorem program_interruptible : Interruptible program where
  real := by decide
  words := by decide
  eip := by decide
  segs := ⟨⟨by decide, rfl⟩, ⟨by decide, rfl⟩, ⟨by decide, rfl⟩, ⟨by decide, rfl⟩, ⟨by decide, rfl⟩, ⟨by decide, rfl⟩⟩
  room := by decide
  high := by decide

/-- A C routine that changes a register of its own. -/
def impl (c : Cpu) : Option Cpu := some { c with ecx := 0, esp := c.esp + 4 }

theorem irqC_resumes_sample : ∃ q, irqC ⟨0x1234, 0x2345⟩ impl (program.interrupt 9) = some q ∧ Resumed program q := by
  obtain ⟨into, back⟩ := irqC_resumes program_interruptible (l := ⟨0x1234, 0x2345⟩) (by decide) 9
  obtain ⟨q, ran, resumed, -⟩ := back impl _ rfl ⟨into.real, ⟨rfl, rfl⟩, ⟨rfl, rfl, rfl, rfl⟩, fun _ _ _ => rfl⟩
  exact ⟨q, ran, resumed⟩

theorem irq0_resumes_sample : ∃ q, irq0 (fun c => some (iret16 c)) (program.interrupt 8) = some (q, [⟨pic1Cmd, ocw2Eoi⟩]) ∧
    Resumed program q := by
  obtain ⟨ticks, back⟩ := irq0_resumes program_interruptible 8
  have done := iret16_done (p := program) ticks.real (ticking_room program_interruptible 8)
  obtain ⟨q, ran, resumed, -⟩ := back (fun c => some (iret16 c)) _ rfl done
  exact ⟨q, ran, resumed⟩

theorem equipment_and_size_sample : (isr16x11 (program.interrupt 0x11)).eax = 0x0021 ∧
    (isr16x12 (program.interrupt 0x12)).eax = 639 := by
  obtain ⟨⟨equipment, -⟩, -⟩ := equipment_and_size program_interruptible 0x11
  obtain ⟨⟨-, size⟩, -⟩ := equipment_and_size program_interruptible 0x12
  exact ⟨equipment.regs.1.trans (by decide +kernel), size.regs.1.trans (by decide +kernel)⟩

end Biefircate.Vecs16
