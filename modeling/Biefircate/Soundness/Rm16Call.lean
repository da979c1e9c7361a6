import Biefircate.Proofs.Stage2.Rm16Call
import Biefircate.Soundness.Rm16Init

/-! # Real mode calls come back

`rm16_call` enters its callee in real mode, with paging off and a stack of its own, and when the callee has come back all is as it
was, with the caller's return address and parameters taken off the stack. This holds of any callee that keeps the GDT, the frame,
and the variables with which `rm16_call` finds its way back.
-/

namespace Biefircate.Rm16

open X86

/-! ## What the caller has -/

/-- An entry of the GDT. -/
def desc (s : Cpu) (mem : Mem) (sel : ℕ) : ℕ := mem.readLE (s.gdtr / 2 ^ 16 + sel) 8

/-- The GDT of `start.asm`, once the real mode code segment has its base. -/
structure Descs (text : ℕ) (s : Cpu) (mem : Mem) : Prop where
  cs32 : desc s mem selCs32 = 0x00cf9a000000ffff
  ds32 : desc s mem selDs32 = 0x00cf92000000ffff
  cs16 : desc s mem selCs16 = gdtDescUnset + text * 2 ^ 16
  ds16Zero : desc s mem selDs16Zero = 0x008f92000000ffff

/-- The linear address of the 16-bit data. -/
def dataAt (s : Cpu) : ℕ := ebda s.mem * 16

/-- Stage 2 runs, with its own segments and a stack above 1 MiB. -/
structure Running (l : Labels) (s : Cpu) : Prop where
  on : s.Protected
  cs : s.cs = ⟨selCs32, 0, true⟩
  flat : s.ds = flatSeg ∧ s.es = flatSeg ∧ s.fs = flatSeg ∧ s.gs = flatSeg ∧ s.ss = flatSeg
  words : s.ebx < 2 ^ 32 ∧ s.esi < 2 ^ 32 ∧ s.edi < 2 ^ 32 ∧ s.ebp < 2 ^ 32 ∧ s.cr3 < 2 ^ 32 ∧ l.back < 2 ^ 32
  stack : bmemMaxAddr + 28 ≤ s.esp ∧ s.esp + 12 < 2 ^ 32
  /-- The base of the GDT has 24 bits, as a 16-bit `lgdt` takes no more. -/
  gdtr : s.gdtr < 2 ^ 40
  gdt : bmemMaxAddr ≤ s.gdtr / 2 ^ 16 ∧ (s.gdtr / 2 ^ 16 + selDs16Zero + 8 ≤ s.esp - 28 ∨ s.esp ≤ s.gdtr / 2 ^ 16)

/-- A state in which `rm16_call` may be called: the 16-bit code and data are where `rm16_init` has put them. -/
structure Callable (l : Labels) (text : ℕ) (s : Cpu) : Prop extends Running l s where
  descs : Descs text s s.mem
  code : text + l.rmCs16 + 2 ≤ bmemMaxAddr
  rmCs16 : s.mem.readLE (text + l.rmCs16) 2 * 16 = text
  high : bdaStop ≤ dataAt s
  vars : dataAt s + l.sp32 + 14 ≤ bmemMaxAddr ∧ dataAt s + l.stack16 ≤ bmemMaxAddr
  stack16 : 4 ≤ l.stack16 ∧ l.stack16 < 2 ^ 16 ∧ (l.sp32 + 14 ≤ l.stack16 - 4 ∨ l.stack16 ≤ l.sp32)

/-- The GDT of the image of stage 2, and where the 16-bit code and data have what `rm16_call` uses. -/
structure Image (l : Labels) (syms : Syms) (s : Cpu) (mem : Mem) : Prop where
  descs : Descs 0 s mem
  gdtDescCs16 : syms.gdtDescCs16 = s.gdtr / 2 ^ 16 + selCs16
  rm16Cs : syms.rm16Cs + 2 ≤ s.gdtr / 2 ^ 16 + selCs32 ∨ s.gdtr / 2 ^ 16 + selDs16Zero + 8 ≤ syms.rm16Cs
  rmCs16 : l.rmCs16 = syms.rmCs16
  vars : l.sp32 + 14 ≤ syms.end16
  stack16 : 4 ≤ l.stack16 ∧ l.stack16 ≤ syms.end16 ∧ l.stack16 < 2 ^ 16 ∧
    (l.sp32 + 14 ≤ l.stack16 - 4 ∨ l.stack16 ≤ l.sp32)

/-- An address that the callee has to keep. -/
def Saved (l : Labels) (s : Cpu) (x : ℕ) : Prop :=
  s.esp - 28 ≤ x ∧ x < s.esp + 4 ∨ dataAt s + l.sp32 ≤ x ∧ x < dataAt s + l.sp32 + 14 ∨
    bdaAt + bdaEbda ≤ x ∧ x < bdaAt + bdaEbda + 2 ∨
      s.gdtr / 2 ^ 16 + selCs32 ≤ x ∧ x < s.gdtr / 2 ^ 16 + selDs16Zero + 8

/-- What memory has while the callee runs, for `rm16_call` to come back. -/
structure Kept (l : Labels) (text : ℕ) (s : Cpu) (mem : Mem) : Prop where
  seg : ebda mem = ebda s.mem
  sp32 : mem.readLE (dataAt s + l.sp32) 4 = s.esp - 28
  ptpd32 : mem.readLE (dataAt s + l.ptpd32) 4 = s.cr3
  gdtr : mem.readLE (dataAt s + l.gdtr) 6 = s.gdtr
  frame : Holds mem (s.esp - 28) (saved l s)
  ret : mem.readLE s.esp 4 = s.mem.readLE s.esp 4
  descs : Descs text s mem

/-! ## What the callee and the caller see -/

/-- The state in which the callee is entered. -/
structure Called (l : Labels) (text : ℕ) (s c : Cpu) : Prop where
  real : ¬ c.Protected
  paging : c.cr0.testBit 31 = false ∧ c.cr4.testBit 5 = false
  params : c.eax = s.eax ∧ c.ecx = s.ecx ∧ c.edx = s.edx ∧ c.ebx = s.mem.readLE (s.esp + 4) 4
  /-- The far address is the caller's last parameter. -/
  target : c.eip = s.mem.readLE (s.esp + 8) 2 ∧ c.cs.sel = s.mem.readLE (s.esp + 10) 2 ∧ c.cs.base = c.cs.sel * 16
  data : c.ds.sel = ebda s.mem ∧ c.ds.base = dataAt s ∧ c.es.sel = ebda s.mem ∧ c.es.base = dataAt s
  zero : c.fs.sel = 0 ∧ c.fs.base = 0 ∧ c.gs.sel = 0 ∧ c.gs.base = 0
  stack : c.ss.sel = ebda s.mem ∧ c.ss.base = dataAt s ∧ c.esp = l.stack16 - 4
  /-- The address to return to, in the real mode code segment. -/
  back : c.mem.readLE (c.ss.base + c.esp) 2 = l.back16 % 2 ^ 16 ∧ c.mem.readLE (c.ss.base + c.esp + 2) 2 * 16 = text
  eflags : c.eflags = clear s.eflags flagIf
  frame : ∀ x, ¬ Saved l s x → x < dataAt s + (l.stack16 - 4) ∨ dataAt s + l.stack16 ≤ x → c.mem x = s.mem x

/-- The state in which `rm16_call` returns, when the callee has left `t`. -/
structure Returned (s t u : Cpu) : Prop where
  on : u.Protected
  paging : u.cr0.testBit 31 = true ∧ u.cr4.testBit 5 = true ∧ u.cr3 = s.cr3
  results : u.eax = t.eax ∧ u.ecx = t.ecx ∧ u.edx = t.edx
  regs : u.ebx = s.ebx ∧ u.esi = s.esi ∧ u.edi = s.edi ∧ u.ebp = s.ebp
  segs : u.cs = s.cs ∧ u.ds = s.ds ∧ u.es = s.es ∧ u.fs = s.fs ∧ u.gs = s.gs ∧ u.ss = s.ss
  gdtr : u.gdtr = s.gdtr
  eflags : u.eflags = pushedFlags s.eflags
  /-- The return address and two parameters are off the stack. -/
  ret : u.eip = s.mem.readLE s.esp 4 ∧ u.esp = s.esp + 12
  mem : u.mem = t.mem

section

variable {l : Labels} {text : ℕ} {s t : Cpu} {mem mem' : Mem}

theorem gdtSeg_of_desc {sel d : ℕ} (entry : desc s mem sel = d) (aligned : 8 ∣ sel) :
    gdtSeg mem (s.gdtr / 2 ^ 16) sel = ⟨sel, descBase d, descBig d⟩ := by
  unfold gdtSeg
  rw [Nat.div_mul_cancel aligned, ← entry]
  rfl

theorem descBase_text (below : text < 2 ^ 20) : descBase (gdtDescUnset + text * 2 ^ 16) = text := by
  unfold descBase gdtDescUnset
  omega

theorem descBig_text (below : text < 2 ^ 20) : descBig (gdtDescUnset + text * 2 ^ 16) = false := by
  unfold descBig gdtDescUnset
  rw [Nat.testBit_eq_decide_div_mod_eq]
  simp only [decide_eq_false_iff_not]
  omega

theorem Descs.congr (descs : Descs text s mem)
    (same : ∀ x, s.gdtr / 2 ^ 16 + selCs32 ≤ x → x < s.gdtr / 2 ^ 16 + selDs16Zero + 8 → mem' x = mem x) :
    Descs text s mem' := by
  have sels : selCs32 = 8 ∧ selDs32 = 16 ∧ selCs16 = 24 ∧ selDs16Zero = 32 := ⟨rfl, rfl, rfl, rfl⟩
  have entry : ∀ sel, selCs32 ≤ sel → sel ≤ selDs16Zero → desc s mem' sel = desc s mem sel := fun sel low high =>
    Mem.readLE_congr fun x _ _ => same x (by omega) (by omega)
  obtain ⟨cs32, ds32, cs16, zero⟩ := descs
  exact ⟨(entry _ (by omega) (by omega)).trans cs32, (entry _ (by omega) (by omega)).trans ds32,
    (entry _ (by omega) (by omega)).trans cs16, (entry _ (by omega) (by omega)).trans zero⟩

theorem bytes_saved (l : Labels) (s : Cpu) : bytes (saved l s) = 28 := rfl

/-- What is kept depends on the saved addresses only. -/
theorem Kept.congr (kept : Kept l text s mem) (room : 28 ≤ s.esp) (same : ∀ x, Saved l s x → mem' x = mem x) :
    Kept l text s mem' := by
  unfold Saved at same
  obtain ⟨seg, sp32, ptpd32, gdtr, frame, ret, descs⟩ := kept
  refine ⟨?_, ?_, ?_, ?_, ?_, ?_, descs.congr fun x _ _ => same x (by omega)⟩
  · exact (Mem.readLE_congr fun x _ _ => same x (by omega)).trans seg
  · exact (Mem.readLE_congr fun x _ _ => same x (by omega)).trans sp32
  · refine (Mem.readLE_congr fun x _ _ => same x ?_).trans ptpd32
    unfold Labels.ptpd32 at *
    omega
  · refine (Mem.readLE_congr fun x _ _ => same x ?_).trans gdtr
    unfold Labels.gdtr at *
    omega
  · refine frame.congr fun x low high => same x ?_
    rw [bytes_saved] at high
    omega
  · exact (Mem.readLE_congr fun x _ _ => same x (by omega)).trans ret

/-- `rm16_init` leaves what `rm16_call` needs. -/
theorem Ready.callable {syms : Syms} {map : MemMap} {out : Loaded} (ready : Ready syms map mem out) (linked : syms.Linked)
    (image : Image l syms s mem) (running : Running l s) (same : s.mem = out.mem) : Callable l out.text s := by
  have data : dataAt s = out.data := by
    rw [dataAt, same]
    exact ready.ebda
  obtain ⟨lowText, lowData, belowText, belowData, -, -, -, -, -⟩ := ready.blocks
  obtain ⟨-, padded, -⟩ := linked.textPadded
  obtain ⟨gdtHigh, -⟩ := running.gdt
  have inside := linked.rmCs16
  have gdtDesc := image.gdtDescCs16
  have vars := image.vars
  have rm16Cs := image.rm16Cs
  obtain ⟨room, fits, small, apart⟩ := image.stack16
  have numVecs := linked.numVecs16.2
  have limit : bmemMaxAddr = 2 ^ 20 := rfl
  have sels : selCs32 = 8 ∧ selDs32 = 16 ∧ selCs16 = 24 ∧ selDs16Zero = 32 := ⟨rfl, rfl, rfl, rfl⟩
  have offsets : bdaAt = 0x400 ∧ bdaStop = 0x484 ∧ bdaEbda = 0x0e ∧ kbBufHead = 0x1a ∧ kbBufTail = 0x1c ∧ kbBufStart = 0x80 :=
    ⟨rfl, rfl, rfl, rfl, rfl, rfl⟩
  have kept : ∀ sel, selCs32 ≤ sel → sel ≤ selDs16Zero → sel + 8 ≤ selCs16 ∨ selCs16 + 8 ≤ sel →
      desc s s.mem sel = desc s mem sel := fun sel low high other => by
    rw [same]
    refine Mem.readLE_congr fun x _ _ => ready.frame x ?_
    unfold IsSet
    omega
  refine ⟨running, ⟨?_, ?_, ?_, ?_⟩, by rw [image.rmCs16]; omega, ?_, by omega, by omega, by omega⟩
  · exact (kept _ (by decide) (by decide) (by decide)).trans image.descs.cs32
  · exact (kept _ (by decide) (by decide) (by decide)).trans image.descs.ds32
  · rw [desc, ← gdtDesc, same]
    exact ready.gdt (by rw [gdtDesc]; exact image.descs.cs16)
  · exact (kept _ (by decide) (by decide) (by decide)).trans image.descs.ds16Zero
  · rw [same, image.rmCs16, Mem.readLE_overwrite ready.text (by omega) (by rw [Mem.read_length]; omega),
      Nat.mod_eq_of_lt (show out.text / 16 < 256 ^ 2 by omega), seg_mul ready.blocks.alignedText]

/-- Memory once `rm16_call` has stored its variables. -/
def varsMem (l : Labels) (s : Cpu) (mem : Mem) : Mem :=
  ((mem.writeLE (dataAt s + l.sp32) 4 (s.esp - 28)).writeLE (dataAt s + l.ptpd32) 4 s.cr3).writeLE (dataAt s + l.gdtr) 6 s.gdtr

theorem varsMem_of_outside {x : ℕ} (outside : x < dataAt s + l.sp32 ∨ dataAt s + l.sp32 + 14 ≤ x) :
    varsMem l s mem x = mem x := by
  unfold varsMem Labels.ptpd32 Labels.gdtr
  rw [Mem.writeLE_of_outside (by omega), Mem.writeLE_of_outside (by omega), Mem.writeLE_of_outside (by omega)]

/-- Memory when the callee is entered: the address to return to is pushed. -/
def calledMem (l : Labels) (s : Cpu) (seg : ℕ) (mem : Mem) : Mem :=
  ((varsMem l s mem).writeLE (dataAt s + (l.stack16 - 2)) 2 seg).writeLE (dataAt s + (l.stack16 - 4)) 2 l.back16

theorem calledMem_of_outside {seg x : ℕ} (room : 4 ≤ l.stack16)
    (outside : x < dataAt s + (l.stack16 - 4) ∨ dataAt s + l.stack16 ≤ x) : calledMem l s seg mem x = varsMem l s mem x := by
  unfold calledMem
  rw [Mem.writeLE_of_outside (by omega), Mem.writeLE_of_outside (by omega)]

theorem called_eq (callable : Callable l text s) : ∃ mem, Holds mem (s.esp - 28) (saved l s) ∧
    (∀ x, x < s.esp - 28 ∨ s.esp ≤ x → mem x = s.mem x) ∧ called l s =
      { s with
        ebx := s.mem.readLE (s.esp + 4) 4
        esi := setLow s.cr4 (clear s.cr4 cr4Pae)
        edi := s.esp + 8
        esp := l.stack16 - 4
        cs := ⟨s.mem.readLE (s.esp + 10) 2, s.mem.readLE (s.esp + 10) 2 * 16, false⟩
        ds := ⟨ebda s.mem, dataAt s, false⟩
        es := ⟨ebda s.mem, dataAt s, false⟩
        fs := ⟨0, 0, false⟩
        gs := ⟨0, 0, false⟩
        ss := ⟨ebda s.mem, dataAt s, true⟩
        eip := s.mem.readLE (s.esp + 8) 2
        eflags := clear s.eflags flagIf
        cr0 := clear s.cr0 (cr0Pg ||| cr0Pe)
        cr4 := setLow s.cr4 (clear s.cr4 cr4Pae)
        mem := calledMem l s (s.mem.readLE (text + l.rmCs16) 2) mem } := by
  obtain ⟨dsFlat, esFlat, fsFlat, gsFlat, ssFlat⟩ := callable.flat
  obtain ⟨room, fits⟩ := callable.stack
  obtain ⟨gdtHigh, gdtApart⟩ := callable.gdt
  obtain ⟨varsLow, stackLow⟩ := callable.vars
  obtain ⟨mem, frame, same, entered⟩ := enter_eq (l := l) callable.on ssFlat (by omega) fits
  refine ⟨mem, frame, same, ?_⟩
  have descs : Descs text s mem := callable.descs.congr fun x low high => same x (by omega)
  have low : ∀ {a n}, a + n ≤ bmemMaxAddr → mem.readLE a n = s.mem.readLE a n := fun below =>
    Mem.readLE_congr fun x _ _ => same x (by omega)
  have seg : ebda mem = ebda s.mem := low (by decide)
  have codeSmall : text < 2 ^ 20 := by
    have code := callable.code
    have limit : bmemMaxAddr = 2 ^ 20 := rfl
    omega
  have cs := gdtSeg_of_desc descs.cs16 (by decide)
  rw [descBase_text codeSmall, descBig_text codeSmall] at cs
  have zero : gdtSeg mem (s.gdtr / 2 ^ 16) selDs16Zero = ⟨selDs16Zero, 0, false⟩ :=
    (gdtSeg_of_desc descs.ds16Zero (by decide)).trans (by decide)
  have param : ∀ {a}, s.esp ≤ a → (varsMem l s mem).readLE a 2 = s.mem.readLE a 2 := fun above =>
    Mem.readLE_congr fun x _ _ => (varsMem_of_outside (by omega)).trans (same x (by omega))
  have offset : (varsMem l s mem).readLE (0 + (s.esp + 8)) 2 = s.mem.readLE (s.esp + 8) 2 := by
    rw [Nat.zero_add, param (by omega)]
  have segment : (varsMem l s mem).readLE (0 + Word.add 32 (s.esp + 8) 2) 2 = s.mem.readLE (s.esp + 10) 2 := by
    rw [Nat.zero_add, Word.add_of_lt (by omega), param (by omega)]
  have off : ∀ c : Cpu, c.cr0 = clear s.cr0 (cr0Pg ||| cr0Pe) → ¬ c.Protected := fun c same on => by
    rw [Cpu.Protected, same, pe_clear] at on
    cases on
  unfold called
  rw [entered, cont1_eq]
  · dsimp only [ownSeg]
    rw [zero, cs]
    dsimp only
    rw [low callable.code, cont2_eq]
    · dsimp only [stored]
      rw [seg, ssFlat, callFar_eq]
      · dsimp only
        change Cpu.mk _ _ _ _ _ _ _ _ ⟨(varsMem l s mem).readLE _ 2, (varsMem l s mem).readLE _ 2 * 16, _⟩ _ _ _ _ _
          ((varsMem l s mem).readLE _ 2) _ _ _ _ _ (calledMem l s _ mem) = _
        rw [segment, offset]
        rfl
      · exact off _ rfl
      · exact callable.stack16.2.1
      · exact callable.stack16.1
    · exact off _ rfl
    · rfl
  · exact callable.on

theorem readLE_calledMem {seg a n : ℕ} (room : 4 ≤ l.stack16)
    (outside : a + n ≤ dataAt s + (l.stack16 - 4) ∨ dataAt s + l.stack16 ≤ a) :
    (calledMem l s seg mem).readLE a n = (varsMem l s mem).readLE a n :=
  Mem.readLE_congr fun x _ _ => calledMem_of_outside room (by omega)

/-- The callee is entered as it should be. -/
theorem called_called (callable : Callable l text s) : Called l text s (called l s) := by
  obtain ⟨mem, -, same, eq⟩ := called_eq callable
  obtain ⟨room, -, -⟩ := callable.stack16
  have seg : s.mem.readLE (text + l.rmCs16) 2 < 256 ^ 2 := s.mem.readLE_lt _ 2
  rw [eq]
  constructor
  · exact Bool.eq_false_iff.mp (pe_clear _)
  · exact ⟨pg_clear _, pae_clear _⟩
  · exact ⟨rfl, rfl, rfl, rfl⟩
  · exact ⟨rfl, rfl, rfl⟩
  · exact ⟨rfl, rfl, rfl, rfl⟩
  · exact ⟨rfl, rfl, rfl, rfl⟩
  · exact ⟨rfl, rfl, rfl⟩
  · dsimp only [calledMem]
    rw [Mem.readLE_writeLE, Mem.readLE_writeLE_apart (.inr (by omega)),
      show dataAt s + (l.stack16 - 4) + 2 = dataAt s + (l.stack16 - 2) by omega, Mem.readLE_writeLE, Nat.mod_eq_of_lt seg]
    exact ⟨rfl, callable.rmCs16⟩
  · rfl
  · intro x unsaved off
    unfold Saved at unsaved
    dsimp only
    rw [calledMem_of_outside room off, varsMem_of_outside (by omega), same x (by omega)]

/-- Memory then has what is needed to come back. -/
theorem called_kept (callable : Callable l text s) : Kept l text s (called l s).mem := by
  obtain ⟨mem, frame, same, eq⟩ := called_eq callable
  obtain ⟨room, small, apart⟩ := callable.stack16
  obtain ⟨varsLow, stackLow⟩ := callable.vars
  obtain ⟨stackHigh, fits⟩ := callable.stack
  obtain ⟨gdtHigh, gdtApart⟩ := callable.gdt
  have dataHigh := callable.high
  have words := callable.words
  have gdtr := callable.gdtr
  have stop : bdaStop = 0x484 := rfl
  have at40e : bdaAt + bdaEbda = 0x40e := rfl
  have high : ∀ x, bmemMaxAddr ≤ x → calledMem l s (s.mem.readLE (text + l.rmCs16) 2) mem x = mem x := fun x above => by
    rw [calledMem_of_outside room (by omega), varsMem_of_outside (by omega)]
  rw [eq]
  dsimp only
  constructor
  · refine (readLE_calledMem room (.inl (by omega))).trans (Mem.readLE_congr fun x _ _ => ?_)
    rw [varsMem_of_outside (by omega), same x (by omega)]
  · rw [readLE_calledMem room (by omega), varsMem, Labels.ptpd32, Labels.gdtr, Mem.readLE_writeLE_apart (by omega),
      Mem.readLE_writeLE_apart (by omega), Mem.readLE_writeLE]
    exact Nat.mod_eq_of_lt (by omega)
  · unfold Labels.ptpd32
    rw [readLE_calledMem room (by omega), varsMem, Labels.ptpd32, Labels.gdtr, Mem.readLE_writeLE_apart (by omega),
      Mem.readLE_writeLE]
    exact Nat.mod_eq_of_lt (by omega)
  · unfold Labels.gdtr
    rw [readLE_calledMem room (by omega), varsMem, Labels.ptpd32, Labels.gdtr, Mem.readLE_writeLE]
    exact Nat.mod_eq_of_lt (by omega)
  · exact frame.congr fun x low _ => high x (by omega)
  · exact Mem.readLE_congr fun x _ _ => (high x (by omega)).trans (same x (by omega))
  · exact callable.descs.congr fun x _ _ => (high x (by omega)).trans (same x (by omega))

/-- Once the callee has come back, `rm16_call` does. -/
theorem rm16Call_back {callee : Cpu → Option Cpu} (callable : Callable l text s) (ran : callee (called l s) = some t)
    (off : ¬ t.Protected) (kept : Kept l text s t.mem) : ∃ u, rm16Call l callee s = some u ∧ Returned s t u := by
  obtain ⟨seg, sp32, ptpd32, gdtr, ⟨back, sel, eflags, ebp, edi, esi, ebx, -⟩, ret, descs⟩ := kept
  obtain ⟨ebxWord, esiWord, ediWord, ebpWord, -, backWord⟩ := callable.words
  obtain ⟨room, fits⟩ := callable.stack
  have data : ebda t.mem * 16 = dataAt s := congrArg (· * 16) seg
  have base : s.gdtr % 2 ^ 40 = s.gdtr := Nat.mod_eq_of_lt callable.gdtr
  have eip : t.mem.readLE (s.esp - 28) 4 = l.back := back.trans (Nat.mod_eq_of_lt backWord)
  have target : t.mem.readLE (s.esp - 28 + 4) 2 = selCs32 := by
    rw [Mem.readLE_mod t.mem _ (show 2 ≤ 4 by decide), sel, callable.cs]
    rfl
  have cs : gdtSeg t.mem (s.gdtr / 2 ^ 16) selCs32 = s.cs := by
    rw [gdtSeg_of_desc descs.cs32 (by decide), callable.cs]
    decide
  have ds : gdtSeg t.mem (s.gdtr / 2 ^ 16) selDs32 = flatSeg := by
    rw [gdtSeg_of_desc descs.ds32 (by decide)]
    decide
  have resumed := resume_eq (l := l) off ((congrArg (fun a => t.mem.readLE (a + l.sp32) 4) data).trans sp32)
    (show s.esp - 28 + 8 < 2 ^ 32 by omega)
  rw [data, ptpd32, gdtr, base, eip, target, cs] at resumed
  have on : (resume l t).Protected := by
    rw [resumed]
    exact testBit_or _ (by decide)
  have left := leave_eq on (by rw [resumed]; exact ds) (by rw [resumed]; dsimp only; omega)
  have came : rm16Call l callee s = some (leave (resume l t)) := by
    have here : (resume l t).eip = l.back ∧ (resume l t).cs.sel = selCs32 := by
      rw [resumed]
      exact ⟨rfl, congrArg Seg.sel callable.cs⟩
    unfold rm16Call
    rw [ran]
    exact if_pos here
  refine ⟨_, came, ?_⟩
  rw [left, resumed]
  dsimp only
  obtain ⟨dsFlat, esFlat, fsFlat, gsFlat, ssFlat⟩ := callable.flat
  have top : s.esp - 28 + 8 + 20 = s.esp := by omega
  constructor
  · exact testBit_or _ (by decide)
  · exact ⟨testBit_or _ (by decide), pae_set _, rfl⟩
  · exact ⟨rfl, rfl, rfl⟩
  · exact ⟨ebx.trans (Nat.mod_eq_of_lt ebxWord), esi.trans (Nat.mod_eq_of_lt esiWord), edi.trans (Nat.mod_eq_of_lt ediWord),
      ebp.trans (Nat.mod_eq_of_lt ebpWord)⟩
  · exact ⟨rfl, dsFlat.symm, esFlat.symm, fsFlat.symm, gsFlat.symm, ssFlat.symm⟩
  · rfl
  · refine eflags.trans (Nat.mod_eq_of_lt ?_)
    exact lt_of_le_of_lt Nat.and_le_right (by decide)
  · dsimp only
    rw [top]
    exact ⟨ret, by omega⟩
  · rfl

/-- `rm16_call` calls its callee in real mode, and comes back from every callee that keeps what is saved. -/
theorem rm16Call_returns (callable : Callable l text s) : Called l text s (called l s) ∧
    ∀ callee t, callee (called l s) = some t → ¬ t.Protected → (∀ x, Saved l s x → t.mem x = (called l s).mem x) →
      ∃ u, rm16Call l callee s = some u ∧ Returned s t u := by
  refine ⟨called_called callable, fun callee t ran off same => ?_⟩
  have room : 28 ≤ s.esp := by
    have stack := callable.stack
    omega
  exact rm16Call_back callable ran off ((called_kept callable).congr room same)

/-- Whenever `rm16_init` has returned, `rm16_call` may be called. -/
theorem rm16Init_callable {syms : Syms} {map : MemMap} {out : Loaded} (linked : syms.Linked) (table : TableOk map.ranges)
    (capacity : map.ranges.length ≤ map.maxRanges) (roomy : Roomy syms map) (ran : rm16Init syms map mem = .ok out)
    (image : Image l syms s mem) (running : Running l s) (same : s.mem = out.mem) : Callable l out.text s := by
  obtain ⟨middle, allocText, allocData, steps⟩ := rm16Init_parts ran
  have blocks := blocks_of_allocs linked table capacity roomy allocText allocData
  exact (ready_of_blocks linked blocks steps).callable linked image running same

end

/-! ## A call that returns at once -/

def sampleLabels : Labels where
  back := 0x300123
  cont1 := 0x20
  cont2 := 0x42
  back16 := 0x80
  rmCs16 := 0x40
  sp32 := 0x200
  stack16 := 0x1400

/-- The GDT of stage 2. -/
def sampleImage : Mem :=
  (((Mem.zero.writeLE 0x304008 8 0x00cf9a000000ffff).writeLE 0x304010 8 0x00cf92000000ffff).writeLE 0x304018 8
    gdtDescUnset).writeLE 0x304020 8 0x008f92000000ffff

/-- Stage 2 about to execute `rm16_call`. -/
def sampleCpu (mem : Mem) : Cpu where
  eax := 0
  ebx := 1
  ecx := 2
  edx := 3
  esi := 4
  edi := 5
  ebp := 6
  esp := 0x308000
  cs := ⟨selCs32, 0, true⟩
  ds := flatSeg
  es := flatSeg
  fs := flatSeg
  gs := flatSeg
  ss := flatSeg
  eip := 0x300100
  eflags := 0x46
  cr0 := cr0Pg ||| cr0Pe
  cr3 := 0x400000
  cr4 := cr4Pae
  gdtr := 0x304000 * 2 ^ 16 + 0x27
  mem := mem

theorem sampleCpu_running (mem : Mem) : Running sampleLabels (sampleCpu mem) where
  on := show (cr0Pg ||| cr0Pe).testBit 0 = true by decide
  cs := rfl
  flat := ⟨rfl, rfl, rfl, rfl, rfl⟩
  words := by
    dsimp only [sampleCpu, sampleLabels]
    decide
  stack := by
    dsimp only [sampleCpu]
    decide
  gdtr := show 0x304000 * 2 ^ 16 + 0x27 < 2 ^ 40 by decide
  gdt := by
    dsimp only [sampleCpu]
    decide

theorem sampleCpu_gdt (mem : Mem) : (sampleCpu mem).gdtr / 2 ^ 16 = 0x304000 :=
  show (0x304000 * 2 ^ 16 + 0x27) / 2 ^ 16 = 0x304000 by decide

theorem sampleCpu_desc {mem mem' : Mem} {sel d : ℕ} (entry : mem'.readLE (0x304000 + sel) 8 = d) :
    desc (sampleCpu mem) mem' sel = d := by
  rw [desc, sampleCpu_gdt]
  exact entry

theorem sampleImage_image (mem : Mem) : Image sampleLabels sampleSyms (sampleCpu mem) sampleImage where
  descs := ⟨sampleCpu_desc (by decide +kernel), sampleCpu_desc (by decide +kernel), sampleCpu_desc (by decide +kernel),
    sampleCpu_desc (by decide +kernel)⟩
  gdtDescCs16 := by
    rw [sampleCpu_gdt]
    decide
  rm16Cs := by
    rw [sampleCpu_gdt]
    decide
  rmCs16 := rfl
  vars := by decide
  stack16 := by decide

/-- A callee that does nothing but set EAX and return. -/
def retf (c : Cpu) : Option Cpu := some { c with eax := 0x1234, esp := c.esp + 4 }

theorem rm16Init_callable_sample : ∃ out, rm16Init sampleSyms sampleMap sampleImage = .ok out ∧
    Callable sampleLabels out.text (sampleCpu out.mem) := by
  have evaluated : (fun out : Loaded => out.text) <$> rm16Init sampleSyms sampleMap sampleImage = .ok 0x9ed10 := by
    decide +kernel
  obtain ⟨out, ran, -⟩ := map_eq_ok.mp evaluated
  refine ⟨out, ran, rm16Init_callable sampleSyms_linked ⟨?_, ?_⟩ ?_ ?_ ran (sampleImage_image _) (sampleCpu_running _) rfl⟩
  · exact List.forall_mem_cons.mpr ⟨⟨by decide, by decide⟩, List.forall_mem_singleton.mpr ⟨by decide, by decide⟩⟩
  · exact List.pairwise_pair.mpr (by decide)
  · decide
  · exact List.forall_mem_cons.mpr ⟨by decide, List.forall_mem_singleton.mpr (by decide)⟩

/-- Memory with the real mode code at 0x9ed10 and its data at 0x9d800. -/
def sampleLoaded : Mem :=
  ((sampleImage.writeLE 0x304018 8 (gdtDescUnset + 0x9ed10 * 2 ^ 16)).writeLE 0x9ed50 2 0x9ed1).writeLE 0x40e 2 0x9d80

theorem sampleLoaded_callable : Callable sampleLabels 0x9ed10 (sampleCpu sampleLoaded) where
  toRunning := sampleCpu_running _
  descs := ⟨sampleCpu_desc (by decide +kernel), sampleCpu_desc (by decide +kernel), sampleCpu_desc (by decide +kernel),
    sampleCpu_desc (by decide +kernel)⟩
  code := by decide
  rmCs16 := by decide +kernel
  high := by decide +kernel
  vars := by decide +kernel
  stack16 := by decide

theorem rm16Call_returns_sample : ∃ u, rm16Call sampleLabels retf (sampleCpu sampleLoaded) = some u ∧ u.eax = 0x1234 ∧
    u.ebx = 1 ∧ u.esp = 0x30800c := by
  obtain ⟨called, returns⟩ := rm16Call_returns sampleLoaded_callable
  obtain ⟨u, ran, back⟩ := returns retf _ rfl called.real fun _ _ => rfl
  exact ⟨u, ran, back.results.1, back.regs.1, back.ret.2⟩

end Biefircate.Rm16
