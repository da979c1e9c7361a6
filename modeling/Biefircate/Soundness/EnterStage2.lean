import Biefircate.Model.Stage2.Start
import Biefircate.Proofs.Stage1.RunStage2
import Biefircate.Soundness.Rm16Call

/-! # Stage 2 is entered

From the call of `run_stage2` in long mode to the first instruction of `stage2_main`: paging and long mode are off, the segments
are flat, the BIOS data area has what stage 1 has found out, and `stage2_main` gets the boot parameters. The trampoline copies
itself, and it writes to its page, to the memory below 0x600, and to four bytes past its page.
-/

namespace Biefircate.RunStage2

open X86 Rm16 Vecs16

/-- A span that neither the page of the trampoline nor what else is written overlaps with. -/
def Apart (s : Long) (a n : ℕ) : Prop := 0x600 ≤ a ∧ (a + n ≤ s.rdx ∨ s.rdx + 0x1008 ≤ a)

instance (s : Long) (a n : ℕ) : Decidable (Apart s a n) := inferInstanceAs (Decidable (_ ∧ _))

/-- Stage 2 is loaded: its GDT, the operand of its `lgdt`, and its stack. -/
structure Loaded (ls : Start.Labels) (gdtr : ℕ) (s : Long) : Prop where
  operand : s.mem.readLE ls.gdtr 6 = gdtr
  operandApart : Apart s ls.gdtr 6
  cs32 : s.mem.readLE (gdtr / 2 ^ 16 + selCs32) 8 = 0x00cf9a000000ffff
  ds32 : s.mem.readLE (gdtr / 2 ^ 16 + selDs32) 8 = 0x00cf92000000ffff
  cs16 : s.mem.readLE (gdtr / 2 ^ 16 + selCs16) 8 = gdtDescUnset
  ds16Zero : s.mem.readLE (gdtr / 2 ^ 16 + selDs16Zero) 8 = 0x008f92000000ffff
  gdtApart : Apart s (gdtr / 2 ^ 16 + selCs32) 0x20
  stack : 4 ≤ ls.startingStack ∧ ls.startingStack < 2 ^ 32
  stackApart : ls.startingStack ≤ gdtr / 2 ^ 16 + selCs32 ∨ gdtr / 2 ^ 16 + selDs16Zero + 8 ≤ ls.startingStack - 4
  words : ls.back < 2 ^ 32

/-- The state in which stage 2 is entered, with EFER and what has been written to ports. -/
structure Entered (misc : ℕ) (s : Long) (t : Cpu) (efer : ℕ) (out : List Out) : Prop where
  entry : t.eip = s.rcx % 2 ^ 32
  params : t.ebp = s.mem.readLE (s.rsp + 0x28) 4
  stack : t.esp = s.rdx + 0xffc
  segs : t.cs = flatCode ∧ t.ds = flatSeg ∧ t.es = flatSeg ∧ t.ss = flatSeg
  /-- Bit 31, paging, is off. -/
  cr0 : t.cr0 = s.cr0 % 2 ^ 31
  /-- Bits 4 and 5, the paging extensions, are off. -/
  cr4 : t.cr4 = s.cr4 / 2 ^ 6 * 2 ^ 6 + s.cr4 % 2 ^ 4
  /-- Bit 8, long mode, is off. -/
  efer : efer = s.efer / 2 ^ 9 * 2 ^ 9 + s.efer % 2 ^ 8
  masked : t.eflags.testBit 9 = false
  baseKib : t.mem.readLE 0x413 2 = s.r8 % 2 ^ 16
  ebda : t.mem.readLE 0x40e 2 = s.r9 % 2 ^ 16
  /-- The rest of the interrupt vectors and of the BIOS data area is zero. -/
  low : ∀ x < 0x600, ¬ (0x413 ≤ x ∧ x < 0x415) → ¬ (0x40e ≤ x ∧ x < 0x410) → t.mem x = 0
  /-- RBX is stored past the page. -/
  beyond : t.mem.readLE (s.rdx + 0x1004) 4 = s.rbx % 2 ^ 32
  frame : ∀ x, 0x600 ≤ x → x < s.rdx ∨ s.rdx + 0x1000 ≤ x ∧ x < s.rdx + 0x1004 ∨ s.rdx + 0x1008 ≤ x → t.mem x = s.mem x
  out : out = [⟨vgaMiscW, misc % 2 ^ 8 ||| 1⟩]

/-- The state in which `stage2_main` is called, when stage 2 was entered in `t`. -/
structure Called2 (ls : Start.Labels) (gdtr : ℕ) (s : Long) (t u : Cpu) : Prop where
  main : u.eip = ls.stage2Main
  params : u.eax = s.mem.readLE (s.rsp + 0x28) 4
  on : u.Protected
  cs : u.cs = flatCode
  flat : u.ds = flatSeg ∧ u.es = flatSeg ∧ u.fs = flatSeg ∧ u.gs = flatSeg ∧ u.ss = flatSeg
  gdtr : u.gdtr = gdtr
  descs : Descs 0 u u.mem
  masked : u.eflags.testBit 9 = false
  stack : u.esp = ls.startingStack - 4
  back : u.mem.readLE u.esp 4 = ls.back
  frame : ∀ x, x < ls.startingStack - 4 ∨ ls.startingStack ≤ x → u.mem x = t.mem x

section

variable {l : Labels} {ls : Start.Labels} {s : Long} {t : Cpu} {misc gdt gdtr efer : ℕ} {out : List Out}

/-! ## Mode bits -/

theorem clear_pg (v : ℕ) : clear v cr0Pg = v % 2 ^ 31 := Nat.and_two_pow_sub_one_eq_mod v 31

theorem and_cf : ∀ v < 2 ^ 8, v &&& 0xcf = v / 2 ^ 6 * 2 ^ 6 + v % 2 ^ 4 := by decide +kernel

theorem and_fe : ∀ v < 2 ^ 8, v &&& 0xfe = v / 2 * 2 := by decide +kernel

theorem setAl_cf (v : ℕ) : setAl v (v % 2 ^ 8 &&& 0xcf) = v / 2 ^ 6 * 2 ^ 6 + v % 2 ^ 4 := by
  rw [and_cf _ (Nat.mod_lt _ (by decide)), setAl]
  omega

theorem setAh_fe (v : ℕ) : v / 2 ^ 32 * 2 ^ 32 + setAh (v % 2 ^ 32) (v % 2 ^ 32 / 2 ^ 8 % 2 ^ 8 &&& 0xfe) =
    v / 2 ^ 9 * 2 ^ 9 + v % 2 ^ 8 := by
  rw [and_fe _ (Nat.mod_lt _ (by decide)), setAh]
  omega

/-! ## Memory -/

theorem stackMem_beyond (s : Long) : (stackMem s).readLE (s.rdx + 0x1004) 4 = s.rbx % 2 ^ 32 := by
  unfold stackMem
  rw [Mem.readLE_writeLE_apart (by omega), Mem.readLE_writeLE_apart (by omega), Mem.readLE_writeLE_apart (by omega),
    Mem.readLE_writeLE]
  rfl

theorem pm32Mem_low (placed : Placed l s) {x : ℕ} (low : x < 0x600) : pm32Mem l s x = 0 := by
  obtain ⟨high, -⟩ := placed.page
  unfold pm32Mem entryMem fixedMem copiedMem
  rw [Mem.writeLE_of_outside (by omega), Mem.writeLE_of_outside (by omega), Mem.writeLE_of_outside (by omega),
    Mem.copied_of_outside (by omega), Mem.writeLE_of_outside (by omega)]
  exact if_pos ⟨Nat.zero_le x, low⟩

theorem pm32Mem_of_apart (placed : Placed l s) {x : ℕ} (high : 0x600 ≤ x)
    (apart : x < s.rdx ∨ s.rdx + 0x1000 ≤ x ∧ x < s.rdx + 0x1004 ∨ s.rdx + 0x1008 ≤ x) : pm32Mem l s x = s.mem x := by
  obtain ⟨-, short⟩ := placed.size
  obtain ⟨-, inside⟩ := placed.inside
  unfold pm32Mem entryMem fixedMem copiedMem
  rw [Mem.writeLE_of_outside (by omega), Mem.writeLE_of_outside (by omega), Mem.writeLE_of_outside (by omega),
    Mem.copied_of_outside (by omega), Mem.writeLE_of_outside (by omega), Mem.zeroed_of_outside (by omega),
    stackMem_of_outside (by omega)]

/-! ## Stage 2 is entered -/

theorem enterStage2_entered (placed : Placed l s) (tables : Tables l gdt s.mem) (on : s.cr0.testBit 0 = true) (misc : ℕ) :
    Entered misc s (enterStage2 l misc s).1 (enterStage2 l misc s).2.1 (enterStage2 l misc s).2.2 := by
  obtain ⟨tableAt, base, left⟩ := toPm32_eq placed tables
  obtain ⟨-, data⟩ := segs_pm32Mem placed tables
  obtain ⟨baseKib, ebda, entry⟩ := stack_pm32Mem placed
  obtain ⟨low, high⟩ := placed.page
  have outside : ∀ x, ¬ (0x413 ≤ x ∧ x < 0x415) → ¬ (0x40e ≤ x ∧ x < 0x410) →
      bdaMem (s.r8 % 2 ^ 32) (s.r9 % 2 ^ 32) (pm32Mem l s) x = pm32Mem l s x := fun x first second => by
    unfold bdaMem bdaBaseKibAt bdaEbdaAt
    rw [Mem.writeLE_of_outside (by omega), Mem.writeLE_of_outside (by omega)]
  have own : (toPm32 l (runStage2 l s)).Protected := by
    rw [left]
    exact on
  have flat : gdtSeg (toPm32 l (runStage2 l s)).mem ((toPm32 l (runStage2 l s)).gdtr / 2 ^ 16) 0x10 = flatSeg := by
    rw [left]
    dsimp only
    rw [base, data]
  have rest : ∀ c : Cpu, c.ss = flatSeg → c.ds = flatSeg → c.esp = s.rdx + 0xff0 → c.mem = pm32Mem l s → handOver misc c =
      ({ c with
          eax := setAl (setAl (s.r9 % 2 ^ 32) misc) (misc % 2 ^ 8 ||| 1)
          edx := setAl (setLow c.edx vgaMiscR) 0xc2
          esp := s.rdx + 0xffc
          eip := s.rcx % 2 ^ 32
          mem := bdaMem (s.r8 % 2 ^ 32) (s.r9 % 2 ^ 32) (pm32Mem l s) },
        [⟨vgaMiscW, misc % 2 ^ 8 ||| 1⟩]) := fun c ss ds esp mem => by
    rw [← esp, ← mem] at baseKib ebda entry
    rw [handOver_eq ss ds (by omega) (by omega) baseKib ebda entry, esp, mem]
  unfold enterStage2
  dsimp only
  rw [pm32_eq own flat, left, rest _ ?ss ?ds ?esp ?mem]
  case ss => rfl
  case ds => rfl
  case esp => rfl
  case mem => rfl
  constructor
  · rfl
  · rfl
  · rfl
  · exact ⟨rfl, rfl, rfl, rfl⟩
  · exact clear_pg _
  · exact setAl_cf _
  · exact setAh_fe _
  · rw [Nat.testBit_mod_two_pow, testBit_clear _ (by decide) (by decide)]
    rfl
  · dsimp only [bdaMem]
    rw [Mem.readLE_writeLE_apart (.inr (by decide)), bdaBaseKibAt, Mem.readLE_writeLE]
    omega
  · dsimp only [bdaMem]
    rw [bdaEbdaAt, Mem.readLE_writeLE]
    omega
  · intro x below first second
    exact (outside x first second).trans (pm32Mem_low placed below)
  · refine (Mem.readLE_congr fun x above _ => ?_).trans (stackMem_beyond s)
    exact (outside x (by omega) (by omega)).trans (pm32Mem_of_above placed (by omega))
  · intro x above apart
    exact (outside x (by omega) (by omega)).trans (pm32Mem_of_apart placed above apart)
  · rfl

/-! ## `stage2_main` is called -/

theorem Entered.readLE_eq (entered : Entered misc s t efer out) {a n : ℕ} (apart : Apart s a n) :
    t.mem.readLE a n = s.mem.readLE a n :=
  Mem.readLE_congr fun x _ _ => entered.frame x (by unfold Apart at apart; omega) (by unfold Apart at apart; omega)

theorem Entered.descs (entered : Entered misc s t efer out) (loaded : Loaded ls gdtr s) :
    t.mem.readLE (gdtr / 2 ^ 16 + selCs32) 8 = 0x00cf9a000000ffff ∧ t.mem.readLE (gdtr / 2 ^ 16 + selDs32) 8 = 0x00cf92000000ffff ∧
      t.mem.readLE (gdtr / 2 ^ 16 + selCs16) 8 = gdtDescUnset ∧
        t.mem.readLE (gdtr / 2 ^ 16 + selDs16Zero) 8 = 0x008f92000000ffff := by
  have sels : selCs32 = 8 ∧ selDs32 = 16 ∧ selCs16 = 24 ∧ selDs16Zero = 32 := ⟨rfl, rfl, rfl, rfl⟩
  have apart := loaded.gdtApart
  have part : ∀ sel, selCs32 ≤ sel → sel ≤ selDs16Zero → Apart s (gdtr / 2 ^ 16 + sel) 8 := fun sel low high => by
    unfold Apart at *
    omega
  exact ⟨(entered.readLE_eq (part _ (by decide) (by decide))).trans loaded.cs32,
    (entered.readLE_eq (part _ (by decide) (by decide))).trans loaded.ds32,
    (entered.readLE_eq (part _ (by decide) (by decide))).trans loaded.cs16,
    (entered.readLE_eq (part _ (by decide) (by decide))).trans loaded.ds16Zero⟩

theorem start_eq (entered : Entered misc s t efer out) (loaded : Loaded ls gdtr s) (on : s.cr0.testBit 0 = true) :
    Start.start ls t =
      { t with
        eax := t.ebp
        esp := ls.startingStack - 4
        cs := flatCode
        ds := flatSeg
        es := flatSeg
        fs := flatSeg
        gs := flatSeg
        ss := flatSeg
        eip := ls.stage2Main
        eflags := clear (clear t.eflags flagIf) (1 <<< 10)
        gdtr := gdtr
        mem := t.mem.writeLE (ls.startingStack - 4) 4 ls.back } := by
  obtain ⟨cs32, ds32, -, -⟩ := entered.descs loaded
  obtain ⟨-, ds, -, -⟩ := entered.segs
  obtain ⟨room, word⟩ := loaded.stack
  have pe : t.cr0.testBit 0 = true := by rw [entered.cr0, Nat.testBit_mod_two_pow, on]; rfl
  have operand : t.mem.readLE (t.ds.base + ls.gdtr) 6 = gdtr := by
    rw [ds, show flatSeg.base = 0 from rfl, Nat.zero_add, entered.readLE_eq loaded.operandApart, loaded.operand]
  have code : gdtSeg t.mem (gdtr / 2 ^ 16) selCs32 = flatCode := by
    unfold gdtSeg
    rw [show selCs32 / 8 * 8 = selCs32 by decide, cs32]
    decide
  have data : gdtSeg t.mem (gdtr / 2 ^ 16) selDs32 = flatSeg := by
    unfold gdtSeg
    rw [show selDs32 / 8 * 8 = selDs32 by decide, ds32]
    decide
  have sel : setLow t.eax selDs32 % 2 ^ 16 = selDs32 := setLow_mod ..
  unfold Start.start
  simp only [Cpu.loadSeg, Cpu.Protected, pe, if_true, operand, code, data, sel]
  rw [Cpu.push_eq (by exact word) (by rw [sp_flat rfl]; exact room), sp_flat rfl]
  dsimp only
  rw [show flatSeg.base = 0 from rfl, Nat.zero_add]

theorem start_called (entered : Entered misc s t efer out) (loaded : Loaded ls gdtr s) (on : s.cr0.testBit 0 = true) :
    Called2 ls gdtr s t (Start.start ls t) := by
  obtain ⟨cs32, ds32, cs16, zero⟩ := entered.descs loaded
  obtain ⟨room, word⟩ := loaded.stack
  have sels : selCs32 = 8 ∧ selDs32 = 16 ∧ selCs16 = 24 ∧ selDs16Zero = 32 := ⟨rfl, rfl, rfl, rfl⟩
  have apart := loaded.stackApart
  have entry : ∀ sel, selCs32 ≤ sel → sel ≤ selDs16Zero →
      (t.mem.writeLE (ls.startingStack - 4) 4 ls.back).readLE (gdtr / 2 ^ 16 + sel) 8 = t.mem.readLE (gdtr / 2 ^ 16 + sel) 8 :=
    fun sel low high => Mem.readLE_writeLE_apart (by omega)
  rw [start_eq entered loaded on]
  constructor
  · rfl
  · exact entered.params
  · rw [Cpu.Protected, entered.cr0, Nat.testBit_mod_two_pow, on]
    rfl
  · rfl
  · exact ⟨rfl, rfl, rfl, rfl, rfl⟩
  · rfl
  · exact ⟨(entry _ (by decide) (by decide)).trans cs32, (entry _ (by decide) (by decide)).trans ds32,
      (entry _ (by decide) (by decide)).trans cs16, (entry _ (by decide) (by decide)).trans zero⟩
  · have off := entered.masked
    dsimp only
    rw [clear, Nat.testBit_and, clear, Nat.testBit_and, off]
    rfl
  · rfl
  · dsimp only
    rw [Mem.readLE_writeLE]
    exact Nat.mod_eq_of_lt loaded.words
  · intro x outside
    exact Mem.writeLE_of_outside (by omega)

/-- Stage 2 is entered as `run_stage2` was asked to, and starts in a known state, for every image of stage 2. -/
theorem enterStage2_calls (placed : Placed l s) (tables : Tables l gdt s.mem) (loaded : Loaded ls gdtr s)
    (on : s.cr0.testBit 0 = true) (misc : ℕ) :
    Entered misc s (enterStage2 l misc s).1 (enterStage2 l misc s).2.1 (enterStage2 l misc s).2.2 ∧
      Called2 ls gdtr s (enterStage2 l misc s).1 (Start.start ls (enterStage2 l misc s).1) :=
  ⟨enterStage2_entered placed tables on misc, start_called (enterStage2_entered placed tables on misc) loaded on⟩

end

/-! ## A run -/

def sampleLabels : Labels where
  lb := 0x20000000
  le := 0x80
  pm32 := 0x10
  pm32Gdtr := 0x60

def sampleStart : Start.Labels where
  startingStack := 0x00180000
  gdtr := 0x00170100
  cont := 0x00100017
  back := 0x00100029
  stage2Main := 0x00101000

/-- The tables of the trampoline, those of stage 2, and the address of the boot parameters on the stack. -/
def sampleMem : Mem :=
  let mem := (Mem.zero.writeLE 0x20000062 8 0x68).writeLE 0x20000070 8 0x00cf9a000000ffff
  let mem := (mem.writeLE 0x20000078 8 0x00cf92000000ffff).writeLE 0x00170000 8 0x00cf9a000000ffff
  let mem := (mem.writeLE 0x00170008 8 0x00cf92000000ffff).writeLE 0x00170010 8 gdtDescUnset
  let mem := (mem.writeLE 0x00170018 8 0x008f92000000ffff).writeLE 0x00170100 6 0x0016fff80027
  mem.writeLE 0x30000028 4 0x00200000

def sampleLong : Long where
  rax := 0
  rbx := 7
  rcx := 0x00100000
  rdx := 0x00600000
  rsi := 0
  rdi := 0
  rbp := 0
  rsp := 0x30000000
  r8 := 636
  r9 := 0x9f00
  rip := 0x20000000
  rflags := 0x202
  cr0 := 0x80000033
  cr3 := 0x00300000
  cr4 := 0x668
  efer := 0x500
  gdtr := 0
  mem := sampleMem

theorem enterStage2_calls_sample : Entered 0x66 sampleLong (enterStage2 sampleLabels 0x66 sampleLong).1
      (enterStage2 sampleLabels 0x66 sampleLong).2.1 (enterStage2 sampleLabels 0x66 sampleLong).2.2 ∧
    Called2 sampleStart 0x0016fff80027 sampleLong (enterStage2 sampleLabels 0x66 sampleLong).1
      (Start.start sampleStart (enterStage2 sampleLabels 0x66 sampleLong).1) := by
  have placed : Placed sampleLabels sampleLong := ⟨by decide, by decide, by decide, by decide, by decide⟩
  have tables : Tables sampleLabels 0x68 sampleLong.mem := by constructor <;> decide +kernel
  have loaded : Loaded sampleStart 0x0016fff80027 sampleLong := by constructor <;> decide +kernel
  exact enterStage2_calls placed tables loaded (by decide) 0x66

end Biefircate.RunStage2
