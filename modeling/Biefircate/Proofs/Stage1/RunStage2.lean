import Biefircate.Lib.Copy
import Biefircate.Model.Stage1.RunStage2
import Biefircate.Proofs.Stage2.Rm16Call

/-! # What `run_stage2` and its trampoline do

`run_stage2` leaves the page of the trampoline with a copy of it, whose GDTR has the address of the copy, and with a stack above
it; the trampoline then takes what is on this stack. -/

namespace Biefircate.RunStage2

open X86 Rm16 Vecs16

variable {l : Labels} {s : Long} {n v : ℕ}

/-! ## Long mode -/

namespace Long

theorem push_eq (word : s.rsp < 2 ^ 64) (room : 8 ≤ s.rsp) :
    s.push v = { s with rsp := s.rsp - 8, mem := s.mem.writeLE (s.rsp - 8) 8 v } := by
  unfold push
  rw [Word.sub_of_le room word]

theorem pop_eq (room : s.rsp + 8 < 2 ^ 64) (set : Long → ℕ → Long) :
    s.pop set = set { s with rsp := s.rsp + 8 } (s.mem.readLE s.rsp 8) := by
  unfold pop
  rw [Word.add_of_lt room]

theorem repStosq_eq (n : ℕ) (zero : s.rax = 0) (room : s.rdi + 8 * n < 2 ^ 64) :
    repStosq n s = { s with rcx := 0, rdi := s.rdi + 8 * n, mem := s.mem.zeroed s.rdi (s.rdi + 8 * n) } := by
  induction n generalizing s with
  | zero => rw [Nat.mul_zero, Nat.add_zero, Mem.zeroed_empty, repStosq]
  | succ n ih =>
    have first : s.mem.writeLE s.rdi 8 0 = s.mem.zeroed s.rdi (s.rdi + 8) := by
      rw [← Mem.zeroed_up le_rfl, Mem.zeroed_empty]
    rw [repStosq, Word.add_of_lt (by omega), ih (by exact zero) (by dsimp only; omega), zero, first]
    dsimp only
    rw [Mem.zeroed_zeroed (by omega) (by omega), Nat.mul_succ, Nat.add_assoc, Nat.add_comm 8]

theorem repMovsq_eq (n : ℕ) (src : s.rsi + 8 * n < 2 ^ 64) (dst : s.rdi + 8 * n < 2 ^ 64)
    (apart : s.rdi ≤ s.rsi ∨ s.rsi + 8 * n ≤ s.rdi) : repMovsq n s =
      { s with rcx := 0, rsi := s.rsi + 8 * n, rdi := s.rdi + 8 * n, mem := s.mem.copied s.rdi s.rsi 0 (8 * n) } := by
  have part : ∀ k, ∀ t : Long, t.rsi = s.rsi + 8 * (n - k) → t.rdi = s.rdi + 8 * (n - k) → k ≤ n →
      t.mem = s.mem.copied s.rdi s.rsi 0 (8 * (n - k)) → repMovsq k t =
        { t with rcx := 0, rsi := s.rsi + 8 * n, rdi := s.rdi + 8 * n, mem := s.mem.copied s.rdi s.rsi 0 (8 * n) } := by
    intro k
    induction k with
    | zero =>
      intro t source target _ mem
      rw [Nat.sub_zero] at source target mem
      rw [repMovsq, ← source, ← target, ← mem]
    | succ k ih =>
      intro t source target inside mem
      rw [repMovsq, Word.add_of_lt (by omega), Word.add_of_lt (by omega), ih]
      · dsimp only
        omega
      · dsimp only
        omega
      · omega
      · dsimp only
        rw [mem, target, source, Mem.copied_next (Nat.zero_le _) (by omega), show 8 * (n - (k + 1)) + 8 = 8 * (n - k) by omega]
  refine part n s ?_ ?_ le_rfl ?_
  · rw [Nat.sub_self, Nat.mul_zero, Nat.add_zero]
  · rw [Nat.sub_self, Nat.mul_zero, Nat.add_zero]
  · rw [Nat.sub_self, Nat.mul_zero, Mem.copied_empty]

end Long

/-! ## `run_stage2` -/

/-- Where the trampoline is, and where it goes to: to the page at RDX. -/
structure Placed (l : Labels) (s : Long) : Prop where
  page : 0x600 ≤ s.rdx ∧ s.rdx + 0x1008 < 2 ^ 32
  params : s.rsp + 0x2c < 2 ^ 64
  size : 8 ∣ l.le ∧ l.le ≤ 0xfe0
  inside : l.pm32 ≤ l.le ∧ l.pm32Gdtr + 10 ≤ l.le
  apart : 0x600 ≤ l.lb ∧ l.lb + l.le < 2 ^ 64 ∧ (l.lb + l.le ≤ s.rdx ∨ s.rdx + 0x1008 ≤ l.lb)

/-- Memory with the stack. -/
def stackMem (s : Long) : Mem :=
  (((s.mem.writeLE (s.rdx + 0x1004) 4 s.rbx).writeLE (s.rdx + 0xff8) 8 (s.rcx % 2 ^ 32)).writeLE (s.rdx + 0xff0) 8 s.r8).writeLE
    (s.rdx + 0xff4) 4 s.r9

theorem setUpStack_eq (placed : Placed l s) : setUpStack s =
    { s with
      rcx := s.rcx % 2 ^ 32
      rbp := s.mem.readLE (s.rsp + 0x28) 4
      rsp := s.rdx + 0xff0
      rflags := clear s.rflags flagIf
      mem := stackMem s } := by
  obtain ⟨low, high⟩ := placed.page
  have params := placed.params
  have small : s.rdx % 2 ^ 32 = s.rdx := Nat.mod_eq_of_lt (by omega)
  unfold setUpStack
  dsimp only
  rw [small, Word.add_of_lt (show s.rsp + (8 + 0x20) < 2 ^ 64 by omega), Word.add_of_lt (show s.rdx + 0x1000 < 2 ^ 32 by omega),
    Word.add_of_lt (show s.rdx + 0x1000 + 4 < 2 ^ 32 by omega), Long.push_eq, Long.push_eq]
  · dsimp only
    rw [Nat.mod_eq_of_lt (show s.rdx + 0x1000 - 8 - 8 < 2 ^ 32 by omega), Word.add_of_lt (by omega)]
    rfl
  · dsimp only
    omega
  · dsimp only
    omega
  · rw [Long.push_eq (by dsimp only; omega) (by dsimp only; omega)]
    dsimp only
    omega
  · rw [Long.push_eq (by dsimp only; omega) (by dsimp only; omega)]
    dsimp only
    omega

theorem clearLow_eq (s : Long) : clearLow s = { s with rax := 0, rcx := 0, rdi := 0x600, mem := s.mem.zeroed 0 0x600 } := by
  unfold clearLow
  dsimp only
  rw [Long.repStosq_eq _ rfl (by dsimp only; omega)]

/-- Memory with the copy of the trampoline. -/
def copiedMem (l : Labels) (page : ℕ) (mem : Mem) : Mem := (mem.writeLE (page + 0xfe8) 8 page).copied page l.lb 0 l.le

/-- Memory with the address of the copy in its GDTR. -/
def fixedMem (l : Labels) (page : ℕ) (mem : Mem) : Mem :=
  (copiedMem l page mem).writeLE (page + (l.pm32Gdtr + 2)) 4
    (Word.add 32 ((copiedMem l page mem).readLE (page + (l.pm32Gdtr + 2)) 4) page)

theorem copyTrampoline_eq (placed : Placed l s) {t : Long} (page : t.rdx = s.rdx) (top : t.rsp = s.rdx + 0xff0) :
    copyTrampoline l t =
      { t with
        rcx := 0
        rsi := l.lb + l.le
        rdi := s.rdx + l.le
        rsp := s.rdx + 0xfe8
        mem := fixedMem l s.rdx t.mem } := by
  obtain ⟨low, high⟩ := placed.page
  obtain ⟨whole, short⟩ := placed.size
  obtain ⟨-, inside⟩ := placed.inside
  obtain ⟨-, fits, apart⟩ := placed.apart
  have small : t.rdx % 2 ^ 32 = s.rdx := by rw [page, Nat.mod_eq_of_lt (by omega)]
  have bytes : 8 * (l.le / 8) = l.le := Nat.mul_div_cancel' whole
  unfold copyTrampoline
  dsimp only
  rw [small, Long.push_eq (by dsimp only; omega) (by dsimp only; omega), Long.repMovsq_eq]
  · dsimp only
    rw [bytes, Word.sub_of_le (show l.le - (l.pm32Gdtr + 2) ≤ s.rdx + l.le by omega) (by omega),
      show s.rdx + l.le - (l.le - (l.pm32Gdtr + 2)) = s.rdx + (l.pm32Gdtr + 2) by omega,
      show t.rsp - 8 = s.rdx + 0xfe8 by omega, small]
    rfl
  · dsimp only
    omega
  · dsimp only
    omega
  · dsimp only
    omega

/-- Memory when the trampoline is entered. -/
def entryMem (l : Labels) (s : Long) : Mem := fixedMem l s.rdx ((stackMem s).zeroed 0 0x600)

theorem runStage2_eq (placed : Placed l s) : runStage2 l s =
    { s with
      rax := 0
      rcx := 0
      rsi := l.lb + l.le
      rdi := s.rdx + l.le
      rbp := s.mem.readLE (s.rsp + 0x28) 4
      rsp := s.rdx + 0xff0
      rip := s.rdx
      rflags := clear s.rflags flagIf
      mem := entryMem l s } := by
  obtain ⟨low, high⟩ := placed.page
  obtain ⟨-, short⟩ := placed.size
  obtain ⟨-, inside⟩ := placed.inside
  have copied := copyTrampoline_eq placed (t := clearLow (setUpStack s)) (by rw [clearLow_eq, setUpStack_eq placed])
    (by rw [clearLow_eq, setUpStack_eq placed])
  have ret : (entryMem l s).readLE (s.rdx + 0xfe8) 8 = s.rdx := by
    unfold entryMem fixedMem copiedMem
    rw [Mem.readLE_writeLE_apart (by omega), Mem.readLE_congr fun x _ _ => Mem.copied_of_outside (by omega), Mem.readLE_writeLE,
      Nat.mod_eq_of_lt (by omega)]
  unfold runStage2
  rw [copied, Long.pop_eq (by dsimp only; omega), clearLow_eq, setUpStack_eq placed]
  dsimp only
  change Long.mk _ _ _ _ _ _ _ _ _ _ ((entryMem l s).readLE (s.rdx + 0xfe8) 8) _ _ _ _ _ _ (entryMem l s) = _
  rw [ret]

/-! ## The trampoline -/

/-- The data of the trampoline: the GDT, `gdt` bytes after `LB`, and its GDTR. -/
structure Tables (l : Labels) (gdt : ℕ) (mem : Mem) : Prop where
  base : mem.readLE (l.lb + (l.pm32Gdtr + 2)) 8 = gdt
  cs : mem.readLE (l.lb + (gdt + 8)) 8 = 0x00cf9a000000ffff
  ds : mem.readLE (l.lb + (gdt + 0x10)) 8 = 0x00cf92000000ffff
  inside : l.pm32Gdtr + 10 ≤ gdt + 8 ∧ gdt + 0x18 ≤ l.le

section

variable {gdt : ℕ}

theorem stackMem_of_outside {x : ℕ} (outside : x < s.rdx + 0xff0 ∨ s.rdx + 0x1000 ≤ x ∧ x < s.rdx + 0x1004 ∨ s.rdx + 0x1008 ≤ x) :
    stackMem s x = s.mem x := by
  unfold stackMem
  rw [Mem.writeLE_of_outside (by omega), Mem.writeLE_of_outside (by omega), Mem.writeLE_of_outside (by omega),
    Mem.writeLE_of_outside (by omega)]

/-- What is copied is what was assembled. -/
theorem readLE_copiedMem (placed : Placed l s) {k w : ℕ} (inside : k + w ≤ l.le) :
    (copiedMem l s.rdx ((stackMem s).zeroed 0 0x600)).readLE (s.rdx + k) w = s.mem.readLE (l.lb + k) w := by
  obtain ⟨lowLb, -, apart⟩ := placed.apart
  obtain ⟨-, short⟩ := placed.size
  refine Mem.readLE_part (n := l.le) ?_ inside
  unfold copiedMem
  rw [Mem.read_copied]
  refine Mem.read_congr fun x low high => ?_
  rw [Mem.writeLE_of_outside (by omega), Mem.zeroed_of_outside (by omega), stackMem_of_outside (by omega)]

/-- Memory is the copy, but for the address in the GDTR. -/
theorem readLE_entryMem (placed : Placed l s) {k w : ℕ} (inside : k + w ≤ l.le)
    (off : k + w ≤ l.pm32Gdtr + 2 ∨ l.pm32Gdtr + 6 ≤ k) : (entryMem l s).readLE (s.rdx + k) w = s.mem.readLE (l.lb + k) w := by
  unfold entryMem fixedMem
  rw [Mem.readLE_writeLE_apart (by omega), readLE_copiedMem placed inside]

theorem base_entryMem (placed : Placed l s) (tables : Tables l gdt s.mem) :
    (entryMem l s).readLE (s.rdx + (l.pm32Gdtr + 2)) 8 = gdt + s.rdx := by
  obtain ⟨-, high⟩ := placed.page
  obtain ⟨-, short⟩ := placed.size
  obtain ⟨-, inside⟩ := placed.inside
  obtain ⟨-, fits⟩ := tables.inside
  have base := tables.base
  have lowIs : s.mem.readLE (l.lb + (l.pm32Gdtr + 2)) 4 = gdt := by
    rw [Mem.readLE_mod s.mem _ (show 4 ≤ 8 by decide), base]
    exact Nat.mod_eq_of_lt (by omega)
  rw [Mem.readLE_add s.mem _ 4 4, lowIs] at base
  have low : (entryMem l s).readLE (s.rdx + (l.pm32Gdtr + 2)) 4 = gdt + s.rdx := by
    unfold entryMem fixedMem
    rw [Mem.readLE_writeLE, readLE_copiedMem placed (by omega), lowIs, Word.add_of_lt (by omega)]
    exact Nat.mod_eq_of_lt (by omega)
  have top : (entryMem l s).readLE (s.rdx + (l.pm32Gdtr + 2) + 4) 4 = s.mem.readLE (l.lb + (l.pm32Gdtr + 2) + 4) 4 := by
    rw [Nat.add_assoc s.rdx, Nat.add_assoc l.lb]
    exact readLE_entryMem placed (by omega) (by omega)
  rw [Mem.readLE_add _ _ 4 4, low, top]
  omega

/-- Memory when the trampoline gets to its 32-bit part. -/
def pm32Mem (l : Labels) (s : Long) : Mem :=
  ((entryMem l s).writeLE (s.rdx + 0xfe8) 8 8).writeLE (s.rdx + 0xfe0) 8 (s.rdx + l.pm32)

/-- The flat code segment. -/
def flatCode : Seg := ⟨selCs32, 0, true⟩

theorem segs_pm32Mem (placed : Placed l s) (tables : Tables l gdt s.mem) : gdtSeg (pm32Mem l s) (gdt + s.rdx) 8 = flatCode ∧
    gdtSeg (pm32Mem l s) (gdt + s.rdx) 0x10 = flatSeg := by
  obtain ⟨-, short⟩ := placed.size
  obtain ⟨clear, fits⟩ := tables.inside
  have entry : ∀ k, l.pm32Gdtr + 10 ≤ gdt + k → gdt + k + 8 ≤ l.le →
      (pm32Mem l s).readLE (gdt + s.rdx + k) 8 = s.mem.readLE (l.lb + (gdt + k)) 8 := fun k low high => by
    unfold pm32Mem
    rw [Mem.readLE_writeLE_apart (by omega), Mem.readLE_writeLE_apart (by omega),
      show gdt + s.rdx + k = s.rdx + (gdt + k) by omega]
    exact readLE_entryMem placed (by omega) (by omega)
  refine ⟨?_, ?_⟩
  · unfold gdtSeg
    rw [entry 8 (by omega) (by omega), tables.cs]
    decide
  · unfold gdtSeg
    rw [entry 0x10 (by omega) (by omega), tables.ds]
    decide

theorem toPm32_eq (placed : Placed l s) (tables : Tables l gdt s.mem) : ∃ gdtr, gdtr / 2 ^ 16 = gdt + s.rdx ∧
    toPm32 l (runStage2 l s) =
      { eax := 0
        ebx := s.rbx % 2 ^ 32
        ecx := 0
        edx := s.rdx
        esi := (l.lb + l.le) % 2 ^ 32
        edi := s.rdx + l.pm32
        ebp := s.mem.readLE (s.rsp + 0x28) 4
        esp := s.rdx + 0xff0
        cs := flatCode
        ds := ⟨0, 0, true⟩
        es := ⟨0, 0, true⟩
        fs := ⟨0, 0, true⟩
        gs := ⟨0, 0, true⟩
        ss := ⟨0, 0, true⟩
        eip := s.rdx + l.pm32
        eflags := clear s.rflags flagIf % 2 ^ 32
        cr0 := s.cr0
        cr3 := s.cr3
        cr4 := s.cr4
        gdtr := gdtr
        mem := pm32Mem l s } := by
  obtain ⟨low, high⟩ := placed.page
  obtain ⟨-, short⟩ := placed.size
  obtain ⟨insidePm, insideGdtr⟩ := placed.inside
  have base := base_entryMem placed tables
  obtain ⟨cs, -⟩ := segs_pm32Mem placed tables
  have params : s.mem.readLE (s.rsp + 0x28) 4 < 2 ^ 32 := s.mem.readLE_lt _ 4
  have gdtrIs : (entryMem l s).readLE (s.rdx + l.pm32Gdtr) 10 / 2 ^ 16 = gdt + s.rdx := by
    have limit := (entryMem l s).readLE_lt (s.rdx + l.pm32Gdtr) 2
    rw [Mem.readLE_add _ _ 2 8, Nat.add_assoc s.rdx, base]
    omega
  have sel : (pm32Mem l s).readLE (s.rdx + 0xfe8) 8 = 8 := by
    unfold pm32Mem
    rw [Mem.readLE_writeLE_apart (by omega), Mem.readLE_writeLE]
    rfl
  have rip : (pm32Mem l s).readLE (s.rdx + 0xfe0) 8 = s.rdx + l.pm32 := by
    unfold pm32Mem
    rw [Mem.readLE_writeLE]
    exact Nat.mod_eq_of_lt (by omega)
  refine ⟨_, gdtrIs, ?_⟩
  unfold toPm32
  rw [runStage2_eq placed]
  dsimp only
  rw [Word.sub_of_le (show l.le - l.pm32Gdtr ≤ s.rdx + l.le by omega) (by omega),
    show s.rdx + l.le - (l.le - l.pm32Gdtr) = s.rdx + l.pm32Gdtr by omega, Long.push_eq (v := 8)]
  · dsimp only
    rw [Word.sub_of_le (show l.le - l.pm32 ≤ s.rdx + l.le by omega) (by omega),
      show s.rdx + l.le - (l.le - l.pm32) = s.rdx + l.pm32 by omega, Long.push_eq]
    · dsimp only
      rw [Long.pop_eq]
      · dsimp only
        rw [Long.pop_eq (by dsimp only; omega)]
        dsimp only
        rw [show s.rdx + 0xff0 - 8 - 8 = s.rdx + 0xfe0 by omega, show s.rdx + 0xff0 - 8 = s.rdx + 0xfe8 by omega,
          show s.rdx + 0xfe0 + 8 = s.rdx + 0xfe8 by omega, show s.rdx + 0xfe8 + 8 = s.rdx + 0xff0 by omega]
        change Cpu.mk _ _ _ _ _ _ _ _ (gdtSeg (pm32Mem l s) _ ((pm32Mem l s).readLE (s.rdx + 0xfe8) 8 % 2 ^ 16)) _ _ _ _ _
          ((pm32Mem l s).readLE (s.rdx + 0xfe0) 8 % 2 ^ 32) _ _ _ _ _ (pm32Mem l s) = _
        rw [sel, rip, gdtrIs, show 8 % 2 ^ 16 = 8 by decide, cs, Nat.mod_eq_of_lt (show s.rdx < 2 ^ 32 by omega),
          Nat.mod_eq_of_lt (show s.rdx + l.pm32 < 2 ^ 32 by omega), Nat.mod_eq_of_lt (show s.rdx + 0xff0 < 2 ^ 32 by omega),
          Nat.mod_eq_of_lt params, Nat.zero_mod]
      · rw [Long.pop_eq (by dsimp only; omega)]
        dsimp only
        omega
    · dsimp only
      omega
    · dsimp only
      omega
  · dsimp only
    omega
  · dsimp only
    omega

end

/-! ## The 32-bit part -/

theorem setAl_low (eax v : ℕ) : setAl eax v % 2 ^ 8 = v % 2 ^ 8 := by
  unfold setAl
  omega

/-- The selector that is left once AL is cleared. -/
theorem setAl_setLow (eax : ℕ) : setAl (setLow eax 0x10) 0 % 2 ^ 16 = 0 := by
  unfold setAl setLow
  omega

theorem pm32_eq {s : Cpu} (on : s.Protected) (flat : gdtSeg s.mem (s.gdtr / 2 ^ 16) 0x10 = flatSeg) (efer : ℕ) : pm32 efer s =
    ({ s with
        eax := s.cr3
        ecx := msrEfer
        edx := efer / 2 ^ 32
        ds := flatSeg
        es := flatSeg
        ss := flatSeg
        fs := ⟨0, 0, s.fs.big⟩
        gs := ⟨0, 0, s.gs.big⟩
        cr0 := clear s.cr0 cr0Pg
        cr4 := setAl s.cr4 (s.cr4 % 2 ^ 8 &&& 0xcf) },
      efer / 2 ^ 32 * 2 ^ 32 + setAh (efer % 2 ^ 32) (efer % 2 ^ 32 / 2 ^ 8 % 2 ^ 8 &&& 0xfe)) := by
  have data : setLow s.eax 0x10 % 2 ^ 16 = 0x10 := setLow_mod _ _
  have pe : s.cr0.testBit 0 = true := on
  unfold pm32
  dsimp only
  simp only [loadData, data, setAl_setLow, Cpu.loadSeg, Cpu.Protected, pe, if_true, flat]
  rfl

/-- Memory once the BIOS data area has the size of base memory and the segment of the EBDA. -/
def bdaMem (baseKib ebda : ℕ) (mem : Mem) : Mem :=
  (mem.writeLE bdaBaseKibAt 2 (baseKib % 2 ^ 16)).writeLE bdaEbdaAt 2 (ebda % 2 ^ 16)

theorem handOver_eq {s : Cpu} {baseKib ebda entry : ℕ} (ss : s.ss = flatSeg) (ds : s.ds = flatSeg) (room : s.esp + 12 < 2 ^ 32)
    (high : 0x600 ≤ s.esp) (first : s.mem.readLE s.esp 4 = baseKib) (second : s.mem.readLE (s.esp + 4) 4 = ebda)
    (third : s.mem.readLE (s.esp + 8) 4 = entry) (misc : ℕ) : handOver misc s =
      ({ s with
          eax := setAl (setAl ebda misc) (misc % 2 ^ 8 ||| 1)
          edx := setAl (setLow s.edx vgaMiscR) 0xc2
          esp := s.esp + 12
          eip := entry
          mem := bdaMem baseKib ebda s.mem },
        [⟨vgaMiscW, misc % 2 ^ 8 ||| 1⟩]) := by
  have port : setAl (setLow s.edx vgaMiscR) 0xc2 % 2 ^ 16 = vgaMiscW := by
    unfold setAl setLow vgaMiscR vgaMiscW
    omega
  have byte : (misc % 2 ^ 8 ||| 1) % 2 ^ 8 = misc % 2 ^ 8 ||| 1 :=
    Nat.mod_eq_of_lt (Nat.or_lt_two_pow (Nat.mod_lt _ (by decide)) (by decide))
  have base : s.ds.base = 0 := by rw [ds]; rfl
  have ebdaIs : (s.mem.writeLE bdaBaseKibAt 2 (baseKib % 2 ^ 16)).readLE (s.esp + 4) 4 = ebda := by
    rw [Mem.readLE_writeLE_apart (by unfold bdaBaseKibAt; omega), second]
  have entryIs : ((s.mem.writeLE bdaBaseKibAt 2 (baseKib % 2 ^ 16)).writeLE bdaEbdaAt 2 (ebda % 2 ^ 16)).readLE (s.esp + 8) 4 =
      entry := by
    rw [Mem.readLE_writeLE_apart (by unfold bdaEbdaAt; omega), Mem.readLE_writeLE_apart (by unfold bdaBaseKibAt; omega), third]
  unfold handOver
  dsimp only
  simp (disch := first | exact ss | omega | (dsimp only; omega)) only [pop_flat, Nat.add_assoc, Nat.reduceAdd, first, base,
    Nat.zero_add, ebdaIs, setAl_low, byte, port, entryIs]
  rfl

/-! ## The stack of the trampoline -/

theorem pm32Mem_of_above (placed : Placed l s) {x : ℕ} (low : s.rdx + 0xff0 ≤ x) : pm32Mem l s x = stackMem s x := by
  obtain ⟨low, -⟩ := placed.page
  obtain ⟨-, short⟩ := placed.size
  obtain ⟨-, inside⟩ := placed.inside
  unfold pm32Mem entryMem fixedMem copiedMem
  rw [Mem.writeLE_of_outside (by omega), Mem.writeLE_of_outside (by omega), Mem.writeLE_of_outside (by omega),
    Mem.copied_of_outside (by omega), Mem.writeLE_of_outside (by omega), Mem.zeroed_of_outside (by omega)]

/-- What the trampoline pops. -/
theorem stack_pm32Mem (placed : Placed l s) : (pm32Mem l s).readLE (s.rdx + 0xff0) 4 = s.r8 % 2 ^ 32 ∧
    (pm32Mem l s).readLE (s.rdx + 0xff0 + 4) 4 = s.r9 % 2 ^ 32 ∧ (pm32Mem l s).readLE (s.rdx + 0xff0 + 8) 4 = s.rcx % 2 ^ 32 := by
  refine ⟨?_, ?_, ?_⟩
  · rw [Mem.readLE_congr fun x low _ => pm32Mem_of_above placed low]
    unfold stackMem
    rw [Mem.readLE_writeLE_apart (by omega), Mem.readLE_mod _ _ (show 4 ≤ 8 by decide), Mem.readLE_writeLE]
    omega
  · rw [Mem.readLE_congr fun x low _ => pm32Mem_of_above placed (by omega)]
    unfold stackMem
    exact Mem.readLE_writeLE ..
  · rw [Mem.readLE_congr fun x low _ => pm32Mem_of_above placed (by omega)]
    unfold stackMem
    rw [Mem.readLE_writeLE_apart (by omega), Mem.readLE_writeLE_apart (by omega), Mem.readLE_mod _ _ (show 4 ≤ 8 by decide),
      Mem.readLE_writeLE]
    omega

end Biefircate.RunStage2
