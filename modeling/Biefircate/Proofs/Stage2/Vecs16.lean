import Biefircate.Model.Stage2.Vecs16
import Biefircate.Proofs.Stage2.Rm16Call

/-! # What each part of an interrupt handler does

An interrupt and the pushes of its handler put a frame on the stack, and the pops and `iret` take it off, in 16-bit and in
32-bit stacks alike.
-/

namespace Biefircate.Vecs16

open X86 Rm16

/-! ## Segments in real mode -/

/-- A segment register as real mode loads it. -/
structure RealSeg (g : Seg) : Prop where
  sel : g.sel < 2 ^ 16
  base : g.base = g.sel * 16

/-- The selectors and the bases are the same. -/
def SameSeg (g g' : Seg) : Prop := g.sel = g'.sel ∧ g.base = g'.base

section

variable {s t : Cpu} {g old : Seg}

/-! ## The stack pointer -/

theorem clear_three {v : ℕ} (word : v < 2 ^ 32) : clear v 3 = v - v % 4 := by
  have aligned := Word.and_mask_eq (w := 32) (k := 2) (a := 4) rfl (by decide) word
  exact aligned

theorem sp_clear_three (word : s.esp < 2 ^ 32) : ({ s with esp := clear s.esp 3 } : Cpu).sp = s.sp - s.sp % 4 := by
  unfold Cpu.sp
  dsimp only
  rw [clear_three word]
  split
  · rfl
  · omega

/-! ## The frame -/

/-- What an interrupt pushes, the last item first. -/
def returnItems (s : Cpu) : List (ℕ × ℕ) := [(2, s.eip), (2, s.cs.sel), (2, s.eflags)]

/-- What `ISR_IRQ_C` adds to it. -/
def savedItems (s : Cpu) : List (ℕ × ℕ) :=
  [(4, s.edx), (4, s.ecx), (4, s.eax), (2, s.gs.sel), (2, s.fs.sel), (2, s.es.sel), (2, s.ds.sel)] ++ returnItems s

theorem interrupt_pushed (word : s.esp < 2 ^ 32) (room : 6 ≤ s.sp) (n : ℕ) : ∃ t, Cpu.Pushed s t (returnItems s) ∧
    s.interrupt n = t.jump (t.loadSeg s.cs (t.mem.readLE (4 * n + 2) 2)) (t.mem.readLE (4 * n) 2)
      (clear s.eflags (flagIf ||| flagTf)) := by
  have fits : ∀ items, 2 + bytes items ≤ 6 → 2 + bytes items ≤ s.sp := fun _ few => few.trans room
  have pushed := (((Cpu.Pushed.nil s).push 2 s.eflags word (fits _ (by simp))).push 2 s.cs.sel word (fits _ (by simp))).push
    2 s.eip word (fits _ (by simp))
  refine ⟨_, pushed, ?_⟩
  unfold Cpu.interrupt
  simp only [Cpu.push_eflags, Cpu.push_cs]

theorem saveRegs_pushed (pushed : Cpu.Pushed s t (returnItems s)) (word : s.esp < 2 ^ 32) (room : 26 ≤ s.sp) (cs : Seg)
    (eip eflags : ℕ) : ∃ u, Cpu.Pushed s u (savedItems s) ∧ saveRegs (t.jump cs eip eflags) = u.jump cs eip eflags := by
  have fits : ∀ n items, n + bytes items ≤ 26 → n + bytes items ≤ s.sp := fun _ _ few => few.trans room
  have regs : saveRegs (t.jump cs eip eflags) = (((((((t.push 2 s.ds.sel).push 2 s.es.sel).push 2 s.fs.sel).push 2 s.gs.sel).push
      4 s.eax).push 4 s.ecx).push 4 s.edx).jump cs eip eflags := by
    rw [show s.ds = t.ds by rw [pushed.eq], show s.es = t.es by rw [pushed.eq], show s.fs = t.fs by rw [pushed.eq],
      show s.gs = t.gs by rw [pushed.eq], show s.eax = t.eax by rw [pushed.eq], show s.ecx = t.ecx by rw [pushed.eq],
      show s.edx = t.edx by rw [pushed.eq]]
    simp only [saveRegs, Cpu.push_jump, Cpu.jump_eax, Cpu.jump_ecx, Cpu.jump_edx, Cpu.jump_ds, Cpu.jump_es, Cpu.jump_fs,
      Cpu.jump_gs, Cpu.push_eax, Cpu.push_ecx, Cpu.push_edx, Cpu.push_es, Cpu.push_fs, Cpu.push_gs]
  have segs := (((pushed.push 2 s.ds.sel word (fits _ _ (by simp [returnItems]))).push 2 s.es.sel word
    (fits _ _ (by simp [returnItems]))).push 2 s.fs.sel word (fits _ _ (by simp [returnItems]))).push 2 s.gs.sel word
      (fits _ _ (by simp [returnItems]))
  have all := ((segs.push 4 s.eax word (fits _ _ (by simp [returnItems]))).push 4 s.ecx word
    (fits _ _ (by simp [returnItems]))).push 4 s.edx word (fits _ _ (by simp [returnItems]))
  exact ⟨_, all, regs⟩

/-! ## Calling the C routine -/

/-- How far the stack pointer is above a multiple of four, and then the slot for ESP. -/
def slot (s : Cpu) : ℕ := s.sp % 4 + 4

/-- Memory with the old ESP in its slot. -/
def withEsp (s : Cpu) : Mem := s.mem.writeLE (s.ss.base + (s.sp - slot s)) 4 s.esp

theorem setUp_eq (off : ¬ s.Protected) (word : s.esp < 2 ^ 32) (room : slot s ≤ s.sp) (seg : s.ss.sel < 2 ^ 16) : setUp s =
    { s with
      eax := setLow (setLow s.esp 0) s.ss.sel
      esp := s.esp - slot s
      mem := withEsp s
      gs := ⟨0, 0, s.gs.big⟩
      fs := ⟨ebda (withEsp s), ebda (withEsp s) * 16, s.fs.big⟩
      ds := ⟨s.ss.sel, s.ss.sel * 16, s.ds.big⟩
      es := ⟨s.ss.sel, s.ss.sel * 16, s.es.big⟩ } := by
  have pe : s.cr0.testBit 0 = false := Bool.eq_false_iff.mpr off
  have same := s.sp_mod_four
  have low := s.sp_le
  have aligned : ({ s with eax := s.esp, esp := clear s.esp 3 } : Cpu).sp = s.sp - s.sp % 4 := sp_clear_three word
  have pushed : ({ s with eax := s.esp, esp := clear s.esp 3 } : Cpu).push 4 s.esp =
      { s with eax := s.esp, esp := s.esp - slot s, mem := withEsp s } := by
    unfold slot at *
    rw [Cpu.push_eq (by dsimp only; rw [clear_three word]; omega) (by rw [aligned]; omega), aligned]
    dsimp only
    rw [clear_three word, ← same, Nat.sub_sub, Nat.sub_sub]
    rfl
  have zero : setLow s.esp 0 % 2 ^ 16 = 0 := setLow_mod ..
  have stack : ∀ reg, setLow reg s.ss.sel % 2 ^ 16 = s.ss.sel := fun reg => by rw [setLow_mod, Nat.mod_eq_of_lt seg]
  have bda : (withEsp s).readLE (bdaAt + bdaEbda) 2 = ebda (withEsp s) := rfl
  unfold setUp
  dsimp only
  rw [pushed]
  simp only [Cpu.loadSeg, Cpu.Protected, pe, Bool.false_eq_true, if_false, zero, stack, Nat.zero_mul, Nat.zero_add, bda]

theorem callImpl_eq (l : IrqC) (word : s.esp < 2 ^ 32) (room : 4 ≤ s.sp) : callImpl l s =
    { s with
      esp := s.esp - 4
      mem := (s.mem.writeLE (s.ss.base + (s.sp - 2)) 2 0).writeLE (s.ss.base + (s.sp - 4)) 2 l.back
      eip := l.impl } := by
  have first : s.push 2 0 = { s with esp := s.esp - 2, mem := s.mem.writeLE (s.ss.base + (s.sp - 2)) 2 0 } :=
    Cpu.push_eq word (by omega)
  have sp : (s.push 2 0).sp = s.sp - 2 := Cpu.sp_push word (by omega)
  have second := Cpu.push_eq (s := s.push 2 0) (n := 2) (v := l.back) (by rw [first]; dsimp only; omega) (by omega)
  unfold callImpl
  dsimp only
  rw [second, sp, first]
  dsimp only
  rw [Nat.sub_sub, Nat.sub_sub]

/-! ## Back to the program -/

/-- A segment register as a pop in real mode leaves it. -/
def popped (old : Seg) (v : ℕ) : Seg := ⟨v % 256 ^ 2, v % 256 ^ 2 * 16, old.big⟩

theorem RealSeg.popped (real : RealSeg g) : SameSeg (popped old g.sel) g := by
  have word : g.sel % 256 ^ 2 = g.sel := Nat.mod_eq_of_lt real.sel
  unfold Vecs16.popped
  rw [word]
  exact ⟨rfl, real.base.symm⟩

section

variable {ip cs flags : ℕ}

theorem iret_eq (off : ¬ s.Protected) (on : s.OnStack [(2, ip), (2, cs), (2, flags)]) : s.iret =
    { s with
      esp := s.esp + 6
      eip := ip % 256 ^ 2
      cs := popped s.cs cs
      eflags := setLow s.eflags (flags % 256 ^ 2) } := by
  have pe : s.cr0.testBit 0 = false := Bool.eq_false_iff.mpr off
  have second : ({ s with esp := s.esp + 2, eip := ip % 256 ^ 2 } : Cpu).OnStack [(2, cs), (2, flags)] := on.rest rfl rfl rfl
  have third : ({ s with esp := s.esp + 4, eip := ip % 256 ^ 2, cs := popped s.cs cs } : Cpu).OnStack [(2, flags)] :=
    second.rest rfl rfl rfl
  unfold Cpu.iret
  rw [on.pop]
  dsimp only
  rw [second.pop]
  simp only [Cpu.loadSeg, Cpu.Protected, pe, Bool.false_eq_true, if_false, Nat.add_assoc, Nat.reduceAdd]
  exact third.pop _

end

/-- ESP comes from its slot, and what the handler and the interrupt pushed from there on. -/
theorem restoreRegs_eq {p : Cpu} {esp : ℕ} (off : ¬ s.Protected) (top : s.OnStack [(4, esp)])
    (saved : ({ s with esp := esp % 256 ^ 4 } : Cpu).OnStack (savedItems p)) : restoreRegs s =
    { s with
      esp := esp % 256 ^ 4 + 26
      edx := p.edx % 256 ^ 4
      ecx := p.ecx % 256 ^ 4
      eax := p.eax % 256 ^ 4
      gs := popped s.gs p.gs.sel
      fs := popped s.fs p.fs.sel
      es := popped s.es p.es.sel
      ds := popped s.ds p.ds.sel
      cs := popped s.cs p.cs.sel
      eip := p.eip % 256 ^ 2
      eflags := setLow s.eflags (p.eflags % 256 ^ 2) } := by
  let s₁ : Cpu := { s with esp := esp % 256 ^ 4 }
  let s₂ : Cpu := { s₁ with esp := esp % 256 ^ 4 + 4, edx := p.edx % 256 ^ 4 }
  let s₃ : Cpu := { s₂ with esp := esp % 256 ^ 4 + 8, ecx := p.ecx % 256 ^ 4 }
  let s₄ : Cpu := { s₃ with esp := esp % 256 ^ 4 + 12, eax := p.eax % 256 ^ 4 }
  let s₅ : Cpu := { s₄ with esp := esp % 256 ^ 4 + 14, gs := popped s.gs p.gs.sel }
  let s₆ : Cpu := { s₅ with esp := esp % 256 ^ 4 + 16, fs := popped s.fs p.fs.sel }
  let s₇ : Cpu := { s₆ with esp := esp % 256 ^ 4 + 18, es := popped s.es p.es.sel }
  let s₈ : Cpu := { s₇ with esp := esp % 256 ^ 4 + 20, ds := popped s.ds p.ds.sel }
  have on₂ : s₂.OnStack _ := saved.rest rfl rfl rfl
  have on₃ : s₃.OnStack _ := on₂.rest rfl rfl rfl
  have on₄ : s₄.OnStack _ := on₃.rest rfl rfl rfl
  have on₅ : s₅.OnStack _ := on₄.rest rfl rfl rfl
  have on₆ : s₆.OnStack _ := on₅.rest rfl rfl rfl
  have on₇ : s₇.OnStack _ := on₆.rest rfl rfl rfl
  have on₈ : s₈.OnStack (returnItems p) := on₇.rest rfl rfl rfl
  have pop₁ : (s.pop 4 fun s v => { s with esp := v }) = s₁ := top.pop _
  have pop₂ : (s₁.pop 4 fun s v => { s with edx := v }) = s₂ := saved.pop _
  have pop₃ : (s₂.pop 4 fun s v => { s with ecx := v }) = s₃ := on₂.pop _
  have pop₄ : (s₃.pop 4 fun s v => { s with eax := v }) = s₄ := on₃.pop _
  have pop₅ : (s₄.pop 2 fun s v => { s with gs := s.loadSeg s.gs v }) = s₅ := by
    rw [on₄.pop, Cpu.loadSeg_real]
    · rfl
    · exact off
  have pop₆ : (s₅.pop 2 fun s v => { s with fs := s.loadSeg s.fs v }) = s₆ := by
    rw [on₅.pop, Cpu.loadSeg_real]
    · rfl
    · exact off
  have pop₇ : (s₆.pop 2 fun s v => { s with es := s.loadSeg s.es v }) = s₇ := by
    rw [on₆.pop, Cpu.loadSeg_real]
    · rfl
    · exact off
  have pop₈ : (s₇.pop 2 fun s v => { s with ds := s.loadSeg s.ds v }) = s₈ := by
    rw [on₇.pop, Cpu.loadSeg_real]
    · rfl
    · exact off
  unfold restoreRegs
  dsimp only
  rw [pop₁, pop₂, pop₃, pop₄, pop₅, pop₆, pop₇, pop₈]
  exact iret_eq off on₈

/-! ## IRQ 0 -/

/-- What `irq0` adds to the frame. -/
def tickItems (p : Cpu) : List (ℕ × ℕ) := [(4, p.eax), (2, p.ds.sel)] ++ returnItems p

/-- `irq0` in linear memory. -/
def ticked (mem : Mem) : Mem :=
  let eax := Word.add 32 (mem.readLE (bdaAt + bdaTimer) 4) 1
  if ticksPerDay ≤ eax then
    (mem.writeLE (bdaAt + bdaTimerOvf) 1 (Word.add 8 (mem.readLE (bdaAt + bdaTimerOvf) 1) 1)).writeLE (bdaAt + bdaTimer) 4 0
  else mem.writeLE (bdaAt + bdaTimer) 4 eax

theorem ticked_of_outside {mem : Mem} {x : ℕ} (outside : x < bdaAt + bdaTimer ∨ bdaAt + bdaTimer + 5 ≤ x) :
    ticked mem x = mem x := by
  have next : bdaTimerOvf = bdaTimer + 4 := rfl
  unfold ticked
  split
  · rw [Mem.writeLE_of_outside (by omega), Mem.writeLE_of_outside (by omega)]
  · rw [Mem.writeLE_of_outside (by omega)]

theorem irq0Count_eq {p : Cpu} (off : ¬ p.Protected) (pushed : Cpu.Pushed p t (returnItems p)) (word : p.esp < 2 ^ 32)
    (room : 12 ≤ p.sp) (cs : Seg) (eip eflags : ℕ) : ∃ eax mem, Cpu.Pushed p { p with esp := p.esp - 12, mem := mem } (tickItems p) ∧
    irq0Count (t.jump cs eip eflags) =
      { p with
        eax := eax
        esp := p.esp - 12
        cs := cs
        ds := ⟨0, 0, p.ds.big⟩
        eip := eip
        eflags := eflags
        mem := ticked mem } := by
  have pe : p.cr0.testBit 0 = false := Bool.eq_false_iff.mpr off
  have all := (pushed.push 2 p.ds.sel word (by simp [returnItems]; omega)).push 4 p.eax word (by simp [returnItems]; omega)
  obtain ⟨eq, -⟩ := id all
  have regs : t.ds = p.ds ∧ t.eax = p.eax := by
    rw [pushed.eq]
    exact ⟨rfl, rfl⟩
  generalize topIs : (t.push 2 p.ds.sel).push 4 p.eax = u at all eq
  generalize u.mem = mem at eq
  subst eq
  have zero : ∀ v, setLow v 0 % 2 ^ 16 = 0 := fun v => setLow_mod v 0
  unfold irq0Count
  simp only [Cpu.push_jump, Cpu.jump_ds, Cpu.jump_eax, Cpu.push_eax, regs.1, regs.2, topIs]
  simp only [Cpu.jump, Cpu.loadSeg, Cpu.Protected, pe, Bool.false_eq_true, if_false, zero, Nat.zero_mul, Nat.zero_add]
  rcases Nat.lt_or_ge (Word.add 32 (mem.readLE (bdaAt + bdaTimer) 4) 1) ticksPerDay with day | midnight
  · have same : ticked mem = mem.writeLE (bdaAt + bdaTimer) 4 (Word.add 32 (mem.readLE (bdaAt + bdaTimer) 4) 1) :=
      if_neg (Nat.not_le.mpr day)
    refine ⟨Word.add 32 (mem.readLE (bdaAt + bdaTimer) 4) 1, mem, all, ?_⟩
    simp only [same, if_neg (Nat.not_le.mpr day)]
    rfl
  · have same : ticked mem = (mem.writeLE (bdaAt + bdaTimerOvf) 1 (Word.add 8 (mem.readLE (bdaAt + bdaTimerOvf) 1) 1)).writeLE
        (bdaAt + bdaTimer) 4 0 := if_pos midnight
    refine ⟨0, mem, all, ?_⟩
    simp only [same, if_pos midnight]
    rfl

/-- EAX and DS come back, and then what the interrupt pushed. -/
theorem irq0Return_eq {p : Cpu} (off : ¬ s.Protected) (on : s.OnStack (tickItems p)) : irq0Return s =
    { s with
      esp := s.esp + 12
      eax := p.eax % 256 ^ 4
      ds := popped s.ds p.ds.sel
      cs := popped s.cs p.cs.sel
      eip := p.eip % 256 ^ 2
      eflags := setLow s.eflags (p.eflags % 256 ^ 2) } := by
  let s₁ : Cpu := { s with esp := s.esp + 4, eax := p.eax % 256 ^ 4 }
  let s₂ : Cpu := { s₁ with esp := s.esp + 6, ds := popped s.ds p.ds.sel }
  have on₁ : s₁.OnStack _ := on.rest rfl rfl rfl
  have on₂ : s₂.OnStack (returnItems p) := on₁.rest rfl rfl rfl
  have pop₁ : (s.pop 4 fun s v => { s with eax := v }) = s₁ := on.pop _
  have pop₂ : (s₁.pop 2 fun s v => { s with ds := s.loadSeg s.ds v }) = s₂ := by
    rw [on₁.pop, Cpu.loadSeg_real]
    · rfl
    · exact off
  unfold irq0Return
  dsimp only
  rw [pop₁, pop₂]
  exact iret_eq off on₂

end

end Biefircate.Vecs16
