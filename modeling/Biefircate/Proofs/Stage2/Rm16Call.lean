import Biefircate.Model.Stage2.Rm16Call

/-! # What each part of `rm16_call` does

The parts are straight-line code. Each is described by the state that it leaves, with what the switch of the mode does to the
segment registers.
-/

namespace Biefircate.Rm16

open X86

variable {l : Labels} {s : Cpu}

/-! ## Control registers -/

theorem pe_clear (v : ℕ) : (clear v (cr0Pg ||| cr0Pe)).testBit 0 = false := testBit_clear v (by decide) (by decide)

theorem pg_clear (v : ℕ) : (clear v (cr0Pg ||| cr0Pe)).testBit 31 = false := testBit_clear v (by decide) (by decide)

theorem pae_clear (v : ℕ) : (setLow v (clear v cr4Pae)).testBit 5 = false :=
  (testBit_setLow v _ (by decide)).trans (testBit_clear v (by decide) (by decide))

theorem pae_set (v : ℕ) : (setLow v (v ||| cr4Pae)).testBit 5 = true :=
  (testBit_setLow v _ (by decide)).trans (testBit_or v (by decide))

/-! ## The parts -/

/-- A segment of the GDT that is loaded. -/
def ownSeg (s : Cpu) (sel : ℕ) : Seg := gdtSeg s.mem (s.gdtr / 2 ^ 16) sel

/-- The segment number of the EBDA, which is that of the 16-bit data. -/
def ebda (mem : Mem) : ℕ := mem.readLE (bdaAt + bdaEbda) 2

/-- The flat data segment that stage 2 runs with. -/
def flatSeg : Seg := ⟨selDs32, 0, true⟩

theorem sp_flat (flat : s.ss = flatSeg) : s.sp = s.esp := by
  rw [Cpu.sp, flat]
  rfl

/-- What `rm16_call` pushes, the last item first. -/
def saved (l : Labels) (s : Cpu) : List (ℕ × ℕ) :=
  [(4, l.back), (4, s.cs.sel), (4, pushedFlags s.eflags), (4, s.ebp), (4, s.edi), (4, s.esi), (4, s.ebx)]

theorem pushRegs_pushed (flat : s.ss = flatSeg) (room : 20 ≤ s.esp) (word : s.esp < 2 ^ 32) : Cpu.Pushed s (pushRegs s)
    [(4, pushedFlags s.eflags), (4, s.ebp), (4, s.edi), (4, s.esi), (4, s.ebx)] := by
  have sp : s.sp = s.esp := sp_flat flat
  have regs : pushRegs s =
      ((((s.push 4 s.ebx).push 4 s.esi).push 4 s.edi).push 4 s.ebp).push 4 (pushedFlags s.eflags) := by
    simp only [pushRegs, Cpu.push_esi, Cpu.push_edi, Cpu.push_ebp, Cpu.push_eflags]
  have fits : ∀ items, 4 + bytes items ≤ 20 → 4 + bytes items ≤ s.sp := fun _ few => sp.symm ▸ few.trans room
  rw [regs]
  exact ((((Cpu.Pushed.nil s).push 4 _ word (fits _ (by simp))).push 4 _ word (fits _ (by simp))).push
    4 _ word (fits _ (by simp))).push 4 _ word (fits _ (by simp)) |>.push 4 _ word (fits _ (by simp))

theorem enter_pushed (on : s.Protected) (flat : s.ss = flatSeg) (room : 28 ≤ s.esp) (fits : s.esp + 12 < 2 ^ 32) :
    ∃ t, Cpu.Pushed s t (saved l s) ∧ enter l s =
      { t with
        ebx := s.mem.readLE (s.esp + 4) 4
        edi := s.esp + 8
        eflags := clear s.eflags flagIf
        cs := ownSeg t selCs16
        eip := l.cont1 } := by
  have sp : s.sp = s.esp := sp_flat flat
  have word : s.esp < 2 ^ 32 := by omega
  have regs := pushRegs_pushed flat (by omega) word
  have all : Cpu.Pushed s _ (saved l s) := (regs.push 4 s.cs.sel word (by simp only [bytes_cons, bytes_nil, sp]; omega)).push
    4 l.back word (by simp only [bytes_cons, bytes_nil, sp]; omega)
  refine ⟨_, all, ?_⟩
  unfold enter
  generalize pushRegs s = u at regs all
  obtain ⟨eq, -, -, frame⟩ := regs
  have esp : u.esp = s.esp - 20 := by rw [eq]; rfl
  have ss : u.ss = s.ss := by rw [eq]
  have cs : u.cs = s.cs := by rw [eq]
  have flags : u.eflags = s.eflags := by rw [eq]
  have pe : u.cr0 = s.cr0 := by rw [eq]
  have param : u.mem.readLE (u.ss.base + Word.add 32 u.esp (5 * 4 + 4)) 4 = s.mem.readLE (s.esp + 4) 4 := by
    rw [ss, flat, esp, Word.add_of_lt (by omega), show flatSeg.base + (s.esp - 20 + (5 * 4 + 4)) = s.esp + 4 by
      change 0 + _ = _
      omega]
    exact Mem.readLE_congr fun x low high => frame x (.inr (by rw [flat, sp]; change 0 + s.esp ≤ x; omega))
  have target : Word.add 32 u.esp (5 * 4 + 4 + 4) = s.esp + 8 := by
    rw [esp, Word.add_of_lt (by omega)]
    omega
  have tail : ∀ a b f, (({ u with ebx := a, edi := b, eflags := f }).push 4 u.cs.sel).push 4 l.back =
    { (u.push 4 u.cs.sel).push 4 l.back with ebx := a, edi := b, eflags := f } := fun _ _ _ => rfl
  rw [← cs, ← flags, ← param, ← target]
  dsimp only
  rw [tail]
  have on' : ((u.push 4 u.cs.sel).push 4 l.back).cr0.testBit 0 = true := show u.cr0.testBit 0 = true from pe ▸ on
  generalize (u.push 4 u.cs.sel).push 4 l.back = t at on'
  rw [ownSeg, ← t.loadSeg_protected t.cs selCs16 on']
  rfl

theorem enter_eq (on : s.Protected) (flat : s.ss = flatSeg) (room : 28 ≤ s.esp) (fits : s.esp + 12 < 2 ^ 32) :
    ∃ mem, Holds mem (s.esp - 28) (saved l s) ∧ (∀ x, x < s.esp - 28 ∨ s.esp ≤ x → mem x = s.mem x) ∧ enter l s =
      { s with
        ebx := s.mem.readLE (s.esp + 4) 4
        edi := s.esp + 8
        esp := s.esp - 28
        eflags := clear s.eflags flagIf
        cs := gdtSeg mem (s.gdtr / 2 ^ 16) selCs16
        eip := l.cont1
        mem := mem } := by
  obtain ⟨t, ⟨eq, sp, stacked, frame⟩, entered⟩ := enter_pushed (l := l) on flat room fits
  generalize t.mem = mem at eq frame
  subst eq
  rw [Cpu.Stacked, sp, sp_flat flat, flat, show flatSeg.base + (s.esp - bytes (saved l s)) = s.esp - 28 from Nat.zero_add _]
    at stacked
  refine ⟨mem, stacked, fun x outside => frame x ?_, entered⟩
  rw [sp_flat flat, flat]
  change x < 0 + (s.esp - 28) ∨ 0 + s.esp ≤ x
  omega

theorem cont1_eq (on : s.Protected) : cont1 l s =
    { s with
      esi := clear s.cr0 (cr0Pg ||| cr0Pe)
      ds := ownSeg s selDs16Zero
      es := ownSeg s selDs16Zero
      fs := ownSeg s selDs16Zero
      gs := ownSeg s selDs16Zero
      cr0 := clear s.cr0 (cr0Pg ||| cr0Pe)
      cs := ⟨s.mem.readLE (s.cs.base + l.rmCs16) 2, s.mem.readLE (s.cs.base + l.rmCs16) 2 * 16, s.cs.big⟩
      eip := l.cont2 } := by
  have pe : s.cr0.testBit 0 = true := on
  have zero : setLow s.esi selDs16Zero % 2 ^ 16 = selDs16Zero := setLow_mod ..
  unfold cont1
  simp only [Cpu.loadSeg, Cpu.Protected, pe, if_true, zero, pe_clear, ownSeg, Bool.false_eq_true, if_false]

/-- Memory once the 32-bit stack pointer, the page tables and the GDTR are stored. -/
def stored (l : Labels) (s : Cpu) : Mem :=
  ((s.mem.writeLE (ebda s.mem * 16 + l.sp32) 4 s.esp).writeLE (ebda s.mem * 16 + l.ptpd32) 4 s.cr3).writeLE
    (ebda s.mem * 16 + l.gdtr) 6 s.gdtr

theorem cont2_eq (off : ¬ s.Protected) (zero : s.ds.base = 0) : cont2 l s =
    { s with
      esi := setLow s.cr4 (clear s.cr4 cr4Pae)
      ds := ⟨ebda s.mem, ebda s.mem * 16, s.ds.big⟩
      ss := ⟨ebda s.mem, ebda s.mem * 16, s.ss.big⟩
      es := ⟨ebda s.mem, ebda s.mem * 16, s.es.big⟩
      fs := ⟨0, 0, s.fs.big⟩
      gs := ⟨0, 0, s.gs.big⟩
      esp := l.stack16
      cr4 := setLow s.cr4 (clear s.cr4 cr4Pae)
      mem := stored l s } := by
  have pe : s.cr0.testBit 0 = false := Bool.eq_false_iff.mpr off
  have word : ebda s.mem < 2 ^ 16 := s.mem.readLE_lt _ 2
  have seg : ∀ reg, setLow reg (s.mem.readLE (bdaAt + bdaEbda) 2) % 2 ^ 16 = ebda s.mem := fun reg => by
    rw [setLow_mod]
    exact Nat.mod_eq_of_lt word
  have none : ∀ reg, setLow reg 0 % 2 ^ 16 = 0 := fun reg => setLow_mod reg 0
  unfold cont2
  simp only [Cpu.loadSeg, Cpu.Protected, pe, Bool.false_eq_true, if_false, zero, Nat.zero_add, seg, none, Nat.zero_mul, stored]

theorem callFar_eq (off : ¬ s.Protected) (word : s.esp < 2 ^ 16) (room : 4 ≤ s.esp) : callFar l s =
    { s with
      esp := s.esp - 4
      mem := (s.mem.writeLE (s.ss.base + (s.esp - 2)) 2 s.cs.sel).writeLE (s.ss.base + (s.esp - 4)) 2 l.back16
      cs := ⟨s.mem.readLE (s.fs.base + Word.add 32 s.edi 2) 2, s.mem.readLE (s.fs.base + Word.add 32 s.edi 2) 2 * 16, s.cs.big⟩
      eip := s.mem.readLE (s.fs.base + s.edi) 2 } := by
  have pe : s.cr0.testBit 0 = false := Bool.eq_false_iff.mpr off
  have sp : s.sp = s.esp := by
    unfold Cpu.sp
    split
    · rfl
    · exact Nat.mod_eq_of_lt word
  have first : s.push 2 s.cs.sel = { s with esp := s.esp - 2, mem := s.mem.writeLE (s.ss.base + (s.esp - 2)) 2 s.cs.sel } := by
    rw [Cpu.push_eq (by omega) (by omega), sp]
  have sp' : (s.push 2 s.cs.sel).sp = s.esp - 2 := by rw [Cpu.sp_push (by omega) (by omega), sp]
  have second : (s.push 2 s.cs.sel).push 2 l.back16 =
      { s with
        esp := s.esp - 4
        mem := (s.mem.writeLE (s.ss.base + (s.esp - 2)) 2 s.cs.sel).writeLE (s.ss.base + (s.esp - 4)) 2 l.back16 } := by
    rw [Cpu.push_eq (by rw [first]; dsimp only; omega) (by omega), sp', first]
    dsimp only
    rw [show s.esp - 2 - 2 = s.esp - 4 by omega]
  unfold callFar
  dsimp only
  rw [second]
  simp only [Cpu.loadSeg, Cpu.Protected, pe, Bool.false_eq_true, if_false]

theorem resume_eq (off : ¬ s.Protected) {esp : ℕ} (stack : s.mem.readLE (ebda s.mem * 16 + l.sp32) 4 = esp)
    (fits : esp + 8 < 2 ^ 32) : resume l s =
    { s with
      esi := s.cr0 ||| (cr0Pg ||| cr0Pe)
      esp := esp + 8
      cs := gdtSeg s.mem (s.mem.readLE (ebda s.mem * 16 + l.gdtr) 6 % 2 ^ 40 / 2 ^ 16) (s.mem.readLE (esp + 4) 2)
      ds := ⟨ebda s.mem, ebda s.mem * 16, s.ds.big⟩
      ss := ⟨0, 0, s.ss.big⟩
      eip := s.mem.readLE esp 4
      eflags := clear s.eflags flagIf
      cr0 := s.cr0 ||| (cr0Pg ||| cr0Pe)
      cr3 := s.mem.readLE (ebda s.mem * 16 + l.ptpd32) 4
      cr4 := setLow s.cr4 (s.cr4 ||| cr4Pae)
      gdtr := s.mem.readLE (ebda s.mem * 16 + l.gdtr) 6 % 2 ^ 40 } := by
  have pe : s.cr0.testBit 0 = false := Bool.eq_false_iff.mpr off
  have on : (s.cr0 ||| (cr0Pg ||| cr0Pe)).testBit 0 = true := testBit_or _ (by decide)
  have none : setLow s.esi 0 % 2 ^ 16 = 0 := setLow_mod ..
  have seg : s.mem.readLE (bdaAt + bdaEbda) 2 = ebda s.mem := rfl
  have up : Word.add 32 esp 8 = esp + 8 := Word.add_of_lt fits
  have off8 : Word.sub 32 (esp + 8) 8 = esp := by rw [Word.sub_of_le (by omega) fits, Nat.add_sub_cancel]
  have off4 : Word.sub 32 (esp + 8) 4 = esp + 4 := by rw [Word.sub_of_le (by omega) fits]; omega
  unfold resume
  simp only [Cpu.loadSeg, Cpu.Protected, pe, on, Bool.false_eq_true, if_false, if_true, none, Nat.zero_mul, Nat.zero_add, seg,
    stack, up, off8, off4]

theorem room_flat (flat : s.ss = flatSeg) {n : ℕ} (fits : s.esp + n < 2 ^ 32) : s.sp + n < 2 ^ s.spWidth := by
  rw [sp_flat flat, Cpu.spWidth, flat]
  exact fits

theorem drop_flat (flat : s.ss = flatSeg) {n : ℕ} (fits : s.esp + n < 2 ^ 32) : s.drop n = { s with esp := s.esp + n } :=
  Cpu.drop_eq (room_flat flat fits)

theorem pop_flat (flat : s.ss = flatSeg) (fits : s.esp + 4 < 2 ^ 32) (set : Cpu → ℕ → Cpu) :
    s.pop 4 set = set { s with esp := s.esp + 4 } (s.mem.readLE s.esp 4) := by
  rw [Cpu.pop_eq (room_flat flat fits), sp_flat flat, flat, show flatSeg.base = 0 from rfl, Nat.zero_add]

theorem popRegs_eq (flat : s.ss = flatSeg) (fits : s.esp + 32 < 2 ^ 32) : popRegs s =
    { s with
      eflags := s.mem.readLE s.esp 4
      ebp := s.mem.readLE (s.esp + 4) 4
      edi := s.mem.readLE (s.esp + 8) 4
      esi := s.mem.readLE (s.esp + 12) 4
      ebx := s.mem.readLE (s.esp + 16) 4
      eip := s.mem.readLE (s.esp + 20) 4
      esp := s.esp + 32 } := by
  unfold popRegs
  dsimp only
  simp (disch := first | exact flat | omega | (dsimp only; omega)) only [pop_flat, drop_flat, Nat.add_assoc,
    Nat.reduceAdd]

theorem leave_eq (on : s.Protected) (flat : ownSeg s selDs32 = flatSeg) (fits : s.esp + 32 < 2 ^ 32) : leave s =
    { s with
      ds := flatSeg
      es := flatSeg
      ss := flatSeg
      fs := flatSeg
      gs := flatSeg
      eflags := s.mem.readLE s.esp 4
      ebp := s.mem.readLE (s.esp + 4) 4
      edi := s.mem.readLE (s.esp + 8) 4
      esi := s.mem.readLE (s.esp + 12) 4
      ebx := s.mem.readLE (s.esp + 16) 4
      eip := s.mem.readLE (s.esp + 20) 4
      esp := s.esp + 32 } := by
  have pe : s.cr0.testBit 0 = true := on
  have sel : setLow s.esi selDs32 % 2 ^ 16 = selDs32 := setLow_mod ..
  have seg : gdtSeg s.mem (s.gdtr / 2 ^ 16) selDs32 = flatSeg := flat
  unfold leave
  simp only [Cpu.loadSeg, Cpu.Protected, pe, if_true, sel, seg]
  exact popRegs_eq rfl fits

end Biefircate.Rm16
