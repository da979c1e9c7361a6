import Biefircate.Lib.Bytes
import Biefircate.Lib.Word

/-! # Registers, segments and the stack of an x86 processor

A segment register keeps the base address that came with its selector when it was loaded: from the GDT in protected mode, and
sixteen times the selector in real mode, where the size of the stack pointer stays what it was. Addresses are not translated
any further. A general register is a number of 32 bits.
-/

namespace Biefircate.X86

/-! ## Segments -/

/-- A segment register: the selector, and the base and whether the stack pointer is ESP, which were cached. -/
structure Seg where
  sel : ℕ
  base : ℕ
  big : Bool
deriving DecidableEq, Repr

/-- The base address in a descriptor. -/
def descBase (desc : ℕ) : ℕ := desc / 2 ^ 16 % 2 ^ 24 + desc / 2 ^ 56 % 2 ^ 8 * 2 ^ 24

/-- The D/B flag of a descriptor. -/
def descBig (desc : ℕ) : Bool := desc.testBit 54

/-- A segment of the global descriptor table at an address. -/
def gdtSeg (mem : Mem) (gdt sel : ℕ) : Seg :=
  let desc := mem.readLE (gdt + sel / 8 * 8) 8
  ⟨sel, descBase desc, descBig desc⟩

/-! ## Registers -/

structure Cpu where
  eax : ℕ
  ebx : ℕ
  ecx : ℕ
  edx : ℕ
  esi : ℕ
  edi : ℕ
  ebp : ℕ
  esp : ℕ
  cs : Seg
  ds : Seg
  es : Seg
  fs : Seg
  gs : Seg
  ss : Seg
  eip : ℕ
  eflags : ℕ
  cr0 : ℕ
  cr3 : ℕ
  cr4 : ℕ
  /-- The limit and the base of the GDT, in the format of `sgdt`. -/
  gdtr : ℕ
  mem : Mem

/-- The trap flag and the interrupt flag. -/
def flagTf : ℕ := 1 <<< 8
def flagIf : ℕ := 1 <<< 9

/-- The bits of `m` cleared in a 32-bit number. -/
def clear (v m : ℕ) : ℕ := v &&& (2 ^ 32 - 1 - m)

/-- The low half of a register replaced. -/
def setLow (reg v : ℕ) : ℕ := reg / 2 ^ 16 * 2 ^ 16 + v % 2 ^ 16

theorem setLow_mod (reg v : ℕ) : setLow reg v % 2 ^ 16 = v % 2 ^ 16 := by
  unfold setLow
  omega

theorem testBit_setLow (reg v : ℕ) {i : ℕ} (low : i < 16) : (setLow reg v).testBit i = v.testBit i := by
  have own : (setLow reg v % 2 ^ 16).testBit i = (setLow reg v).testBit i := by
    rw [Nat.testBit_mod_two_pow, decide_eq_true low, Bool.true_and]
  rw [← own, setLow_mod, Nat.testBit_mod_two_pow, decide_eq_true low, Bool.true_and]

/-- A bit is clear once it is cleared. -/
theorem testBit_clear (v : ℕ) {m i : ℕ} (small : m < 2 ^ 32) (set : m.testBit i = true) : (clear v m).testBit i = false := by
  rw [clear, Nat.testBit_and, Nat.sub_sub, Nat.add_comm 1 m, Nat.testBit_two_pow_sub_succ small, set]
  simp

/-- A bit is set once it is set. -/
theorem testBit_or (v : ℕ) {m i : ℕ} (set : m.testBit i = true) : (v ||| m).testBit i = true := by
  rw [Nat.testBit_or, set, Bool.or_true]

namespace Cpu

variable (s : Cpu)

/-- `cr0` bit 0. -/
def Protected : Prop := s.cr0.testBit 0 = true

instance : Decidable s.Protected := inferInstanceAs (Decidable (_ = _))

/-- What a segment register has once a selector is loaded. -/
def loadSeg (old : Seg) (sel : ℕ) : Seg :=
  if s.Protected then gdtSeg s.mem (s.gdtr / 2 ^ 16) sel else ⟨sel, sel * 16, old.big⟩

theorem loadSeg_protected (old : Seg) (sel : ℕ) (on : s.Protected) : s.loadSeg old sel = gdtSeg s.mem (s.gdtr / 2 ^ 16) sel :=
  if_pos on

theorem loadSeg_real (old : Seg) (sel : ℕ) (off : ¬ s.Protected) : s.loadSeg old sel = ⟨sel, sel * 16, old.big⟩ := if_neg off

/-- The same state with other code to execute, and other flags. -/
def jump (cs : Seg) (eip eflags : ℕ) : Cpu := { s with cs := cs, eip := eip, eflags := eflags }

/-! ## The stack -/

/-- The stack pointer: ESP or SP. -/
def sp : ℕ := if s.ss.big then s.esp else s.esp % 2 ^ 16

/-- The width of the stack pointer. -/
def spWidth : ℕ := if s.ss.big then 32 else 16

def setSp (sp : ℕ) : Cpu := { s with esp := if s.ss.big then sp else setLow s.esp sp }

/-- `n` bytes are pushed. -/
def push (n v : ℕ) : Cpu :=
  let sp := Word.sub s.spWidth s.sp n
  { s.setSp sp with mem := s.mem.writeLE (s.ss.base + sp) n v }

@[simp] theorem push_eax (n v : ℕ) : (s.push n v).eax = s.eax := rfl

@[simp] theorem push_ebx (n v : ℕ) : (s.push n v).ebx = s.ebx := rfl

@[simp] theorem push_ecx (n v : ℕ) : (s.push n v).ecx = s.ecx := rfl

@[simp] theorem push_edx (n v : ℕ) : (s.push n v).edx = s.edx := rfl

@[simp] theorem push_esi (n v : ℕ) : (s.push n v).esi = s.esi := rfl

@[simp] theorem push_edi (n v : ℕ) : (s.push n v).edi = s.edi := rfl

@[simp] theorem push_ebp (n v : ℕ) : (s.push n v).ebp = s.ebp := rfl

@[simp] theorem push_cs (n v : ℕ) : (s.push n v).cs = s.cs := rfl

@[simp] theorem push_ds (n v : ℕ) : (s.push n v).ds = s.ds := rfl

@[simp] theorem push_es (n v : ℕ) : (s.push n v).es = s.es := rfl

@[simp] theorem push_fs (n v : ℕ) : (s.push n v).fs = s.fs := rfl

@[simp] theorem push_gs (n v : ℕ) : (s.push n v).gs = s.gs := rfl

@[simp] theorem push_ss (n v : ℕ) : (s.push n v).ss = s.ss := rfl

@[simp] theorem push_eip (n v : ℕ) : (s.push n v).eip = s.eip := rfl

@[simp] theorem push_eflags (n v : ℕ) : (s.push n v).eflags = s.eflags := rfl

@[simp] theorem push_cr0 (n v : ℕ) : (s.push n v).cr0 = s.cr0 := rfl

@[simp] theorem push_gdtr (n v : ℕ) : (s.push n v).gdtr = s.gdtr := rfl

@[simp] theorem jump_eax (cs : Seg) (eip eflags : ℕ) : (s.jump cs eip eflags).eax = s.eax := rfl

@[simp] theorem jump_ecx (cs : Seg) (eip eflags : ℕ) : (s.jump cs eip eflags).ecx = s.ecx := rfl

@[simp] theorem jump_edx (cs : Seg) (eip eflags : ℕ) : (s.jump cs eip eflags).edx = s.edx := rfl

@[simp] theorem jump_ds (cs : Seg) (eip eflags : ℕ) : (s.jump cs eip eflags).ds = s.ds := rfl

@[simp] theorem jump_es (cs : Seg) (eip eflags : ℕ) : (s.jump cs eip eflags).es = s.es := rfl

@[simp] theorem jump_fs (cs : Seg) (eip eflags : ℕ) : (s.jump cs eip eflags).fs = s.fs := rfl

@[simp] theorem jump_gs (cs : Seg) (eip eflags : ℕ) : (s.jump cs eip eflags).gs = s.gs := rfl

@[simp] theorem push_jump (cs : Seg) (eip eflags n v : ℕ) : (s.jump cs eip eflags).push n v = (s.push n v).jump cs eip eflags := rfl

/-- The `n` bytes on top of the stack. -/
def top (n : ℕ) : ℕ := s.mem.readLE (s.ss.base + s.sp) n

/-- The stack without its top `n` bytes. -/
def drop (n : ℕ) : Cpu := s.setSp (Word.add s.spWidth s.sp n)

/-- `n` bytes are popped and put where `set` says. -/
def pop (n : ℕ) (set : Cpu → ℕ → Cpu) : Cpu := set (s.drop n) (s.top n)

/-! ## Interrupts in real mode -/

/-- What an interrupt does with a number: FLAGS, CS and IP are pushed, and the vector of that number gives the handler. -/
def interrupt (n : ℕ) : Cpu :=
  let t := ((s.push 2 s.eflags).push 2 s.cs.sel).push 2 s.eip
  t.jump (t.loadSeg t.cs (t.mem.readLE (4 * n + 2) 2)) (t.mem.readLE (4 * n) 2) (clear t.eflags (flagIf ||| flagTf))

/-- `iret`. -/
def iret : Cpu :=
  let t := s.pop 2 fun t v => { t with eip := v }
  let t := t.pop 2 fun t v => { t with cs := t.loadSeg t.cs v }
  t.pop 2 fun t v => { t with eflags := setLow t.eflags v }

end Cpu

/-! ## Stacks that do not wrap -/

/-- Memory holds some items one after the other, each a number of bytes and a value. -/
def Holds (m : Mem) : ℕ → List (ℕ × ℕ) → Prop
  | _, [] => True
  | a, (n, v) :: items => m.readLE a n = v % 256 ^ n ∧ Holds m (a + n) items

/-- The bytes that some items take. -/
def bytes (items : List (ℕ × ℕ)) : ℕ := (items.map Prod.fst).sum

@[simp] theorem bytes_nil : bytes [] = 0 := rfl

@[simp] theorem bytes_cons (n v : ℕ) (items : List (ℕ × ℕ)) : bytes ((n, v) :: items) = n + bytes items := rfl

/-- Items are kept where memory is. -/
theorem Holds.congr {m m' : Mem} {a : ℕ} {items : List (ℕ × ℕ)} (holds : Holds m a items)
    (same : ∀ x, a ≤ x → x < a + bytes items → m' x = m x) : Holds m' a items := by
  induction items generalizing a with
  | nil => trivial
  | cons item items ih =>
    obtain ⟨n, v⟩ := item
    obtain ⟨first, rest⟩ := holds
    rw [bytes_cons] at same
    refine ⟨(Mem.readLE_congr fun x low high => same x low (by omega)).trans first, ih rest fun x low high => ?_⟩
    exact same x (by omega) (by omega)

namespace Cpu

variable {s : Cpu} {n v : ℕ} {items : List (ℕ × ℕ)}

/-- The items from the top of the stack on. -/
def Stacked (s : Cpu) (items : List (ℕ × ℕ)) : Prop := Holds s.mem (s.ss.base + s.sp) items

theorem sp_le (s : Cpu) : s.sp ≤ s.esp := by
  unfold sp
  split
  · exact le_rfl
  · exact Nat.mod_le ..

theorem sp_mod_four (s : Cpu) : s.sp % 4 = s.esp % 4 := by
  unfold sp
  split
  · rfl
  · omega

theorem sp_lt (word : s.esp < 2 ^ 32) : s.sp < 2 ^ s.spWidth := by
  unfold sp spWidth
  split
  · exact word
  · exact Nat.mod_lt _ (Nat.two_pow_pos 16)

theorem push_eq (word : s.esp < 2 ^ 32) (room : n ≤ s.sp) :
    s.push n v = { s with esp := s.esp - n, mem := s.mem.writeLE (s.ss.base + (s.sp - n)) n v } := by
  have down : Word.sub s.spWidth s.sp n = s.sp - n := Word.sub_of_le room (sp_lt word)
  unfold push
  rw [down]
  unfold setSp sp at *
  rcases big : s.ss.big with _ | _
  · simp only [big, Bool.false_eq_true, if_false] at room ⊢
    congr 1
    unfold setLow
    omega
  · simp

theorem sp_push (word : s.esp < 2 ^ 32) (room : n ≤ s.sp) : (s.push n v).sp = s.sp - n := by
  rw [push_eq word room]
  unfold sp at *
  rcases big : s.ss.big with _ | _
  · simp only [big, Bool.false_eq_true, if_false] at room ⊢
    omega
  · simp

theorem drop_eq (room : s.sp + n < 2 ^ s.spWidth) : s.drop n = { s with esp := s.esp + n } := by
  unfold drop
  rw [Word.add_of_lt room]
  unfold setSp sp spWidth at *
  rcases big : s.ss.big with _ | _
  · simp only [big, Bool.false_eq_true, if_false] at room ⊢
    congr 1
    unfold setLow
    omega
  · simp

theorem sp_drop (room : s.sp + n < 2 ^ s.spWidth) : (s.drop n).sp = s.sp + n := by
  rw [drop_eq room]
  unfold sp spWidth at *
  rcases big : s.ss.big with _ | _
  · simp only [big, Bool.false_eq_true, if_false] at room ⊢
    omega
  · simp

theorem pop_eq (room : s.sp + n < 2 ^ s.spWidth) (set : Cpu → ℕ → Cpu) :
    s.pop n set = set { s with esp := s.esp + n } (s.mem.readLE (s.ss.base + s.sp) n) := by
  rw [pop, drop_eq room, top]

/-- A push puts an item on top, and changes no byte outside it. -/
theorem Stacked.push (stacked : s.Stacked items) (word : s.esp < 2 ^ 32) (room : n ≤ s.sp) :
    (s.push n v).Stacked ((n, v) :: items) := by
  unfold Stacked
  rw [sp_push word room, push_eq word room]
  refine ⟨Mem.readLE_writeLE .., ?_⟩
  dsimp only
  rw [Nat.add_assoc, Nat.sub_add_cancel room]
  exact Holds.congr stacked fun x low _ => Mem.writeLE_of_outside (by omega)

theorem push_frame (word : s.esp < 2 ^ 32) (room : n ≤ s.sp) {x : ℕ}
    (outside : x < s.ss.base + (s.sp - n) ∨ s.ss.base + s.sp ≤ x) : (s.push n v).mem x = s.mem x := by
  rw [push_eq word room]
  exact Mem.writeLE_of_outside (by omega)

/-! ## Runs of pushes and pops -/

/-- Items that were pushed, the last of them first: nothing but the stack pointer and their bytes is changed. -/
structure Pushed (s t : Cpu) (items : List (ℕ × ℕ)) : Prop where
  eq : t = { s with esp := s.esp - bytes items, mem := t.mem }
  sp : t.sp = s.sp - bytes items
  stacked : t.Stacked items
  frame : ∀ x, x < s.ss.base + (s.sp - bytes items) ∨ s.ss.base + s.sp ≤ x → t.mem x = s.mem x

theorem Pushed.nil (s : Cpu) : Pushed s s [] := ⟨rfl, rfl, trivial, fun _ _ => rfl⟩

variable {t : Cpu}

theorem Pushed.push (pushed : Pushed s t items) (n v : ℕ) (word : s.esp < 2 ^ 32) (room : n + bytes items ≤ s.sp) :
    Pushed s (t.push n v) ((n, v) :: items) := by
  obtain ⟨eq, sp, stacked, frame⟩ := pushed
  generalize t.mem = mem at eq frame
  subst eq
  have fits : n ≤ Cpu.sp { s with esp := s.esp - bytes items, mem := mem } := by omega
  have down : ∀ v, v - bytes items - n = v - bytes ((n, v) :: items) := fun v => by rw [bytes_cons, Nat.sub_sub, Nat.add_comm n]
  refine ⟨?_, ?_, stacked.push (by dsimp only; omega) fits, fun x outside => ?_⟩
  · rw [push_eq (by dsimp only; omega) fits]
    dsimp only
    rw [down]
    rfl
  · rw [sp_push (by dsimp only; omega) fits, sp]
    exact down _
  · rw [bytes_cons] at outside
    rw [push_frame (by dsimp only; omega) fits (by rw [sp]; dsimp only; omega)]
    exact frame x (by omega)

/-- There are some items on the stack, and it does not wrap before their end. -/
structure OnStack (s : Cpu) (items : List (ℕ × ℕ)) : Prop where
  stacked : s.Stacked items
  room : s.sp + bytes items < 2 ^ s.spWidth

/-- A pop takes the item on top. -/
theorem OnStack.pop (on : s.OnStack ((n, v) :: items)) (set : Cpu → ℕ → Cpu) :
    s.pop n set = set { s with esp := s.esp + n } (v % 256 ^ n) := by
  have room := on.room
  rw [bytes_cons] at room
  rw [pop_eq (by omega), on.stacked.1]

/-- The stack pointer goes down with ESP. -/
theorem sp_sub (ss : t.ss = s.ss) (esp : t.esp = s.esp - n) (room : n ≤ s.sp) : t.sp = s.sp - n := by
  have below := s.sp_le
  unfold sp at *
  rw [ss, esp]
  split
  · rfl
  · next small =>
    rw [if_neg small] at room
    omega

/-- The stack pointer goes up with ESP. -/
theorem sp_add (ss : t.ss = s.ss) (esp : t.esp = s.esp + n) (room : s.sp + n < 2 ^ s.spWidth) : t.sp = s.sp + n := by
  rw [← sp_drop room, drop_eq room, sp, sp, ss, esp]

/-- The items below are on the stack of each state after the pop. -/
theorem OnStack.rest (on : s.OnStack ((n, v) :: items)) (ss : t.ss = s.ss) (esp : t.esp = s.esp + n) (mem : t.mem = s.mem) :
    t.OnStack items := by
  have room := on.room
  rw [bytes_cons] at room
  have sp : t.sp = s.sp + n := sp_add ss esp (by omega)
  have width : t.spWidth = s.spWidth := by rw [spWidth, spWidth, ss]
  refine ⟨?_, by rw [width]; omega⟩
  rw [Stacked, mem, ss, sp, ← Nat.add_assoc]
  exact on.stacked.2

end Cpu

end Biefircate.X86
