import Biefircate.Lib.Slice
import Biefircate.Soundness.AcpiWalk
import Mathlib.Logic.Relation

/-! # The walk over the interrupt controller structures

`acpi_process_madt` goes from structure to structure by length bytes that it does not check, and stops only at
exactly the end of the table. So it is the table that decides whether the walk ends, and whether it stays inside.
-/

namespace Biefircate

/-! ## What the walk inspects -/

/-- One round of the loop of `acpi_process_madt`. -/
def MadtRound (mem : Mem) (madtEnd : ℕ) (before after : AcpiWalk × ℕ) : Prop :=
  before.2 ≠ madtEnd ∧ acpiProcessIc mem before.1 before.2 = .ok after.1 ∧
    ∃ length, after.1.number mem (before.2 + icLengthAt) 1 = .ok length ∧ after.2 = Word.add 32 before.2 length

/-- The loop comes to a structure, which it inspects. -/
def MadtInspects (mem : Mem) (madtEnd : ℕ) (start place : AcpiWalk × ℕ) : Prop :=
  Relation.ReflTransGen (MadtRound mem madtEnd) start place ∧ place.2 ≠ madtEnd

/-- What the loop inspects at `ic` is inside a table: the type and the length, and the address of an I/O APIC. -/
def IcInside (mem : Mem) (madt length : ℕ) (s : AcpiWalk) (ic : ℕ) : Prop :=
  madt ≤ ic ∧ ic + (icLengthAt + 1) ≤ madt + length ∧
    (s.number mem (ic + icTypeAt) 1 = .ok madtIcIoapic → ic + (ioapicPhyAddrAt + 4) ≤ madt + length)

/-- `acpi_process_madt` comes to an end, and inspects only structures inside the table. -/
structure MadtWalked (layout : AcpiLayout) (mem : Mem) (s : AcpiWalk) (madt length : ℕ) : Prop where
  terminates : ∃ rounds t, acpiProcessMadt layout mem rounds s madt = .ok t
  inside : ∀ t ic, MadtInspects mem (Word.add 32 madt length) (s, Word.add 32 madt layout.icsAt) (t, ic) →
    IcInside mem madt length t ic

/-! ## What the table says -/

/-- The bytes of a table in physical memory, as many as its header says. -/
def tableBytes (layout : AcpiLayout) (mem : Mem) (tab64 : ℕ) : List UInt8 :=
  Mem.read (fun a => mem (a % 2 ^ 52)) tab64 (Mem.readLE (fun a => mem (a % 2 ^ 52)) (tab64 + layout.lengthAt) 4)

/-- The length byte of the structure at an offset. -/
def icLength (table : List UInt8) (off : ℕ) : ℕ := number table (off + icLengthAt) 1

/-- The address in the structure at an offset, if it is an I/O APIC. -/
def icIoapics (table : List UInt8) (off : ℕ) : List ℕ :=
  if number table (off + icTypeAt) 1 = madtIcIoapic then [number table (off + ioapicPhyAddrAt) 4] else []

/-- There is room in the table for what the loop inspects at an offset. -/
def IcFits (table : List UInt8) (off : ℕ) : Prop :=
  off + (icLengthAt + 1) ≤ table.length ∧
    (number table (off + icTypeAt) 1 = madtIcIoapic → off + (ioapicPhyAddrAt + 4) ≤ table.length)

/-- The length bytes lead from an offset to exactly the end of the table, past structures that have room in it and
I/O APICs at the given addresses. -/
inductive IcChain (table : List UInt8) : ℕ → List ℕ → Prop
  | stop : IcChain table table.length []
  | next {off : ℕ} {ioapics : List ℕ} (fits : IcFits table off) (rest : IcChain table (off + icLength table off) ioapics) :
      IcChain table off (icIoapics table off ++ ioapics)

/-- What the loop does about an I/O APIC: map its registers, mask its interrupts, unmap them. -/
def AcpiWalk.maskIoapic (s : AcpiWalk) (ioapicPhy : ℕ) : Exec AcpiWalk := do
  let (ioapic, s) ← s.vaMap ioapicPhy sizeofIoapic pteCd
  let s ← s.maskInterrupts ioapic
  s.vaUnmap ioapic sizeofIoapic

theorem IcChain.le {table : List UInt8} {off : ℕ} {ioapics : List ℕ} (chain : IcChain table off ioapics) :
    off ≤ table.length := by
  cases chain with
  | stop => exact le_rfl
  | next fits _ => exact (Nat.le_add_right ..).trans fits.1

/-- A length of 0 leads nowhere. -/
theorem IcChain.positive {table : List UInt8} {off : ℕ} {ioapics : List ℕ} (chain : IcChain table off ioapics)
    (more : off ≠ table.length) : 0 < icLength table off := by
  induction chain with
  | stop => exact absurd rfl more
  | @next off _ _ _ ih =>
    by_contra zero
    have same : off + icLength table off = off := by omega
    rw [same] at ih
    exact zero (ih more)

/-! ## The walk through a mapped table -/

/-- A table is mapped at an address. -/
structure TableAt (mem : Mem) (table : List UInt8) (madt : ℕ) (s : AcpiWalk) : Prop where
  ready : s.va.Ready
  low : 2 ^ 20 ≤ madt
  high : madt + table.length ≤ 2 ^ 32
  reads : ∀ off n, off + n ≤ table.length → s.number mem (madt + off) n = .ok (number table off n)

section

variable {layout : AcpiLayout} {mem : Mem} {s s0 t u : AcpiWalk} {tab64 madt off rounds ic : ℕ} {table : List UInt8}
  {ioapics : List ℕ}

/-- The table stays mapped. -/
theorem TableAt.returned (held : TableAt mem table madt s) (returned : s.Returned t) : TableAt mem table madt t where
  ready := returned.va.ready held.ready
  low := held.low
  high := held.high
  reads off n inside := by rw [returned.number held.ready, held.reads off n inside]

/-- `acpi_map_tab` maps the whole table. -/
theorem acpiMapTab_tableAt (ready : s0.va.Ready) (word : tab64 < 2 ^ 64)
    (mapped : acpiMapTab layout mem s0 tab64 = .ok (madt, s)) : TableAt mem (tableBytes layout mem tab64) madt s ∧
      s.number mem (madt + layout.lengthAt) 4 = .ok (tableBytes layout mem tab64).length := by
  have inUnion := layout.lengthInside
  obtain ⟨length, read, opened⟩ := acpiMapTab_ok ready word mapped
  have large : length ≤ (if length < layout.sizeofTableUnion then layout.sizeofTableUnion else length) ∧
      layout.sizeofTableUnion ≤ (if length < layout.sizeofTableUnion then layout.sizeofTableUnion else length) := by
    split <;> omega
  generalize (if length < layout.sizeofTableUnion then layout.sizeofTableUnion else length) = sz at opened large
  have same : s.number mem (madt + layout.lengthAt) 4 = _ := opened.number ready (show layout.lengthAt + 4 ≤ sz by omega)
  rw [read] at same
  cases same
  obtain ⟨low, high⟩ := opened.placed ready (by omega)
  rw [tableBytes, Mem.read_length]
  refine ⟨⟨opened.ready ready, low, by rw [Mem.read_length]; omega, fun off n inside => ?_⟩, read⟩
  rw [Mem.read_length] at inside
  rw [opened.number ready (by omega), Mem.readLE, number, slice_read _ _ inside]

/-- In a structure that has room in the table, the `switch` sees to an I/O APIC and nothing else. -/
theorem TableAt.acpiProcessIc (held : TableAt mem table madt s) (fits : IcFits table off) :
    acpiProcessIc mem s (madt + off) = Run.run AcpiWalk.maskIoapic s (icIoapics table off) := by
  obtain ⟨header, address⟩ := fits
  rw [icLengthAt] at header
  have type := held.reads (off + icTypeAt) 1 (by rw [icTypeAt]; omega)
  rw [← Nat.add_assoc] at type
  rw [Biefircate.acpiProcessIc, type, ok_bind, icIoapics]
  split
  · next ioapic =>
    have phys := held.reads (off + ioapicPhyAddrAt) 4 (by have := address ioapic; omega)
    rw [← Nat.add_assoc] at phys
    rw [phys, ok_bind, Run.run]
    exact (bind_pure _).symm
  · rfl

theorem maskIoapic_ok {ioapicPhy : ℕ} (ready : s.va.Ready) (word : ioapicPhy < 2 ^ 64)
    (ran : s.maskIoapic ioapicPhy = .ok t) : s.Returned t := by
  obtain ⟨⟨ioapic, s1⟩, mapped, ran⟩ := bind_eq_ok.mp ran
  obtain ⟨s2, masked, unmapped⟩ := bind_eq_ok.mp ran
  have opened := AcpiWalk.Opened.of_vaMap ready word (by decide) (by decide) mapped
  exact opened.close ready (AcpiWalk.maskInterrupts_ok (opened.ready ready) masked) unmapped

/-- The addresses of the I/O APICs are 32 bits. -/
theorem icIoapics_lt {ioapicPhy : ℕ} (member : ioapicPhy ∈ icIoapics table off) : ioapicPhy < 2 ^ 32 := by
  unfold icIoapics at member
  split at member
  · rw [List.mem_singleton.mp member]
    exact number_lt ..
  · cases member

theorem TableAt.masked (held : TableAt mem table madt s)
    (ran : Run.run AcpiWalk.maskIoapic s (icIoapics table off) = .ok t) : s.Returned t := by
  apply Run.run_invariant s.Returned _ (.refl held.ready) ran
  intro u ioapicPhy v member returned stepped
  have word := icIoapics_lt member
  exact returned.trans (maskIoapic_ok (returned.va.ready held.ready) (by omega) stepped)

/-- An offset in the table as an address. -/
theorem TableAt.address (held : TableAt mem table madt s) (inside : off < table.length) :
    Word.add 32 madt off = madt + off ∧ madt + off ≠ Word.add 32 madt table.length := by
  have low := held.low
  have high := held.high
  rw [Word.add, Word.add]
  omega

theorem icLength_lt (table : List UInt8) (off : ℕ) : icLength table off < 256 := number_lt table (off + icLengthAt) 1

/-- What one round does at a structure that has room in the table. -/
theorem TableAt.round_iff (held : TableAt mem table madt s) (fits : IcFits table off) :
    MadtRound mem (Word.add 32 madt table.length) (s, Word.add 32 madt off) (t, ic) ↔
      Run.run AcpiWalk.maskIoapic s (icIoapics table off) = .ok t ∧ ic = Word.add 32 madt (off + icLength table off) := by
  have header := fits.1
  rw [icLengthAt] at header
  obtain ⟨address, more⟩ := held.address (show off < table.length by omega)
  have next : Word.add 32 (madt + off) (icLength table off) = Word.add 32 madt (off + icLength table off) := by
    rw [Word.add, Word.add, Nat.add_assoc]
  rw [MadtRound, address, held.acpiProcessIc fits]
  constructor
  · rintro ⟨_, ran, length, read, rfl⟩
    have again := (held.returned (held.masked ran)).reads (off + icLengthAt) 1 (by rw [icLengthAt]; omega)
    rw [← Nat.add_assoc] at again
    cases read.symm.trans again
    exact ⟨ran, next⟩
  · rintro ⟨ran, rfl⟩
    have read := (held.returned (held.masked ran)).reads (off + icLengthAt) 1 (by rw [icLengthAt]; omega)
    rw [← Nat.add_assoc] at read
    exact ⟨more, ran, _, read, next.symm⟩

/-- The loop of `acpi_process_madt` goes round by round. -/
theorem acpiProcessMadtFrom_succ_iff {madtEnd : ℕ} : acpiProcessMadtFrom mem madtEnd (rounds + 1) s ic = .ok u ↔
    ic = madtEnd ∧ s = u ∨ ∃ next, MadtRound mem madtEnd (s, ic) next ∧
      acpiProcessMadtFrom mem madtEnd rounds next.1 next.2 = .ok u := by
  rw [acpiProcessMadtFrom]
  split
  · next done =>
    simp [MadtRound, done]
  · next more =>
    simp only [bind_eq_ok, MadtRound, more, false_and, false_or, ne_eq, not_false_eq_true, true_and, Prod.exists]
    constructor
    · rintro ⟨t, processed, length, read, ran⟩
      exact ⟨t, _, ⟨processed, length, read, rfl⟩, ran⟩
    · rintro ⟨t, _, ⟨processed, length, read, rfl⟩, ran⟩
      exact ⟨t, processed, length, read, ran⟩

/-- A walk that ends and stays inside follows a chain. -/
theorem IcChain.of_walk (held : TableAt mem table madt s) (bound : off ≤ table.length)
    (inside : ∀ t ic, MadtInspects mem (Word.add 32 madt table.length) (s, Word.add 32 madt off) (t, ic) →
      IcInside mem madt table.length t ic)
    (ran : acpiProcessMadtFrom mem (Word.add 32 madt table.length) rounds s (Word.add 32 madt off) = .ok u) :
    ∃ ioapics, IcChain table off ioapics ∧ Run.run AcpiWalk.maskIoapic s ioapics = .ok u := by
  induction rounds generalizing s off with
  | zero => cases ran
  | succ rounds ih =>
    rcases Nat.eq_or_lt_of_le bound with rfl | more
    · obtain ⟨_, rfl⟩ | ⟨_, ⟨more, _⟩, _⟩ := acpiProcessMadtFrom_succ_iff.mp ran
      · exact ⟨[], .stop, rfl⟩
      · exact absurd rfl more
    · obtain ⟨address, apart⟩ := held.address more
      have here := inside s _ ⟨.refl, by rwa [address]⟩
      rw [address] at here
      obtain ⟨_, header, ioapic⟩ := here
      have fits : IcFits table off := by
        refine ⟨by omega, fun type => ?_⟩
        have read := held.reads (off + icTypeAt) 1 (by rw [icLengthAt] at header; rw [icTypeAt]; omega)
        rw [← Nat.add_assoc, type] at read
        have := ioapic read
        omega
      obtain ⟨done, _⟩ | ⟨⟨t, ic⟩, round, ran⟩ := acpiProcessMadtFrom_succ_iff.mp ran
      · exact absurd (address.symm.trans done) apart
      · obtain ⟨masked, rfl⟩ := (held.round_iff fits).mp round
        have next := held.returned (held.masked masked)
        -- The next structure is inside the table too, or there is none.
        have bound : off + icLength table off ≤ table.length := by
          have low := held.low
          have high := held.high
          have short := icLength_lt table off
          by_cases last : Word.add 32 madt (off + icLength table off) = Word.add 32 madt table.length
          · rw [Word.add, Word.add] at last
            omega
          · obtain ⟨above, below, _⟩ := inside t _ ⟨.single round, last⟩
            rw [Word.add] at above below
            omega
        obtain ⟨ioapics, chain, served⟩ :=
          ih next bound (fun t ic inspects => inside t ic ⟨.head round inspects.1, inspects.2⟩) ran
        refine ⟨icIoapics table off ++ ioapics, .next fits chain, ?_⟩
        rw [Run.run_append, masked]
        exact served

/-- Along a chain, all that is inspected is inside. -/
theorem IcChain.inside (chain : IcChain table off ioapics) (held : TableAt mem table madt s)
    (inspects : MadtInspects mem (Word.add 32 madt table.length) (s, Word.add 32 madt off) (t, ic)) :
    IcInside mem madt table.length t ic := by
  induction chain generalizing s with
  | stop =>
    obtain ⟨reached, more⟩ := inspects
    rcases reached.cases_head with same | ⟨_, ⟨again, _⟩, _⟩
    · cases same
      exact absurd rfl more
    · exact absurd rfl again
  | @next off _ fits _ ih =>
    obtain ⟨reached, more⟩ := inspects
    have header := fits.1
    rw [icLengthAt] at header
    rcases reached.cases_head with same | ⟨⟨middle, place⟩, round, later⟩
    · cases same
      rw [(held.address (show off < table.length by omega)).1]
      refine ⟨Nat.le_add_right .., by rw [icLengthAt]; omega, fun type => ?_⟩
      have read := held.reads (off + icTypeAt) 1 (by rw [icTypeAt]; omega)
      rw [← Nat.add_assoc, type] at read
      have room := fits.2 (Except.ok.inj read).symm
      omega
    · obtain ⟨masked, rfl⟩ := (held.round_iff fits).mp round
      exact ih (held.returned (held.masked masked)) ⟨later, more⟩

/-- Along a chain the walk ends, if each I/O APIC can be mapped in its turn. -/
theorem IcChain.terminates (chain : IcChain table off ioapics) (held : TableAt mem table madt s)
    (served : Run.run AcpiWalk.maskIoapic s ioapics = .ok u) : ∃ rounds,
      acpiProcessMadtFrom mem (Word.add 32 madt table.length) rounds s (Word.add 32 madt off) = .ok u := by
  induction chain generalizing s with
  | stop =>
    cases served
    exact ⟨1, acpiProcessMadtFrom_succ_iff.mpr (.inl ⟨rfl, rfl⟩)⟩
  | next fits _ ih =>
    obtain ⟨middle, masked, served⟩ := Run.run_append_eq_ok.mp served
    obtain ⟨rounds, ran⟩ := ih (held.returned (held.masked masked)) served
    exact ⟨rounds + 1, acpiProcessMadtFrom_succ_iff.mpr (.inr ⟨_, (held.round_iff fits).mpr ⟨masked, rfl⟩, ran⟩)⟩

/-- After the fixed part, the walk is the loop. -/
theorem TableAt.acpiProcessMadt (length : s.number mem (madt + layout.lengthAt) 4 = .ok table.length) :
    acpiProcessMadt layout mem rounds s madt =
      acpiProcessMadtFrom mem (Word.add 32 madt table.length) rounds s (Word.add 32 madt layout.icsAt) := by
  rw [Biefircate.acpiProcessMadt, length]
  rfl

/-- A walk that ends and stays inside follows a chain from the end of the fixed part. -/
theorem MadtWalked.chain (ready : s0.va.Ready) (word : tab64 < 2 ^ 64)
    (mapped : acpiMapTab layout mem s0 tab64 = .ok (madt, s))
    (fixed : layout.icsAt ≤ (tableBytes layout mem tab64).length)
    (walked : MadtWalked layout mem s madt (tableBytes layout mem tab64).length) :
    ∃ ioapics, IcChain (tableBytes layout mem tab64) layout.icsAt ioapics ∧
      ∃ t, Run.run AcpiWalk.maskIoapic s ioapics = .ok t := by
  obtain ⟨held, length⟩ := acpiMapTab_tableAt ready word mapped
  obtain ⟨rounds, t, ran⟩ := walked.terminates
  rw [TableAt.acpiProcessMadt length] at ran
  obtain ⟨ioapics, chain, served⟩ := IcChain.of_walk held fixed walked.inside ran
  exact ⟨ioapics, chain, t, served⟩

/-- The walk through a mapped MADT ends and stays inside the table if and only if the length bytes lead to exactly
the end of the table, with room for each structure on the way, and each I/O APIC can be mapped in its turn. -/
theorem acpiProcessMadt_walked_iff (ready : s0.va.Ready) (word : tab64 < 2 ^ 64)
    (mapped : acpiMapTab layout mem s0 tab64 = .ok (madt, s))
    (fixed : layout.icsAt ≤ (tableBytes layout mem tab64).length) :
    MadtWalked layout mem s madt (tableBytes layout mem tab64).length ↔
      ∃ ioapics, IcChain (tableBytes layout mem tab64) layout.icsAt ioapics ∧
        ∃ t, Run.run AcpiWalk.maskIoapic s ioapics = .ok t := by
  constructor
  · exact MadtWalked.chain ready word mapped fixed
  · rintro ⟨ioapics, chain, t, served⟩
    obtain ⟨held, length⟩ := acpiMapTab_tableAt ready word mapped
    obtain ⟨rounds, ran⟩ := chain.terminates held served
    exact ⟨⟨rounds, t, by rwa [TableAt.acpiProcessMadt length]⟩, fun _ _ => chain.inside held⟩

end

theorem acpiProcessMadt_walked_sample : ∃ start madt s, memInit acpiParams.nodes (fun _ => 0) 0 = .ok start ∧
    acpiMapTab acpiSpec acpiTables ⟨start, [], fun _ _ => 0⟩ 0x3103f80 = .ok (madt, s) ∧
      MadtWalked acpiSpec acpiTables s madt 56 := by
  have evaluated : (memInit acpiParams.nodes (fun _ => 0) 0 >>= fun start =>
      acpiMapTab acpiSpec acpiTables ⟨start, [], fun _ _ => 0⟩ 0x3103f80 >>= fun mapped =>
        Run.run AcpiWalk.maskIoapic mapped.2 [0xfec00000]).isOk = true := by decide +kernel
  obtain ⟨t, ran⟩ := exists_of_isOk evaluated
  obtain ⟨start, started, ran⟩ := bind_eq_ok.mp ran
  obtain ⟨⟨madt, s⟩, mapped, served⟩ := bind_eq_ok.mp ran
  have ready := (memInit_ok (by decide) (by decide) started).ready
  have length : (tableBytes acpiSpec acpiTables 0x3103f80).length = 56 := by decide +kernel
  have ioapic : icIoapics (tableBytes acpiSpec acpiTables 0x3103f80) 44 ++ [] = [0xfec00000] := by decide +kernel
  have only : 44 + icLength (tableBytes acpiSpec acpiTables 0x3103f80) 44 =
      (tableBytes acpiSpec acpiTables 0x3103f80).length := by decide +kernel
  have fits : IcFits (tableBytes acpiSpec acpiTables 0x3103f80) 44 := by
    rw [IcFits, length]
    exact ⟨by decide, fun _ => by decide⟩
  have rest : IcChain (tableBytes acpiSpec acpiTables 0x3103f80)
      (44 + icLength (tableBytes acpiSpec acpiTables 0x3103f80) 44) [] := by
    rw [only]
    exact .stop
  have chain := IcChain.next fits rest
  rw [ioapic] at chain
  have walked := (acpiProcessMadt_walked_iff ready (by decide) mapped (length ▸ by decide)).mpr ⟨_, chain, t, served⟩
  rw [length] at walked
  exact ⟨start, madt, s, started, mapped, walked⟩

/-- A MADT with one structure, of length 0. -/
def zeroLengthMadt : Mem := Mem.zero.write 0x3103f80 (madtSig ++ toBytes 4 46)

/-- The walk never ends. -/
theorem zeroLengthMadt_not_walked : ∃ start madt s, memInit acpiParams.nodes (fun _ => 0) 0 = .ok start ∧
    acpiMapTab acpiSpec zeroLengthMadt ⟨start, [], fun _ _ => 0⟩ 0x3103f80 = .ok (madt, s) ∧
      (tableBytes acpiSpec zeroLengthMadt 0x3103f80).length = 46 ∧ ¬ MadtWalked acpiSpec zeroLengthMadt s madt 46 := by
  have evaluated : (memInit acpiParams.nodes (fun _ => 0) 0 >>= fun start =>
      acpiMapTab acpiSpec zeroLengthMadt ⟨start, [], fun _ _ => 0⟩ 0x3103f80).isOk = true := by decide +kernel
  obtain ⟨⟨madt, s⟩, ran⟩ := exists_of_isOk evaluated
  obtain ⟨start, started, mapped⟩ := bind_eq_ok.mp ran
  have ready := (memInit_ok (by decide) (by decide) started).ready
  have length : (tableBytes acpiSpec zeroLengthMadt 0x3103f80).length = 46 := by decide +kernel
  refine ⟨start, madt, s, started, mapped, length, fun walked => ?_⟩
  rw [← length] at walked
  obtain ⟨_, chain, _⟩ := walked.chain ready (by decide) mapped (length ▸ by decide)
  have zero : icLength (tableBytes acpiSpec zeroLengthMadt 0x3103f80) acpiSpec.icsAt = 0 := by decide +kernel
  have positive := chain.positive (length ▸ by decide)
  exact absurd zero (Nat.ne_of_gt positive)

end Biefircate
