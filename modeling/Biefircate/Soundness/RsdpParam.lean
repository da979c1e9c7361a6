import Biefircate.Lib.Demand
import Biefircate.Model.Stage1.Acpi
import Biefircate.Proofs.Stage1.Bmem

/-! # The boot parameter for the RSDP

`acpi_init` accepts tables only if they pass its checks. The size that it then passes on is that of the XSDT, since
by then `sz` no longer holds the size of the RSDP.
-/

namespace Biefircate.AcpiInit

section

variable (layout : Layout) (mem : Mem) (rsdp : ℕ)

/-- The size of the RSDP. -/
def rsdpLength : ℕ := mem.readLE (rsdp + layout.rsdpLengthAt) 4

/-- The address of the XSDT. -/
def xsdtOf : ℕ := mem.readLE (rsdp + layout.rsdpXsdtAt) 8

/-- The size of the XSDT. -/
def xsdtLength : ℕ := mem.readLE (xsdtOf layout mem rsdp + layout.lengthAt) 4

/-- The RSDP and the XSDT have their signatures, a revision from ACPI 2 on, their least sizes and their sums. -/
structure Checked : Prop where
  rsdpSig : mem.read (rsdp + layout.rsdpSignatureAt) 8 = expectRsdpSig
  revision : 2 ≤ mem.readLE (rsdp + layout.rsdpRevisionAt) 1
  rsdpSize : layout.sizeofXsdp ≤ rsdpLength layout mem rsdp
  shortSum : SumsToZero (mem.read rsdp layout.rsdpLengthAt)
  fullSum : SumsToZero (mem.read rsdp (rsdpLength layout mem rsdp))
  xsdtSig : mem.read (xsdtOf layout mem rsdp + layout.signatureAt) 4 = expectXsdtSig
  xsdtSize : layout.sizeofHeader + 8 ≤ xsdtLength layout mem rsdp
  xsdtSum : SumsToZero (mem.read (xsdtOf layout mem rsdp) (xsdtLength layout mem rsdp))

/-- The addresses of the tables that the XSDT lists. -/
def tabs : List ℕ :=
  (List.range ((xsdtLength layout mem rsdp - layout.sizeofHeader) / 8)).map fun i =>
    mem.readLE (xsdtOf layout mem rsdp + layout.tablesAt + 8 * i) 8

/-- What stage 1 requires of a table that the XSDT lists. -/
structure TabUsable (tab : ℕ) : Prop where
  fadt : mem.read (tab + layout.signatureAt) 4 = fadtSig →
    layout.iapcBootFlagsAt + layout.sizeofIapcBootFlags ≤ mem.readLE (tab + layout.lengthAt) 4 ∧
      mem.readLE (tab + layout.iapcBootFlagsAt) layout.sizeofIapcBootFlags &&& fadtIapcNortc = 0
  madt : mem.read (tab + layout.signatureAt) 4 = madtSig →
    mem.readLE (tab + layout.madtFlagsAt) 4 &&& madtPcatCompat ≠ 0

/-- The tables are rejected, or are in order and one boot parameter is added that says where the RSDP is and its
size. -/
def Meets (s : Stage1) : Prop :=
  (∃ msg, acpiInit layout mem s rsdp = .error (.error msg)) ∨
    ∃ t addr, acpiInit layout mem s rsdp = .ok t ∧ Checked layout mem rsdp ∧
      t.bparms = s.bparms ++ [⟨addr, .rsdp ⟨rsdp, rsdpLength layout mem rsdp⟩⟩]

end

section

variable {layout : Layout} {mem : Mem} {rsdp : ℕ} {s t : Stage1}

/-- `error` ends stage 1. -/
def IsError (stop : Stop) : Prop := ∃ msg, stop = .error msg

theorem acpiProcessFadt_demands (layout : Layout) (mem : Mem) (fadt : ℕ) :
    Demands IsError (layout.iapcBootFlagsAt + layout.sizeofIapcBootFlags ≤ mem.readLE (fadt + layout.lengthAt) 4 ∧
        mem.readLE (fadt + layout.iapcBootFlagsAt) layout.sizeofIapcBootFlags &&& fadtIapcNortc = 0)
      (acpiProcessFadt layout mem fadt) (.ok ()) := by
  apply ((Demands.refl _).check ⟨_, rfl⟩).check ⟨_, rfl⟩ |>.congr
  rw [not_lt, ne_eq, not_not, and_true]

theorem acpiProcessMadt_demands (layout : Layout) (mem : Mem) (madt : ℕ) :
    Demands IsError (mem.readLE (madt + layout.madtFlagsAt) 4 &&& madtPcatCompat ≠ 0)
      (acpiProcessMadt layout mem madt) (.ok ()) :=
  ((Demands.refl _).check ⟨_, rfl⟩).congr (and_true _).symm.to_iff

theorem acpiProcessTab_demands (layout : Layout) (mem : Mem) (xsdt i : ℕ) :
    Demands IsError (TabUsable layout mem (mem.readLE (xsdt + layout.tablesAt + 8 * i) 8))
      (acpiProcessTab layout mem xsdt i) (.ok ()) := by
  unfold acpiProcessTab
  generalize mem.readLE (xsdt + layout.tablesAt + 8 * i) 8 = tab
  have different : fadtSig ≠ madtSig := by decide
  dsimp only
  split
  · next isFadt =>
    refine (acpiProcessFadt_demands layout mem tab).congr ⟨fun usable => usable.fadt isFadt, fun flags => ⟨fun _ => flags, ?_⟩⟩
    exact fun isMadt => absurd (isFadt.symm.trans isMadt) different
  · next notFadt =>
    split
    · next isMadt =>
      exact (acpiProcessMadt_demands layout mem tab).congr
        ⟨fun usable => usable.madt isMadt, fun flags => ⟨fun isFadt => absurd isFadt notFadt, fun _ => flags⟩⟩
    · next notMadt =>
      exact (Demands.refl _).congr
        (iff_of_true ⟨fun isFadt => absurd isFadt notFadt, fun isMadt => absurd isMadt notMadt⟩ trivial)

/-- What the checks in `acpi_init` amount to, and that it then adds a parameter with the size of the XSDT. -/
theorem acpiInit_demands (layout : Layout) (mem : Mem) (rsdp : ℕ) (s : Stage1) :
    Demands IsError (Checked layout mem rsdp ∧ ∀ tab ∈ tabs layout mem rsdp, TabUsable layout mem tab)
      (acpiInit layout mem s rsdp) (bparmAdd s (.rsdp ⟨rsdp, xsdtLength layout mem rsdp⟩)) := by
  have loop := (Demands.all (List.range ((xsdtLength layout mem rsdp - layout.sizeofHeader) / 8))
    (acpiProcessTab_demands layout mem (xsdtOf layout mem rsdp))).andThen
      (Demands.refl (bparmAdd s (.rsdp ⟨rsdp, xsdtLength layout mem rsdp⟩)))
  unfold acpiInit
  dsimp only
  refine .congr (.check ⟨_, rfl⟩ <| .check ⟨_, rfl⟩ <| .check ⟨_, rfl⟩ <| .check ⟨_, rfl⟩ <| .check ⟨_, rfl⟩ <|
    .check ⟨_, rfl⟩ <| .check ⟨_, rfl⟩ loop) ?_
  simp only [not_or, not_lt, ne_eq, not_not, computeCksum_eq_zero_iff, and_true]
  constructor
  · rintro ⟨⟨rsdpSig, revision, rsdpSize, shortSum, fullSum, xsdtSig, xsdtSize, xsdtSum⟩, usable⟩
    exact ⟨rsdpSig, revision, rsdpSize, ⟨shortSum, fullSum⟩, xsdtSig, xsdtSize, xsdtSum, List.forall_mem_map.mp usable⟩
  · rintro ⟨rsdpSig, revision, rsdpSize, ⟨shortSum, fullSum⟩, xsdtSig, xsdtSize, xsdtSum, usable⟩
    exact ⟨⟨rsdpSig, revision, rsdpSize, shortSum, fullSum, xsdtSig, xsdtSize, xsdtSum⟩, List.forall_mem_map.mpr usable⟩

/-- `acpi_init` meets its purpose exactly when the XSDT has the size of the RSDP, or is not accepted, or there is no
room for the parameter. -/
theorem acpiInit_meets_iff (layout : Layout) (mem : Mem) (rsdp : ℕ) (s : Stage1) :
    Meets layout mem rsdp s ↔
      (Checked layout mem rsdp → (∀ tab ∈ tabs layout mem rsdp, TabUsable layout mem tab) →
        s.bmem.HasRoom (sizeofBparm + 12) sizeofPtr → xsdtLength layout mem rsdp = rsdpLength layout mem rsdp) := by
  rcases acpiInit_demands layout mem rsdp s with ⟨⟨checked, usable⟩, ran⟩ | ⟨unacceptable, stop, ⟨msg, rfl⟩, rejected⟩
  · rw [Meets, ran, bparmAdd]
    rcases bmemAllocBoottime_cases s.bmem (sizeofBparm + (Bparm.rsdp ⟨rsdp, xsdtLength layout mem rsdp⟩).size) sizeofPtr with
      ⟨⟨⟨addr, bmem⟩, allocated⟩, room⟩ | ⟨failed, noRoom⟩
    · rw [allocated, ok_bind]
      constructor
      · rintro (⟨msg, stopped⟩ | ⟨t, other, added, -, grown⟩)
        · cases stopped
        · cases added
          simp only [List.append_cancel_left_eq, List.cons.injEq, BparmNode.mk.injEq, Bparm.rsdp.injEq, BdatRsdp.mk.injEq,
            true_and, and_true] at grown
          exact fun _ _ _ => grown.2
      · intro same
        exact .inr ⟨_, addr, rfl, checked, by rw [same checked usable room]⟩
    · rw [failed, error_bind]
      exact iff_of_true (.inl ⟨_, rfl⟩) fun _ _ room => absurd room noRoom
  · exact iff_of_true (.inl ⟨msg, rejected⟩) fun checked usable => absurd ⟨checked, usable⟩ unacceptable

/-- The layout of ACPI 6. -/
def acpiSpec : Layout where
  sizeofHeader := 36
  signatureAt := 0
  lengthAt := 4
  tablesAt := 36
  rsdpSignatureAt := 0
  rsdpXsdtAt := 24
  sizeofTableUnion := 276
  lengthInside := by decide
  typed := by decide
  sizeofXsdp := 36
  rsdpRevisionAt := 15
  rsdpLengthAt := 20
  iapcBootFlagsAt := 109
  sizeofIapcBootFlags := 2

/-- An RSDP of 36 bytes, an XSDT of 44 and the one table it lists. -/
def smallTables : Mem :=
  ((Mem.zero.write 0x7fe0000 (expectRsdpSig ++ toBytes 12 (0xdf + 2 ^ 56 * 2) ++ toBytes 4 36 ++
    toBytes 12 (0x7fe1000 + 2 ^ 64 * 0xc7))).write 0x7fe1000 (expectXsdtSig ++ toBytes 6 (44 + 2 ^ 32 * 0x6b01))).write
      0x7fe1024 (toBytes 8 0x7fe2000)

/-- Base memory right after its initialization. -/
def freshStage1 : Stage1 := ⟨⟨[⟨0x1000, 0x9f000, 0x9f000⟩], 0x1000, 0x9f000, 0xf, []⟩, []⟩

/-- There the size passed on is 44. -/
theorem rsdp_size_replaced : ¬ ∀ (layout : Layout) (mem : Mem) (rsdp : ℕ) (s : Stage1), Meets layout mem rsdp s := by
  intro always
  have evaluated : (fun t => t.bparms) <$> acpiInit acpiSpec smallTables freshStage1 0x7fe0000 =
      .ok [⟨0x1000, .rsdp ⟨0x7fe0000, 44⟩⟩] := by decide +kernel
  obtain ⟨t, ran, added⟩ := map_eq_ok.mp evaluated
  rcases always acpiSpec smallTables 0x7fe0000 freshStage1 with ⟨msg, rejected⟩ | ⟨u, addr, again, -, grown⟩
  · rw [ran] at rejected
    cases rejected
  · rw [ran] at again
    cases again
    rw [added] at grown
    have own : rsdpLength acpiSpec smallTables 0x7fe0000 = 36 := by decide +kernel
    simp [freshStage1, own] at grown

end

end Biefircate.AcpiInit
