import Biefircate.Model.Stage1.Main
import Biefircate.Model.Stage2.Main
import Biefircate.Soundness.BaseMemory
import Biefircate.Soundness.FvInit
import Biefircate.Soundness.ProcessPci

/-! # Stage 1 as a whole

What `efi_main` does to base memory and to the boot parameters is a run of stage 1: the ACPI tables are checked and passed on,
then every general device with what was found for it. Stage 2 reads these parameters to call the option ROMs, those of the
display controllers first.
-/

namespace Biefircate.Pci

/-- The operations for a device, with images that the places have for it. -/
def DeviceOps (places : RimgPlaces) (device : PciIo × ℕ) (ops : List Stage1Op) : Prop :=
  ∃ found, HaveFor places device.1 found ∧
    ops = Biefircate.processOnePciIo device.1.locn device.1.pciId device.1.classIf found

section

variable {places : RimgPlaces} {st out : ProcessPci} {handles : List (Option PciIo × ℕ)}

theorem DeviceOps.valid {device : PciIo × ℕ} {ops : List Stage1Op} (those : DeviceOps places device ops) :
    ∀ op ∈ ops, op.Valid := by
  obtain ⟨found, -, rfl⟩ := those
  simp [Biefircate.processOnePciIo, Stage1Op.Valid]

/-- The loop over the handles is a run of the operations for the general devices among them. -/
theorem processHandles_ops (ran : Run.run (processHandle places) st handles = .ok out) :
    ∃ ops, Run.Gathered (DeviceOps places) (generals handles) ops ∧
      Run.run Stage1.step st.stage1 ops = .ok out.stage1 := by
  induction handles generalizing st with
  | nil =>
    cases ran
    exact ⟨[], .nil, rfl⟩
  | cons handle handles ih =>
    obtain ⟨next, stepped, ran⟩ := Run.run_cons_eq_ok.mp ran
    obtain ⟨more, gathers, after⟩ := ih ran
    obtain ⟨io, got, stepped⟩ := bind_eq_ok.mp stepped
    obtain ⟨result, processed, done⟩ := bind_eq_ok.mp stepped
    cases done
    have here : handle = (some io, handle.2) := Prod.ext (answered_eq_ok got) rfl
    rcases processOnePciIo_ok processed with ⟨special, rfl⟩ | ⟨general, found, have_, ranOps, -, -⟩
    · have skipped : generals (handle :: handles) = generals handles := by
        rw [here]
        simp [generals, special]
      exact ⟨more, skipped ▸ gathers, after⟩
    · have first : generals (handle :: handles) = (io, handle.2) :: generals handles := by
        rw [here]
        simp [generals, general]
      exact ⟨_, first ▸ gathers.cons ⟨found, have_, rfl⟩, Run.run_append_eq_ok.mpr ⟨_, ranOps, after⟩⟩

end

end Biefircate.Pci

namespace Biefircate.Main

/-! ## The ACPI tables -/

/-- `memcmp` compares as many bytes as there are. -/
theorem memcmp_eq_zero_iff {s1 s2 : List UInt8} (same : s1.length = s2.length) : memcmp s1 s2 = 0 ↔ s1 = s2 := by
  induction s1 generalizing s2 with
  | nil =>
    obtain rfl := List.length_eq_zero_iff.mp same.symm
    exact iff_of_true rfl rfl
  | cons c1 s1 ih =>
    cases s2 with
    | nil => cases same
    | cons c2 s2 =>
      rw [memcmp]
      split
      · next below => exact iff_of_false (by decide) fun equal => UInt8.ne_of_lt below (List.cons.inj equal).1
      · next above =>
        split
        · next below => exact iff_of_false (by decide) fun equal => UInt8.ne_of_lt below (List.cons.inj equal).1.symm
        · next below =>
          obtain rfl := UInt8.le_antisymm (UInt8.not_lt.mp below) (UInt8.not_lt.mp above)
          rw [ih (Nat.succ.inj same), List.cons.injEq, and_iff_right rfl]

/-- The address is that of the last table that the firmware has under the GUID of ACPI 2.0. -/
def IsLastAcpi20 (tables : List ConfigurationTable) (addr : ℕ) : Prop :=
  ∃ before after, tables = before ++ ⟨acpi20TableGuid, addr⟩ :: after ∧ ∀ cft ∈ after, cft.vendorGuid ≠ acpi20TableGuid

theorem matchTable_eq (rsdp : ℕ) (cft : ConfigurationTable) :
    matchTable rsdp cft = if cft.vendorGuid = acpi20TableGuid then cft.vendorTable else rsdp := by
  have same : cft.vendorGuid.toList.length = acpi20TableGuid.toList.length := by
    rw [Vector.length_toList, Vector.length_toList]
  rw [matchTable]
  simp only [memcmp_eq_zero_iff same, Vector.toList_inj]

/-- The loop over the tables ends with the last one under that GUID. -/
theorem foldl_matchTable {tables : List ConfigurationTable} (found : tables.foldl matchTable 0 ≠ 0) :
    IsLastAcpi20 tables (tables.foldl matchTable 0) := by
  induction tables using List.reverseRecOn with
  | nil => exact absurd rfl found
  | append_singleton tables cft ih =>
    rw [List.foldl_append, List.foldl_cons, List.foldl_nil, matchTable_eq] at found ⊢
    split at found
    · next same =>
      rw [if_pos same]
      exact ⟨tables, [], by rw [← same], List.forall_mem_nil _⟩
    · next other =>
      rw [if_neg other]
      obtain ⟨before, after, parts, later⟩ := ih found
      refine ⟨before, after ++ [cft], ?_, ?_⟩
      · rw [← List.cons_append, ← List.append_assoc, ← parts]
      · intro last member
        rcases List.mem_append.mp member with old | new
        · exact later last old
        · rwa [List.mem_singleton.mp new]

/-- The root of the ACPI tables: the last one that the firmware has, which is accepted with all that it lists. -/
structure AcpiRoot {γ : Type} (fw : Firmware γ) (rsdp : ℕ) : Prop where
  isLast : IsLastAcpi20 fw.configurationTable rsdp
  checked : AcpiInit.Checked fw.acpiLayout fw.mem rsdp
  usable : ∀ tab ∈ AcpiInit.tabs fw.acpiLayout fw.mem rsdp, AcpiInit.TabUsable fw.acpiLayout fw.mem tab

/-! ## The run -/

/-- What `fake_mp_table` allocates. -/
def mpOps (xv6Compat : Bool) : List Stage1Op :=
  if xv6Compat then [.bmem ⟨.boottime, sizeofMpBundle, paraSize⟩] else []

/-- The operations that `efi_main` performs, given what the firmware has. -/
def Ops {γ : Type} (fw : Firmware γ) (xv6Compat : Bool) (ops : List Stage1Op) : Prop :=
  ∃ rsdp fvs pciOps, AcpiRoot fw rsdp ∧ fvInit fw.pool fw.volumes FvCache.empty = .ok fvs ∧
    Run.Gathered (Pci.DeviceOps ⟨fvs, fw.copyAddr, fw.c0000⟩) (Pci.generals fw.pciIos.zipIdx) pciOps ∧
      ops = .addRsdp ⟨rsdp, AcpiInit.xsdtLength fw.acpiLayout fw.mem rsdp⟩ :: pciOps ++ mpOps xv6Compat

section

variable {γ : Type} {fw : Firmware γ} {xv6Compat : Bool} {s t : Stage1} {out : HandOver}

theorem processEfiConfTables_ok (ran : processEfiConfTables fw s = .ok t) :
    ∃ rsdp, AcpiRoot fw rsdp ∧ s.step (.addRsdp ⟨rsdp, AcpiInit.xsdtLength fw.acpiLayout fw.mem rsdp⟩) = .ok t := by
  unfold processEfiConfTables at ran
  obtain ⟨found, ran⟩ := ite_error_eq_ok.mp ran
  refine ⟨fw.configurationTable.foldl matchTable 0, ?_⟩
  rcases AcpiInit.acpiInit_demands fw.acpiLayout fw.mem (fw.configurationTable.foldl matchTable 0) s with
    ⟨⟨checked, usable⟩, added⟩ | ⟨-, stop, -, rejected⟩
  · exact ⟨⟨foldl_matchTable found, checked, usable⟩, added.symm.trans ran⟩
  · rw [rejected] at ran
    cases ran

theorem fakeMp_ok {tempEbdaSeg : UInt16} (ran : fakeMp fw xv6Compat s = .ok (t, tempEbdaSeg)) :
    Run.run Stage1.step s (mpOps xv6Compat) = .ok t ∧ t.bparms = s.bparms := by
  cases xv6Compat with
  | false =>
    cases ran
    exact ⟨rfl, rfl⟩
  | true =>
    obtain ⟨placed, tables, done⟩ := bind_eq_ok.mp ran
    cases done
    obtain ⟨⟨u, bmem⟩, allocated, done⟩ := bind_eq_ok.mp tables
    cases done
    refine ⟨Run.run_cons_eq_ok.mpr ⟨_, ?_, rfl⟩, rfl⟩
    have stepped : s.bmem.step ⟨.boottime, sizeofMpBundle, paraSize⟩ = .ok bmem := map_eq_ok.mpr ⟨_, allocated, rfl⟩
    rw [Stage1.step, stepped]
    rfl

theorem Ops.valid {ops : List Stage1Op} (those : Ops fw xv6Compat ops) : ∀ op ∈ ops, op.Valid := by
  obtain ⟨rsdp, fvs, pciOps, -, -, gathers, rfl⟩ := those
  intro op member
  rcases List.mem_cons.mp member with rfl | member
  · trivial
  rcases List.mem_append.mp member with device | mp
  · exact gathers.forall_mem (fun _ _ => Pci.DeviceOps.valid) op device
  · cases xv6Compat with
    | false => cases mp
    | true =>
      obtain rfl := List.mem_singleton.mp mp
      exact ⟨4, by decide, rfl⟩

/-- The steps of `efi_main`, the run that they make up, and what is among the parameters by the time of the hand-over. -/
theorem efiMain_ok (ran : efiMain fw xv6Compat = .ok out) : ∃ bmem ops last places root rsdp pci,
    bmemInit fw.granted fw.initDescs = .ok bmem ∧ Ops fw xv6Compat ops ∧ Run.run Stage1.step ⟨bmem, []⟩ ops = .ok last ∧
      root.bparms.map BparmNode.bp = [.rsdp rsdp] ∧ Pci.processPci places fw.pciIos root = .ok pci ∧
        last.bparms = pci.stage1.bparms ∧ prepareToHandOver last fw.descs = .ok out.pci.stage1 := by
  obtain ⟨bmem, init, ran⟩ := bind_eq_ok.mp ran
  obtain ⟨fvs, gathered, ran⟩ := bind_eq_ok.mp ran
  obtain ⟨root, tables, ran⟩ := bind_eq_ok.mp ran
  obtain ⟨pci, devices, ran⟩ := bind_eq_ok.mp ran
  obtain ⟨⟨last, tempEbdaSeg⟩, placed, ran⟩ := bind_eq_ok.mp ran
  obtain ⟨final, handed, done⟩ := bind_eq_ok.mp ran
  cases done
  obtain ⟨rsdp, accepted, added⟩ := processEfiConfTables_ok tables
  obtain ⟨-, looped, -⟩ := Pci.processPci_ok devices
  obtain ⟨pciOps, gathers, ranPci⟩ := Pci.processHandles_ops looped
  obtain ⟨ranMp, same⟩ := fakeMp_ok placed
  refine ⟨bmem, _, last, _, root, ⟨rsdp, AcpiInit.xsdtLength fw.acpiLayout fw.mem rsdp⟩, pci, init, ⟨rsdp, fvs, pciOps, accepted, gathered, gathers, rfl⟩, ?_, ?_, devices, same, handed⟩
  · rw [List.cons_append]
    exact Run.run_cons_eq_ok.mpr ⟨root, added, Run.run_append_eq_ok.mpr ⟨pci.stage1, ranPci, ranMp⟩⟩
  · obtain ⟨⟨addr, after⟩, -, done⟩ := bind_eq_ok.mp added
    cases done
    rfl

/-- What `efi_main` hands over is left by a run of stage 1, of operations that the firmware's tables and devices determine, up
to which image is found for a device if any. -/
theorem efiMain_refines (ran : efiMain fw xv6Compat = .ok out) : ∃ ops, Ops fw xv6Compat ops ∧ (∀ op ∈ ops, op.Valid) ∧
    stage1 fw.granted fw.initDescs ops fw.descs = .ok out.pci.stage1 := by
  obtain ⟨bmem, ops, last, -, -, -, -, init, those, ranOps, -, -, -, handed⟩ := efiMain_ok ran
  refine ⟨ops, those, those.valid, ?_⟩
  rw [stage1, init, ok_bind]
  exact bind_eq_ok.mpr ⟨last, ranOps, handed⟩

/-! ## The option ROMs that stage 2 calls -/

/-- The call that initializes the option ROM of a device: its entry point, with the location of the device and the segment where
the image will be at run time. -/
def romCall (bd : BdatPciDev) : Rm16Call := ⟨bd.pciLocn, 0, 0, bd.rimgRtSeg, mkFp16 bd.rimgSeg 3⟩

/-- The device has an image, and is a display controller or is none. -/
def HasRom (initVga : Bool) (bd : BdatPciDev) : Prop := bd.rimgSeg ≠ 0 ∧ (Pci.IsVga bd.classIf ↔ initVga = true)

instance (initVga : Bool) : DecidablePred (HasRom initVga) := fun _ => inferInstanceAs (Decidable (_ ∧ _))

/-- The calls for the devices that have an image, among the display controllers or among the others. -/
def romCalls (bds : List BdatPciDev) (initVga : Bool) : List Rm16Call := (bds.filter (HasRom initVga)).map romCall

theorem rimgInitBparm_pcid (initVga : Bool) (bd : BdatPciDev) : rimgInitBparm initVga (.pcid bd) =
    if HasRom initVga bd then some (romCall bd) else none := by
  rw [rimgInitBparm]
  rcases Decidable.em (Pci.IsVga bd.classIf) with isVga | other
  · cases initVga <;> simp [HasRom, isVga, romCall]
  · cases initVga <;> simp [HasRom, other, romCall]

/-- Only the parameters for devices matter. -/
theorem rimgInit_eq {first last : List Bparm} {bds : List BdatPciDev} (initVga : Bool)
    (noneFirst : ∀ bp ∈ first, ∀ bd, bp ≠ .pcid bd) (noneLast : ∀ bp ∈ last, ∀ bd, bp ≠ .pcid bd) :
    rimgInit (first ++ bds.map .pcid ++ last) initVga = romCalls bds initVga := by
  have skipped : ∀ {bps : List Bparm}, (∀ bp ∈ bps, ∀ bd, bp ≠ .pcid bd) → bps.filterMap (rimgInitBparm initVga) = [] := by
    intro bps none
    rw [List.filterMap_eq_nil_iff]
    intro bp member
    cases bp with
    | pcid bd => exact absurd rfl (none _ member bd)
    | bmem _ => rfl
    | mrng _ => rfl
    | rsdp _ => rfl
  rw [rimgInit, List.filterMap_append, List.filterMap_append, skipped noneFirst, skipped noneLast, List.nil_append,
    List.append_nil, romCalls]
  induction bds with
  | nil => rfl
  | cons bd bds ih =>
    rw [List.map_cons]
    rcases Decidable.em (HasRom initVga bd) with here | skip
    · rw [List.filterMap_cons_some ((rimgInitBparm_pcid initVga bd).trans (if_pos here)), ih,
        List.filter_cons_of_pos (p := (HasRom initVga ·)) (decide_eq_true here), List.map_cons]
    · rw [List.filterMap_cons_none ((rimgInitBparm_pcid initVga bd).trans (if_neg skip)), ih,
        List.filter_cons_of_neg (p := (HasRom initVga ·)) (fun here => skip (of_decide_eq_true here))]

/-- The parameters of some devices. -/
def AreFor (devices : List (Pci.PciIo × ℕ)) (bds : List BdatPciDev) : Prop :=
  List.Forall₂ (fun device => Pci.SameDevice ⟨device.1.locn, device.1.pciId, device.1.classIf, 0, 0, 0⟩) devices bds

theorem areFor_of_describes {devices : List (Pci.PciIo × ℕ)} {added : List BparmNode}
    (describes : List.Forall₂ Pci.Describes devices added) :
    ∃ bds, added.map BparmNode.bp = bds.map .pcid ∧ AreFor devices bds := by
  induction describes with
  | nil => exact ⟨[], rfl, .nil⟩
  | cons first _ ih =>
    obtain ⟨bd, here, same⟩ := first
    obtain ⟨bds, rest, sames⟩ := ih
    exact ⟨bd :: bds, by rw [List.map_cons, List.map_cons, here, rest], .cons same sames⟩

theorem AreFor.at_ {devices before after : List (Pci.PciIo × ℕ)} {device : Pci.PciIo × ℕ} {bds : List BdatPciDev} {bd : BdatPciDev}
    (areFor : AreFor devices bds) (parts : devices = before ++ device :: after) (present : bds[before.length]? = some bd) :
    Pci.SameDevice ⟨device.1.locn, device.1.pciId, device.1.classIf, 0, 0, 0⟩ bd := by
  obtain ⟨inside, rfl⟩ := List.getElem?_eq_some_iff.mp present
  have each := (List.forall₂_iff_get.mp areFor).2 before.length (by simp [parts]) inside
  simpa [parts] using each

end

/-- A firmware with two entries for its ACPI tables, two volumes and four PCI devices. -/
def sampleFirmware : Firmware ℕ where
  granted := sampleGranted
  initDescs := sampleDescs
  descs := sampleDescs
  pool _ := true
  copyAddr n := 0x7e00000 + 0x1000 * n
  volumes := sampleHandles
  configurationTable := [⟨acpi20TableGuid, 0xf0000⟩, ⟨acpi20TableGuid, 0x7fe0000⟩, ⟨Vector.replicate 16 0, 0x7ff0000⟩]
  acpiLayout := AcpiInit.acpiSpec
  mem := AcpiInit.smallTables
  pciIos := Pci.sampleIos
  c0000 := []
  mpRegs := ⟨fun _ => 0xfee00900, fun _ => 0, fun _ => (0, 0), fun _ => 0⟩

theorem efiMain_refines_sample : ∃ out : HandOver, ∃ ops, Ops sampleFirmware true ops ∧ (∀ op ∈ ops, op.Valid) ∧
    stage1 sampleGranted sampleDescs ops sampleDescs = .ok out.pci.stage1 := by
  have returns : (efiMain sampleFirmware true).isOk = true := by decide +kernel
  obtain ⟨out, ran⟩ := exists_of_isOk returns
  exact ⟨out, efiMain_refines ran⟩

end Biefircate.Main
