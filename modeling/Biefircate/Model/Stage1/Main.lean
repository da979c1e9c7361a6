import Biefircate.Model.Stage1.Acpi
import Biefircate.Model.Stage1.FvInit
import Biefircate.Model.Stage1.Mp
import Biefircate.Model.Stage1.Pci

/-! # Stage 1 from its start to the hand-over

`efi_main` with all that it does to base memory and to the boot parameters. The calls in between that look for stage 2 and load
it change neither and are left out, as is the wait at the end.
-/

namespace Biefircate.Main

/-- `memcmp`, on as many bytes as there are. -/
def memcmp : List UInt8 → List UInt8 → Int
  | c1 :: s1, c2 :: s2 => if c1 < c2 then -1 else if c2 < c1 then 1 else memcmp s1 s2
  | _, _ => 0

/-- `EFI_CONFIGURATION_TABLE`, with the bytes of the GUID. -/
structure ConfigurationTable where
  vendorGuid : Vector UInt8 16
  vendorTable : ℕ
deriving DecidableEq, Repr

/-- `Acpi20TableGuid`. -/
def acpi20TableGuid : Vector UInt8 16 :=
  #v[0x71, 0xe8, 0x68, 0x88, 0xf1, 0xe4, 0xd3, 0x11, 0xbc, 0x22, 0x00, 0x80, 0xc7, 0x3c, 0x88, 0x81]

/-- What the firmware has for stage 1. -/
structure Firmware (γ : Type) where
  /-- The pages below 1 MiB that it grants, and the memory map before and at the end. -/
  granted : ℕ → Bool
  initDescs : List EfiMemoryDescriptor
  descs : List EfiMemoryDescriptor
  /-- Whether a call of `AllocatePool` succeeds, and the addresses of the copies of images made there. -/
  pool : ℕ → Bool
  copyAddr : ℕ → ℕ
  volumes : List (Option (FirmwareVolume γ))
  configurationTable : List ConfigurationTable
  acpiLayout : AcpiInit.Layout
  mem : Mem
  pciIos : List (Option Pci.PciIo)
  c0000 : List UInt8
  mpRegs : MpRegs

/-- The body of the loop of `process_efi_conf_tables`. -/
def matchTable (rsdp : ℕ) (cft : ConfigurationTable) : ℕ :=
  if memcmp cft.vendorGuid.toList acpi20TableGuid.toList = 0 then cft.vendorTable else rsdp

/-- `process_efi_conf_tables`. -/
def processEfiConfTables {γ : Type} (fw : Firmware γ) (s : Stage1) : Exec Stage1 :=
  let rsdp := fw.configurationTable.foldl matchTable 0
  if rsdp = 0 then .error (.error "no ACPI 2+ RSDP") else AcpiInit.acpiInit fw.acpiLayout fw.mem s rsdp

/-- What `efi_main` ends with: the local variables of `process_pci`, with the state by now, `base_kib` and `temp_ebda_seg`. -/
structure HandOver where
  pci : Pci.ProcessPci
  baseKib : ℕ
  tempEbdaSeg : UInt16

/-- `fake_mp_table`, which is there with `XV6_COMPAT`. -/
def fakeMp {γ : Type} (fw : Firmware γ) (xv6Compat : Bool) (s : Stage1) : Exec (Stage1 × UInt16) :=
  if xv6Compat then do
    let placed ← fakeMpTable fw.mpRegs fw.mem s.bmem
    return ({ s with bmem := placed.bmem }, placed.tempEbdaSeg)
  else .ok (s, 0)

/-- `efi_main`. -/
def efiMain {γ : Type} (fw : Firmware γ) (xv6Compat : Bool) : Exec HandOver := do
  let bmem ← bmemInit fw.granted fw.initDescs
  let fvs ← fvInit fw.pool fw.volumes FvCache.empty
  let s ← processEfiConfTables fw ⟨bmem, []⟩
  let pci ← Pci.processPci ⟨fvs, fw.copyAddr, fw.c0000⟩ fw.pciIos s
  let (s, tempEbdaSeg) ← fakeMp fw xv6Compat pci.stage1
  let s ← prepareToHandOver s fw.descs
  return ⟨{ pci with stage1 := s }, s.bmem.runtimeBmemTop / kibyte, tempEbdaSeg⟩

end Biefircate.Main
