import Biefircate.Lib.Bytes
import Biefircate.Model.Stage1.Bparm
import Biefircate.Model.Stage1.Util
import Biefircate.Model.Stage2.Irq

/-! # The ACPI tables in stage 1

`acpi_init` checks the RSDP, the XSDT and the tables that the XSDT lists, and adds a boot parameter for the RSDP.
Stage 1 runs with every address mapped to itself. What is printed is left out.
-/

namespace Biefircate.AcpiInit

/-- The structures of the ACPI header files, as far as stage 1 uses more of them than stage 2. -/
structure Layout extends AcpiLayout where
  /-- `sizeof(acpi_xsdp_t)`. -/
  sizeofXsdp : ℕ
  /-- Offset of `revision` in `acpi_xsdp_t`, one byte. -/
  rsdpRevisionAt : ℕ
  /-- Offset of `length` in `acpi_xsdp_t`. -/
  rsdpLengthAt : ℕ
  /-- Offset of `iapc_boot_flags` in `acpi_fadt_t`. -/
  iapcBootFlagsAt : ℕ
  /-- `sizeof` of `iapc_boot_flags`. -/
  sizeofIapcBootFlags : ℕ

/-- Offset of `flags` in `acpi_madt_t`. -/
def Layout.madtFlagsAt (layout : Layout) : ℕ := layout.sizeofHeader + 4

/-- "XSDT" and "FACP". -/
def expectXsdtSig : List UInt8 := [0x58, 0x53, 0x44, 0x54]
def fadtSig : List UInt8 := [0x46, 0x41, 0x43, 0x50]

/-- `FADT_IAPC_NORTC` and `MADT_PCAT_COMPAT`. -/
def fadtIapcNortc : ℕ := 0x20
def madtPcatCompat : ℕ := 0x1

section

variable (layout : Layout) (mem : Mem)

/-- `acpi_process_fadt`. -/
def acpiProcessFadt (fadt : ℕ) : Exec Unit :=
  if mem.readLE (fadt + layout.lengthAt) 4 < layout.iapcBootFlagsAt + layout.sizeofIapcBootFlags then
    .error (.error "FADT too small")
  else if mem.readLE (fadt + layout.iapcBootFlagsAt) layout.sizeofIapcBootFlags &&& fadtIapcNortc ≠ 0 then
    .error (.error "FADT: no CMOS RTC")
  else .ok ()

/-- `acpi_process_madt`. -/
def acpiProcessMadt (madt : ℕ) : Exec Unit :=
  if mem.readLE (madt + layout.madtFlagsAt) 4 &&& madtPcatCompat = 0 then .error (.error "MADT: no 8259")
  else .ok ()

/-- The body of the loop over the tables of the XSDT. -/
def acpiProcessTab (xsdt i : ℕ) : Exec Unit :=
  let tab := mem.readLE (xsdt + layout.tablesAt + 8 * i) 8
  if mem.read (tab + layout.signatureAt) 4 = fadtSig then acpiProcessFadt layout mem tab
  else if mem.read (tab + layout.signatureAt) 4 = madtSig then acpiProcessMadt layout mem tab
  else .ok ()

/-- `acpi_init`. The size of the XSDT replaces that of the RSDP in `sz`. -/
def acpiInit (s : Stage1) (rsdp : ℕ) : Exec Stage1 :=
  if mem.read (rsdp + layout.rsdpSignatureAt) 8 ≠ expectRsdpSig then .error (.error "RSDP has bad sig.")
  else if mem.readLE (rsdp + layout.rsdpRevisionAt) 1 < 2 then .error (.error "RSDP revision too old")
  else
    let sz := mem.readLE (rsdp + layout.rsdpLengthAt) 4
    if sz < layout.sizeofXsdp then .error (.error "RSDP too small")
    else if computeCksum (mem.read rsdp layout.rsdpLengthAt) ≠ 0 ∨ computeCksum (mem.read rsdp sz) ≠ 0 then
      .error (.error "RSDP has bad checksums")
    else
      let xsdt := mem.readLE (rsdp + layout.rsdpXsdtAt) 8
      if mem.read (xsdt + layout.signatureAt) 4 ≠ expectXsdtSig then .error (.error "XSDT has bad sig.")
      else
        let sz := mem.readLE (xsdt + layout.lengthAt) 4
        if sz < layout.sizeofHeader + 8 then .error (.error "XSDT too small")
        else if computeCksum (mem.read xsdt sz) ≠ 0 then .error (.error "XSDT has bad checksum")
        else do
          let numTabs := (sz - layout.sizeofHeader) / 8
          Run.run (fun _ i => acpiProcessTab layout mem xsdt i) () (List.range numTabs)
          bparmAdd s (.rsdp ⟨rsdp, sz⟩)

end

end Biefircate.AcpiInit
