import Biefircate.Lib.Bytes
import Biefircate.Model.Stage2.VaMap

/-! # The ACPI tables in stage 2

`irq_init` follows the ACPI tables from the RSDP to mask the interrupts of every I/O APIC. The tables are in
physical memory, which stays as it is meanwhile, and are read through mappings that are made and ended on the
way. The ports that `irq_init` goes on to program are left out.
-/

namespace Biefircate

/-! ## Reading through the page tables -/

/-- The byte at a linear address. An address that is not mapped faults, and nothing handles the fault. -/
def byteAt (mem : Mem) (p : Paging) (va : ℕ) : Exec UInt8 :=
  match p.translate (va % 2 ^ 32) with
  | some t => .ok (mem t.phys)
  | none => .error .outside

/-- The `n` bytes from a linear address on. -/
def bytesAt (mem : Mem) (p : Paging) : ℕ → ℕ → Exec (List UInt8)
  | _, 0 => .ok []
  | va, n + 1 => do
    let byte ← byteAt mem p va
    let rest ← bytesAt mem p (va + 1) n
    return byte :: rest

/-- The `n`-byte number at a linear address. -/
def numberAt (mem : Mem) (p : Paging) (va n : ℕ) : Exec ℕ := ofBytes <$> bytesAt mem p va n

/-! ## Layouts -/

/-- How the structures of the ACPI header files are laid out. -/
structure AcpiLayout where
  /-- `sizeof(acpi_header_t)`. -/
  sizeofHeader : ℕ
  /-- Offset of `signature` in `acpi_header_t`. -/
  signatureAt : ℕ
  /-- Offset of `length` in `acpi_header_t`. -/
  lengthAt : ℕ
  /-- Offset of `tables` in `acpi_xsdt_t`. -/
  tablesAt : ℕ
  /-- Offset of `signature` in `acpi_xsdp_t`. -/
  rsdpSignatureAt : ℕ
  /-- Offset of `xsdt` in `acpi_xsdp_t`. -/
  rsdpXsdtAt : ℕ
  /-- `sizeof(acpi_table_union_t)`. -/
  sizeofTableUnion : ℕ
  /-- The header is a member of the union. -/
  lengthInside : lengthAt + 4 ≤ sizeofTableUnion
  /-- The size is a `size_t`. -/
  typed : sizeofTableUnion < 2 ^ 32

/-- Offset of `ics` in `acpi_madt_t`. -/
def AcpiLayout.icsAt (layout : AcpiLayout) : ℕ := layout.sizeofHeader + 4 + 4

/-- `MADT_IC_IOAPIC`, and the offsets of `header.type`, `header.length` and `ioapic_phy_addr` in
`acpi_madt_ic_union_t`. -/
def madtIcIoapic : ℕ := 0x1
def icTypeAt : ℕ := 0
def icLengthAt : ℕ := 1
def ioapicPhyAddrAt : ℕ := 4

/-- `sizeof(ioapic_t)`: two registers, each aligned to 16 bytes. -/
def sizeofIoapic : ℕ := 0x20
/-- `IOREDTBLLO(idx)`. -/
def ioredtblLo (idx : ℕ) : ℕ := 0x10 + 2 * idx
def ioapicRtloMasked : ℕ := 0x00010000

/-- "RSD PTR " and "APIC". -/
def expectRsdpSig : List UInt8 := [0x52, 0x53, 0x44, 0x20, 0x50, 0x54, 0x52, 0x20]
def madtSig : List UInt8 := [0x41, 0x50, 0x49, 0x43]

/-! ## The walk -/

/-- A call of `mem_va_map` with what it returned, or of `mem_va_unmap`. -/
inductive VaCall where
  | map (pa sz pteFlags va : ℕ)
  | unmap (va sz : ℕ)
deriving DecidableEq, Repr

/-- Virtual memory, the calls so far, and the registers of the I/O APICs by physical address. -/
structure AcpiWalk where
  va : Va
  calls : List VaCall
  ioapics : ℕ → ℕ → ℕ

namespace AcpiWalk

/-- `mem_va_map`. -/
def vaMap (s : AcpiWalk) (pa sz pteFlags : ℕ) : Exec (ℕ × AcpiWalk) := do
  let (va, after) ← memVaMap s.va pa sz pteFlags
  return (va, { s with va := after, calls := s.calls ++ [.map pa sz pteFlags va] })

/-- `mem_va_unmap`. -/
def vaUnmap (s : AcpiWalk) (va sz : ℕ) : Exec AcpiWalk := do
  let after ← memVaUnmap s.va va sz
  return { s with va := after, calls := s.calls ++ [.unmap va sz] }

/-- The `n`-byte number at a linear address. -/
def number (s : AcpiWalk) (mem : Mem) (va n : ℕ) : Exec ℕ := numberAt mem s.va.paging va n

/-- The `n` bytes from a linear address on. -/
def bytes (s : AcpiWalk) (mem : Mem) (va n : ℕ) : Exec (List UInt8) := bytesAt mem s.va.paging va n

/-- The loop over `io_intr`, on the I/O APIC mapped at `ioapic`: select the register and set the mask bit. -/
def maskInterrupts (s : AcpiWalk) (ioapic : ℕ) : Exec AcpiWalk :=
  match s.va.paging.translate (ioapic % 2 ^ 32) with
  | none => .error .outside
  | some t =>
    let masked := (List.range 24).foldl (fun regs ioIntr =>
      Function.update regs (ioredtblLo ioIntr) (regs (ioredtblLo ioIntr) ||| ioapicRtloMasked)) (s.ioapics t.phys)
    .ok { s with ioapics := Function.update s.ioapics t.phys masked }

end AcpiWalk

section

variable (layout : AcpiLayout) (mem : Mem)

/-- `acpi_map_tab`. -/
def acpiMapTab (s : AcpiWalk) (tab64 : ℕ) : Exec (ℕ × AcpiWalk) := do
  let (tab, s) ← s.vaMap tab64 layout.sizeofTableUnion 0
  let sz ← s.number mem (tab + layout.lengthAt) 4
  if layout.sizeofTableUnion < sz then do
    let s ← s.vaUnmap tab layout.sizeofTableUnion
    s.vaMap tab64 sz 0
  else return (tab, s)

/-- `acpi_unmap_tab`. -/
def acpiUnmapTab (s : AcpiWalk) (tab : ℕ) : Exec AcpiWalk := do
  let sz ← s.number mem (tab + layout.lengthAt) 4
  s.vaUnmap tab (if sz < layout.sizeofTableUnion then layout.sizeofTableUnion else sz)

/-- The `switch` of `acpi_process_madt`. -/
def acpiProcessIc (s : AcpiWalk) (ic : ℕ) : Exec AcpiWalk := do
  let type ← s.number mem (ic + icTypeAt) 1
  if type = madtIcIoapic then do
    let ioapicPhy ← s.number mem (ic + ioapicPhyAddrAt) 4
    let (ioapic, s) ← s.vaMap ioapicPhy sizeofIoapic pteCd
    let s ← s.maskInterrupts ioapic
    s.vaUnmap ioapic sizeofIoapic
  else return s

/-- The loop of `acpi_process_madt`, for at most `rounds` interrupt controller structures. -/
def acpiProcessMadtFrom (madtEnd : ℕ) : ℕ → AcpiWalk → ℕ → Exec AcpiWalk
  | 0, _, _ => .error .stuck
  | rounds + 1, s, ic =>
    if ic = madtEnd then .ok s
    else do
      let s ← acpiProcessIc mem s ic
      let length ← s.number mem (ic + icLengthAt) 1
      acpiProcessMadtFrom madtEnd rounds s (Word.add 32 ic length)

/-- `acpi_process_madt`. -/
def acpiProcessMadt (rounds : ℕ) (s : AcpiWalk) (madt : ℕ) : Exec AcpiWalk := do
  let length ← s.number mem (madt + layout.lengthAt) 4
  acpiProcessMadtFrom mem (Word.add 32 madt length) rounds s (Word.add 32 madt layout.icsAt)

/-- The `if` of `acpi_process_xsdt`. -/
def acpiProcessTab (rounds : ℕ) (s : AcpiWalk) (tab : ℕ) : Exec AcpiWalk := do
  let signature ← s.bytes mem (tab + layout.signatureAt) 4
  if signature = madtSig then acpiProcessMadt layout mem rounds s tab else return s

/-- The loop of `acpi_process_xsdt`, with `left` tables to go. -/
def acpiProcessXsdtFrom (rounds xsdt : ℕ) : ℕ → AcpiWalk → ℕ → Exec AcpiWalk
  | 0, s, _ => .ok s
  | left + 1, s, i => do
    let tab64 ← s.number mem (xsdt + layout.tablesAt + 8 * i) 8
    let (tab, s) ← acpiMapTab layout mem s tab64
    let s ← acpiProcessTab layout mem rounds s tab
    let s ← acpiUnmapTab layout mem s tab
    acpiProcessXsdtFrom rounds xsdt left s (i + 1)

/-- `acpi_process_xsdt`. -/
def acpiProcessXsdt (rounds : ℕ) (s : AcpiWalk) (xsdt : ℕ) : Exec AcpiWalk := do
  let xsdtSz ← s.number mem (xsdt + layout.lengthAt) 4
  acpiProcessXsdtFrom layout mem rounds xsdt (Word.sub 32 xsdtSz layout.sizeofHeader / 8) s 0

/-- `acpi_process_rsdp`. -/
def acpiProcessRsdp (rounds : ℕ) (s : AcpiWalk) (rsdp : ℕ) : Exec AcpiWalk := do
  let signature ← s.bytes mem (rsdp + layout.rsdpSignatureAt) 8
  if signature ≠ expectRsdpSig then .error .hlt
  else do
    let xsdt64 ← s.number mem (rsdp + layout.rsdpXsdtAt) 8
    let (xsdt, s) ← acpiMapTab layout mem s xsdt64
    let s ← acpiProcessXsdt layout mem rounds s xsdt
    acpiUnmapTab layout mem s xsdt

/-- The loop that finds the RSDP among the boot parameters. -/
def findRsdp : List Bparm → Exec BdatRsdp
  | [] => .error .outside
  | .rsdp rsdp :: _ => .ok rsdp
  | _ :: rest => findRsdp rest

/-- `irq_init`, up to where it starts to program the interrupt controllers. -/
def irqInit (rounds : ℕ) (s : AcpiWalk) (bparms : List Bparm) : Exec AcpiWalk := do
  let bdRsdp ← findRsdp bparms
  let (rsdp, s) ← s.vaMap bdRsdp.rsdpPhyAddr bdRsdp.rsdpSz 0
  let s ← acpiProcessRsdp layout mem rounds s rsdp
  s.vaUnmap rsdp bdRsdp.rsdpSz

end

end Biefircate
