import Biefircate.Model.Stage1.Bmem
import Biefircate.Model.Stage1.Util
import Biefircate.Lib.Slice

/-! # Tables for multiprocessor systems

With `XV6_COMPAT`, stage 1 makes up the tables of `mp.h` for one processor and one I/O APIC, from what it reads from their
registers. They go into a temporary EBDA in base memory.
-/

namespace Biefircate

/-! ## Tables of `mp.h` -/

/-- `MAGIC32`. -/
def magic32 (a b c d : Char) : UInt32 :=
  a.toUInt8.toUInt32 ||| b.toUInt8.toUInt32 <<< 8 ||| c.toUInt8.toUInt32 <<< 16 ||| d.toUInt8.toUInt32 <<< 24

/-- `intel_mp_flt_t`. -/
structure IntelMpFlt where
  sig : UInt32
  mpConfAddr : UInt32
  len : UInt8
  specRev : UInt8
  cksum : UInt8
  features : Vector UInt8 5

/-- `intel_mp_conf_hdr_t`. -/
structure IntelMpConfHdr where
  sig : UInt32
  baseTblLen : UInt16
  specRev : UInt8
  cksum : UInt8
  oemId : Vector UInt8 8
  prodId : Vector UInt8 12
  oemTblPtr : UInt32
  oemTblSz : UInt16
  entCnt : UInt16
  lapicAddr : UInt32
  extTblLen : UInt16
  extTblCksum : UInt8
  reserved : UInt8

/-- `intel_mp_cpu_t`. -/
structure IntelMpCpu where
  type : UInt8
  lapicId : UInt8
  lapicVer : UInt8
  cpuFlags : UInt8
  cpuSig : UInt32
  cpuFeatures : UInt32

/-- `intel_mp_ioapic_t`. -/
structure IntelMpIoapic where
  type : UInt8
  icId : UInt8
  icVer : UInt8
  icFlags : UInt8
  icAddr : UInt32

/-- `mp_bundle_t`. -/
structure MpBundle where
  ebdaKib : UInt8
  ebdaReserved : Vector UInt8 15
  flt : IntelMpFlt
  conf : IntelMpConfHdr
  cpu : IntelMpCpu
  ioapic : IntelMpIoapic

def mpFeat1Imcrp : UInt8 := 0x80
def mpCpu : UInt8 := 0
def mpCpuEn : UInt8 := 0x01
def mpCpuBp : UInt8 := 0x02
def mpIoapic : UInt8 := 2
def mpIoapicEn : UInt8 := 0x01
def ioapicAddr : UInt64 := 0xfec00000

/-! The tables are packed. -/

def IntelMpFlt.bytes (flt : IntelMpFlt) : List UInt8 :=
  toBytes 4 flt.sig.toNat ++ toBytes 4 flt.mpConfAddr.toNat ++ [flt.len, flt.specRev, flt.cksum] ++ flt.features.toList

def IntelMpConfHdr.bytes (conf : IntelMpConfHdr) : List UInt8 :=
  toBytes 4 conf.sig.toNat ++ toBytes 2 conf.baseTblLen.toNat ++ [conf.specRev, conf.cksum] ++ conf.oemId.toList ++
    conf.prodId.toList ++ toBytes 4 conf.oemTblPtr.toNat ++ toBytes 2 conf.oemTblSz.toNat ++
    toBytes 2 conf.entCnt.toNat ++ toBytes 4 conf.lapicAddr.toNat ++ toBytes 2 conf.extTblLen.toNat ++
    [conf.extTblCksum, conf.reserved]

def IntelMpCpu.bytes (cpu : IntelMpCpu) : List UInt8 :=
  [cpu.type, cpu.lapicId, cpu.lapicVer, cpu.cpuFlags] ++ toBytes 4 cpu.cpuSig.toNat ++ toBytes 4 cpu.cpuFeatures.toNat

def IntelMpIoapic.bytes (ioapic : IntelMpIoapic) : List UInt8 :=
  [ioapic.type, ioapic.icId, ioapic.icVer, ioapic.icFlags] ++ toBytes 4 ioapic.icAddr.toNat

def MpBundle.bytes (s : MpBundle) : List UInt8 :=
  s.ebdaKib :: s.ebdaReserved.toList ++ s.flt.bytes ++ (s.conf.bytes ++ s.cpu.bytes ++ s.ioapic.bytes)

def sizeofIntelMpFlt : ℕ := 16
def sizeofIntelMpConfHdr : ℕ := 44
def sizeofIntelMpCpu : ℕ := 12
def sizeofIntelMpIoapic : ℕ := 8
/-- `offsetof(mp_bundle_t, flt)`. -/
def mpFltAt : ℕ := 16
/-- `offsetof(mp_bundle_t, conf)`. -/
def mpConfAt : ℕ := mpFltAt + sizeofIntelMpFlt
def sizeofMpBundle : ℕ := mpConfAt + sizeofIntelMpConfHdr + sizeofIntelMpCpu + sizeofIntelMpIoapic

/-! ## Making them up -/

/-- What the registers read: model specific registers, the local APIC's by their index, EAX and EDX after CPUID, and the
I/O APIC's by what was selected. -/
structure MpRegs where
  rdmsr : UInt32 → UInt64
  lapic : ℕ → UInt32
  cpuid : UInt32 → UInt32 × UInt32
  ioapic : UInt32 → UInt32

/-- The floating pointer structure for the address `u`, except for the checksum. -/
def fakeMpFlt (u : ℕ) (cksum : UInt8) : IntelMpFlt where
  sig := magic32 '_' 'M' 'P' '_'
  mpConfAddr := UInt32.ofNat (u + mpConfAt)
  len := UInt8.ofNat sizeofIntelMpFlt
  specRev := 4
  cksum := cksum
  features := #v[0, mpFeat1Imcrp, 0, 0, 0]

/-- The configuration table header, except for the checksum. -/
def fakeMpConf (regs : MpRegs) (cksum : UInt8) : IntelMpConfHdr where
  sig := magic32 'P' 'C' 'M' 'P'
  baseTblLen := UInt16.ofNat (sizeofIntelMpConfHdr + sizeofIntelMpCpu + sizeofIntelMpIoapic)
  specRev := 4
  cksum := cksum
  oemId := #v[0x42, 0x4f, 0x43, 0x48, 0x53, 0x43, 0x50, 0x55]  -- BOCHSCPU
  prodId := #v[0x30, 0x2e, 0x31, 0x20, 0x20, 0x20, 0x20, 0x20, 0x20, 0x20, 0x20, 0x20]  -- 0.1 and blanks
  oemTblPtr := 0
  oemTblSz := 0
  entCnt := 2
  lapicAddr := (regs.rdmsr 0x1b &&& 0x000ffffffffff000).toUInt32
  extTblLen := 0
  extTblCksum := 0
  reserved := 0

/-- The entry for this processor. -/
def fakeMpCpu (regs : MpRegs) : IntelMpCpu where
  type := mpCpu
  lapicId := (regs.lapic (0x20 / 4)).toUInt8
  lapicVer := (regs.lapic (0x30 / 4)).toUInt8
  cpuFlags := mpCpuEn ||| mpCpuBp
  cpuSig := (regs.cpuid 1).1
  cpuFeatures := (regs.cpuid 1).2

/-- The entry for the first I/O APIC. -/
def fakeMpIoapic (regs : MpRegs) : IntelMpIoapic where
  type := mpIoapic
  icId := (regs.ioapic 0x00 >>> 24).toUInt8
  icVer := (regs.ioapic 0x01).toUInt8
  icFlags := mpIoapicEn
  icAddr := ioapicAddr.toUInt32

/-- What `fake_mp_table` fills in at the address `u`. -/
def fakeMpBundle (regs : MpRegs) (u : ℕ) : MpBundle where
  ebdaKib := 1
  ebdaReserved := Vector.replicate 15 0
  flt := fakeMpFlt u (updateCksum fun cksum => (fakeMpFlt u cksum).bytes)
  conf := fakeMpConf regs (updateCksum fun cksum =>
    (fakeMpConf regs cksum).bytes ++ (fakeMpCpu regs).bytes ++ (fakeMpIoapic regs).bytes)
  cpu := fakeMpCpu regs
  ioapic := fakeMpIoapic regs

/-- What `fake_mp_table` leaves, with the value of `temp_ebda_seg`. -/
structure MpPlaced where
  mem : Mem
  bmem : Bmem
  tempEbdaSeg : UInt16

/-- `fake_mp_table`. -/
def fakeMpTable (regs : MpRegs) (mem : Mem) (bmem : Bmem) : Exec MpPlaced := do
  let (u, bmem) ← bmemAllocBoottime bmem sizeofMpBundle paraSize
  return ⟨mem.write u (fakeMpBundle regs u).bytes, bmem, UInt16.ofNat (u / paraSize)⟩

end Biefircate
