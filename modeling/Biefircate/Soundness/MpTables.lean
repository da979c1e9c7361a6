import Biefircate.Model.Stage1.Mp
import Biefircate.Proofs.Stage1.Bmem

/-! # The multiprocessor tables under a reader of the specification

A reader takes 20 bytes for the entry of a processor, where `intel_mp_cpu_t` has 12, without the 8 reserved ones. So the
entry of the I/O APIC disappears in that of the processor, which ends just where the table does. The checksums are as they
should be.
-/

namespace Biefircate

/-! ## The reader -/

/-- An entry of the base table. -/
inductive MpEntry where
  | processor (id ver flags sig features : ℕ)
  | ioapic (id ver flags addr : ℕ)
  | other (type : UInt8)
deriving DecidableEq, Repr

/-- How long an entry is. -/
def mpEntryLen (type : UInt8) : ℕ := if type = mpCpu then 20 else 8

def readMpEntry (type : UInt8) (bytes : List UInt8) : MpEntry :=
  if type = mpCpu then
    .processor (number bytes 1 1) (number bytes 2 1) (number bytes 3 1) (number bytes 4 4) (number bytes 8 4)
  else if type = mpIoapic then
    .ioapic (number bytes 1 1) (number bytes 2 1) (number bytes 3 1) (number bytes 4 4)
  else .other type

/-- Walk over a base table entry by entry. The last one has to end where the table does. -/
def readMpEntries : List UInt8 → Option (List MpEntry)
  | [] => some []
  | type :: rest =>
    if rest.length + 1 < mpEntryLen type then none
    else (readMpEntry type (type :: rest) :: ·) <$> readMpEntries (rest.drop (mpEntryLen type - 1))
termination_by bytes => bytes.length
decreasing_by
  rw [List.length_drop, List.length_cons]
  omega

/-- Where the fields are: the address and the length in the floating pointer structure, the length and the number of
entries in the header. -/
def fltConfAddrAt : ℕ := 4
def fltLenAt : ℕ := 8
def confBaseTblLenAt : ℕ := 4
def confEntCntAt : ℕ := 34

/-- The reader comes from the floating pointer structure at `flt` to the table at `conf`, and the checksums are right. -/
structure MpLinked (mem : Mem) (flt conf : ℕ) : Prop where
  fltSum : SumsToZero (mem.read flt (mem.readLE (flt + fltLenAt) 1))
  pointer : mem.readLE (flt + fltConfAddrAt) 4 = conf
  confSum : SumsToZero (mem.read conf (mem.readLE (conf + confBaseTblLenAt) 2))

/-- What the reader finds after the header of the table at `conf`. -/
def readMpTable (mem : Mem) (conf : ℕ) : Option (List MpEntry) :=
  readMpEntries (mem.read (conf + sizeofIntelMpConfHdr)
    (mem.readLE (conf + confBaseTblLenAt) 2 - sizeofIntelMpConfHdr))

/-- The tables say that there are the given entries. -/
structure MpDecodes (mem : Mem) (flt conf : ℕ) (entries : List MpEntry) : Prop extends MpLinked mem flt conf where
  walked : readMpTable mem conf = some entries
  count : mem.readLE (conf + confEntCntAt) 2 = entries.length

/-- What the registers say of the processor. -/
def MpRegs.processor (regs : MpRegs) : MpEntry :=
  .processor ((regs.lapic 8).toNat % 256) ((regs.lapic 12).toNat % 256) 3 (regs.cpuid 1).1.toNat (regs.cpuid 1).2.toNat

/-- What the registers say of the I/O APIC. -/
def MpRegs.ioapicEntry (regs : MpRegs) : MpEntry :=
  .ioapic ((regs.ioapic 0).toNat / 2 ^ 24) ((regs.ioapic 1).toNat % 256) 1 0xfec00000

/-! ## What the reader sees -/

variable {regs : MpRegs} {mem : Mem} {u off n : ℕ}

@[simp] theorem IntelMpFlt.bytes_length (flt : IntelMpFlt) : flt.bytes.length = sizeofIntelMpFlt := by
  simp [bytes, sizeofIntelMpFlt]

@[simp] theorem IntelMpConfHdr.bytes_length (conf : IntelMpConfHdr) : conf.bytes.length = sizeofIntelMpConfHdr := by
  simp [bytes, sizeofIntelMpConfHdr]

@[simp] theorem IntelMpCpu.bytes_length (cpu : IntelMpCpu) : cpu.bytes.length = sizeofIntelMpCpu := rfl

@[simp] theorem IntelMpIoapic.bytes_length (ioapic : IntelMpIoapic) : ioapic.bytes.length = sizeofIntelMpIoapic := rfl

theorem MpBundle.bytes_length (s : MpBundle) : s.bytes.length = sizeofMpBundle := by
  simp only [bytes, List.length_append, List.length_cons, Vector.length_toList, IntelMpFlt.bytes_length,
    IntelMpConfHdr.bytes_length, IntelMpCpu.bytes_length, IntelMpIoapic.bytes_length]
  rfl

/-- A part of the bundle, as it lies in memory. -/
theorem read_bundle (s : MpBundle) (inside : off + n ≤ sizeofMpBundle) :
    (mem.write u s.bytes).read (u + off) n = slice s.bytes off n := by
  have whole := Mem.read_write mem u s.bytes
  rw [s.bytes_length] at whole
  rw [← slice_read _ _ inside, whole]

theorem readLE_bundle (s : MpBundle) (inside : off + n ≤ sizeofMpBundle) :
    (mem.write u s.bytes).readLE (u + off) n = number s.bytes off n := by
  rw [Mem.readLE, read_bundle s inside, number]

/-- What comes before the configuration table. -/
def MpBundle.front (s : MpBundle) : List UInt8 := s.ebdaKib :: s.ebdaReserved.toList ++ s.flt.bytes

theorem MpBundle.front_length (s : MpBundle) : s.front.length = mpConfAt := by
  rw [front, List.length_append, List.length_cons, Vector.length_toList, s.flt.bytes_length]
  rfl

theorem slice_flt (s : MpBundle) : slice s.bytes mpFltAt sizeofIntelMpFlt = s.flt.bytes :=
  slice_append (s.ebdaKib :: s.ebdaReserved.toList) _ _ (by simp [mpFltAt]) s.flt.bytes_length

theorem slice_table (s : MpBundle) : slice s.bytes mpConfAt 64 = s.conf.bytes ++ s.cpu.bytes ++ s.ioapic.bytes := by
  have length : (s.conf.bytes ++ s.cpu.bytes ++ s.ioapic.bytes).length = 64 := by
    rw [List.length_append, List.length_append, s.conf.bytes_length, s.cpu.bytes_length, s.ioapic.bytes_length]
    rfl
  have parts := slice_append s.front _ [] s.front_length length
  rwa [List.append_nil] at parts

theorem slice_conf (s : MpBundle) : slice s.bytes mpConfAt sizeofIntelMpConfHdr = s.conf.bytes := by
  have parts := slice_append s.front s.conf.bytes (s.cpu.bytes ++ s.ioapic.bytes) s.front_length s.conf.bytes_length
  rw [List.append_assoc, ← List.append_assoc s.conf.bytes] at parts
  exact parts

theorem slice_entries (s : MpBundle) : slice s.bytes (mpConfAt + sizeofIntelMpConfHdr) 20 = s.cpu.bytes ++ s.ioapic.bytes := by
  have starts : (s.front ++ s.conf.bytes).length = mpConfAt + sizeofIntelMpConfHdr := by
    rw [List.length_append, s.front_length, s.conf.bytes_length]
  have parts := slice_append (s.front ++ s.conf.bytes) (s.cpu.bytes ++ s.ioapic.bytes) [] starts (n := 20) rfl
  rw [List.append_nil, List.append_assoc, ← List.append_assoc s.conf.bytes] at parts
  exact parts

/-- A number that was stored in a field. -/
theorem number_of_stored {buf : List UInt8} {v : ℕ} (stored : slice buf off n = toBytes n v) (fits : v < 256 ^ n) :
    number buf off n = v := by
  rw [number, stored, ofBytes_toBytes, Nat.mod_eq_of_lt fits]

theorem number_flt (s : MpBundle) (inside : off + n ≤ sizeofIntelMpFlt) :
    number s.bytes (mpFltAt + off) n = number s.flt.bytes off n := by
  rw [← slice_flt, number_slice inside (by rw [s.bytes_length]; decide)]

theorem number_conf (s : MpBundle) (inside : off + n ≤ sizeofIntelMpConfHdr) :
    number s.bytes (mpConfAt + off) n = number s.conf.bytes off n := by
  rw [← slice_conf, number_slice inside (by rw [s.bytes_length]; decide)]

theorem number_len (regs : MpRegs) (u : ℕ) : number (fakeMpBundle regs u).bytes (mpFltAt + fltLenAt) 1 = sizeofIntelMpFlt := by
  rw [number_flt _ (by decide)]
  exact number_of_stored rfl (by decide)

theorem number_mpConfAddr (regs : MpRegs) (base : u + sizeofMpBundle ≤ bmemMaxAddr) :
    number (fakeMpBundle regs u).bytes (mpFltAt + fltConfAddrAt) 4 = u + mpConfAt := by
  have stored : slice (fakeMpBundle regs u).flt.bytes fltConfAddrAt 4 = toBytes 4 (UInt32.ofNat (u + mpConfAt)).toNat := rfl
  have low : u + mpConfAt < 2 ^ 32 := by
    simp only [mpConfAt, mpFltAt, sizeofIntelMpFlt, sizeofMpBundle, bmemMaxAddr] at base ⊢
    omega
  rw [number_flt _ (by decide), number_of_stored stored (UInt32.toNat_lt _), UInt32.toNat_ofNat', Nat.mod_eq_of_lt low]

theorem number_baseTblLen (regs : MpRegs) (u : ℕ) :
    number (fakeMpBundle regs u).bytes (mpConfAt + confBaseTblLenAt) 2 = 64 := by
  rw [number_conf _ (by decide)]
  exact number_of_stored rfl (by decide)

theorem number_entCnt (regs : MpRegs) (u : ℕ) : number (fakeMpBundle regs u).bytes (mpConfAt + confEntCntAt) 2 = 2 := by
  rw [number_conf _ (by decide)]
  exact number_of_stored rfl (by decide)

theorem number_byte {buf : List UInt8} {b : UInt8} (stored : slice buf off 1 = [b]) : number buf off 1 = b.toNat := by
  rw [number, stored]
  rfl

theorem flt_sumsToZero (regs : MpRegs) (u : ℕ) : SumsToZero (fakeMpBundle regs u).flt.bytes :=
  @updateCksum_sumsToZero (fun cksum => (fakeMpFlt u cksum).bytes) ((fakeMpFlt u 0).bytes.take 10)
    ((fakeMpFlt u 0).bytes.drop 11) fun _ => rfl

/-- The header without the byte for the checksum: what comes before it, and after. -/
def IntelMpConfHdr.halves (conf : IntelMpConfHdr) : List UInt8 × List UInt8 :=
  (toBytes 4 conf.sig.toNat ++ toBytes 2 conf.baseTblLen.toNat ++ [conf.specRev],
    conf.oemId.toList ++ conf.prodId.toList ++ toBytes 4 conf.oemTblPtr.toNat ++ toBytes 2 conf.oemTblSz.toNat ++
      toBytes 2 conf.entCnt.toNat ++ toBytes 4 conf.lapicAddr.toNat ++ toBytes 2 conf.extTblLen.toNat ++
      [conf.extTblCksum, conf.reserved])

theorem IntelMpConfHdr.bytes_eq (conf : IntelMpConfHdr) : conf.bytes = conf.halves.1 ++ conf.cksum :: conf.halves.2 := by
  simp only [bytes, halves, List.append_assoc, List.cons_append, List.nil_append]

theorem table_sumsToZero (regs : MpRegs) (u : ℕ) : SumsToZero
    ((fakeMpBundle regs u).conf.bytes ++ (fakeMpBundle regs u).cpu.bytes ++ (fakeMpBundle regs u).ioapic.bytes) := by
  apply @updateCksum_sumsToZero (fun cksum => (fakeMpConf regs cksum).bytes ++ (fakeMpCpu regs).bytes ++
    (fakeMpIoapic regs).bytes) (fakeMpConf regs 0).halves.1
    ((fakeMpConf regs 0).halves.2 ++ (fakeMpCpu regs).bytes ++ (fakeMpIoapic regs).bytes)
  intro cksum
  rw [IntelMpConfHdr.bytes_eq, List.append_assoc, List.append_assoc, List.cons_append, List.append_assoc]
  rfl

/-- The reader takes the entry of the I/O APIC for the reserved bytes of the processor's. -/
theorem readMpEntries_bundle (regs : MpRegs) :
    readMpEntries ((fakeMpCpu regs).bytes ++ (fakeMpIoapic regs).bytes) = some [regs.processor] := by
  have first : (fakeMpCpu regs).bytes ++ (fakeMpIoapic regs).bytes =
    mpCpu :: ((fakeMpCpu regs).bytes ++ (fakeMpIoapic regs).bytes).tail := rfl
  have rest : ((fakeMpCpu regs).bytes ++ (fakeMpIoapic regs).bytes).tail.length = 19 := rfl
  have entry : readMpEntry mpCpu ((fakeMpCpu regs).bytes ++ (fakeMpIoapic regs).bytes) = regs.processor := by
    have sig : slice ((fakeMpCpu regs).bytes ++ (fakeMpIoapic regs).bytes) 4 4 = toBytes 4 (regs.cpuid 1).1.toNat := rfl
    have features : slice ((fakeMpCpu regs).bytes ++ (fakeMpIoapic regs).bytes) 8 4 = toBytes 4 (regs.cpuid 1).2.toNat := rfl
    have id : slice ((fakeMpCpu regs).bytes ++ (fakeMpIoapic regs).bytes) 1 1 = [(regs.lapic 8).toUInt8] := rfl
    have ver : slice ((fakeMpCpu regs).bytes ++ (fakeMpIoapic regs).bytes) 2 1 = [(regs.lapic 12).toUInt8] := rfl
    have flags : slice ((fakeMpCpu regs).bytes ++ (fakeMpIoapic regs).bytes) 3 1 = [3] := rfl
    rw [readMpEntry, if_pos rfl, number_of_stored sig (regs.cpuid 1).1.toNat_lt,
      number_of_stored features (regs.cpuid 1).2.toNat_lt, number_byte id, number_byte ver, number_byte flags,
      UInt32.toNat_toUInt8, UInt32.toNat_toUInt8]
    rfl
  rw [first, readMpEntries, if_neg (by rw [rest]; decide), ← first, entry, mpEntryLen, if_pos rfl,
    List.drop_eq_nil_of_le (by rw [rest]), readMpEntries]
  rfl

/-! ## What the tables say -/

/-- The pointer and the checksums are right. -/
theorem fakeMpBundle_linked (base : u + sizeofMpBundle ≤ bmemMaxAddr) :
    MpLinked (mem.write u (fakeMpBundle regs u).bytes) (u + mpFltAt) (u + mpConfAt) where
  fltSum := by
    rw [Nat.add_assoc, readLE_bundle _ (by decide), number_len, read_bundle _ (by decide), slice_flt]
    exact flt_sumsToZero regs u
  pointer := by rw [Nat.add_assoc, readLE_bundle _ (by decide), number_mpConfAddr regs base]
  confSum := by
    rw [Nat.add_assoc, readLE_bundle _ (by decide), number_baseTblLen, read_bundle _ (by decide), slice_table]
    exact table_sumsToZero regs u

/-- Nothing is left of the I/O APIC. -/
theorem readMpTable_bundle (regs : MpRegs) (mem : Mem) (u : ℕ) :
    readMpTable (mem.write u (fakeMpBundle regs u).bytes) (u + mpConfAt) = some [regs.processor] := by
  have entries : 64 - sizeofIntelMpConfHdr = 20 := rfl
  rw [readMpTable, Nat.add_assoc, Nat.add_assoc, readLE_bundle _ (by decide), number_baseTblLen, entries,
    read_bundle _ (by decide), slice_entries]
  exact readMpEntries_bundle regs

theorem entCnt_bundle (regs : MpRegs) (mem : Mem) (u : ℕ) :
    (mem.write u (fakeMpBundle regs u).bytes).readLE (u + mpConfAt + confEntCntAt) 2 = 2 := by
  rw [Nat.add_assoc, readLE_bundle _ (by decide), number_entCnt]

/-- Wherever `fake_mp_table` gets memory, the reader gets to a table of two entries and finds one in it. -/
theorem fakeMpTable_seen {bmem : Bmem} {placed : MpPlaced} (blks : ∀ b ∈ bmem.blk, b.Ok)
    (ran : fakeMpTable regs mem bmem = .ok placed) : ∃ u, u = placed.tempEbdaSeg.toNat * paraSize ∧
      MpLinked placed.mem (u + mpFltAt) (u + mpConfAt) ∧ placed.mem.readLE (u + mpConfAt + confEntCntAt) 2 = 2 ∧
        readMpTable placed.mem (u + mpConfAt) = some [regs.processor] := by
  obtain ⟨⟨u, bmem'⟩, allocated, same⟩ := bind_eq_ok.mp ran
  cases same
  have para : paraSize = 2 ^ 4 := rfl
  obtain ⟨base, aligned⟩ := bmemAllocBoottime_region blks para (by decide) allocated
  refine ⟨u, ?_, fakeMpBundle_linked base, entCnt_bundle .., readMpTable_bundle ..⟩
  have segment : u / paraSize < 2 ^ 16 := by
    have size : sizeofMpBundle = 96 := rfl
    simp only [size, paraSize, bmemMaxAddr] at base ⊢
    omega
  dsimp only
  rw [UInt16.toNat_ofNat', Nat.mod_eq_of_lt segment, Nat.div_mul_cancel aligned]

/-- Whatever the registers read and wherever the tables are, they do not decode to one processor and one I/O APIC. -/
theorem fakeMpBundle_not_decodes (regs : MpRegs) (mem : Mem) (u : ℕ) :
    ¬ MpDecodes (mem.write u (fakeMpBundle regs u).bytes) (u + mpFltAt) (u + mpConfAt)
      [regs.processor, regs.ioapicEntry] := by
  rintro ⟨-, walked, -⟩
  rw [readMpTable_bundle] at walked
  cases walked

/-- The local APIC 0 and the I/O APIC 1 of a machine. -/
theorem fakeMpBundle_misread : ¬ MpDecodes (Mem.zero.write 0x9f000 (fakeMpBundle ⟨fun _ => 0xfee00900,
    fun _ => 0x14, fun _ => (0x306c3, 0xbfebfbff), fun _ => 0x01170020⟩ 0x9f000).bytes) 0x9f010 0x9f020
      [.processor 0x14 0x14 3 0x306c3 0xbfebfbff, .ioapic 1 0x20 1 0xfec00000] := by
  rintro ⟨-, walked, -⟩
  have seen := readMpTable_bundle ⟨fun _ => 0xfee00900, fun _ => 0x14, fun _ => (0x306c3, 0xbfebfbff),
    fun _ => 0x01170020⟩ Mem.zero 0x9f000
  cases seen.symm.trans walked

end Biefircate
