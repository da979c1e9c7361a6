import Biefircate.Proofs.Stage2.MemGrown
import Biefircate.Proofs.Stage2.Rm16
import Biefircate.Soundness.Int1aReturn

/-! # What `rm16_init` leaves in base memory

The real mode code and its data are in blocks of their own, as the linker laid them out, the vectors point into the code, and
nothing else is changed but the few variables that say where all this is.
-/

namespace Biefircate.Rm16

open Int1a (bdaOf bdaOf_write)

/-- The end of `bda_t`. -/
def bdaStop : ℕ := bdaAt + kbBufEnd + 2

/-- The descriptor of the real mode code segment before it has a base. -/
def gdtDescUnset : ℕ := 0x008f9a000000ffff

/-- An address that `rm16_init` sets. -/
def IsSet (syms : Syms) (text data x : ℕ) : Prop :=
  x < 4 * syms.numVecs16 ∨ bdaAt + bdaEbda ≤ x ∧ x < bdaAt + bdaEbda + 2 ∨
    bdaAt + kbBufHead ≤ x ∧ x < bdaAt + kbBufTail + 2 ∨ bdaAt + kbBufStart ≤ x ∧ x < bdaStop ∨
      text ≤ x ∧ x < text + syms.textLen ∨ data ≤ x ∧ x < data + syms.end16 ∨
        syms.gdtDescCs16 + 2 ≤ x ∧ x < syms.gdtDescCs16 + 6 ∨ syms.rm16Cs ≤ x ∧ x < syms.rm16Cs + 2

/-- Where the blocks for the code and the data are. They were available, and are now reserved. -/
structure Blocks (syms : Syms) (old new : MemMap) (text data : ℕ) : Prop where
  lowText : bdaStop ≤ text
  lowData : bdaStop ≤ data
  belowText : text + syms.textLen ≤ bmemMaxAddr
  belowData : data + syms.end16 ≤ bmemMaxAddr
  alignedText : paraSize ∣ text
  alignedData : kibyte ∣ data
  apart : data + syms.end16 ≤ text ∨ text + syms.textLen ≤ data
  taken : Reserved new.ranges text (text + syms.etext16) ∧ Reserved new.ranges data (data + syms.end16)
  fresh : ∀ lo hi, lo < hi → Reserved old.ranges lo hi →
    (text + syms.etext16 ≤ lo ∨ hi ≤ text) ∧ (data + syms.end16 ≤ lo ∨ hi ≤ data)

/-- What there is after `rm16_init`. -/
structure Ready (syms : Syms) (map : MemMap) (mem : Mem) (out : Loaded) : Prop where
  blocks : Blocks syms map out.map out.text out.data
  /-- The code, with its own segment number in the jump to real mode. -/
  text : out.mem.read out.text syms.textLen =
    overwrite (mem.read syms.text16Load syms.textLen) syms.rmCs16 (toBytes 2 (out.text / 16))
  data : out.mem.read out.data syms.dataLen = mem.read syms.data16Load syms.dataLen
  bss : ∀ x, out.data + syms.dataLen ≤ x → x < out.data + syms.end16 → out.mem x = 0
  /-- Each vector is an offset from the table, in the segment of the code. -/
  vecs : ∀ i < syms.numVecs16, out.mem.readLE (4 * i) 4 =
    out.text / 16 * 0x10000 + mem.readLE (syms.data16Load + (syms.vecs16 + 2 * i)) 2
  rm16Cs : out.mem.readLE syms.rm16Cs 2 * 16 = out.text
  ebda : out.mem.readLE (bdaAt + bdaEbda) 2 * 16 = out.data
  gdt : mem.readLE syms.gdtDescCs16 8 = gdtDescUnset →
    out.mem.readLE syms.gdtDescCs16 8 = gdtDescUnset + out.text * 2 ^ 16
  kb : ∃ bda, bdaOf out.mem = rm16InitKb bda
  frame : ∀ x, ¬ IsSet syms out.text out.data x → out.mem x = mem x

section

variable {syms : Syms} {map map' : MemMap} {mem : Mem} {out : Loaded} {a : ℕ}

/-- No available range ends so low that there is no room for both blocks above the BIOS data area. -/
def Roomy (syms : Syms) (map : MemMap) : Prop :=
  ∀ mr ∈ map.ranges, mr.e820Type = e820Ram → bdaStop + syms.etext16 + paraSize + syms.end16 + kibyte ≤ mr.stop

theorem setKb_bdaOf (mem : Mem) : bdaOf (setKb mem) = rm16InitKb (bdaOf mem) := by
  have ends : defKbBuf / 0x100 * 0x100 + defKbBufEnd = defKbBufEnd := by decide
  unfold setKb rm16InitKb Mem.writeLE
  dsimp only [bdaAt]
  rw [ends, bdaOf_write, bdaOf_write, bdaOf_write, bdaOf_write]

/-- A block comes from the top of an available range, and what is left of the range ends where the block begins. -/
theorem block_low {req : AllocReq} {low : ℕ} (table : TableOk map.ranges) (valid : req.Valid)
    (ran : memAlloc map req.sz req.align req.maxAddr = .ok (a, map'))
    (room : ∀ mr ∈ map.ranges, mr.e820Type = e820Ram → low + req.sz + req.align ≤ mr.stop) :
    low ≤ a ∧ ∀ mr ∈ map'.ranges, mr.e820Type = e820Ram → mr ∈ map.ranges ∨ mr.stop = a := by
  obtain ⟨before, mr, after, ranges, placed, carved, -⟩ := memAlloc_ok table valid ran
  obtain ⟨k, -, pow⟩ := valid.pow
  have far := room mr (by simp [ranges]) placed.ram
  have near := Word.lt_alignDown_add (show 0 < req.align by rw [pow]; exact Nat.two_pow_pos k) (mr.stop - req.sz)
  rw [← placed.highest] at near
  refine ⟨by omega, fun other member ram => ?_⟩
  rw [carved] at member
  rcases List.mem_append.mp member with early | member
  · exact .inl (by simp [ranges, early])
  rcases List.mem_append.mp member with piece | late
  · unfold MemRange.carve at piece
    split at piece
    · obtain rfl := List.mem_singleton.mp piece
      cases ram
    · rcases List.mem_cons.mp piece with rfl | piece
      · exact .inr (Nat.add_sub_cancel' placed.above)
      · obtain rfl := List.mem_singleton.mp piece
        cases ram
  · exact .inl (by simp [ranges, late])

/-- A segment number is a sixteenth of an address. -/
theorem seg_mul {addr : ℕ} (aligned : paraSize ∣ addr) : addr / 16 * 16 = addr := Nat.div_mul_cancel aligned

theorem segEax {addr : ℕ} (below : addr < bmemMaxAddr) : (addr >>> 4) <<< 16 % 2 ^ 32 / 0x10000 = addr / 16 := by
  have limit : bmemMaxAddr = 2 ^ 20 := rfl
  rw [Nat.shiftRight_eq_div_pow, Nat.shiftLeft_eq]
  omega

/-- The descriptor once its base is set. -/
theorem gdt_base {gdt text : ℕ} {mem' : Mem} (below : text < bmemMaxAddr) (unset : mem.readLE gdt 8 = gdtDescUnset)
    (base : mem'.readLE (gdt + 2) 4 = mem.readLE (gdt + 2) 4 ||| text)
    (same : ∀ x, x < gdt + 2 ∨ gdt + 6 ≤ x ∧ x < gdt + 8 → gdt ≤ x → mem' x = mem x) :
    mem'.readLE gdt 8 = gdtDescUnset + text * 2 ^ 16 := by
  have limit : bmemMaxAddr = 2 ^ 20 := rfl
  have parts : ∀ m : Mem, m.readLE gdt 8 =
      m.readLE gdt 2 + 256 ^ 2 * (m.readLE (gdt + 2) 4 + 256 ^ 4 * m.readLE (gdt + 6) 2) := fun m => by
    rw [show 8 = 2 + (4 + 2) from rfl, Mem.readLE_add, Mem.readLE_add]
  have low : mem'.readLE gdt 2 = mem.readLE gdt 2 := Mem.readLE_congr fun x _ _ => same x (by omega) (by omega)
  have high : mem'.readLE (gdt + 6) 2 = mem.readLE (gdt + 6) 2 :=
    Mem.readLE_congr fun x _ _ => same x (by omega) (by omega)
  have lowSmall := mem.readLE_lt gdt 2
  have midSmall := mem.readLE_lt (gdt + 2) 4
  have mid : mem.readLE (gdt + 2) 4 = 0x9a000000 := by
    rw [parts, gdtDescUnset] at unset
    omega
  rw [parts mem] at unset
  rw [parts mem', low, base, high, mid, Word.or_of_dvd (k := 24) (by decide) (by omega), ← unset, mid]
  ring

/-- The blocks that `mem_alloc` gives for the code and for the data. -/
theorem blocks_of_allocs {middle last : MemMap} {text data : ℕ} (linked : syms.Linked) (table : TableOk map.ranges)
    (capacity : map.ranges.length ≤ map.maxRanges) (roomy : Roomy syms map)
    (allocText : memAlloc map syms.etext16 paraSize bmemMaxAddr = .ok (text, middle))
    (allocData : memAlloc middle syms.end16 kibyte bmemMaxAddr = .ok (data, last)) : Blocks syms map last text data := by
  obtain ⟨textSome, padded, padding⟩ := linked.textPadded
  obtain ⟨dataSome, dataInside⟩ := linked.dataInside
  have inText := linked.text
  have fits := linked.fits
  have limit : bmemMaxAddr = 2 ^ 20 := rfl
  have narrow : bmemMaxAddr < 2 ^ 32 := by decide
  have para : paraSize = 16 := rfl
  have kib : kibyte = 1024 := rfl
  have validText : AllocReq.Valid ⟨syms.etext16, paraSize, bmemMaxAddr⟩ :=
    ⟨textSome, by dsimp only; omega, ⟨4, by decide, rfl⟩, narrow⟩
  have soundText := memAlloc_sound table validText allocText
  obtain ⟨tableMid, -, -, -⟩ := memAlloc_table table capacity validText allocText
  obtain ⟨lowText, left⟩ := block_low table validText allocText
    (show ∀ mr ∈ map.ranges, mr.e820Type = e820Ram → bdaStop + syms.end16 + kibyte + syms.etext16 + paraSize ≤ mr.stop from
      fun mr member ram => by have room := roomy mr member ram; omega)
  have validData : AllocReq.Valid ⟨syms.end16, kibyte, bmemMaxAddr⟩ :=
    ⟨by dsimp only; omega, fits.2.2, ⟨10, by decide, rfl⟩, narrow⟩
  have soundData := memAlloc_sound tableMid validData allocData
  obtain ⟨lowData, -⟩ := block_low tableMid validData allocData
    (show ∀ mr ∈ middle.ranges, mr.e820Type = e820Ram → bdaStop + syms.end16 + kibyte ≤ mr.stop from fun mr member ram => by
      rcases left mr member ram with old | cut
      · have room := roomy mr old ram
        omega
      · omega)
  obtain ⟨takenText, freshText⟩ := soundText.fresh table textSome
  obtain ⟨takenData, freshData⟩ := soundData.fresh tableMid validData.positive
  have belowText : text + syms.etext16 ≤ bmemMaxAddr := soundText.below
  have alignedText : paraSize ∣ text := soundText.aligned
  have alignedData : kibyte ∣ data := soundData.aligned
  have whole := linked.textWhole
  have apart := freshData text (text + syms.etext16) (by omega) takenText
  rw [para] at alignedText
  rw [kib] at alignedData
  dsimp only [AllocCall.stop] at apart
  -- The code is copied in whole words, which takes no more than the alignment leaves.
  refine ⟨by omega, lowData, by omega, soundData.below, alignedText, alignedData, by omega,
    ⟨soundData.reserved takenText, takenData⟩, fun lo hi some_ reserved => ⟨freshText lo hi some_ reserved, ?_⟩⟩
  exact freshData lo hi some_ (soundText.reserved reserved)

theorem rm16Init_parts (ran : rm16Init syms map mem = .ok out) : ∃ middle,
    memAlloc map syms.etext16 paraSize bmemMaxAddr = .ok (out.text, middle) ∧
      memAlloc middle syms.end16 kibyte bmemMaxAddr = .ok (out.data, out.map) ∧
        out.mem = setKb (setVecs (loopCount (syms.numVecs16 % 0x100)) ((out.text >>> 4) <<< 16 % 2 ^ 32)
          (Word.add 32 out.data syms.vecs16) 0 (loadData syms out.data (loadText syms out.text mem))) := by
  obtain ⟨⟨text, middle⟩, allocText, ran⟩ := bind_eq_ok.mp ran
  obtain ⟨⟨data, last⟩, allocData, done⟩ := bind_eq_ok.mp ran
  cases done
  exact ⟨middle, allocText, allocData, rfl⟩

/-- What the parts leave, one after the other, when the blocks are where they should be. -/
theorem ready_of_blocks (linked : syms.Linked) (blocks : Blocks syms map out.map out.text out.data)
    (same : out.mem = setKb (setVecs (loopCount (syms.numVecs16 % 0x100)) ((out.text >>> 4) <<< 16 % 2 ^ 32)
      (Word.add 32 out.data syms.vecs16) 0 (loadData syms out.data (loadText syms out.text mem)))) : Ready syms map mem out := by
  obtain ⟨lowText, lowData, belowText, belowData, alignedText, alignedData, apart, -, -⟩ := id blocks
  obtain ⟨dataSome, dataInside⟩ := linked.dataInside
  obtain ⟨textSome, padded, -⟩ := linked.textPadded
  obtain ⟨vecsSome, vecsFew⟩ := linked.numVecs16
  obtain ⟨highText, highData, highGdt, highCs⟩ := linked.high
  obtain ⟨csText, csData, csGdt⟩ := linked.rm16CsApart
  obtain ⟨gdtText, gdtData⟩ := linked.gdtApart
  have inData := linked.data
  have vecs16 := linked.vecs16
  have limit : bmemMaxAddr = 2 ^ 20 := rfl
  have bda : bdaAt = 0x400 ∧ bdaStop = 0x484 ∧ bdaEbda = 0x0e ∧ kbBufHead = 0x1a ∧ kbBufTail = 0x1c ∧ kbBufStart = 0x80 ∧
    kbBufEnd = 0x82 := ⟨rfl, rfl, rfl, rfl, rfl, rfl, rfl⟩
  have count : loopCount (syms.numVecs16 % 0x100) = syms.numVecs16 := by
    rw [Nat.mod_eq_of_lt vecsFew, loopCount, if_neg vecsSome.ne']
  have eax : (out.text >>> 4) <<< 16 % 2 ^ 32 < 2 ^ 32 := Nat.mod_lt _ (Nat.two_pow_pos 32)
  rw [count, Word.add_of_lt (by omega)] at same
  have textLoaded : TextLoaded syms out.text mem _ := loadText_loaded linked belowText
  generalize loadText syms out.text mem = afterText at textLoaded same
  have dataLoaded : DataLoaded syms out.data afterText _ := loadData_loaded linked (by omega) belowData
  generalize loadData syms out.data afterText = afterData at dataLoaded same
  have vecsSet : VecsSet syms.numVecs16 _ (out.data + syms.vecs16) 0 afterData _ := setVecs_spec afterData eax (by omega) (by omega)
  generalize setVecs _ _ _ _ afterData = afterVecs at vecsSet same
  have frameKb : ∀ x, x < bdaAt + kbBufHead ∨ bdaAt + kbBufTail + 2 ≤ x → x < bdaAt + kbBufStart ∨ bdaStop ≤ x →
      out.mem x = afterVecs x := fun x offKeys offBounds => by rw [same, setKb_frame offKeys offBounds]
  have frameData : ∀ x, bdaStop ≤ x → out.mem x = afterData x := fun x high => by
    rw [frameKb x (by omega) (by omega), vecsSet.frame x (by omega)]
  have frameText : ∀ x, bdaStop ≤ x → x < out.data ∨ out.data + syms.end16 ≤ x → out.mem x = afterText x :=
    fun x high off => by rw [frameData x high, dataLoaded.frame x (by omega) off]
  refine ⟨blocks, ?_, ?_, ?_, ?_, ?_, ?_, ?_, ⟨_, same ▸ setKb_bdaOf afterVecs⟩, ?_⟩
  · rw [← textLoaded.copy]
    exact Mem.read_congr fun x _ _ => frameText x (by omega) (by omega)
  · refine (Mem.read_congr fun x _ _ => frameData x (by omega)).trans (dataLoaded.copy.trans ?_)
    exact Mem.read_congr fun x _ _ => textLoaded.frame x (by omega) (by omega) (by omega)
  · intro x low high
    exact (frameData x (by omega)).trans (dataLoaded.bss x low high)
  · intro i inside
    have vec := vecsSet.vec i inside
    have entry : afterData.readLE (out.data + (syms.vecs16 + 2 * i)) 2 = mem.readLE (syms.data16Load + (syms.vecs16 + 2 * i)) 2 :=
      (Mem.readLE_part dataLoaded.copy (by omega)).trans
        (Mem.readLE_congr fun x _ _ => textLoaded.frame x (by omega) (by omega) (by omega))
    rw [Nat.zero_add, segEax (by omega), Nat.add_assoc, entry] at vec
    exact (Mem.readLE_congr fun x _ _ => frameKb x (by omega) (by omega)).trans vec
  · have seg : out.mem.readLE syms.rm16Cs 2 = out.text / 16 :=
      (Mem.readLE_congr fun x _ _ => frameText x (by omega) (by omega)).trans textLoaded.rm16Cs
    rw [seg, seg_mul alignedText]
  · have seg : out.mem.readLE (bdaAt + bdaEbda) 2 = out.data / 16 := by
      refine (Mem.readLE_congr fun x _ _ => ?_).trans dataLoaded.ebda
      rw [frameKb x (by omega) (by omega), vecsSet.frame x (by omega)]
    rw [seg, seg_mul ((show paraSize ∣ kibyte by decide).trans alignedData)]
  · refine fun unset => gdt_base (by omega) unset ?_ fun x off inside => ?_
    · exact (Mem.readLE_congr fun x _ _ => frameText x (by omega) (by omega)).trans textLoaded.gdt
    · rw [frameText x (by omega) (by omega), textLoaded.frame x (by omega) (by omega) (by omega)]
  · intro x off
    unfold IsSet at off
    rw [frameKb x (by omega) (by omega), vecsSet.frame x (by omega), dataLoaded.frame x (by omega) (by omega),
      textLoaded.frame x (by omega) (by omega) (by omega)]

/-- Whenever `rm16_init` returns, the real mode code, its data and its vectors are in place, and nothing else is changed. -/
theorem rm16Init_ready (linked : syms.Linked) (table : TableOk map.ranges) (capacity : map.ranges.length ≤ map.maxRanges)
    (roomy : Roomy syms map) (ran : rm16Init syms map mem = .ok out) : Ready syms map mem out := by
  obtain ⟨middle, allocText, allocData, same⟩ := rm16Init_parts ran
  exact ready_of_blocks linked (blocks_of_allocs linked table capacity roomy allocText allocData) same

end

/-- 752 bytes of code, 320 bytes of data, and 29 vectors. -/
def sampleSyms : Syms where
  etext16 := 0x2ee
  end16 := 0x1400
  rmCs16 := 0x40
  vecs16 := 0x60
  numVecs16 := 0x1d
  text16Load := 0x305000
  text16LoadEnd := 0x3052f0
  data16Load := 0x304800
  data16LoadEnd := 0x304940
  gdtDescCs16 := 0x304018
  rm16Cs := 0x306000

theorem sampleSyms_linked : sampleSyms.Linked where
  text := rfl
  textWhole := by decide
  textPadded := by decide
  data := rfl
  dataWhole := by decide
  dataInside := by decide
  endWhole := by decide
  rmCs16 := by decide
  vecs16 := by decide
  numVecs16 := by decide
  high := by decide
  fits := by decide
  gdtApart := by decide
  rm16CsApart := by decide

/-- Base memory up to 636 KiB, and extended memory. -/
def sampleMap : MemMap := ⟨[⟨0, 0x9f000, e820Ram, 1, 15⟩, ⟨0x100000, 0x3f00000, e820Ram, 1, 15⟩], 16, 0x3fff000⟩

theorem rm16Init_ready_sample : ∃ out, rm16Init sampleSyms sampleMap Mem.zero = .ok out ∧ out.text = 0x9ed10 ∧
    out.data = 0x9d800 ∧ Ready sampleSyms sampleMap Mem.zero out := by
  have evaluated : (fun out : Loaded => (out.text, out.data)) <$> rm16Init sampleSyms sampleMap Mem.zero =
      .ok (0x9ed10, 0x9d800) := by decide +kernel
  obtain ⟨out, ran, blocks⟩ := map_eq_ok.mp evaluated
  refine ⟨out, ran, congrArg Prod.fst blocks, congrArg Prod.snd blocks, rm16Init_ready sampleSyms_linked ⟨?_, ?_⟩ ?_ ?_ ran⟩
  · exact List.forall_mem_cons.mpr ⟨⟨by decide, by decide⟩, List.forall_mem_singleton.mpr ⟨by decide, by decide⟩⟩
  · exact List.pairwise_pair.mpr (by decide)
  · decide
  · exact List.forall_mem_cons.mpr ⟨by decide, List.forall_mem_singleton.mpr (by decide)⟩

end Biefircate.Rm16
