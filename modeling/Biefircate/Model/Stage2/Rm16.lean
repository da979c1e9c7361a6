import Biefircate.Model.Stage2.Clib
import Biefircate.Model.Stage2.Kb
import Biefircate.Model.Stage2.MemMap

/-! # Setting up the real mode code of stage 2

`rm16_init` copies the 16-bit code and data of stage 2 into base memory, points the interrupt vectors to the code, and sets up
the BIOS data area. The registers are 32 bits wide, and the direction flag is clear. The memory map is kept apart from the
rest of memory.
-/

namespace Biefircate.Rm16

/-! ## Symbols -/

/-- `_stext16` and `_sdata16`, which `16.ld` sets. -/
def stext16 : ℕ := 0
def sdata16 : ℕ := 0

/-- The other symbols of the 16-bit code and data, where stage 2 keeps the copies to load, and what else `rm16_init` sets. -/
structure Syms where
  etext16 : ℕ
  end16 : ℕ
  /-- Offset of the segment number in `jmp 0:rm16_call.cont2`. -/
  rmCs16 : ℕ
  vecs16 : ℕ
  numVecs16 : ℕ
  text16Load : ℕ
  text16LoadEnd : ℕ
  data16Load : ℕ
  data16LoadEnd : ℕ
  gdtDescCs16 : ℕ
  rm16Cs : ℕ
deriving DecidableEq, Repr

/-- The address of `bda`, and the offset of `bda.ebda`. -/
def bdaAt : ℕ := 0x0400
def bdaEbda : ℕ := 0x0e

/-! ## Instructions -/

/-- `rep stosd`, for a number of words: EDI and memory. -/
def repStos (eax : ℕ) : ℕ → ℕ → Mem → ℕ × Mem
  | 0, edi, mem => (edi, mem)
  | count + 1, edi, mem => repStos eax count (Word.add 32 edi 4) (mem.writeLE edi 4 eax)

/-- How often `loop` goes through its body. -/
def loopCount (ecx : ℕ) : ℕ := if ecx = 0 then 2 ^ 32 else ecx

/-! ## `rm16_init` -/

/-- The code: the base of its segment, its copy and its segment number, in `rm16_cs` and in the copy. -/
def loadText (syms : Syms) (text : ℕ) (mem : Mem) : Mem :=
  let mem := mem.writeLE (syms.gdtDescCs16 + 2) 4 (mem.readLE (syms.gdtDescCs16 + 2) 4 ||| text)
  let mem := (Clib.repMovs false 4 (Word.sub 32 syms.text16LoadEnd syms.text16Load / 4) (UInt32.ofNat syms.text16Load)
    (UInt32.ofNat (text + stext16)) mem).2.2
  (mem.writeLE syms.rm16Cs 2 (text >>> 4)).writeLE (Word.add 32 text syms.rmCs16) 2 (text >>> 4)

/-- The data: the EBDA pointer, the copy of what is initialized, and zeros for the rest. -/
def loadData (syms : Syms) (data : ℕ) (mem : Mem) : Mem :=
  let mem := mem.writeLE (bdaAt + bdaEbda) 2 (data >>> 4)
  let moved := Clib.repMovs false 4 (Word.sub 32 syms.data16LoadEnd syms.data16Load / 4) (UInt32.ofNat syms.data16Load)
    (UInt32.ofNat (data + sdata16)) mem
  let edi := moved.2.1.toNat
  (repStos 0 (Word.sub 32 (Word.add 32 data (syms.end16 + 3)) edi >>> 2) edi moved.2.2).2

/-- `.vecs`, for a number of vectors: each is a word of the table with the high half of EAX. -/
def setVecs : ℕ → ℕ → ℕ → ℕ → Mem → Mem
  | 0, _, _, _, mem => mem
  | count + 1, eax, esi, edi, mem =>
    let eax := eax / 0x10000 * 0x10000 + mem.readLE esi 2
    setVecs count eax (Word.add 32 esi 2) (Word.add 32 edi 4) (mem.writeLE edi 4 eax)

/-- The keyboard buffer. -/
def setKb (mem : Mem) : Mem :=
  let ax := defKbBuf
  let mem := mem.writeLE (bdaAt + kbBufStart) 2 ax
  let mem := mem.writeLE (bdaAt + kbBufHead) 2 ax
  let mem := mem.writeLE (bdaAt + kbBufTail) 2 ax
  let ax := ax / 0x100 * 0x100 + defKbBufEnd
  mem.writeLE (bdaAt + kbBufEnd) 2 ax

/-- What `rm16_init` leaves, with the blocks that it allocated. -/
structure Loaded where
  map : MemMap
  mem : Mem
  text : ℕ
  data : ℕ

/-- `rm16_init`. -/
def rm16Init (syms : Syms) (map : MemMap) (mem : Mem) : Exec Loaded := do
  let (text, map) ← memAlloc map syms.etext16 paraSize bmemMaxAddr
  let mem := loadText syms text mem
  let (data, map) ← memAlloc map syms.end16 kibyte bmemMaxAddr
  let mem := loadData syms data mem
  -- ECX is zero but for the number of vectors in CL, and EDI is the zero of EAX.
  let mem := setVecs (loopCount (syms.numVecs16 % 0x100)) ((text >>> 4) <<< 16 % 2 ^ 32) (Word.add 32 data syms.vecs16) 0 mem
  return ⟨map, setKb mem, text, data⟩

end Biefircate.Rm16
