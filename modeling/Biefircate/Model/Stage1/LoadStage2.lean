import Biefircate.Lib.Bytes
import Biefircate.Model.Stage1.Bmem

/-! # Loading stage 2

`load_stage2` reads the program headers of an ELF file and, for each segment, takes pages from the firmware,
reads part of the segment and clears the rest. If it cannot go on it undoes the allocations. Calls of the page
allocator and spans of memory written are recorded along with the state, which the program does not do.
-/

namespace Biefircate

/-! ## The firmware -/

/-- A call of the page allocator; an allocation says whether it succeeded. -/
inductive PageCall where
  | allocate (base pages : ℕ) (granted : Bool)
  | free (base pages : ℕ)
deriving DecidableEq, Repr

/-- What the firmware decides: whether `AllocatePages` grants pages at an address, given the calls before,
and the message with which reading a part of the file ends the program, if it does. -/
structure Firmware where
  allocatePages : List PageCall → ℕ → ℕ → Bool
  readError : ℕ → ℕ → Option String

/-- Memory, the calls of the page allocator so far, and the spans of memory written so far. -/
structure Loader where
  mem : Mem
  calls : List PageCall
  written : List (ℕ × ℕ)

/-- A part of `load_stage2`. If it ends the program, the state by then is kept. -/
abbrev Loading := Except (Loader × Stop)

namespace Loader

/-- Write some bytes. -/
def put (s : Loader) (a : ℕ) (bytes : List UInt8) : Loader :=
  { s with mem := s.mem.write a bytes, written := s.written ++ [(a, bytes.length)] }

/-- `seek_stage2` and `read_stage2`. -/
def seekRead (fw : Firmware) (file : ℕ → UInt8) (s : Loader) (pos size buf : ℕ) : Loading Loader :=
  if size = 0 then .ok s
  else
    match fw.readError pos size with
    | none => .ok (s.put buf (Mem.read file pos size))
    | some msg => .error (s, .error msg)

end Loader

/-! ## Program headers -/

/-- `PT_LOAD`. -/
def ptLoad : ℕ := 1

/-- `Elf32_Phdr`, as far as it is used. -/
structure Phdr where
  pType : ℕ
  pOffset : ℕ
  pPaddr : ℕ
  pFilesz : ℕ
  pMemsz : ℕ
deriving DecidableEq, Repr, Inhabited

/-- The fields are of 32 bits. -/
structure Phdr.Typed (phdr : Phdr) : Prop where
  pOffset : phdr.pOffset < 2 ^ 32
  pPaddr : phdr.pPaddr < 2 ^ 32
  pFilesz : phdr.pFilesz < 2 ^ 32
  pMemsz : phdr.pMemsz < 2 ^ 32

/-- The number of pages that `memsz` bytes take. -/
def pagesFor (memsz : ℕ) : ℕ := (memsz + efiPageSize - 1) / efiPageSize

/-- `free_stage2_mem`. The loop steps through the headers, but takes `p_memsz` from the first. -/
def freeStage2Mem (s : Loader) (phdrs : List Phdr) (phCnt : ℕ) : Loader :=
  { s with calls := s.calls ++ (phdrs.take phCnt).map fun phdr =>
      .free phdr.pPaddr (pagesFor ((phdrs.head?.map Phdr.pMemsz).getD 0)) }

/-- `off`, `paddr`, `filesz` and `memsz` once they allow for the `slack` before the segment in its page. -/
def Phdr.adjusted (phdr : Phdr) : Phdr :=
  let slack := phdr.pPaddr % efiPageSize
  if slack = 0 then phdr
  else { phdr with
    pOffset := Word.sub 32 phdr.pOffset slack
    pPaddr := phdr.pPaddr - slack
    pFilesz := if phdr.pFilesz = 0 then phdr.pFilesz else Word.add 32 phdr.pFilesz slack
    pMemsz := Word.add 32 phdr.pMemsz slack }

/-- Read the segment into the pages it was granted, and clear the rest. -/
def fillSeg (fw : Firmware) (file : ℕ → UInt8) (s : Loader) (seg : Phdr) : Loading Loader := do
  let s ← s.seekRead fw file seg.pOffset seg.pFilesz seg.pPaddr
  return s.put (seg.pPaddr + seg.pFilesz) (List.replicate (Word.sub 32 seg.pMemsz seg.pFilesz) 0)

/-- The body of the loop of `load_stage2`, for the header `phdr` in place `phIdx`. -/
def loadSeg (fw : Firmware) (file : ℕ → UInt8) (phdrs : List Phdr) (s : Loader) (header : Phdr × ℕ) : Loading Loader :=
  let (phdr, phIdx) := header
  if phdr.pType ≠ ptLoad then .ok s
  else if phdr.pMemsz < phdr.pFilesz then .error (freeStage2Mem s phdrs phIdx, .error "bad stage2")
  else
    let seg := phdr.adjusted
    let pages := pagesFor seg.pMemsz
    let granted := fw.allocatePages s.calls seg.pPaddr pages
    let s := { s with calls := s.calls ++ [.allocate seg.pPaddr pages granted] }
    if granted then fillSeg fw file s seg
    else .error (freeStage2Mem s phdrs phIdx, .error "cannot get mem. for ELF seg.")

/-- The loop of `load_stage2`. -/
def loadSegs (fw : Firmware) (file : ℕ → UInt8) (s : Loader) (phdrs : List Phdr) : Loading Loader :=
  Run.run (loadSeg fw file phdrs) s phdrs.zipIdx

/-! ## The ELF header -/

/-- `sizeof(Elf32_Ehdr)` and `sizeof(Elf32_Phdr)`. -/
def sizeofEhdr : ℕ := 52
def sizeofPhdr : ℕ := 32
/-- The capacity of `phdrs`. -/
def maxPhdrs : ℕ := 16
/-- `ELFMAG0` to `ELFMAG3`. -/
def elfMag : List UInt8 := [0x7f, 0x45, 0x4c, 0x46]
def evCurrent : ℕ := 1
def em386 : ℕ := 3

/-- The header in place `i` of the table at `pos`. -/
def readPhdr (file : ℕ → UInt8) (pos i : ℕ) : Phdr :=
  let word (offset : ℕ) : ℕ := Mem.readLE file (pos + i * sizeofPhdr + offset) 4
  ⟨word 0, word 4, word 12, word 16, word 20⟩

/-- `phdrs`, from `e_phoff` and `e_phnum`. -/
def readPhdrs (file : ℕ → UInt8) : List Phdr :=
  (List.range (Mem.readLE file 44 2)).map (readPhdr file (Mem.readLE file 28 4))

/-- `load_stage2` from where it has opened the file: the entry point, and the state after. The two headers are
read into variables of its own. -/
def loadStage2 (fw : Firmware) (file : ℕ → UInt8) (s : Loader) : Loading (ℕ × Loader) :=
  let half (offset : ℕ) : ℕ := Mem.readLE file offset 2
  let word (offset : ℕ) : ℕ := Mem.readLE file offset 4
  let phCnt := half 44
  match fw.readError 0 sizeofEhdr with
  | some msg => .error (s, .error msg)
  | none =>
    if Mem.read file 0 4 ≠ elfMag ∨ (file 6).toNat ≠ evCurrent ∨ word 20 ≠ evCurrent ∨ half 40 < sizeofEhdr ∨
        half 42 ≠ sizeofPhdr ∨ maxPhdrs < phCnt ∨ half 18 ≠ em386 then
      .error (s, .error "bad stage2")
    else
      match if phCnt = 0 then none else fw.readError (word 28) (phCnt * sizeofPhdr) with
      | some msg => .error (s, .error msg)
      | none => do
        let s ← loadSegs fw file s (readPhdrs file)
        return (word 24, s)

end Biefircate
