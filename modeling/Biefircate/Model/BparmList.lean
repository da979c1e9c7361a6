import Biefircate.Lib.Bytes
import Biefircate.Lib.LinkedList
import Biefircate.Model.Stage1.Bparm

/-! # The list of boot parameters in memory

Stage 1 writes the nodes as a 64-bit program and stage 2 follows them as a 32-bit one. Here a node is
bytes, and the two compilations of `struct bparm` are two layouts. Between calls of `bparm_add` others
allocate base memory, and whoever was given memory writes within it.
-/

namespace Biefircate

/-! ## Layouts -/

/-- How `struct bparm` is compiled: the size of a pointer, and of the reserved field after it. -/
structure BparmLayout where
  sizeofPtr : ℕ
  sizeofReserved : ℕ

namespace BparmLayout

/-- Offset of `type`. -/
def typeAt (layout : BparmLayout) : ℕ := layout.sizeofPtr + layout.sizeofReserved
/-- Offset of `size`. -/
def sizeAt (layout : BparmLayout) : ℕ := layout.typeAt + 4
/-- Offset of the data, which is also `sizeof(bparm_t)`. -/
def dataAt (layout : BparmLayout) : ℕ := layout.sizeAt + 4

/-- The layout with `__x86_64__`. -/
def stage1 : BparmLayout := ⟨8, 0⟩
/-- The layout without. -/
def stage2 : BparmLayout := ⟨4, 4⟩

end BparmLayout

/-- A node, where it is and what it says. -/
structure ListedBparm where
  addr : ℕ
  type : ℕ
  size : ℕ
  data : List UInt8
deriving DecidableEq, Repr

/-- One past the last address of the node. -/
def ListedBparm.stop (node : ListedBparm) : ℕ := node.addr + (sizeofBparm + node.size)

/-- The node with some of its data replaced from `offset` on. -/
def ListedBparm.fill (node : ListedBparm) (offset : ℕ) (bytes : List UInt8) : ListedBparm :=
  { node with data := overwrite node.data offset bytes }

/-- `bp->next`. -/
def nextBparm (layout : BparmLayout) (mem : Mem) (bp : ℕ) : ℕ := mem.readLE bp layout.sizeofPtr

/-- The other fields of the node at `bp`, and its data. -/
def readBparm (layout : BparmLayout) (mem : Mem) (bp : ℕ) : ListedBparm :=
  let size := mem.readLE (bp + layout.sizeAt) 4
  ⟨bp, mem.readLE (bp + layout.typeAt) 4, size, mem.read (bp + layout.dataAt) size⟩

/-- The loop over the list that stage 2 is passed, for at most `fuel` nodes. The pointer is passed
in a 32-bit register. -/
def walkBparms (mem : Mem) (fuel bparms : ℕ) : Option (List ListedBparm) :=
  LinkedList.walk 0 (nextBparm .stage2 mem) (readBparm .stage2 mem) fuel (bparms % 2 ^ 32)

/-! ## Building the list -/

/-- The static variables of `bmem.c` and `bparm.c` and all of memory, with the nodes added and the
regions given to others so far. -/
structure BparmList where
  bmem : Bmem
  bpHead : ℕ
  bpTail : ℕ
  mem : Mem
  added : List ListedBparm
  others : List Region

/-- What happens to the list and to base memory. -/
inductive BparmEvent where
  /-- `bparm_add(type, size)`. -/
  | add (type size : UInt32)
  /-- The caller who added the node in place `i` writes part of its data. -/
  | fill (i offset : ℕ) (bytes : List UInt8)
  /-- Another call of one of the two allocators. -/
  | alloc (call : BmemCall)
  /-- Whoever was given the region in place `i` writes part of it. -/
  | use (i offset : ℕ) (bytes : List UInt8)
deriving DecidableEq, Repr

/-- The fields of a new node, and zeros for its data. -/
def writeBparm (mem : Mem) (bp type size : ℕ) : Mem :=
  let mem := mem.writeLE bp BparmLayout.stage1.sizeofPtr 0
  let mem := mem.writeLE (bp + BparmLayout.stage1.typeAt) 4 type
  let mem := mem.writeLE (bp + BparmLayout.stage1.sizeAt) 4 size
  mem.write (bp + BparmLayout.stage1.dataAt) (List.replicate size 0)

namespace BparmList

/-- Before any call of `bparm_add`. -/
def start (bmem : Bmem) (mem : Mem) : BparmList := ⟨bmem, 0, 0, mem, [], []⟩

/-- `bparm_add`, on the bytes. -/
def add (s : BparmList) (type size : ℕ) : Exec BparmList := do
  let (bp, bmem) ← bmemAllocBoottime s.bmem (sizeofBparm + size) sizeofPtr
  let mem := if s.bpHead = 0 then s.mem else s.mem.writeLE s.bpTail BparmLayout.stage1.sizeofPtr bp
  return { s with
    bmem := bmem
    bpHead := if s.bpHead = 0 then bp else s.bpHead
    bpTail := bp
    mem := writeBparm mem bp type size
    added := s.added ++ [⟨bp, type, size, List.replicate size 0⟩] }

/-- The next event. A write beyond the data, or beyond the region, is not one. -/
def step (s : BparmList) : BparmEvent → Exec BparmList
  | .add type size => s.add type.toNat size.toNat
  | .fill i offset bytes => do
    let node ← load s.added i
    if node.size < offset + bytes.length then .error .outside
    else .ok { s with
      mem := s.mem.write (node.addr + BparmLayout.stage1.dataAt + offset) bytes
      added := s.added.set i (node.fill offset bytes) }
  | .alloc call => do
    let bmem ← s.bmem.step call
    return { s with bmem := bmem, others := s.others ++ bmem.returned.take 1 }
  | .use i offset bytes => do
    let r ← load s.others i
    if r.size < offset + bytes.length then .error .outside
    else .ok { s with mem := s.mem.write (r.start + offset) bytes }

end BparmList

end Biefircate
