import Biefircate.Model.Stage1.Bmem

/-! # The boot parameters in stage 1

Nodes are allocated one by one in base memory and appended to a list. A pointer to a node's data is
the node's place in the list, since callers fill in a node, or part of it, some time after adding it.
-/

namespace Biefircate

/-- A boot parameter and the address of its node. -/
structure BparmNode where
  addr : ℕ
  bp : Bparm
deriving DecidableEq, Repr

/-- One past the last address of the node. -/
def BparmNode.stop (node : BparmNode) : ℕ := node.addr + (sizeofBparm + node.bp.size)

/-- The state of stage 1: base memory, and the list that starts at `bp_head`. -/
structure Stage1 where
  bmem : Bmem
  bparms : List BparmNode
deriving DecidableEq, Repr

/-- The boot parameters themselves, as stage 2 reads them. -/
def Stage1.nodes (s : Stage1) : List Bparm := s.bparms.map BparmNode.bp

/-- `sizeof(void *)` in stage 1. -/
def sizeofPtr : ℕ := 8

/-- `bparm_add`, with the data that the caller goes on to write. -/
def bparmAdd (s : Stage1) (bp : Bparm) : Exec Stage1 := do
  let (addr, bmem) ← bmemAllocBoottime s.bmem (sizeofBparm + bp.size) sizeofPtr
  return ⟨bmem, s.bparms ++ [⟨addr, bp⟩]⟩

/-- Write the data of the node in place `i`. -/
def bparmFill (s : Stage1) (i : ℕ) (bp : Bparm) : Stage1 :=
  { s with bparms := s.bparms.modify i fun node => { node with bp := bp } }

/-- `bparm_add_mem_range`. -/
def bparmAddMemRange (s : Stage1) (start len e820Type e820ExtAttr uefiAttr : ℕ) : Exec Stage1 :=
  if len = 0 then .ok s else bparmAdd s (.mrng ⟨start, len, e820Type, e820ExtAttr, uefiAttr⟩)

/-- `addr_to_rm_seg`. -/
def addrToRmSeg (p : ℕ) : ℕ := p / paraSize % 2 ^ 16

end Biefircate
