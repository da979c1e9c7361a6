import Biefircate.Lib.Run
import Biefircate.Lib.Word

/-! # What both stages share

The ways a stage can stop, the memory constants of `common.h`, and the boot parameters of
`bparm.h`. Machine integers are naturals; the operations that wrap say so. A boot parameter is
kept as the value of its `union`, since both stages choose the member by the node's type.
-/

namespace Biefircate

/-- Why an execution ends without a result. -/
inductive Stop where
  /-- Stage 1's `error(msg)`, which does not return. -/
  | error (msg : String)
  /-- Stage 2's `hlt()`, reached with interrupts disabled. -/
  | hlt
  /-- An access outside the bounds of an array, after which the C program has no meaning. -/
  | outside
  /-- A loop whose exit condition can never become true. -/
  | stuck
deriving DecidableEq, Repr

/-- A computation of either stage. -/
abbrev Exec := Except Stop

/-- `arr[i]`. -/
def load {α : Type} (arr : List α) (i : ℕ) : Exec α :=
  match arr[i]? with
  | some a => .ok a
  | none => .error .outside

/-- `arr[i] = a`. -/
def store {α : Type} (arr : List α) (i : ℕ) (a : α) : Exec (List α) :=
  if i < arr.length then .ok (arr.set i a) else .error .outside

theorem load_eq_ok {α : Type} {arr : List α} {i : ℕ} {a : α} : load arr i = .ok a ↔ arr[i]? = some a := by
  unfold load
  cases arr[i]? <;> simp

theorem load_of_lt {α : Type} {arr : List α} {i : ℕ} (inside : i < arr.length) :
    load arr i = .ok arr[i] := load_eq_ok.mpr (List.getElem?_eq_getElem inside)

/-- An entry that was read splits the array around its index. -/
theorem split_of_load {α : Type} {arr : List α} {i : ℕ} {a : α} (loaded : load arr i = .ok a) :
    ∃ before after, arr = before ++ a :: after ∧ before.length = i := by
  obtain ⟨inside, at_i⟩ := List.getElem?_eq_some_iff.mp (load_eq_ok.mp loaded)
  refine ⟨arr.take i, arr.drop (i + 1), ?_, by rw [List.length_take]; omega⟩
  rw [← at_i, List.getElem_cons_drop, List.take_append_drop]

theorem store_of_lt {α : Type} {arr : List α} {i : ℕ} (inside : i < arr.length) (a : α) :
    store arr i a = .ok (arr.set i a) := if_pos inside

/-! ## Constants of `common.h` -/

def paraSize : ℕ := 0x10
def kibyte : ℕ := 1024
def hkibyte : ℕ := kibyte / 2
/-- The 1 MiB mark. -/
def bmemMaxAddr : ℕ := 0x100000

def e820Ram : ℕ := 1
def e820Reserved : ℕ := 2
def e820Acpi : ℕ := 3
def e820Nvs : ℕ := 4
def e820Pmem : ℕ := 7

/-! ## Boot parameters -/

/-- "PCID": a PCI device and where its option ROM image is. -/
structure BdatPciDev where
  pciLocn : ℕ
  pciId : ℕ
  classIf : ℕ
  rimgSeg : ℕ
  rimgRtSeg : ℕ
  rimgSz : ℕ
deriving DecidableEq, Repr, Inhabited

/-- "BMEM": the base memory stage 2 may use, as real mode segments. -/
structure BdatBmem where
  boottimeBmemBotSeg : ℕ
  runtimeBmemTopSeg : ℕ
deriving DecidableEq, Repr, Inhabited

/-- "MRNG": a memory address range at run time. -/
structure BdatMemRange where
  start : ℕ
  len : ℕ
  e820Type : ℕ
  e820ExtAttr : ℕ
  uefiAttr : ℕ
deriving DecidableEq, Repr, Inhabited

/-- "RSDP": where the ACPI Root System Description Pointer is. -/
structure BdatRsdp where
  rsdpPhyAddr : ℕ
  rsdpSz : ℕ
deriving DecidableEq, Repr, Inhabited

/-- A boot parameter: its type and the member of the data union that the type selects. -/
inductive Bparm where
  | pcid (pciDev : BdatPciDev)
  | bmem (bmem : BdatBmem)
  | mrng (memRange : BdatMemRange)
  | rsdp (rsdp : BdatRsdp)
deriving DecidableEq, Repr

/-- `sizeof` of the packed data. -/
def Bparm.size : Bparm → ℕ
  | .pcid _ => 20
  | .bmem _ => 4
  | .mrng _ => 32
  | .rsdp _ => 12

/-- `sizeof(bparm_t)`: in both compilations the header before the data has this size. -/
def sizeofBparm : ℕ := 16

/-- The address ranges described, in the order of the list. -/
def memRanges (bparms : List Bparm) : List BdatMemRange :=
  bparms.filterMap fun
    | .mrng r => some r
    | _ => none

@[simp] theorem memRanges_nil : memRanges [] = [] := rfl

@[simp] theorem memRanges_append (first second : List Bparm) :
    memRanges (first ++ second) = memRanges first ++ memRanges second := List.filterMap_append ..

theorem mem_memRanges {bparms : List Bparm} {r : BdatMemRange} :
    r ∈ memRanges bparms ↔ .mrng r ∈ bparms := by
  simp only [memRanges, List.mem_filterMap]
  constructor
  · rintro ⟨bp, member, selected⟩
    cases bp with
    | mrng other => cases selected; exact member
    | pcid _ => cases selected
    | bmem _ => cases selected
    | rsdp _ => cases selected
  · intro member
    exact ⟨_, member, rfl⟩

namespace BdatMemRange

/-- One past the last address of the range. -/
def stop (r : BdatMemRange) : ℕ := r.start + r.len

end BdatMemRange

end Biefircate
