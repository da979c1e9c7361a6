import Biefircate.Model.Common

/-! # The physical memory map of stage 2

`mem.c` keeps the memory map as an array of ranges sorted by address, in memory it carves out of
the map itself, and allocates by cutting ranges from the top. The array is the list of its first
`num_mem_ranges` entries. Addresses are 64 bits wide, pointers, sizes and indices 32.
-/

namespace Biefircate

/-- `XM32_MAX_ADDR`: the 4 GiB mark. -/
def xm32MaxAddr : ℕ := 0x100000000
def pageSize : ℕ := 0x1000

/-- The boot parameters as stage 2 finds them: fields of their C types, in nodes that share a
32-bit address space with at least the page of the real mode interrupt vectors. -/
structure BootParams where
  nodes : List Bparm
  typed : ∀ r ∈ memRanges nodes, r.start < 2 ^ 64 ∧ r.len < 2 ^ 64
  fits : (nodes.map fun bp => sizeofBparm + bp.size).sum ≤ xm32MaxAddr - pageSize

/-- An entry of `mem_ranges`. -/
structure MemRange where
  start : ℕ
  len : ℕ
  e820Type : ℕ
  e820ExtAttr : ℕ
  uefiAttr : ℕ
deriving DecidableEq, Repr, Inhabited

/-- `sizeof(mem_range_t)`. -/
def sizeofMemRange : ℕ := 32

/-- One past the last address of the range. -/
def MemRange.stop (mr : MemRange) : ℕ := mr.start + mr.len

/-- `mem_ranges[0 .. num_mem_ranges)`, with its address and `max_mem_ranges`. -/
structure MemMap where
  ranges : List MemRange
  maxRanges : ℕ
  base : ℕ
deriving DecidableEq, Repr, Inhabited

/-! ## Sorting -/

/-- The inner loop of `shellsort`: move the hole at `j` down until `v` fits in it. -/
def sink (h : ℕ) (v : MemRange) (mrs : List MemRange) (j : ℕ) : Exec (List MemRange) :=
  if _room : 0 < h ∧ h ≤ j then do
    let u ← load mrs (j - h)
    if v.start < u.start then sink h v (← store mrs j u) (j - h)
    else store mrs j v
  else store mrs j v
termination_by j

/-- The middle loop: insert each entry from `i` on among those `h` apart before it. -/
def sweep (h : ℕ) (mrs : List MemRange) (nmr i : ℕ) : Exec (List MemRange) :=
  if i < nmr then do
    let v ← load mrs i
    sweep h (← sink h v mrs i) nmr (i + 1)
  else .ok mrs
termination_by nmr - i

/-- The outer loop: sweep with gaps `h`, `h >> 1`, and so on down to 1. -/
def sweeps (mrs : List MemRange) (nmr h : ℕ) : Exec (List MemRange) := do
  let swept ← sweep h mrs nmr h
  if h / 2 = 0 then .ok swept else sweeps swept nmr (h / 2)
termination_by h

/-- `while (h < nmr) h *= 2`, in 32 bits. Once `h` has wrapped to zero it stays there. -/
def growGap (nmr : ℕ) : ℕ → ℕ → Exec ℕ
  | 0, _ => .error .stuck
  | fuel + 1, h => if h < nmr then growGap nmr fuel (Word.mul 32 h 2) else .ok h

def shellsort (mrs : List MemRange) (nmr : ℕ) : Exec (List MemRange) :=
  if nmr < 2 then .ok mrs else do
    let h ← growGap nmr 33 1
    sweeps mrs nmr (h - 1)

/-! ## Searching and splitting -/

/-- `mr->start + mr->len - 1 > max_addr - 1`. -/
def MemRange.EndsAbove (mr : MemRange) (maxAddr : ℕ) : Prop :=
  Word.sub 64 maxAddr 1 < Word.sub 64 (Word.add 64 mr.start mr.len) 1

instance (mr : MemRange) (maxAddr : ℕ) : Decidable (mr.EndsAbove maxAddr) :=
  inferInstanceAs (Decidable (_ < _))

/-- The binary search of `find_highest_range_below`. -/
def bisect (mrs : List MemRange) (maxAddr : ℕ) : ℕ → ℕ → ℕ → Exec ℕ
  | 0, _, _ => .error .stuck
  | fuel + 1, left, right =>
    if left < Word.sub 32 right 1 then do
      let mid := Word.add 32 left right / 2
      let mr ← load mrs mid
      if mr.EndsAbove maxAddr then bisect mrs maxAddr fuel left mid
      else bisect mrs maxAddr fuel mid right
    else .ok left

/-- The linear search that follows it. -/
def backOff (mrs : List MemRange) (maxAddr : ℕ) : ℕ → Exec ℕ
  | 0 => do
    let mr ← load mrs 0
    if mr.EndsAbove maxAddr then .error .hlt else .ok 0
  | left + 1 => do
    let mr ← load mrs (left + 1)
    if mr.EndsAbove maxAddr then backOff mrs maxAddr left else .ok (left + 1)

/-- The index of the entry that `find_highest_range_below` points to. -/
def findHighestRangeBelow (mrs : List MemRange) (maxAddr : ℕ) : Exec ℕ := do
  let left ← bisect mrs maxAddr (mrs.length + 1) 0 mrs.length
  backOff mrs maxAddr left

/-- Split entry `i` in two. The entries above it move up by one, which leaves a copy of it in the
slot above. -/
def splitRange (m : MemMap) (i splitPoint typeBelow typeAbove : ℕ) : Exec MemMap := do
  let mr ← load m.ranges i
  if mr.start = splitPoint then
    .ok { m with ranges := m.ranges.set i { mr with e820Type := typeAbove } }
  else if Word.add 64 mr.start mr.len = splitPoint then
    .ok { m with ranges := m.ranges.set i { mr with e820Type := typeBelow } }
  else if m.maxRanges ≤ m.ranges.length then .error .hlt
  else
    let len := Word.sub 64 splitPoint mr.start
    let below := { mr with len := len, e820Type := typeBelow }
    let above :=
      { mr with start := splitPoint, len := Word.sub 64 mr.len len, e820Type := typeAbove }
    let shifted := m.ranges.take (i + 1) ++ m.ranges.drop i
    .ok { m with ranges := (shifted.set i below).set (i + 1) above }

/-! ## Allocation -/

/-- What the downward scan of `mem_alloc` does with an entry. -/
inductive Scan where
  | take (astart : ℕ)
  | halt
  | next

/-- The body of the scan. The end of the entry and the block are 32-bit pointers. -/
def scan (mr : MemRange) (sz align : ℕ) : Scan :=
  if mr.e820Type ≠ e820Ram ∨ mr.len < sz then .next
  else
    let aend := Word.add 64 mr.start mr.len % 2 ^ 32
    let astart := Word.sub 32 aend sz &&& Word.mask 32 align
    if mr.start ≤ astart then .take astart
    else if mr.start = 0 then .halt
    else .next

/-- The scan, from entry `i` down. Below entry 0 it would leave the array. -/
def scanDown (mrs : List MemRange) (sz align : ℕ) : ℕ → Exec (ℕ × ℕ)
  | 0 => do
    match scan (← load mrs 0) sz align with
    | .take astart => .ok (0, astart)
    | .halt => .error .hlt
    | .next => .error .outside
  | i + 1 => do
    match scan (← load mrs (i + 1)) sz align with
    | .take astart => .ok (i + 1, astart)
    | .halt => .error .hlt
    | .next => scanDown mrs sz align i

/-- The end of the area that `mem_alloc` may allocate from. -/
def allocLimit (maxAddr : ℕ) : ℕ := if maxAddr = 0 then xm32MaxAddr else maxAddr

/-- The block that `mem_alloc` returns, and the map it leaves. -/
def memAlloc (m : MemMap) (sz align maxAddr : ℕ) : Exec (ℕ × MemMap) :=
  if sz = 0 then .ok (0, m)
  else if allocLimit maxAddr < sz then .error .hlt
  else do
    let top ← findHighestRangeBelow m.ranges (allocLimit maxAddr)
    let (i, astart) ← scanDown m.ranges sz align top
    let split ← splitRange m i astart e820Ram e820Reserved
    return (astart, split)

/-- The arguments of a call of `mem_alloc`. -/
structure AllocReq where
  sz : ℕ
  align : ℕ
  maxAddr : ℕ
deriving DecidableEq, Repr

/-- A call that returned: the map it found, its arguments, its result and the map it left. -/
structure AllocCall where
  old : MemMap
  req : AllocReq
  astart : ℕ
  new : MemMap
deriving DecidableEq, Repr

/-- One past the last address of the block that the call returned. -/
def AllocCall.stop (call : AllocCall) : ℕ := call.astart + call.req.sz

/-- The map, and the calls of `mem_alloc` so far. -/
structure Allocs where
  map : MemMap
  calls : List AllocCall
deriving DecidableEq, Repr

/-- The next call. -/
def Allocs.step (s : Allocs) (req : AllocReq) : Exec Allocs := do
  let (astart, new) ← memAlloc s.map req.sz req.align req.maxAddr
  return ⟨new, ⟨s.map, req, astart, new⟩ :: s.calls⟩

/-! ## Building the map from the boot parameters -/

/-- The body of the loop that counts the non-empty ranges. -/
def countRange (mmr : ℕ) : Bparm → ℕ
  | .mrng r => if r.len ≠ 0 then Word.add 32 mmr 1 else mmr
  | _ => mmr

/-- The capacity to reserve: half as many entries again as there are non-empty ranges. -/
def mapCapacity (bparms : List Bparm) : ℕ :=
  let mmr := Word.add 32 (Word.mul 32 3 (bparms.foldl countRange 1)) 1 / 2
  if mmr < 16 then 16 else mmr

/-- A range that can hold the map: available memory below the 4 GiB mark. -/
def BdatMemRange.Holds (r : BdatMemRange) (needSpace : ℕ) : Prop :=
  r.e820Type = e820Ram ∧ r.start < xm32MaxAddr ∧ r.len ≤ xm32MaxAddr - r.start ∧ needSpace ≤ r.len

instance (r : BdatMemRange) (needSpace : ℕ) : Decidable (r.Holds needSpace) :=
  inferInstanceAs (Decidable (_ ∧ _))

/-- The loop that picks the highest range that can hold the map, with its place in the list. -/
def chooseRange (needSpace : ℕ) :
    ℕ → List Bparm → Option (ℕ × BdatMemRange) → Option (ℕ × BdatMemRange)
  | _, [], chosen => chosen
  | i, .mrng r :: rest, chosen =>
    if r.Holds needSpace ∧ (∀ c ∈ chosen, c.2.start < r.start) then
      chooseRange needSpace (i + 1) rest (some (i, r))
    else chooseRange needSpace (i + 1) rest chosen
  | i, _ :: rest, chosen => chooseRange needSpace (i + 1) rest chosen

def MemRange.ofBdat (r : BdatMemRange) : MemRange :=
  ⟨r.start, r.len, r.e820Type, r.e820ExtAttr, r.uefiAttr⟩

/-- The chosen range without the map's own memory, which follows it as a reserved range. -/
def carveMap (r : BdatMemRange) (mrs needSpace : ℕ) : List MemRange :=
  let rest := { MemRange.ofBdat r with len := Word.sub 64 r.len needSpace }
  let map := { MemRange.ofBdat r with start := mrs, len := needSpace, e820Type := e820Reserved }
  if rest.len ≠ 0 then [rest, map] else [map]

/-- The loop that copies out the memory map, discarding empty ranges. -/
def copyRanges (chosen mrs needSpace : ℕ) : ℕ → List Bparm → List MemRange
  | _, [] => []
  | i, .mrng r :: rest =>
    if r.len = 0 then copyRanges chosen mrs needSpace (i + 1) rest
    else if i = chosen then carveMap r mrs needSpace ++ copyRanges chosen mrs needSpace (i + 1) rest
    else MemRange.ofBdat r :: copyRanges chosen mrs needSpace (i + 1) rest
  | i, _ :: rest => copyRanges chosen mrs needSpace (i + 1) rest

/-- `mem_map_init`. The copy has room for `mapCapacity` entries. -/
def memMapInit (bparms : List Bparm) : Exec MemMap := do
  let mmr := mapCapacity bparms
  let needSpace := Word.mul 32 mmr sizeofMemRange
  match chooseRange needSpace 0 bparms none with
  | none => .error .hlt
  | some (chosen, r) =>
    let mrs := Word.sub 64 (Word.add 64 r.start r.len) needSpace % 2 ^ 32
    let copied := copyRanges chosen mrs needSpace 0 bparms
    if mmr < copied.length then .error .outside
    else return ⟨← shellsort copied copied.length, mmr, mrs⟩

end Biefircate
