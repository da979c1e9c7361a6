import Biefircate.Model.Stage2.PageTable

/-! # Virtual memory in stage 2

`va_init` sets up paging: it notes the address ranges that nothing occupies, maps everything between
them to itself, and maps the ranges that must not be cached once more with other flags. Afterwards
`mem_va_map` takes virtual addresses from the noted ranges, and `mem_va_unmap` gives them back.
-/

namespace Biefircate

/-- `va_range_t`: a range of unused virtual addresses. -/
structure VaRange where
  start : ℕ
  len : ℕ
deriving DecidableEq, Repr, Inhabited

/-- `sizeof(va_range_t)` and `_Alignof(va_range_t)`. -/
def sizeofVaRange : ℕ := 8
def alignofVaRange : ℕ := 4

/-- The state that the routines for virtual memory share; `unused` is
`unused_va_ranges[0 .. num_unused_va_ranges)`. -/
structure Va where
  paging : Paging
  unused : List VaRange
  maxUnused : ℕ

/-! ## Initialization -/

def efiMemoryWt : ℕ := 0x4
def efiMemoryWb : ℕ := 0x8

/-- `uefi_attr_to_pte_flags`. -/
def uefiAttrToPteFlags (uefiAttr : ℕ) : ℕ :=
  if uefiAttr &&& efiMemoryWb ≠ 0 then 0 else if uefiAttr &&& efiMemoryWt ≠ 0 then pteWt else pteCd

/-- Where the gap above an entry starts: the first page after the entry, and not within base memory. Past
the 4 GiB mark there is none. -/
def gapStart (mr : MemRange) : Option ℕ :=
  let prevEnd := Word.add 64 mr.start mr.len
  if xm32MaxAddr - 1 ≤ Word.sub 64 prevEnd 1 then none
  else
    let prevEnd := Word.sub 64 (Word.add 64 prevEnd pageSize) 1 &&& Word.mask 64 pageSize
    if xm32MaxAddr - 1 ≤ Word.sub 64 prevEnd 1 then none
    else some (if prevEnd < bmemMaxAddr then bmemMaxAddr else prevEnd)

/-- Where the gap below the next entry ends, if there is one. -/
def gapStop : List MemRange → ℕ
  | [] => xm32MaxAddr
  | mr :: _ =>
    let start := mr.start &&& Word.mask 64 pageSize
    if xm32MaxAddr < start then xm32MaxAddr else start

/-- The range between two addresses, in the types of `va_range_t`. -/
def vaRangeBetween (prevEnd start : ℕ) : VaRange :=
  ⟨prevEnd % 2 ^ 32, Word.sub 32 (start % 2 ^ 32) (prevEnd % 2 ^ 32)⟩

/-- The loop of `va_init` that finds the unused ranges, over the remaining entries of the map. -/
def findUnused : List MemRange → List VaRange
  | [] => []
  | mr :: rest =>
    (gapStart mr).elim [] fun prevEnd =>
      if gapStop rest ≤ prevEnd then findUnused rest
      else vaRangeBetween prevEnd (gapStop rest) :: findUnused rest

/-- The first part of `va_init`: allocate `unused_va_ranges`, and fill it in. -/
def initUnusedVaRanges (map : MemMap) : Exec (List VaRange × MemMap) := do
  let (_, map) ← memAlloc map (Word.mul 32 map.maxRanges sizeofVaRange) alignofVaRange 0
  return (findUnused map.ranges, map)

/-- The loop that allocates the page directories, with `left` of them to go. -/
def addPds (p : Paging) : ℕ → ℕ → Exec Paging
  | 0, _ => .ok p
  | left + 1, i => do
    let (pd, map) ← memAlloc p.map pageSize pageSize 0
    let cleared : Paging := { p with map := map, words := fillPage p.words pd fun _ => 0 }
    addPds (cleared.setWord (p.pdpt + 8 * i) (pd ||| pteP)) left (i + 1)

/-- The loop that maps what lies between the unused ranges to itself. -/
def mapBetween (p : Paging) : List VaRange → Exec Paging
  | prev :: next :: rest => do
    let prevEnd := Word.add 32 prev.start prev.len
    let p ← doVaIdMap p prevEnd (Word.sub 32 next.start prevEnd) 0
    mapBetween p (next :: rest)
  | _ => .ok p

/-- The pages of an entry that is not to be cached, up to the 4 GiB mark: `start` and `len`. -/
def remapSpan (mr : MemRange) : ℕ × ℕ :=
  let start := mr.start % 2 ^ 32
  let len := if xm32MaxAddr - start ≤ mr.len then Word.sub 32 0 start else mr.len % 2 ^ 32
  let (start, len) :=
    if start % pageSize ≠ 0 then
      (start &&& Word.mask 32 pageSize, Word.add 32 len (start % pageSize))
    else (start, len)
  (start, if len % pageSize ≠ 0 then Word.sub 32 (Word.add 32 len pageSize) 1 &&& Word.mask 32 pageSize
    else len)

/-- The loop that maps the ranges that are not to be cached, from entry `i` on. The map may grow
meanwhile. -/
def remapFrom : ℕ → Paging → ℕ → Exec Paging
  | 0, _, _ => .error .stuck
  | fuel + 1, p, i =>
    if i < p.map.ranges.length then do
      let mr ← load p.map.ranges i
      let pteFlags := uefiAttrToPteFlags mr.uefiAttr
      if pteFlags = 0 ∨ xm32MaxAddr ≤ mr.start then remapFrom fuel p (i + 1)
      else
        let (start, len) := remapSpan mr
        let p ← doVaIdMap p start len pteFlags
        let passed := (p.map.ranges.drop i).takeWhile fun other => decide (other.start ≤ mr.start)
        remapFrom fuel p (i + passed.length)
    else .ok p

/-- `va_init`, up to the point where paging is in force. Where the memory for `unused_va_ranges` is not
written, its first word is `stale`. -/
def vaInit (map : MemMap) (words : ℕ → ℕ) (stale : ℕ) : Exec Va := do
  let mvr := map.maxRanges
  let (unused, map) ← initUnusedVaRanges map
  let (pdpt, map) ← memAlloc map (4 * 8) pdptAlign 0
  let p ← addPds ⟨map, words, pdpt⟩ 4 0
  let first ← load p.map.ranges 0
  let p ← doVaIdMap p 0 (match unused with | [] => stale | vr :: _ => vr.start)
    (uefiAttrToPteFlags first.uefiAttr)
  let p ← mapBetween p unused
  let p ← remapFrom (p.map.maxRanges + 1) p 0
  return ⟨p, unused, mvr⟩

/-- `mem_init`, with the words of memory and the stale word before it. -/
def memInit (bparms : List Bparm) (words : ℕ → ℕ) (stale : ℕ) : Exec Va := do
  let map ← memMapInit bparms
  vaInit map words stale

/-! ## Mapping and unmapping -/

/-- The loop of `mem_va_map`: the last of the first ranges that is large enough, and its index. -/
def findVa (unused : List VaRange) (szToMap : ℕ) : ℕ → Exec (ℕ × VaRange)
  | 0 => .error .hlt
  | i + 1 => do
    let vr ← load unused i
    if szToMap ≤ vr.len then .ok (i, vr) else findVa unused szToMap i

/-- The first page of `pa`, and the size of the pages that `pa` and the `sz` bytes from there are in. -/
def pagesToMap (pa sz : ℕ) : ℕ × ℕ :=
  let pstart := pa &&& Word.mask 64 pageSize
  let pend := Word.sub 64 (Word.add 64 (Word.add 64 pa sz) pageSize) 1 &&& Word.mask 64 pageSize
  (pstart, Word.sub 64 pend pstart)

/-- `mem_va_map`: the virtual address, and the state after. -/
def memVaMap (s : Va) (pa sz pteFlags : ℕ) : Exec (ℕ × Va) :=
  if sz = 0 then .ok (0, s)
  else
    let (pstart, szToMap) := pagesToMap pa sz
    if xm32MaxAddr ≤ szToMap then .error .hlt
    else do
      let (i, vr) ← findVa s.unused szToMap s.unused.length
      let vrsz := Word.sub 32 vr.len szToMap
      let vstart := Word.add 32 vr.start vrsz
      let paging ← doVaMap s.paging vstart pstart szToMap pteFlags
      return (Word.add 32 vstart (pa % pageSize),
        { s with paging := paging, unused := s.unused.set i { vr with len := vrsz } })

/-- The loop of `mem_va_unmap` that gives a range back, over the first entries from the last of them
down. -/
def giveBack (unused : List VaRange) (maxUnused vstart vend szToUnmap : ℕ) : ℕ → Exec (List VaRange)
  | 0 => .error .hlt
  | i + 1 => do
    let vr ← load unused i
    if vr.start = vend then .ok (unused.set i ⟨vstart, Word.add 32 vr.len szToUnmap⟩)
    else if Word.add 32 vr.start vr.len = vstart then
      .ok (unused.set i { vr with len := Word.add 32 vr.len szToUnmap })
    else if vr.start < vstart then
      if unused.length = maxUnused then .error .hlt
      else .ok (unused.take (i + 1) ++ ⟨vstart, szToUnmap⟩ :: unused.drop (i + 1))
    else giveBack unused maxUnused vstart vend szToUnmap i

/-- `mem_va_unmap`. -/
def memVaUnmap (s : Va) (va sz : ℕ) : Exec Va :=
  if sz = 0 then .ok s
  else do
    let vstart := va &&& Word.mask 32 pageSize
    let vend := Word.sub 32 (Word.add 32 (Word.add 32 va sz) pageSize) 1 &&& Word.mask 32 pageSize
    let szToUnmap := Word.sub 32 vend vstart
    let paging ← doVaUnmap s.paging vstart szToUnmap
    let unused ← giveBack s.unused s.maxUnused vstart vend szToUnmap s.unused.length
    return { s with paging := paging, unused := unused }

/-! ## Runs -/

/-- What a call of `mem_va_map` was asked for, and its result. -/
structure VaBlock where
  va : ℕ
  pa : ℕ
  sz : ℕ
  pteFlags : ℕ
deriving DecidableEq, Repr

/-- The state, and the blocks that were mapped and not yet unmapped. -/
structure VaRun where
  va : Va
  live : List VaBlock

inductive VaEvent where
  /-- `mem_va_map(pa, sz, pteFlags)`. -/
  | map (pa sz pteFlags : ℕ)
  /-- `mem_va_unmap` with the address and the size of the live block in place `i`. -/
  | unmap (i : ℕ)
deriving DecidableEq, Repr

/-- The next call. -/
def VaRun.step (s : VaRun) : VaEvent → Exec VaRun
  | .map pa sz pteFlags => do
    let (va, after) ← memVaMap s.va pa sz pteFlags
    return ⟨after, s.live ++ [⟨va, pa, sz, pteFlags⟩]⟩
  | .unmap i => do
    let block ← load s.live i
    let after ← memVaUnmap s.va block.va block.sz
    return ⟨after, s.live.eraseIdx i⟩

end Biefircate
