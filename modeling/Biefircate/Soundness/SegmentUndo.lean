import Biefircate.Proofs.Stage1.LoadStage2

/-! # What `load_stage2` gives back when it cannot go on

`free_stage2_mem` goes through all earlier headers, whatever their types, takes their addresses as they are, and
takes the size from the first header each time. So it gives back what was granted only if all earlier headers
are alike.
-/

namespace Biefircate

/-- The pages that the calls were granted, where there are any. -/
def pagesGranted (calls : List PageCall) : List (ℕ × ℕ) :=
  calls.filterMap fun
    | .allocate base pages true => if pages = 0 then none else some (base, pages)
    | _ => none

/-- The pages that the calls gave back, where there are any. -/
def pagesFreed (calls : List PageCall) : List (ℕ × ℕ) :=
  calls.filterMap fun
    | .free base pages => if pages = 0 then none else some (base, pages)
    | _ => none

/-- The loop stops at the header `phdr` in place `i`, since its sizes are out of order or it is refused pages. -/
structure StopsAt (fw : Firmware) (file : ℕ → UInt8) (phdrs : List Phdr) (start s : Loader) (i : ℕ) (phdr : Phdr)
    (t : Loader) (why : Stop) : Prop where
  earlier : Run.run (loadSeg fw file phdrs) start (phdrs.take i).zipIdx = .ok s
  header : phdrs[i]? = some phdr
  stops : loadSeg fw file phdrs s (phdr, i) = .error (t, why)
  reason : phdr.pMemsz < phdr.pFilesz ∨
    fw.allocatePages s.calls phdr.adjusted.pPaddr (pagesFor phdr.adjusted.pMemsz) = false

/-- The earlier headers are all to be loaded, begin with a page and take as many pages as the first of all, or
none of them takes pages and neither would the first. -/
def UndoExact (phdrs : List Phdr) (i : ℕ) : Prop :=
  let first := pagesFor ((phdrs.head?.map Phdr.pMemsz).getD 0)
  if first = 0 then ∀ phdr ∈ phdrs.take i, phdr.pType = ptLoad → pagesFor phdr.adjusted.pMemsz = 0
  else ∀ phdr ∈ phdrs.take i, phdr.pType = ptLoad ∧ phdr.pPaddr % efiPageSize = 0 ∧ pagesFor phdr.pMemsz = first

instance (phdrs : List Phdr) (i : ℕ) : Decidable (UndoExact phdrs i) := by
  unfold UndoExact
  infer_instance

section

variable {fw : Firmware} {file : ℕ → UInt8} {phdrs : List Phdr} {start s t : Loader} {i : ℕ} {phdr : Phdr} {why : Stop}

/-- The pages that a header is granted. -/
def Phdr.granted (phdr : Phdr) : Option (ℕ × ℕ) :=
  if phdr.pType = ptLoad ∧ pagesFor phdr.adjusted.pMemsz ≠ 0 then
    some (phdr.adjusted.pPaddr, pagesFor phdr.adjusted.pMemsz)
  else none

theorem loadSeg_granted (ran : loadSeg fw file phdrs s (phdr, i) = .ok t) :
    pagesGranted t.calls = pagesGranted s.calls ++ phdr.granted.toList ∧ pagesFreed t.calls = pagesFreed s.calls := by
  rcases loadSeg_ok ran with ⟨other, rfl⟩ | ⟨isLoad, _, _, filled⟩
  · have none : phdr.granted = none := if_neg fun both => other both.1
    rw [none]
    exact ⟨(List.append_nil _).symm, rfl⟩
  · rw [filled.calls]
    refine ⟨?_, ?_⟩
    · simp only [pagesGranted, List.filterMap_append, Phdr.granted, isLoad, true_and]
      congr 1
      by_cases zero : pagesFor phdr.adjusted.pMemsz = 0 <;> simp [zero]
    · simp [pagesFreed, List.filterMap_append]

/-- What iterations that go on are granted, and that they give nothing back. -/
theorem loadSegs_granted {headers : List Phdr} {first : ℕ}
    (ran : Run.run (loadSeg fw file phdrs) start (headers.zipIdx first) = .ok s) :
    pagesGranted s.calls = pagesGranted start.calls ++ headers.filterMap Phdr.granted ∧
      pagesFreed s.calls = pagesFreed start.calls := by
  induction headers generalizing start first with
  | nil =>
    cases ran
    exact ⟨(List.append_nil _).symm, rfl⟩
  | cons phdr rest ih =>
    obtain ⟨next, stepped, tail⟩ := Run.run_cons_eq_ok.mp ran
    obtain ⟨granted, freed⟩ := loadSeg_granted stepped
    obtain ⟨granted', freed'⟩ := ih tail
    refine ⟨?_, freed'.trans freed⟩
    rw [granted', granted, List.append_assoc]
    congr 1
    cases here : phdr.granted with
    | none => rw [List.filterMap_cons_none here]; rfl
    | some pages => rw [List.filterMap_cons_some here]; rfl

/-- What the loop gives back when it stops. -/
theorem StopsAt.calls (stops : StopsAt fw file phdrs start s i phdr t why) :
    ∃ refused, t.calls = s.calls ++ refused ++ (phdrs.take i).map (fun phdr =>
        .free phdr.pPaddr (pagesFor ((phdrs.head?.map Phdr.pMemsz).getD 0))) ∧
      pagesGranted refused = [] ∧ pagesFreed refused = [] := by
  have ran := stops.stops
  rw [loadSeg] at ran
  dsimp only at ran
  split at ran
  · cases ran
  · split at ran
    · cases ran
      exact ⟨[], by rw [List.append_nil, freeStage2Mem], rfl, rfl⟩
    · next order =>
      have refused := stops.reason.resolve_left order
      rw [refused, if_neg Bool.false_ne_true] at ran
      cases ran
      exact ⟨_, rfl, rfl, rfl⟩

theorem pagesFreed_map_free (headers : List Phdr) (pages : ℕ) : pagesFreed (headers.map fun phdr => .free phdr.pPaddr pages) =
    if pages = 0 then [] else headers.map fun phdr => (phdr.pPaddr, pages) := by
  rw [pagesFreed, List.filterMap_map]
  split
  · next zero =>
    exact List.filterMap_eq_nil_iff.mpr fun _ _ => if_pos zero
  · next some => exact List.filterMap_eq_map_iff_forall_eq_some.mpr fun _ _ => if_neg some

theorem pagesGranted_map_free (headers : List Phdr) (pages : ℕ) :
    pagesGranted (headers.map fun phdr => .free phdr.pPaddr pages) = [] := by
  rw [pagesGranted, List.filterMap_map]
  exact List.filterMap_eq_nil_iff.mpr fun _ _ => rfl

theorem Phdr.granted_eq_none_iff : phdr.granted = none ↔ (phdr.pType = ptLoad → pagesFor phdr.adjusted.pMemsz = 0) := by
  rw [Phdr.granted]
  split
  · next loaded => exact ⟨fun same => (nomatch same), fun empty => absurd (empty loaded.1) loaded.2⟩
  · next other => exact ⟨fun _ isLoad => not_not.mp fun pages => other ⟨isLoad, pages⟩, fun _ => rfl⟩

/-- A header is granted the pages that the undo loop gives back for it. -/
theorem Phdr.granted_eq_some_iff {pages : ℕ} (positive : pages ≠ 0) : phdr.granted = some (phdr.pPaddr, pages) ↔
    phdr.pType = ptLoad ∧ phdr.pPaddr % efiPageSize = 0 ∧ pagesFor phdr.pMemsz = pages := by
  have low := Nat.mod_le phdr.pPaddr efiPageSize
  constructor
  · intro granted
    rw [Phdr.granted] at granted
    split at granted
    · next loaded =>
      obtain ⟨start, size⟩ := Prod.ext_iff.mp (Option.some.inj granted)
      dsimp only at start size
      have aligned : phdr.pPaddr % efiPageSize = 0 := by
        by_contra slack
        have moved : phdr.adjusted.pPaddr = phdr.pPaddr - phdr.pPaddr % efiPageSize := by
          rw [Phdr.adjusted, if_neg slack]
        omega
      rw [Phdr.adjusted, if_pos aligned] at size
      exact ⟨loaded.1, aligned, size⟩
    · cases granted
  · rintro ⟨isLoad, aligned, size⟩
    have same : phdr.adjusted = phdr := if_pos aligned
    rw [Phdr.granted, same, size, if_pos ⟨isLoad, positive⟩]

/-- Whenever the loop stops at a header so, it gives back exactly what the earlier headers were granted if and
only if these are alike. -/
theorem loadStage2_undo_iff (fresh : start.calls = []) (stops : StopsAt fw file phdrs start s i phdr t why) :
    loadSegs fw file start phdrs = .error (t, why) ∧
      (pagesFreed t.calls = pagesGranted t.calls ↔ UndoExact phdrs i) := by
  obtain ⟨inside, here⟩ := List.getElem?_eq_some_iff.mp stops.header
  have length : (phdrs.take i).length = i := List.length_take_of_le inside.le
  have rest : phdrs.zipIdx = (phdrs.take i).zipIdx ++ (phdr, i) :: (phdrs.drop (i + 1)).zipIdx (i + 1) := by
    have cut : phdrs = phdrs.take i ++ phdr :: phdrs.drop (i + 1) := by
      rw [← here, List.getElem_cons_drop, List.take_append_drop]
    have both := congrArg (fun headers => List.zipIdx headers 0) cut
    rwa [List.zipIdx_append, List.zipIdx_cons, length, Nat.zero_add] at both
  refine ⟨?_, ?_⟩
  · rw [loadSegs, rest]
    exact Run.run_append_error stops.earlier stops.stops
  · obtain ⟨granted, freed⟩ := loadSegs_granted stops.earlier
    obtain ⟨refused, calls, none, none'⟩ := stops.calls
    have given : pagesGranted t.calls = (phdrs.take i).filterMap Phdr.granted := by
      rw [calls, pagesGranted, List.filterMap_append, List.filterMap_append, ← pagesGranted, ← pagesGranted,
        ← pagesGranted, granted, none, pagesGranted_map_free, fresh, List.append_nil, List.append_nil]
      rfl
    have back : pagesFreed t.calls = pagesFreed ((phdrs.take i).map fun phdr =>
        .free phdr.pPaddr (pagesFor ((phdrs.head?.map Phdr.pMemsz).getD 0))) := by
      rw [calls, pagesFreed, List.filterMap_append, List.filterMap_append, ← pagesFreed, ← pagesFreed, ← pagesFreed,
        freed, none', fresh]
      rfl
    rw [given, back, pagesFreed_map_free, UndoExact]
    split
    · rw [eq_comm, List.filterMap_eq_nil_iff]
      exact forall₂_congr fun phdr _ => Phdr.granted_eq_none_iff
    · next some =>
      rw [eq_comm, List.filterMap_eq_map_iff_forall_eq_some]
      exact forall₂_congr fun phdr _ => Phdr.granted_eq_some_iff some

end

/-- Two segments of a page each, and a header whose sizes are out of order. -/
def alikeHeaders : List Phdr :=
  [⟨ptLoad, 0x1000, 0x200000, 0x10, 0x1000⟩, ⟨ptLoad, 0x2000, 0x300000, 0, 0x20⟩, ⟨ptLoad, 0, 0x400000, 2, 1⟩]

theorem loadStage2_undo_iff_sample : ∃ t why, loadSegs generous (fun _ => 0) ⟨.zero, [], []⟩ alikeHeaders = .error (t, why) ∧
    (pagesFreed t.calls = pagesGranted t.calls ↔ UndoExact alikeHeaders 2) := by
  obtain ⟨s, ran⟩ := exists_of_isOk
    (x := Run.run (loadSeg generous (fun _ => 0) alikeHeaders) ⟨.zero, [], []⟩ (alikeHeaders.take 2).zipIdx) (by decide +kernel)
  exact ⟨_, _, loadStage2_undo_iff rfl ⟨ran, rfl, rfl, Or.inl (by decide)⟩⟩

/-- As before, but the second segment takes two pages. -/
def unlikeHeaders : List Phdr :=
  [⟨ptLoad, 0x1000, 0x200000, 0x10, 0x1000⟩, ⟨ptLoad, 0x2000, 0x300000, 0, 0x2000⟩, ⟨ptLoad, 0, 0x400000, 2, 1⟩]

/-- The second of these pages is not given back. -/
theorem unlikeHeaders_leak : ∃ s t why,
    StopsAt generous (fun _ => 0) unlikeHeaders ⟨.zero, [], []⟩ s 2 ⟨ptLoad, 0, 0x400000, 2, 1⟩ t why ∧
      pagesGranted t.calls = [(0x200000, 1), (0x300000, 2)] ∧ pagesFreed t.calls = [(0x200000, 1), (0x300000, 1)] := by
  have evaluated : (fun s : Loader => s.calls) <$>
      Run.run (loadSeg generous (fun _ => 0) unlikeHeaders) ⟨.zero, [], []⟩ (unlikeHeaders.take 2).zipIdx =
        .ok [.allocate 0x200000 1 true, .allocate 0x300000 2 true] := rfl
  obtain ⟨s, ran, calls⟩ := map_eq_ok.mp evaluated
  refine ⟨s, _, _, ⟨ran, rfl, rfl, Or.inl (by decide)⟩, ?_, ?_⟩
  · rw [freeStage2Mem, calls]
    rfl
  · rw [freeStage2Mem, calls]
    rfl

end Biefircate
