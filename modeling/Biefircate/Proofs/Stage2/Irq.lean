import Biefircate.Model.Stage2.Irq
import Biefircate.Proofs.Stage2.VaBlocks

/-! # The walk undoes what it maps

Each function of the walk ends the mappings it makes, the last one first. So between a mapping and its end
virtual memory comes back to what it was, and the length that is read again is the one that was mapped.
-/

namespace Biefircate

/-! ## Reading -/

section

variable {mem : Mem} {p p' : Paging} {va va' n v : ℕ} {bytes : List UInt8}

/-- Reads agree where translations do. -/
theorem bytesAt_congr (same : ∀ k < n, p'.translate ((va' + k) % 2 ^ 32) = p.translate ((va + k) % 2 ^ 32)) :
    bytesAt mem p' va' n = bytesAt mem p va n := by
  induction n generalizing va va' with
  | zero => rfl
  | succ n ih =>
    have first : p'.translate (va' % 2 ^ 32) = p.translate (va % 2 ^ 32) := same 0 (Nat.succ_pos n)
    have rest : bytesAt mem p' (va' + 1) n = bytesAt mem p (va + 1) n := ih fun k inside => by
      have next := same (k + 1) (Nat.succ_lt_succ inside)
      rwa [Nat.add_comm k 1, ← Nat.add_assoc, ← Nat.add_assoc] at next
    rw [bytesAt, bytesAt, byteAt, byteAt, first, rest]

theorem bytesAt_length (ran : bytesAt mem p va n = .ok bytes) : bytes.length = n := by
  induction n generalizing va bytes with
  | zero =>
    cases ran
    rfl
  | succ n ih =>
    obtain ⟨byte, _, ran⟩ := bind_eq_ok.mp ran
    obtain ⟨rest, found, same⟩ := bind_eq_ok.mp ran
    cases same
    rw [List.length_cons, ih found]

/-- Reads of what is mapped are reads of physical memory. -/
theorem bytesAt_eq_read {pa : ℕ} (mapped : ∀ k < n, ∃ writable flags,
      p.translate ((va + k) % 2 ^ 32) = some ⟨(pa + k) % 2 ^ 52, writable, flags⟩) :
    bytesAt mem p va n = .ok (Mem.read (fun a => mem (a % 2 ^ 52)) pa n) := by
  induction n generalizing va pa with
  | zero => rfl
  | succ n ih =>
    obtain ⟨writable, flags, first⟩ := mapped 0 (Nat.succ_pos n)
    have rest : bytesAt mem p (va + 1) n = .ok (Mem.read (fun a => mem (a % 2 ^ 52)) (pa + 1) n) := ih fun k inside => by
      have next := mapped (k + 1) (Nat.succ_lt_succ inside)
      rwa [Nat.add_comm k 1, ← Nat.add_assoc, ← Nat.add_assoc] at next
    rw [Nat.add_zero, Nat.add_zero] at first
    rw [bytesAt, byteAt, first, rest]
    rfl

theorem numberAt_lt (ran : numberAt mem p va n = .ok v) : v < 256 ^ n := by
  obtain ⟨bytes, found, rfl⟩ := map_eq_ok.mp ran
  have bound := ofBytes_lt bytes
  rwa [bytesAt_length found] at bound

end

/-! ## Calls that nest -/

/-- The pages that a call maps or unmaps: where they start, and their size. -/
def VaCall.span : VaCall → ℕ × ℕ
  | .map pa sz _ va => if sz = 0 then (0, 0) else (va - pa % pageSize, (pagesToMap pa sz).2)
  | .unmap va sz => if sz = 0 then (0, 0) else pagesToUnmap va sz

/-- Each unmapping ends the last mapping that has not ended, and is of the pages of that mapping. -/
inductive Nested : List VaCall → Prop
  | nil : Nested []
  | block {pa sz pteFlags va sz' : ℕ} {inner rest : List VaCall}
      (covers : (VaCall.unmap va sz').span = (VaCall.map pa sz pteFlags va).span)
      (within : Nested inner) (after : Nested rest) :
      Nested (.map pa sz pteFlags va :: inner ++ .unmap va sz' :: rest)

theorem Nested.append {first second : List VaCall} (left : Nested first) (right : Nested second) :
    Nested (first ++ second) := by
  induction left with
  | nil => exact right
  | block covers within _ _ ih =>
    rw [List.append_assoc, List.cons_append]
    exact .block covers within ih

section

variable {s t u v : AcpiWalk} {pa sz flags va : ℕ}

namespace AcpiWalk

/-- The walk has undone the mappings that it made, which nested. -/
structure Returned (s t : AcpiWalk) : Prop where
  calls : ∃ calls, t.calls = s.calls ++ calls ∧ Nested calls
  va : s.va.Restored t.va

theorem Returned.refl (ready : s.va.Ready) : s.Returned s := ⟨⟨[], by simp, .nil⟩, .refl ready.ok⟩

theorem Returned.trans (first : s.Returned t) (second : t.Returned u) : s.Returned u := by
  obtain ⟨early, calls, nested⟩ := first.calls
  obtain ⟨late, calls', nested'⟩ := second.calls
  exact ⟨⟨early ++ late, by rw [calls', calls, List.append_assoc], nested.append nested'⟩, first.va.trans second.va⟩

/-- Reads find what they found before. -/
theorem Returned.bytes {mem : Mem} {n : ℕ} (ready : s.va.Ready) (returned : s.Returned t) :
    t.bytes mem va n = s.bytes mem va n :=
  bytesAt_congr fun _ _ => returned.va.translate ready.ok (Nat.mod_lt _ (by decide))

theorem Returned.number {mem : Mem} {n : ℕ} (ready : s.va.Ready) (returned : s.Returned t) :
    t.number mem va n = s.number mem va n := congrArg (ofBytes <$> ·) (returned.bytes ready)

/-- The walk has made a mapping, and has undone those before it. -/
structure Opened (pa sz flags va : ℕ) (s t : AcpiWalk) : Prop where
  word : pa < 2 ^ 64
  typed : sz < 2 ^ 32
  cache : CacheFlags flags
  made : ∃ r, s.Returned r ∧ r.vaMap pa sz flags = .ok (va, t)

/-- What a mapping of some bytes does to virtual memory. -/
theorem Opened.mappedTo (ready : s.va.Ready) (opened : Opened pa sz flags va s t) (nonzero : sz ≠ 0) :
    ∃ r q, s.Returned r ∧ va = q * 2 ^ 12 + pa % 2 ^ 12 ∧
      r.va.MappedTo flags q (pa / 2 ^ 12) ((pa % 2 ^ 12 + sz + 4095) / 2 ^ 12) t.va := by
  obtain ⟨r, returned, ran⟩ := opened.made
  obtain ⟨⟨_, after⟩, mapped, same⟩ := bind_eq_ok.mp ran
  cases same
  obtain ⟨q, block, mappedTo⟩ :=
    memVaMap_ok (returned.va.ok ready.ok) opened.word opened.typed nonzero opened.cache mapped
  exact ⟨r, q, returned, block, mappedTo⟩

theorem Opened.ready (ready : s.va.Ready) (opened : Opened pa sz flags va s t) : t.va.Ready := by
  by_cases nothing : sz = 0
  · obtain ⟨r, returned, ran⟩ := opened.made
    obtain ⟨⟨_, after⟩, mapped, same⟩ := bind_eq_ok.mp ran
    cases same
    rw [memVaMap, if_pos nothing] at mapped
    cases mapped
    exact returned.va.ready ready
  · obtain ⟨r, q, returned, _, mappedTo⟩ := opened.mappedTo ready nothing
    exact mappedTo.ready (returned.va.ready ready)

/-- The bytes of a block are those that it was mapped to. -/
theorem Opened.translate {k : ℕ} (ready : s.va.Ready) (opened : Opened pa sz flags va s t) (inside : k < sz) :
    t.va.paging.translate ((va + k) % 2 ^ 32) = some ⟨(pa + k) % 2 ^ 52, true, flags⟩ := by
  obtain ⟨r, q, _, block, mappedTo⟩ := opened.mappedTo ready (Nat.ne_of_gt (Nat.zero_lt_of_lt inside))
  obtain ⟨small, translated⟩ := mappedTo.translate opened.cache block (show pa % 2 ^ 12 + k < _ by omega)
  rwa [Nat.mod_eq_of_lt small]

/-- A block is above base memory, and does not wrap. -/
theorem Opened.placed (ready : s.va.Ready) (opened : Opened pa sz flags va s t) (nonzero : sz ≠ 0) :
    2 ^ 20 ≤ va ∧ va + sz ≤ 2 ^ 32 := by
  obtain ⟨r, q, _, block, mappedTo⟩ := opened.mappedTo ready nonzero
  have low := mappedTo.low
  have high := mappedTo.high
  omega

/-- A number in a block is one in physical memory. -/
theorem Opened.number {mem : Mem} {off n : ℕ} (ready : s.va.Ready) (opened : Opened pa sz flags va s t)
    (inside : off + n ≤ sz) :
    t.number mem (va + off) n = .ok (Mem.readLE (fun a => mem (a % 2 ^ 52)) (pa + off) n) := by
  refine congrArg (ofBytes <$> ·) (bytesAt_eq_read fun k few => ⟨true, flags, ?_⟩)
  rw [Nat.add_assoc, Nat.add_assoc, opened.translate ready (by omega)]

/-- Ending a mapping with its own address and size is of its own pages. -/
theorem Opened.covers (ready : s.va.Ready) (opened : Opened pa sz flags va s t) :
    (VaCall.unmap va sz).span = (VaCall.map pa sz flags va).span := by
  rw [VaCall.span, VaCall.span]
  split
  · rfl
  · next nonzero =>
    obtain ⟨r, q, _, block, mappedTo⟩ := opened.mappedTo ready nonzero
    have positive := mappedTo.positive
    have low := mappedTo.low
    have high := mappedTo.high
    have start : va - pa % pageSize = q * 2 ^ 12 := by
      rw [pageSize]
      omega
    rw [pagesToMap_eq opened.word opened.typed, start]
    refine (pagesToUnmap_eq ?_ ?_ high positive ?_).1
    all_goals omega

/-- Ending a mapping with its own address and size returns, if all that happened in between did. -/
theorem Opened.close (ready : s.va.Ready) (opened : Opened pa sz flags va s t) (returned : t.Returned u)
    (ran : u.vaUnmap va sz = .ok v) : s.Returned v := by
  obtain ⟨r, before, made⟩ := opened.made
  obtain ⟨⟨_, mappedVa⟩, mapped, same⟩ := bind_eq_ok.mp made
  cases same
  obtain ⟨after, unmapped, same⟩ := bind_eq_ok.mp ran
  cases same
  obtain ⟨early, calls, nested⟩ := before.calls
  obtain ⟨inner, calls', nested'⟩ := returned.calls
  refine ⟨⟨early ++ (.map pa sz flags va :: inner ++ [.unmap va sz]), ?_,
    nested.append (.block (opened.covers ready) nested' .nil)⟩, ?_⟩
  · dsimp only at calls' ⊢
    rw [calls', calls]
    simp
  · by_cases nothing : sz = 0
    · rw [memVaMap, if_pos nothing] at mapped
      rw [memVaUnmap, if_pos nothing] at unmapped
      cases mapped
      cases unmapped
      exact before.va.trans returned.va
    · have readyR := before.va.ready ready
      obtain ⟨q, block, mappedTo⟩ := memVaMap_ok readyR.ok opened.word opened.typed nothing opened.cache mapped
      have undone : r.va.Restored after :=
        memVaUnmap_restores readyR.ok readyR.apart mappedTo returned.va nothing (by omega) (by omega) unmapped
      exact before.va.trans undone

/-- A mapping made at once. -/
theorem Opened.of_vaMap (ready : s.va.Ready) (word : pa < 2 ^ 64) (typed : sz < 2 ^ 32) (cache : CacheFlags flags)
    (ran : s.vaMap pa sz flags = .ok (va, t)) : Opened pa sz flags va s t := ⟨word, typed, cache, s, .refl ready, ran⟩

/-- Masking interrupts leaves virtual memory alone. -/
theorem maskInterrupts_ok (ready : s.va.Ready) (ran : s.maskInterrupts va = .ok t) : s.Returned t := by
  unfold maskInterrupts at ran
  split at ran
  · cases ran
  · cases ran
    exact ⟨⟨[], by simp, .nil⟩, .refl ready.ok⟩

end AcpiWalk

end

/-! ## The functions of the walk -/

section

variable {layout : AcpiLayout} {mem : Mem} {s t u v : AcpiWalk} {tab64 tab rounds : ℕ}

/-- A table has been mapped, with its length or the size of the union if that is larger. -/
def TabOpened (layout : AcpiLayout) (mem : Mem) (tab64 tab : ℕ) (s t : AcpiWalk) : Prop :=
  ∃ length, t.number mem (tab + layout.lengthAt) 4 = .ok length ∧
    AcpiWalk.Opened tab64 (if length < layout.sizeofTableUnion then layout.sizeofTableUnion else length) 0 tab s t

theorem acpiMapTab_ok (ready : s.va.Ready) (word : tab64 < 2 ^ 64)
    (ran : acpiMapTab layout mem s tab64 = .ok (tab, t)) : TabOpened layout mem tab64 tab s t := by
  have inside := layout.lengthInside
  obtain ⟨⟨tab1, s1⟩, mapped, ran⟩ := bind_eq_ok.mp ran
  have opened := AcpiWalk.Opened.of_vaMap ready word layout.typed (by decide) mapped
  obtain ⟨length, read, ran⟩ := bind_eq_ok.mp ran
  have typed := numberAt_lt read
  split at ran
  · next larger =>
    obtain ⟨s2, unmapped, remapped⟩ := bind_eq_ok.mp ran
    have returned := opened.close ready (.refl (opened.ready ready)) unmapped
    have opened' : AcpiWalk.Opened tab64 length 0 tab s t := ⟨word, typed, by decide, s2, returned, remapped⟩
    refine ⟨length, ?_, by rwa [if_neg (by omega)]⟩
    -- Both mappings are of the same bytes.
    rw [← read]
    refine congrArg (ofBytes <$> ·) (bytesAt_congr fun k few => ?_)
    rw [Nat.add_assoc, Nat.add_assoc, opened.translate ready (by omega), opened'.translate ready (by omega)]
  · next smaller =>
    cases ran
    refine ⟨length, read, ?_⟩
    split
    · exact opened
    · rwa [show length = layout.sizeofTableUnion by omega]

/-- Unmapping a table returns: the length is still the same. -/
theorem acpiUnmapTab_ok (ready : s.va.Ready) (opened : TabOpened layout mem tab64 tab s t) (returned : t.Returned u)
    (ran : acpiUnmapTab layout mem u tab = .ok v) : s.Returned v := by
  obtain ⟨length, read, opened⟩ := opened
  obtain ⟨again, found, ran⟩ := bind_eq_ok.mp ran
  rw [returned.number (opened.ready ready), read] at found
  cases found
  exact opened.close ready returned ran

theorem TabOpened.ready (ready : s.va.Ready) (opened : TabOpened layout mem tab64 tab s t) : t.va.Ready := by
  obtain ⟨_, _, opened⟩ := opened
  exact opened.ready ready

theorem acpiProcessIc_ok {ic : ℕ} (ready : s.va.Ready) (ran : acpiProcessIc mem s ic = .ok t) : s.Returned t := by
  obtain ⟨type, _, ran⟩ := bind_eq_ok.mp ran
  split at ran
  · obtain ⟨ioapicPhy, read, ran⟩ := bind_eq_ok.mp ran
    obtain ⟨⟨ioapic, s1⟩, mapped, ran⟩ := bind_eq_ok.mp ran
    obtain ⟨s2, masked, unmapped⟩ := bind_eq_ok.mp ran
    have word := numberAt_lt read
    have opened := AcpiWalk.Opened.of_vaMap ready (by omega) (by decide) (by decide) mapped
    exact opened.close ready (AcpiWalk.maskInterrupts_ok (opened.ready ready) masked) unmapped
  · cases ran
    exact .refl ready

theorem acpiProcessMadtFrom_ok {madtEnd ic : ℕ} (ready : s.va.Ready)
    (ran : acpiProcessMadtFrom mem madtEnd rounds s ic = .ok t) : s.Returned t := by
  induction rounds generalizing s ic with
  | zero => cases ran
  | succ rounds ih =>
    rw [acpiProcessMadtFrom] at ran
    split at ran
    · cases ran
      exact .refl ready
    · obtain ⟨s1, processed, ran⟩ := bind_eq_ok.mp ran
      obtain ⟨length, _, ran⟩ := bind_eq_ok.mp ran
      have first := acpiProcessIc_ok ready processed
      exact first.trans (ih (first.va.ready ready) ran)

theorem acpiProcessMadt_ok {madt : ℕ} (ready : s.va.Ready) (ran : acpiProcessMadt layout mem rounds s madt = .ok t) :
    s.Returned t := by
  obtain ⟨_, _, ran⟩ := bind_eq_ok.mp ran
  exact acpiProcessMadtFrom_ok ready ran

theorem acpiProcessTab_ok (ready : s.va.Ready) (ran : acpiProcessTab layout mem rounds s tab = .ok t) :
    s.Returned t := by
  obtain ⟨signature, _, ran⟩ := bind_eq_ok.mp ran
  split at ran
  · exact acpiProcessMadt_ok ready ran
  · cases ran
    exact .refl ready

theorem acpiProcessXsdtFrom_ok {xsdt left i : ℕ} (ready : s.va.Ready)
    (ran : acpiProcessXsdtFrom layout mem rounds xsdt left s i = .ok t) : s.Returned t := by
  induction left generalizing s i with
  | zero =>
    cases ran
    exact .refl ready
  | succ left ih =>
    obtain ⟨tab64, read, ran⟩ := bind_eq_ok.mp ran
    obtain ⟨⟨tab, s1⟩, mapped, ran⟩ := bind_eq_ok.mp ran
    obtain ⟨s2, processed, ran⟩ := bind_eq_ok.mp ran
    obtain ⟨s3, unmapped, ran⟩ := bind_eq_ok.mp ran
    have opened := acpiMapTab_ok ready (numberAt_lt read) mapped
    have first := acpiUnmapTab_ok ready opened (acpiProcessTab_ok (opened.ready ready) processed) unmapped
    exact first.trans (ih (first.va.ready ready) ran)

theorem acpiProcessXsdt_ok {xsdt : ℕ} (ready : s.va.Ready) (ran : acpiProcessXsdt layout mem rounds s xsdt = .ok t) :
    s.Returned t := by
  obtain ⟨_, _, ran⟩ := bind_eq_ok.mp ran
  exact acpiProcessXsdtFrom_ok ready ran

theorem acpiProcessRsdp_ok {rsdp : ℕ} (ready : s.va.Ready) (ran : acpiProcessRsdp layout mem rounds s rsdp = .ok t) :
    s.Returned t := by
  obtain ⟨signature, _, ran⟩ := bind_eq_ok.mp ran
  split at ran
  · cases ran
  · obtain ⟨xsdt64, read, ran⟩ := bind_eq_ok.mp ran
    obtain ⟨⟨xsdt, s1⟩, mapped, ran⟩ := bind_eq_ok.mp ran
    obtain ⟨s2, processed, unmapped⟩ := bind_eq_ok.mp ran
    have opened := acpiMapTab_ok ready (numberAt_lt read) mapped
    exact acpiUnmapTab_ok ready opened (acpiProcessXsdt_ok (opened.ready ready) processed) unmapped

theorem findRsdp_mem {bparms : List Bparm} {rsdp : BdatRsdp} (found : findRsdp bparms = .ok rsdp) : .rsdp rsdp ∈ bparms := by
  induction bparms with
  | nil => cases found
  | cons bp rest ih =>
    cases bp with
    | rsdp other =>
      cases found
      exact List.mem_cons_self ..
    | pcid _ => exact List.mem_cons_of_mem _ (ih found)
    | bmem _ => exact List.mem_cons_of_mem _ (ih found)
    | mrng _ => exact List.mem_cons_of_mem _ (ih found)

/-- Whenever the walk ends, it has undone all its mappings. -/
theorem irqInit_ok {bparms : List Bparm} (ready : s.va.Ready)
    (typed : ∀ rsdp, .rsdp rsdp ∈ bparms → rsdp.rsdpPhyAddr < 2 ^ 64 ∧ rsdp.rsdpSz < 2 ^ 32)
    (ran : irqInit layout mem rounds s bparms = .ok t) : s.Returned t := by
  obtain ⟨bdRsdp, found, ran⟩ := bind_eq_ok.mp ran
  obtain ⟨⟨rsdp, s1⟩, mapped, ran⟩ := bind_eq_ok.mp ran
  obtain ⟨s2, processed, unmapped⟩ := bind_eq_ok.mp ran
  obtain ⟨word, size⟩ := typed bdRsdp (findRsdp_mem found)
  have opened := AcpiWalk.Opened.of_vaMap ready word size (by decide) mapped
  exact opened.close ready (acpiProcessRsdp_ok (opened.ready ready) processed) unmapped

end

end Biefircate
