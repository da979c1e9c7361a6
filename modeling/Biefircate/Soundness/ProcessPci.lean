import Biefircate.Proofs.Stage1.Pci
import Biefircate.Soundness.RimgParser
import Biefircate.Soundness.RsdpParam

/-! # What `process_pci` leaves

Every general device has a parameter, in the order of the handles. Legacy VGA is enabled for the first display controller that
can have it, and for no other, and `process_pci` only returns if that controller has an option ROM image.
-/

namespace Biefircate.Pci

/-- The general devices among some handles, with the numbers of their handles. -/
def generals (handles : List (Option PciIo × ℕ)) : List (PciIo × ℕ) :=
  handles.filterMap fun handle => handle.1.bind fun io => if io.IsGeneral then some (io, handle.2) else none

/-- The parameter says which device it is for. -/
def Describes (device : PciIo × ℕ) (node : BparmNode) : Prop :=
  ∃ bd, node.bp = .pcid bd ∧ SameDevice ⟨device.1.locn, device.1.pciId, device.1.classIf, 0, 0, 0⟩ bd

/-- The calls made to enable each of some devices. -/
def enableCallsOf (devices : List (PciIo × ℕ)) : List EnableCall := devices.flatMap fun device => device.1.enableCalls device.2

/-- How far the search for a display controller is after some devices: all were tried, or all up to the first usable one. -/
inductive Search (base : ℕ) : List (PciIo × ℕ) → Option ℕ → List EnableCall → Prop
  | searching {devices : List (PciIo × ℕ)} (unusable : ∀ device ∈ devices, ¬ device.1.Usable) :
      Search base devices none (enableCallsOf devices)
  | found {before after : List (PciIo × ℕ)} {vga : PciIo × ℕ} (unusable : ∀ device ∈ before, ¬ device.1.Usable)
      (usable : vga.1.Usable) :
      Search base (before ++ vga :: after) (some (base + before.length)) (enableCallsOf (before ++ [vga]))

/-- The parameters added for some handles, and how far the search is. -/
structure Progress (s : Stage1) (handles : List (Option PciIo × ℕ)) (st : ProcessPci) : Prop where
  devices : ∃ added, st.stage1.bparms = s.bparms ++ added ∧ List.Forall₂ Describes (generals handles) added
  search : Search s.bparms.length (generals handles) st.vga st.calls

/-- What `process_pci` leaves when it returns. -/
structure Processed (s : Stage1) (handles : List (Option PciIo)) (out : ProcessPci) (added : List BparmNode)
    (before : List (PciIo × ℕ)) (vga : PciIo × ℕ) (after : List (PciIo × ℕ)) : Prop where
  parts : generals handles.zipIdx = before ++ vga :: after
  nodes : out.stage1.bparms = s.bparms ++ added
  devices : List.Forall₂ Describes (generals handles.zipIdx) added
  unusable : ∀ device ∈ before, ¬ device.1.Usable
  usable : vga.1.Usable
  rom : ∃ addr bd, added[before.length]? = some ⟨addr, .pcid bd⟩ ∧ bd.rimgSeg ≠ 0
  calls : ∀ call ∈ out.calls, ∃ device ∈ before ++ [vga], call.handle = device.2 ∧ call.enables = device.1.wanted
  succeeded : out.calls.filter EnableCall.ok = vga.1.enableCalls vga.2

section

variable {places : RimgPlaces} {s : Stage1} {st out : ProcessPci} {device : PciIo × ℕ} {devices : List (PciIo × ℕ)}
  {handles : List (Option PciIo × ℕ)} {handle : Option PciIo × ℕ} {base : ℕ} {vga : Option ℕ} {calls : List EnableCall}

theorem generals_append (first second : List (Option PciIo × ℕ)) :
    generals (first ++ second) = generals first ++ generals second := List.filterMap_append ..

theorem enableCallsOf_append (first second : List (PciIo × ℕ)) :
    enableCallsOf (first ++ second) = enableCallsOf first ++ enableCallsOf second := List.flatMap_append ..

theorem enableCallsOf_singleton (device : PciIo × ℕ) : enableCallsOf [device] = device.1.enableCalls device.2 :=
  List.flatMap_singleton ..

/-- One more device is tried if the search goes on. -/
theorem Search.step (search : Search base devices vga calls) (device : PciIo × ℕ) :
    Search base (devices ++ [device])
      (vga.or (if vga.isNone = true ∧ device.1.Usable then some (base + devices.length) else none))
      (calls ++ if vga.isNone = true then device.1.enableCalls device.2 else []) := by
  cases search with
  | searching unusable =>
    rw [Option.none_or, if_pos Option.isNone_none, ← enableCallsOf_singleton, ← enableCallsOf_append]
    rcases Decidable.em device.1.Usable with usable | here
    · rw [if_pos ⟨Option.isNone_none, usable⟩]
      exact .found unusable usable
    · rw [if_neg fun both => here both.2]
      apply Search.searching
      intro other member
      rcases List.mem_append.mp member with old | new
      · exact unusable other old
      · rwa [List.mem_singleton.mp new]
  | @found before after vga unusable usable =>
    rw [if_neg (fun both => nomatch both.1), if_neg (fun more => nomatch more), List.append_nil, List.append_assoc, List.cons_append,
      Option.or_none]
    exact .found unusable usable

/-- One more handle. -/
theorem Progress.step (progress : Progress s handles st) (ran : processHandle places st handle = .ok out) :
    Progress s (handles ++ [handle]) out := by
  obtain ⟨io, got, ran⟩ := bind_eq_ok.mp ran
  obtain ⟨result, processed, done⟩ := bind_eq_ok.mp ran
  cases done
  have here : handle = (some io, handle.2) := Prod.ext (answered_eq_ok got) rfl
  obtain ⟨⟨added, nodes, describes⟩, search⟩ := progress
  have length : st.stage1.bparms.length = s.bparms.length + (generals handles).length := by
    rw [nodes, List.length_append, describes.length_eq]
  rcases processOnePciIo_ok processed with ⟨special, rfl⟩ | ⟨general, found, -, ranOps, place, tried⟩
  · have none : generals [handle] = [] := by
      rw [here]
      simp [generals, special]
    refine ⟨⟨added, nodes, ?_⟩, ?_⟩
    · rwa [generals_append, none, List.append_nil]
    · rw [generals_append, none, List.append_nil, Option.or_none, List.append_nil]
      exact search
  · have one : generals [handle] = [(io, handle.2)] := by
      rw [here]
      simp [generals, general]
    obtain ⟨addr, bd, grown, same⟩ := run_processOnePciIo ranOps
    refine ⟨⟨added ++ [⟨addr, .pcid bd⟩], ?_, ?_⟩, ?_⟩
    · rw [grown, nodes, List.append_assoc]
    · rw [generals_append, one]
      exact List.rel_append describes (.cons ⟨bd, rfl, same⟩ .nil)
    · rw [generals_append, one, place, tried, length]
      exact search.step (io, handle.2)

theorem Progress.run {later : List (Option PciIo × ℕ)} (progress : Progress s handles st)
    (ran : Run.run (processHandle places) st later = .ok out) : Progress s (handles ++ later) out := by
  induction later generalizing handles st with
  | nil =>
    cases ran
    rwa [List.append_nil]
  | cons handle later ih =>
    obtain ⟨next, stepped, ran⟩ := Run.run_cons_eq_ok.mp ran
    rw [List.append_cons]
    exact ih (progress.step stepped) ran

/-- The calls for devices that are not usable fail. -/
theorem filter_enableCallsOf (unusable : ∀ device ∈ devices, ¬ device.1.Usable) :
    (enableCallsOf devices).filter EnableCall.ok = [] := by
  rw [List.filter_eq_nil_iff]
  intro call member succeeded
  obtain ⟨device, tried, made⟩ := List.mem_flatMap.mp member
  exact unusable device tried ((PciIo.of_mem_enableCalls made).2.2.mp succeeded)

/-- Those for one that is succeed. -/
theorem filter_enableCalls (usable : device.1.Usable) :
    (device.1.enableCalls device.2).filter EnableCall.ok = device.1.enableCalls device.2 :=
  List.filter_eq_self.mpr fun _ member => (PciIo.of_mem_enableCalls member).2.2.mpr usable

/-- When `process_pci` returns, the search has found a controller, which has an image. -/
theorem processPci_ok {handles : List (Option PciIo)} (ran : processPci places handles s = .ok out) :
    Progress s handles.zipIdx out ∧ Run.run (processHandle places) ⟨s, none, []⟩ handles.zipIdx = .ok out ∧
      ∃ before vga after, generals handles.zipIdx = before ++ vga :: after ∧ (∀ device ∈ before, ¬ device.1.Usable) ∧
        vga.1.Usable ∧ out.calls = enableCallsOf (before ++ [vga]) ∧
          ∃ addr bd, out.stage1.bparms[s.bparms.length + before.length]? = some ⟨addr, .pcid bd⟩ ∧ bd.rimgSeg ≠ 0 := by
  unfold processPci at ran
  obtain ⟨-, ran⟩ := ite_error_eq_ok.mp ran
  obtain ⟨st, looped, ran⟩ := bind_eq_ok.mp ran
  have start : Progress s [] ⟨s, none, []⟩ :=
    ⟨⟨[], (List.append_nil _).symm, .nil⟩, .searching (List.forall_mem_nil _)⟩
  have progress := start.run looped
  rw [List.nil_append] at progress
  have search := progress.search
  generalize parts : generals handles.zipIdx = devices at search
  generalize place : st.vga = vga at ran search
  generalize made : st.calls = calls at search
  cases search with
  | searching unusable => cases ran
  | @found before after vga unusable usable =>
    obtain ⟨⟨addr, bp⟩, loaded, ran⟩ := bind_eq_ok.mp ran
    cases bp with
    | bmem _ => cases ran
    | mrng _ => cases ran
    | rsdp _ => cases ran
    | pcid bd =>
      obtain ⟨image, same⟩ := ite_error_eq_ok.mp ran
      cases same
      exact ⟨progress, looped, before, vga, after, rfl, unusable, usable, made, addr, bd, load_eq_ok.mp loaded, image⟩

/-- Whenever `process_pci` returns, each general device has a parameter and the first usable display controller, for which
alone a call to enable legacy VGA has succeeded, has an image. -/
theorem processPci_processed {handles : List (Option PciIo)} (ran : processPci places handles s = .ok out) :
    ∃ added before vga after, Processed s handles out added before vga after := by
  obtain ⟨⟨⟨added, nodes, describes⟩, -⟩, -, before, vga, after, parts, unusable, usable, made, addr, bd, here, image⟩ :=
    processPci_ok ran
  refine ⟨added, before, vga, after, parts, nodes, describes, unusable, usable, ⟨addr, bd, ?_, image⟩, ?_, ?_⟩
  · rwa [nodes, List.getElem?_append_right (Nat.le_add_right ..), Nat.add_sub_cancel_left] at here
  · rw [made]
    intro call member
    obtain ⟨device, tried, call⟩ := List.mem_flatMap.mp member
    obtain ⟨same, enables, -⟩ := PciIo.of_mem_enableCalls call
    exact ⟨device, tried, same, enables⟩
  · rw [made, enableCallsOf_append, List.filter_append, filter_enableCallsOf unusable, enableCallsOf_singleton,
      filter_enableCalls usable, List.nil_append]

end

/-- A device whose configuration space and base address registers are these. -/
def sampleDevice (fn : ℕ) (pciConf : List ℕ) (rom : List UInt8) (enable : ℕ → Bool) : PciIo :=
  ⟨some (0, 0, 2, fn), some 0, some 0x40018, enable, some pciConf, some (List.replicate 6 0), 0x7f00000, rom⟩

/-- One that is skipped, a network card, and two display controllers, of which the second can be enabled. -/
def sampleIos : List (Option PciIo) :=
  [some (sampleDevice 0 [0x12378086, 0, 0x06000000, 0x0100] [] fun _ => false),
    some (sampleDevice 1 [0x100e8086, 0, 0x02000003, 0] (smallRimg smallPcir) fun _ => false),
    some (sampleDevice 2 [0x11111234, 0, 0x03000002, 0] [] fun _ => false),
    some (sampleDevice 3 [0x11121234, 0, 0x03010002, 0] (smallRimg smallPcir) fun _ => true)]

theorem processPci_processed_sample : ∃ out, processPci ⟨FvCache.empty, fun _ => 0, []⟩ sampleIos AcpiInit.freshStage1 = .ok out ∧
    out.calls = [⟨2, 0x40008, false⟩, ⟨3, 0x40008, true⟩] ∧
      ∃ added before vga after, Processed AcpiInit.freshStage1 sampleIos out added before vga after := by
  have calls : (fun out : ProcessPci => out.calls) <$> processPci ⟨FvCache.empty, fun _ => 0, []⟩ sampleIos AcpiInit.freshStage1 =
      .ok [⟨2, 0x40008, false⟩, ⟨3, 0x40008, true⟩] := by decide +kernel
  obtain ⟨out, ran, made⟩ := map_eq_ok.mp calls
  exact ⟨out, ran, made, processPci_processed ran⟩

end Biefircate.Pci
