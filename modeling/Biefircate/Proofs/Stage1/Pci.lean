import Biefircate.Model.Stage1.Pci
import Biefircate.Proofs.Stage1.HandOver

/-! # What is done for each PCI device

Going through a device is a few operations of stage 1, which add one parameter and only fill in where its image is. Besides
them it is tried to enable a display controller.
-/

namespace Biefircate.Pci

/-! ## A device -/

namespace PciIo

variable (io : PciIo)

/-- A register of the configuration space. -/
def reg (i : ℕ) : ℕ := (io.pciConf.getD [])[i]?.getD 0

def pciId : ℕ := io.reg 0
def classIf : ℕ := io.reg 2 &&& 0xffffff00
def locn : ℕ :=
  let place := io.location.getD (0, 0, 0, 0)
  pciLocn place.1 place.2.1 place.2.2.1 place.2.2.2

/-- The device is not skipped. -/
def IsGeneral : Prop := io.reg 3 >>> 8 &&& 0xff = 0

instance : Decidable io.IsGeneral := inferInstanceAs (Decidable (_ = _))

def attrs : ℕ := io.attributes.getD 0
def supports : ℕ := io.supported.getD 0

/-- A display controller with the legacy memory and one kind of legacy ports. -/
structure CanBeVga : Prop where
  isVga : IsVga io.classIf
  memory : io.supports &&& vgaMemory ≠ 0
  ports : io.supports &&& vgaIo ≠ 0 ∨ io.supports &&& vgaIo16 ≠ 0

instance : Decidable io.CanBeVga :=
  decidable_of_iff (IsVga io.classIf ∧ io.supports &&& vgaMemory ≠ 0 ∧ (io.supports &&& vgaIo ≠ 0 ∨ io.supports &&& vgaIo16 ≠ 0))
    ⟨fun ⟨isVga, memory, ports⟩ => ⟨isVga, memory, ports⟩, fun ⟨isVga, memory, ports⟩ => ⟨isVga, memory, ports⟩⟩

/-- The attributes to enable: the ports are those of 16 bits if there are any. -/
def wanted : ℕ := vgaMemory ||| if io.supports &&& vgaIo16 ≠ 0 then vgaIo16 else vgaIo

/-- They are enabled. -/
def IsEnabled : Prop := io.attrs ||| io.wanted = io.attrs

instance : Decidable io.IsEnabled := inferInstanceAs (Decidable (_ = _))

/-- They are enabled or can be. -/
def Usable : Prop := io.CanBeVga ∧ (io.IsEnabled ∨ io.enable io.wanted = true)

instance : Decidable io.Usable := inferInstanceAs (Decidable (_ ∧ _))

/-- What it takes to enable them. -/
def enableCalls (handle : ℕ) : List EnableCall :=
  if io.CanBeVga ∧ ¬ io.IsEnabled then [⟨handle, io.wanted, io.enable io.wanted⟩] else []

end PciIo

section

variable {places : RimgPlaces} {io : PciIo} {s t : Stage1} {handle pciId classIf : ℕ}

/-! ## Legacy VGA -/

/-- The legacy memory, and the ports of 16 bits before the others. -/
theorem vgaEnables_eq (supports : ℕ) : vgaEnables supports =
    if supports &&& vgaMemory ≠ 0 ∧ (supports &&& vgaIo ≠ 0 ∨ supports &&& vgaIo16 ≠ 0) then
      some (vgaMemory ||| if supports &&& vgaIo16 ≠ 0 then vgaIo16 else vgaIo)
    else none := by
  have memory : supports &&& vgaMemory = (supports.testBit 3).toNat * 2 ^ 3 := Nat.and_two_pow supports 3
  have ports : supports &&& vgaIo = (supports.testBit 4).toNat * 2 ^ 4 := Nat.and_two_pow supports 4
  have ports16 : supports &&& vgaIo16 = (supports.testBit 18).toNat * 2 ^ 18 := Nat.and_two_pow supports 18
  have all : supports &&& (vgaMemory ||| vgaIo ||| vgaIo16) =
      supports &&& vgaMemory ||| supports &&& vgaIo ||| supports &&& vgaIo16 := by
    rw [Nat.and_or_distrib_left, Nat.and_or_distrib_left]
  unfold vgaEnables
  rw [all, memory, ports, ports16]
  generalize supports.testBit 3 = hasMemory
  generalize supports.testBit 4 = hasPorts
  generalize supports.testBit 18 = hasPorts16
  revert hasMemory hasPorts hasPorts16
  decide

theorem enableLegacyVga_eq (io : PciIo) (handle : ℕ) :
    enableLegacyVga io handle io.classIf io.attrs io.supports = (decide io.Usable, io.enableCalls handle) := by
  unfold enableLegacyVga
  rw [vgaEnables_eq]
  rcases Decidable.em (IsVga io.classIf) with isVga | other
  · rcases Decidable.em (io.supports &&& vgaMemory ≠ 0 ∧ (io.supports &&& vgaIo ≠ 0 ∨ io.supports &&& vgaIo16 ≠ 0)) with
      legacy | modern
    · have can : io.CanBeVga := ⟨isVga, legacy.1, legacy.2⟩
      rw [if_pos isVga, if_pos legacy]
      dsimp only
      rw [← PciIo.wanted]
      rcases Decidable.em io.IsEnabled with already | disabled
      · rw [if_pos (show io.attrs ||| io.wanted = io.attrs from already), PciIo.enableCalls, if_neg (fun both => both.2 already),
          decide_eq_true (show io.Usable from ⟨can, .inl already⟩)]
      · rw [if_neg (show ¬ io.attrs ||| io.wanted = io.attrs from disabled), PciIo.enableCalls, if_pos ⟨can, disabled⟩]
        simp [PciIo.Usable, can, disabled]
    · have cannot : ¬ io.CanBeVga := fun can => modern ⟨can.memory, can.ports⟩
      rw [if_pos isVga, if_neg modern, PciIo.enableCalls, if_neg (fun both => cannot both.1),
        decide_eq_false (show ¬ io.Usable from fun usable => cannot usable.1)]
  · have cannot : ¬ io.CanBeVga := fun can => other can.isVga
    rw [if_neg other, PciIo.enableCalls, if_neg (fun both => cannot both.1),
      decide_eq_false (show ¬ io.Usable from fun usable => cannot usable.1)]

/-- A call is made to enable what is wanted, and a call that succeeds makes the controller usable. -/
theorem PciIo.of_mem_enableCalls {call : EnableCall} (member : call ∈ io.enableCalls handle) :
    call.handle = handle ∧ call.enables = io.wanted ∧ (call.ok = true ↔ io.Usable) := by
  unfold PciIo.enableCalls at member
  split at member
  · next needed =>
    obtain rfl := List.mem_singleton.mp member
    refine ⟨rfl, rfl, fun granted => ⟨needed.1, .inr granted⟩, fun usable => ?_⟩
    exact usable.2.resolve_left needed.2
  · cases member

/-! ## One device -/

theorem answered_eq_ok {α : Type} {msg : String} {answer : Option α} {a : α} (ok : answered msg answer = .ok a) :
    answer = some a := by
  cases answer with
  | none => cases ok
  | some b => exact congrArg some (Except.ok.inj ok)

/-- Looking for an image is an operation of stage 1. -/
theorem getRimgVia_ok {source : RimgSource} (ran : getRimgVia places io pciId classIf s source = .ok t) :
    ∃ found, s.step (.findRimg source found) = .ok t ∧
      ∀ rimg, found = some rimg → findRimg places io pciId classIf source = .ok (some rimg) := by
  unfold getRimgVia at ran
  split at ran
  · next addr bd last =>
    split at ran
    · next known =>
      cases ran
      refine ⟨none, ?_, fun _ found => nomatch found⟩
      rw [Stage1.step, last]
      exact if_pos known
    · obtain ⟨found, looked, stepped⟩ := bind_eq_ok.mp ran
      exact ⟨found, stepped, fun rimg same => same ▸ looked⟩
  · cases ran

/-- What three sources have. -/
def bySource (viaPciIo viaFvs special : Option Rimg) : RimgSource → Option Rimg
  | .pciIo => viaPciIo
  | .fvs => viaFvs
  | .specialCase => special

/-- What is found is what the sources have for the device. -/
def HaveFor (places : RimgPlaces) (io : PciIo) (found : RimgSource → Option Rimg) : Prop :=
  ∀ source rimg, found source = some rimg → findRimg places io io.pciId io.classIf source = .ok (some rimg)

/-- Going through a device skips it, or is the operations for a general device with what the sources have. -/
theorem processOnePciIo_ok {tryEnableVga : Bool} {out : Stage1 × Option ℕ × List EnableCall}
    (ran : processOnePciIo places handle io tryEnableVga s = .ok out) :
    ¬ io.IsGeneral ∧ out = (s, none, []) ∨ io.IsGeneral ∧ ∃ found,
      HaveFor places io found ∧
      Run.run Stage1.step s (Biefircate.processOnePciIo io.locn io.pciId io.classIf found) = .ok out.1 ∧
        out.2.1 = (if tryEnableVga = true ∧ io.Usable then some s.bparms.length else none) ∧
          out.2.2 = if tryEnableVga = true then io.enableCalls handle else [] := by
  unfold processOnePciIo at ran
  obtain ⟨location, located, ran⟩ := bind_eq_ok.mp ran
  obtain ⟨attrs, gotAttrs, ran⟩ := bind_eq_ok.mp ran
  obtain ⟨supports, gotSupports, ran⟩ := bind_eq_ok.mp ran
  obtain ⟨pciConf, gotConf, ran⟩ := bind_eq_ok.mp ran
  obtain ⟨pciId, reg0, ran⟩ := bind_eq_ok.mp ran
  obtain ⟨reg2, gotReg2, ran⟩ := bind_eq_ok.mp ran
  obtain ⟨reg3, gotReg3, ran⟩ := bind_eq_ok.mp ran
  have sameAttrs : attrs = io.attrs := by rw [PciIo.attrs, answered_eq_ok gotAttrs, Option.getD_some]
  have sameSupports : supports = io.supports := by rw [PciIo.supports, answered_eq_ok gotSupports, Option.getD_some]
  have regs : ∀ {i v}, load pciConf i = .ok v → v = io.reg i := fun loaded => by
    rw [PciIo.reg, answered_eq_ok gotConf, Option.getD_some, load_eq_ok.mp loaded, Option.getD_some]
  have locn : pciLocn location.1 location.2.1 location.2.2.1 location.2.2.2 = io.locn := by
    rw [PciIo.locn, answered_eq_ok located, Option.getD_some]
  obtain rfl : pciId = io.pciId := regs reg0
  obtain rfl := regs gotReg2
  obtain rfl := regs gotReg3
  rw [sameAttrs, sameSupports] at ran
  dsimp only at ran
  split at ran
  · next special =>
    cases ran
    exact .inl ⟨special, rfl⟩
  · next general =>
    obtain ⟨added, stepped, ran⟩ := bind_eq_ok.mp ran
    obtain ⟨third, looked, ran⟩ := bind_eq_ok.mp ran
    obtain ⟨bars, -, ran⟩ := bind_eq_ok.mp ran
    obtain ⟨shown, -, ran⟩ := bind_eq_ok.mp ran
    cases ran
    obtain ⟨first, lookedFirst, looked⟩ := Run.run_cons_eq_ok.mp looked
    obtain ⟨second, lookedSecond, looked⟩ := Run.run_cons_eq_ok.mp looked
    obtain ⟨last, lookedThird, done⟩ := Run.run_cons_eq_ok.mp looked
    cases done
    obtain ⟨viaPciIo, stepFirst, hasFirst⟩ := getRimgVia_ok lookedFirst
    obtain ⟨viaFvs, stepSecond, hasSecond⟩ := getRimgVia_ok lookedSecond
    obtain ⟨special, stepThird, hasThird⟩ := getRimgVia_ok lookedThird
    have enabled := enableLegacyVga_eq io handle
    rw [PciIo.classIf] at enabled
    refine .inr ⟨not_not.mp general, bySource viaPciIo viaFvs special, ?_, ?_, ?_, ?_⟩
    · intro source rimg same
      cases source with
      | pciIo => exact hasFirst rimg same
      | fvs => exact hasSecond rimg same
      | specialCase => exact hasThird rimg same
    · rw [locn] at stepped
      rw [Biefircate.processOnePciIo, Run.run_cons_eq_ok]
      refine ⟨_, stepped, Run.run_cons_eq_ok.mpr ⟨_, stepFirst, Run.run_cons_eq_ok.mpr ⟨_, stepSecond, ?_⟩⟩⟩
      exact Run.run_cons_eq_ok.mpr ⟨_, stepThird, rfl⟩
    · cases tryEnableVga with
      | false => rfl
      | true =>
        rw [if_pos rfl, enabled]
        simp
    · cases tryEnableVga with
      | false => rfl
      | true => rw [if_pos rfl, if_pos rfl, enabled]

/-! ## What it leaves among the parameters -/

/-- Two parameters are for the same device. -/
structure SameDevice (bd bd' : BdatPciDev) : Prop where
  locn : bd'.pciLocn = bd.pciLocn
  id : bd'.pciId = bd.pciId
  classIf : bd'.classIf = bd.classIf

theorem SameDevice.trans {bd bd' bd'' : BdatPciDev} (first : SameDevice bd bd') (second : SameDevice bd' bd'') :
    SameDevice bd bd'' :=
  ⟨second.locn.trans first.locn, second.id.trans first.id, second.classIf.trans first.classIf⟩

theorem copyRimg_device {bmem bmem' : Bmem} {bd bd' : BdatPciDev} {rimg : Rimg}
    (ran : copyRimg bmem bd rimg = .ok (bmem', bd')) : SameDevice bd bd' := by
  obtain ⟨⟨copy, after⟩, -, done⟩ := bind_eq_ok.mp ran
  cases done
  exact ⟨rfl, rfl, rfl⟩

/-- `get_rimg` fills in where the image is. -/
theorem getRimg_device {bmem bmem' : Bmem} {bd bd' : BdatPciDev} {rimg : Rimg}
    (ran : getRimg bmem bd rimg = .ok (bmem', bd')) : SameDevice bd bd' := by
  unfold getRimg at ran
  dsimp only at ran
  split at ran
  · cases ran
    exact ⟨rfl, rfl, rfl⟩
  · split at ran
    · obtain ⟨⟨image, middle⟩, -, ran⟩ := bind_eq_ok.mp ran
      obtain ⟨⟨rt, last⟩, -, done⟩ := bind_eq_ok.mp ran
      cases done
      exact ⟨rfl, rfl, rfl⟩
    · obtain ⟨locn, id, classIf⟩ := copyRimg_device ran
      exact ⟨locn, id, classIf⟩

theorem getRimgFrom_device {source : RimgSource} {found : Option Rimg} {bmem bmem' : Bmem} {bd bd' : BdatPciDev}
    (ran : getRimgFrom source found bmem bd = .ok (bmem', bd')) : SameDevice bd bd' := by
  have cleared : SameDevice bd (if source = .specialCase then bd else { bd with rimgSeg := 0, rimgRtSeg := 0, rimgSz := 0 }) := by
    split <;> exact ⟨rfl, rfl, rfl⟩
  unfold getRimgFrom at ran
  cases found with
  | none =>
    cases ran
    exact cleared
  | some rimg => exact cleared.trans (getRimg_device ran)

/-- The last parameter is for a device. -/
def LastIsFor (before : List BparmNode) (bd : BdatPciDev) (s : Stage1) : Prop :=
  ∃ addr bd', s.bparms = before ++ [⟨addr, .pcid bd'⟩] ∧ SameDevice bd bd'

theorem LastIsFor.findRimg {before : List BparmNode} {bd : BdatPciDev} {source : RimgSource} {found : Option Rimg}
    (last : LastIsFor before bd s) (stepped : s.step (.findRimg source found) = .ok t) : LastIsFor before bd t := by
  obtain ⟨addr, bd', here, same⟩ := last
  rcases findRimg_ok stepped with rfl | ⟨before', addr', bd'', filled, parts, -, ran, after⟩
  · exact ⟨addr, bd', here, same⟩
  · obtain ⟨rfl, only⟩ := List.append_inj' (here.symm.trans parts) rfl
    cases only
    exact ⟨addr, filled, after, same.trans (getRimgFrom_device ran)⟩

/-- The operations for a device add a parameter for it. -/
theorem run_processOnePciIo {found : RimgSource → Option Rimg} {locn : ℕ}
    (ran : Run.run Stage1.step s (Biefircate.processOnePciIo locn pciId classIf found) = .ok t) :
    LastIsFor s.bparms ⟨locn, pciId, classIf, 0, 0, 0⟩ t := by
  obtain ⟨added, stepped, ran⟩ := Run.run_cons_eq_ok.mp ran
  obtain ⟨⟨addr, bmem⟩, -, same⟩ := bind_eq_ok.mp stepped
  have start : LastIsFor s.bparms ⟨locn, pciId, classIf, 0, 0, 0⟩ added := by
    cases same
    exact ⟨addr, _, rfl, rfl, rfl, rfl⟩
  obtain ⟨first, lookedFirst, ran⟩ := Run.run_cons_eq_ok.mp ran
  obtain ⟨second, lookedSecond, ran⟩ := Run.run_cons_eq_ok.mp ran
  obtain ⟨third, lookedThird, done⟩ := Run.run_cons_eq_ok.mp ran
  cases done
  exact ((start.findRimg lookedFirst).findRimg lookedSecond).findRimg lookedThird

end

end Biefircate.Pci
