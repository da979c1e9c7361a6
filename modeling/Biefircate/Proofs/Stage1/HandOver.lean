import Biefircate.Model.Stage1.HandOver
import Biefircate.Proofs.Stage1.Bparm

/-! # What stage 1 does up to the hand-over

Every operation keeps the invariant of base memory and of the list of nodes. The hand-over itself
only adds nodes: those for the memory above 1 MiB, the one for the bounds of base memory, those for
the memory below 1 MiB as the firmware knows it, and those for it as the allocator knows it. At the
end it rounds the bounds and fills in the node for them.
-/

namespace Biefircate

variable {granted : ℕ → Bool} {s t : Stage1}

/-! ## Filling in a node -/

private theorem modify_split {α : Type} (before after : List α) (a : α) (f : α → α) :
    (before ++ a :: after).modify before.length f = before ++ f a :: after := by
  induction before with
  | nil => rfl
  | cons b rest ih => simpa using ih

theorem bparmFill_of_split {before after : List BparmNode} {node : BparmNode} (i : ℕ) (bp : Bparm)
    (split : s.bparms = before ++ node :: after) (place : before.length = i) :
    (bparmFill s i bp).bparms = before ++ ⟨node.addr, bp⟩ :: after := by
  rw [bparmFill, split, ← place]
  exact modify_split before after node _

/-- Data of the same size leaves the node where it is. -/
theorem bparmFill_inv {before after : List BparmNode} {node : BparmNode} {i : ℕ} {bp : Bparm}
    (inv : s.Inv granted) (split : s.bparms = before ++ node :: after) (place : before.length = i)
    (same : bp.size = node.bp.size) : (bparmFill s i bp).Inv granted := by
  have filled := bparmFill_of_split i bp split place
  refine ⟨inv.bmem, inv.bounded, ?_, ?_⟩
  · intro other member
    rw [filled] at member
    have known : ∀ node' ∈ before ++ node :: after, ∃ r ∈ s.bmem.returned,
        r.kind = .boottime ∧ r.start = node'.addr ∧ r.stop = node'.stop := split ▸ inv.nodes
    rcases List.mem_append.mp member with early | later
    · exact known other (List.mem_append_left _ early)
    · rcases List.mem_cons.mp later with rfl | late
      · obtain ⟨r, present, kind, start, stop⟩ := known node (by simp)
        exact ⟨r, present, kind, start, by rw [stop, BparmNode.stop, BparmNode.stop, same]⟩
      · exact known other (List.mem_append_right _ (List.mem_cons_of_mem _ late))
  · have spent := inv.spent
    rw [Stage1.nodes, split] at spent
    rw [Stage1.nodes, filled]
    simp only [bparmBytes, List.map_append, List.map_cons, List.sum_append, List.sum_cons, same] at spent ⊢
    exact spent

/-! ## Option ROM images -/

/-- An image that `get_rimg` neither copies nor moves. -/
def Rimg.UsedInPlace (rimg : Rimg) : Prop :=
  match rimg.pcir with
  | none => True
  | some pcir => 3 ≤ pcir.pcirRev ∧ pcir.maxRtSzHkib * hkibyte ≠ rimg.sz ∧ rimg.StaysInPlace

/-- The addresses that a device's parameter gives for its image lie outside the scratch window. -/
def ImageClear (bmem : Bmem) (bd : BdatPciDev) : Prop :=
  ∀ x, bd.rimgSeg * paraSize ≤ x → x < bd.rimgSeg * paraSize + bd.rimgSz →
    x < bmem.boottimeBmemBot ∨ bmem.runtimeBmemTop ≤ x

theorem addrToRmSeg_mul {p : ℕ} (aligned : paraSize ∣ p) (below : p < bmemMaxAddr) :
    addrToRmSeg p * paraSize = p := by
  obtain ⟨q, rfl⟩ := aligned
  simp only [bmemMaxAddr, paraSize, addrToRmSeg] at below ⊢
  omega

section

variable {bmem : Bmem} {bd bd' : BdatPciDev} {rimg : Rimg}

/-- A segment computed from the region that holds the image. -/
private theorem region_seg {r : Region} {x : ℕ} (ok : r.Ok granted bmem) (multiple : paraSize ∣ r.align)
    (low : addrToRmSeg r.start * paraSize ≤ x) (high : x < addrToRmSeg r.start * paraSize + r.size) :
    r.start ≤ x ∧ x < r.stop := by
  have bounded := ok.high
  have positive : 0 < r.size := by omega
  simp only [Region.stop] at bounded ⊢
  rw [addrToRmSeg_mul (multiple.trans ok.aligned) (by omega)] at low high
  exact ⟨low, high⟩

theorem copyRimg_ok (inv : s.Inv granted) (ran : copyRimg s.bmem bd rimg = .ok (bmem, bd')) :
    Stage1.Inv granted { s with bmem := bmem } ∧ bmem.runtimeBmemTop ≤ s.bmem.runtimeBmemTop ∧
      s.bmem.boottimeBmemBot ≤ bmem.boottimeBmemBot ∧
      (bd.rimgSz = rimg.sz → ImageClear bmem bd') := by
  obtain ⟨⟨a, _⟩, allocated, same⟩ := bind_eq_ok.mp ran
  cases same
  have pow : 2 * kibyte = 2 ^ 11 := rfl
  obtain ⟨_, _, _, cut, top, bot, _⟩ := bmemAlloc_ok inv.bmem.blks pow allocated
  have kept := bmemAlloc_inv inv.bmem pow allocated
  have region := kept.regions _ (cut.noted ▸ List.mem_cons_self ..)
  refine ⟨bmemAlloc_stage1 inv pow allocated, top ▸ min_le_right .., bot.ge, ?_⟩
  intro size x low high
  dsimp only at low high
  obtain ⟨start, _⟩ := region_seg region (show paraSize ∣ 2 * kibyte by decide) low (size ▸ high)
  exact Or.inr ((region.above rfl).trans start)

/-- Whatever path it takes, `get_rimg` keeps the invariant and only narrows the window. If an image
used in place is clear of it, so is the image that is recorded. -/
theorem getRimg_ok (inv : s.Inv granted) (ran : getRimg s.bmem bd rimg = .ok (bmem, bd')) :
    Stage1.Inv granted { s with bmem := bmem } ∧ bmem.runtimeBmemTop ≤ s.bmem.runtimeBmemTop ∧
      s.bmem.boottimeBmemBot ≤ bmem.boottimeBmemBot ∧
      ((rimg.UsedInPlace → ∀ x, addrToRmSeg rimg.addr * paraSize ≤ x →
          x < addrToRmSeg rimg.addr * paraSize + rimg.sz →
          x < s.bmem.boottimeBmemBot ∨ s.bmem.runtimeBmemTop ≤ x) → ImageClear bmem bd') := by
  unfold getRimg at ran
  dsimp only at ran
  split at ran
  · next noPcir =>
    cases ran
    refine ⟨inv, le_rfl, le_rfl, fun clear => clear ?_⟩
    rw [Rimg.UsedInPlace, noPcir]
    trivial
  · next pcir found =>
    split at ran
    · next separate =>
      obtain ⟨⟨image, middle⟩, placed, ran⟩ := bind_eq_ok.mp ran
      obtain ⟨⟨rt, last⟩, allocated, same⟩ := bind_eq_ok.mp ran
      cases same
      have pow : hkibyte = 2 ^ 9 := rfl
      unfold placeRimg at placed
      split at placed
      · next inPlace =>
        cases placed
        obtain ⟨_, _, _, _, top, bot, _⟩ := bmemAlloc_ok inv.bmem.blks pow allocated
        have lowered : last.runtimeBmemTop ≤ s.bmem.runtimeBmemTop := top ▸ min_le_right ..
        refine ⟨bmemAlloc_stage1 inv pow allocated, lowered, bot.ge, ?_⟩
        intro clear x low high
        have used : rimg.UsedInPlace := by
          rw [Rimg.UsedInPlace, found]
          exact ⟨separate.1, separate.2, inPlace⟩
        rcases clear used x low high with under | beyond
        · exact Or.inl (bot ▸ under)
        · exact Or.inr (lowered.trans beyond)
      · obtain ⟨_, _, _, _, cut, _, top, bot, _⟩ := bmemAllocBoottime_ok inv.bmem.blks pow (by decide) placed
        have copied := bmemAllocBoottime_stage1 inv pow (by decide) placed
        have region := copied.bmem.regions _ (cut.noted ▸ List.mem_cons_self ..)
        obtain ⟨_, _, _, _, top', bot', _⟩ := bmemAlloc_ok copied.bmem.blks pow allocated
        have lowered : last.runtimeBmemTop ≤ s.bmem.runtimeBmemTop := top' ▸ (min_le_right ..).trans top.le
        have raised : s.bmem.boottimeBmemBot ≤ last.boottimeBmemBot := bot' ▸ bot ▸ le_max_left ..
        refine ⟨bmemAlloc_stage1 (s := ⟨middle, s.bparms⟩) copied pow allocated, lowered, raised, ?_⟩
        intro _ x low high
        dsimp only at low high
        obtain ⟨_, stop⟩ := region_seg region (show paraSize ∣ hkibyte by decide) low high
        exact Or.inl (stop.trans_le ((region.below rfl).trans bot'.ge))
    · obtain ⟨kept, top, bot, clear⟩ := copyRimg_ok inv ran
      exact ⟨kept, top, bot, fun _ => clear rfl⟩

theorem getRimgFrom_ok {source : RimgSource} {found : Option Rimg} (inv : s.Inv granted)
    (ran : getRimgFrom source found s.bmem bd = .ok (bmem, bd')) :
    Stage1.Inv granted { s with bmem := bmem } ∧ bmem.runtimeBmemTop ≤ s.bmem.runtimeBmemTop ∧
      s.bmem.boottimeBmemBot ≤ bmem.boottimeBmemBot ∧
      (ImageClear s.bmem bd → (∀ rimg ∈ found, rimg.UsedInPlace →
          ∀ x, addrToRmSeg rimg.addr * paraSize ≤ x → x < addrToRmSeg rimg.addr * paraSize + rimg.sz →
            x < s.bmem.boottimeBmemBot ∨ s.bmem.runtimeBmemTop ≤ x) → ImageClear bmem bd') := by
  unfold getRimgFrom at ran
  dsimp only at ran
  cases found with
  | none =>
    cases ran
    refine ⟨inv, le_rfl, le_rfl, ?_⟩
    intro clear _
    split
    · exact clear
    · intro x low high
      dsimp only at low high
      omega
  | some rimg =>
    obtain ⟨kept, top, bot, clear⟩ := getRimg_ok inv ran
    exact ⟨kept, top, bot, fun _ inPlace => clear (inPlace rimg rfl)⟩

end

/-! ## Operations before the hand-over -/

/-- Alignments are powers of two that fit in 32 bits, as they are wherever stage 1 allocates. -/
def Stage1Op.Valid : Stage1Op → Prop
  | .bmem call => ∃ k < 32, call.align = 2 ^ k
  | _ => True

/-- Looking for an image changes the state of base memory and the device added last, or nothing. -/
theorem findRimg_ok {source : RimgSource} {found : Option Rimg}
    (stepped : s.step (.findRimg source found) = .ok t) :
    t = s ∨ ∃ before addr bd bd', s.bparms = before ++ [⟨addr, .pcid bd⟩] ∧ bd.rimgSeg = 0 ∧
      getRimgFrom source found s.bmem bd = .ok (t.bmem, bd') ∧
      t.bparms = before ++ [⟨addr, .pcid bd'⟩] := by
  rw [Stage1.step] at stepped
  split at stepped
  · next addr bd last =>
    obtain ⟨before, split_⟩ := List.getLast?_eq_some_iff.mp last
    split at stepped
    · exact Or.inl (Except.ok.inj stepped).symm
    · next missing =>
      obtain ⟨⟨bmem, bd'⟩, ran, same⟩ := bind_eq_ok.mp stepped
      have filled := bparmFill_of_split (s := ⟨bmem, s.bparms⟩) (s.bparms.length - 1) (.pcid bd') split_
        (by simp [split_])
      rw [← Except.ok.inj same]
      exact Or.inr ⟨before, addr, bd, bd', split_, not_not.mp missing, ran, filled⟩
  · cases stepped

theorem Stage1.Inv.step {op : Stage1Op} (inv : s.Inv granted) (valid : op.Valid)
    (stepped : s.step op = .ok t) : t.Inv granted := by
  cases op with
  | bmem call =>
    obtain ⟨kind, size, align⟩ := call
    obtain ⟨k, narrow, pow⟩ := valid
    obtain ⟨bmem, ran, same⟩ := bind_eq_ok.mp stepped
    cases same
    obtain ⟨⟨a, _⟩, allocated, rfl⟩ := map_eq_ok.mp ran
    cases kind with
    | runtime => exact bmemAlloc_stage1 inv pow allocated
    | boottime => exact bmemAllocBoottime_stage1 inv pow narrow allocated
  | addRsdp rsdp => exact (bparmAdd_ok inv stepped).1
  | addPciDev pciLocn pciId classIf => exact (bparmAdd_ok inv stepped).1
  | findRimg source found =>
    rcases findRimg_ok stepped with rfl | ⟨before, addr, bd, bd', split_, _, ran, filled⟩
    · exact inv
    · have kept := (getRimgFrom_ok inv ran).1
      have refilled : (bparmFill ⟨t.bmem, s.bparms⟩ before.length (.pcid bd')).Inv granted :=
        bparmFill_inv kept split_ rfl rfl
      have same : t = bparmFill ⟨t.bmem, s.bparms⟩ before.length (.pcid bd') := by
        have after := bparmFill_of_split (s := ⟨t.bmem, s.bparms⟩) before.length (.pcid bd') split_ rfl
        rw [← filled] at after
        cases t
        simp only [bparmFill] at after ⊢
        rw [after]
      exact same ▸ refilled

/-! ## The hand-over -/

theorem addExtMemBparm_inv {desc : EfiMemoryDescriptor} (inv : s.Inv granted)
    (ran : addExtMemBparm s desc = .ok t) : t.Inv granted ∧ s.Grows t := by
  unfold addExtMemBparm at ran
  dsimp only at ran
  split at ran
  · cases ran
    exact ⟨inv, .refl _⟩
  · exact bparmAddMemRange_inv inv ran

theorem addUefiMemBparm_inv {desc : EfiMemoryDescriptor} (inv : s.Inv granted)
    (ran : addUefiMemBparm s desc = .ok t) : t.Inv granted ∧ s.Grows t := by
  unfold addUefiMemBparm at ran
  dsimp only at ran
  split at ran
  · cases ran
    exact ⟨inv, .refl _⟩
  · split at ran
    · cases ran
      exact ⟨inv, .refl _⟩
    · exact bparmAddMemRange_inv inv ran

/-- A loop over the descriptors grows the state if its body does. -/
theorem run_grows {step : Stage1 → EfiMemoryDescriptor → Exec Stage1} {descs : List EfiMemoryDescriptor}
    (grows : ∀ u desc v, u.Inv granted → step u desc = .ok v → v.Inv granted ∧ u.Grows v)
    (inv : s.Inv granted) (ran : Run.run step s descs = .ok t) : t.Inv granted ∧ s.Grows t := by
  refine Run.run_invariant (fun u => u.Inv granted ∧ s.Grows u) ?_ ⟨inv, .refl s⟩ ran
  rintro u desc v _ ⟨inv, before⟩ stepped
  obtain ⟨inv', after⟩ := grows u desc v inv stepped
  exact ⟨inv', before.trans after⟩

theorem addBlkBparms_inv {left blkIdx : ℕ} (inv : s.Inv granted)
    (ran : addBlkBparms left blkIdx s = .ok t) : t.Inv granted ∧ s.Grows t := by
  induction left generalizing blkIdx s with
  | zero =>
    cases ran
    exact ⟨inv, .refl _⟩
  | succ left ih =>
    rw [addBlkBparms] at ran
    split at ran
    · obtain ⟨b, _, ran⟩ := bind_eq_ok.mp ran
      obtain ⟨u, free, ran⟩ := bind_eq_ok.mp ran
      obtain ⟨v, given, ran⟩ := bind_eq_ok.mp ran
      obtain ⟨invU, growsU⟩ := bparmAddMemRange_inv inv free
      obtain ⟨invV, growsV⟩ := bparmAddMemRange_inv invU given
      obtain ⟨invT, growsT⟩ := ih invV ran
      exact ⟨invT, growsU.trans (growsV.trans growsT)⟩
    · cases ran
      exact ⟨inv, .refl _⟩

theorem addOurMemBparms_inv (inv : s.Inv granted) (ran : addOurMemBparms s = .ok t) :
    t.Inv granted ∧ s.Grows t := by
  obtain ⟨u, base, ran⟩ := bind_eq_ok.mp ran
  obtain ⟨invU, growsU⟩ := bparmAddMemRange_inv inv base
  obtain ⟨invT, growsT⟩ := addBlkBparms_inv invU ran
  exact ⟨invT, growsU.trans growsT⟩

/-- The states that `prepare_to_hand_over` goes through: with the memory above 1 MiB described
(`ext`), with the node for the bounds (`node`), with the memory below 1 MiB described by the firmware
(`uefi`) and by the allocator (`our`). -/
structure HandedOver (granted : ℕ → Bool) (s : Stage1) (descs : List EfiMemoryDescriptor)
    (ext node uefi our t : Stage1) : Prop where
  ranExt : Run.run addExtMemBparm s descs = .ok ext
  ranNode : bparmAdd ext (.bmem ⟨0, 0⟩) = .ok node
  ranUefi : Run.run addUefiMemBparm node descs = .ok uefi
  ranOur : addOurMemBparms uefi = .ok our
  invExt : ext.Inv granted
  invNode : node.Inv granted
  invUefi : uefi.Inv granted
  invOur : our.Inv granted
  growsExt : s.Grows ext
  growsUefi : node.Grows uefi
  growsOur : uefi.Grows our
  returned : t.bmem.returned = our.bmem.returned
  bot : t.bmem.boottimeBmemBot = Word.alignUp our.bmem.boottimeBmemBot paraSize
  top : t.bmem.runtimeBmemTop = Word.alignDown our.bmem.runtimeBmemTop kibyte
  enough : t.bmem.boottimeBmemBot + 128 * kibyte ≤ t.bmem.runtimeBmemTop
  filled : ∃ a more, Stage1.Added granted ext node (.bmem ⟨0, 0⟩) a ∧
    (∀ node ∈ more, ∃ r, node.bp = .mrng r) ∧ our.bparms = ext.bparms ++ ⟨a, .bmem ⟨0, 0⟩⟩ :: more ∧
    t.bparms = ext.bparms ++ ⟨a, .bmem ⟨addrToRmSeg t.bmem.boottimeBmemBot,
      addrToRmSeg t.bmem.runtimeBmemTop⟩⟩ :: more

/-- The bounds are rounded away from what lies outside them. -/
theorem Bmem.round_eq {s : Bmem} (top : s.runtimeBmemTop ≤ bmemMaxAddr)
    (bot : s.boottimeBmemBot ≤ bmemMaxAddr) :
    s.round.boottimeBmemBot = Word.alignUp s.boottimeBmemBot paraSize ∧
      s.round.runtimeBmemTop = Word.alignDown s.runtimeBmemTop kibyte := by
  have para : paraSize = 2 ^ 4 := rfl
  have kib : kibyte = 2 ^ 10 := rfl
  have up := Word.alignUp_lt_add (show 0 < paraSize by decide) s.boottimeBmemBot
  have down := Word.alignDown_le s.runtimeBmemTop kibyte
  have limit : bmemMaxAddr = 2 ^ 20 := rfl
  constructor
  · simp only [Bmem.round]
    rw [Word.add_sub_one_and_mask_eq para (by decide) (by omega), Nat.mod_eq_of_lt (by omega)]
  · simp only [Bmem.round]
    rw [Word.and_mask_eq kib (by decide) (by omega), Nat.mod_eq_of_lt (by omega)]

theorem bmemFini_ok {descs : List EfiMemoryDescriptor} (ran : bmemFini s descs = .ok t) :
    ∃ uefi our, Run.run addUefiMemBparm s descs = .ok uefi ∧ addOurMemBparms uefi = .ok our ∧
      bmemCheckEnough our.bmem.round = .ok () ∧ t = { our with bmem := our.bmem.round } := by
  obtain ⟨uefi, ranUefi, ran⟩ := bind_eq_ok.mp ran
  obtain ⟨our, ranOur, ran⟩ := bind_eq_ok.mp ran
  obtain ⟨_, passed, rounded⟩ := bind_eq_ok.mp ran
  exact ⟨uefi, our, ranUefi, ranOur, passed, (Except.ok.inj rounded).symm⟩

theorem prepareToHandOver_parts {descs : List EfiMemoryDescriptor} (ran : prepareToHandOver s descs = .ok t) :
    ∃ ext node fini, Run.run addExtMemBparm s descs = .ok ext ∧ bparmAdd ext (.bmem ⟨0, 0⟩) = .ok node ∧
      bmemFini node descs = .ok fini ∧ t = bparmFill fini ext.bparms.length
        (.bmem ⟨addrToRmSeg fini.bmem.boottimeBmemBot, addrToRmSeg fini.bmem.runtimeBmemTop⟩) := by
  obtain ⟨_, reported, ran⟩ := bind_eq_ok.mp ran
  obtain ⟨_, same⟩ := ite_error_eq_ok.mp reported
  cases same
  obtain ⟨ext, ranExt, ran⟩ := bind_eq_ok.mp ran
  obtain ⟨node, ranNode, ran⟩ := bind_eq_ok.mp ran
  obtain ⟨fini, ranFini, filled⟩ := bind_eq_ok.mp ran
  exact ⟨ext, node, fini, ranExt, ranNode, ranFini, (Except.ok.inj filled).symm⟩

theorem prepareToHandOver_ok {descs : List EfiMemoryDescriptor} (inv : s.Inv granted)
    (ran : prepareToHandOver s descs = .ok t) :
    ∃ ext node uefi our, HandedOver granted s descs ext node uefi our t := by
  obtain ⟨ext, node, fini, ranExt, ranNode, ranFini, filled⟩ := prepareToHandOver_parts ran
  obtain ⟨uefi, our, ranUefi, ranOur, passed, rounded⟩ := bmemFini_ok ranFini
  obtain ⟨invExt, growsExt⟩ := run_grows (fun _ _ _ => addExtMemBparm_inv) inv ranExt
  obtain ⟨invNode, a, added⟩ := bparmAdd_ok invExt ranNode
  obtain ⟨invUefi, growsUefi⟩ := run_grows (fun _ _ _ => addUefiMemBparm_inv) invNode ranUefi
  obtain ⟨invOur, growsOur⟩ := addOurMemBparms_inv invUefi ranOur
  obtain ⟨more, nodes, ranges⟩ := (growsUefi.trans growsOur).nodes
  rw [added.node, List.append_assoc] at nodes
  obtain ⟨bot, top⟩ := Bmem.round_eq invOur.bounded.1 invOur.bounded.2
  have bmem : t.bmem = our.bmem.round := by rw [filled, bparmFill, rounded]
  have bparms : fini.bparms = our.bparms := by rw [rounded]
  have same : fini.bmem = t.bmem := by rw [rounded, bmem]
  refine ⟨ext, node, uefi, our, ranExt, ranNode, ranUefi, ranOur, invExt, invNode, invUefi, invOur,
    growsExt, growsUefi, growsOur, ?_, ?_, ?_, ?_, a, more, added, ranges, nodes, ?_⟩
  · rw [bmem, Bmem.round]
  · rw [bmem, bot]
  · rw [bmem, top]
  · rw [bmem]
    exact (bmemCheckEnough_ok passed).2
  · rw [← same, filled]
    exact bparmFill_of_split _ _ (bparms.trans nodes) rfl

/-- Filling in the bounds changes no described range. -/
theorem HandedOver.memRanges_eq {descs : List EfiMemoryDescriptor} {ext node uefi our : Stage1}
    (handed : HandedOver granted s descs ext node uefi our t) : memRanges t.nodes = memRanges our.nodes := by
  obtain ⟨a, more, _, _, before, after⟩ := handed.filled
  simp only [Stage1.nodes, before, after, List.map_append, List.map_cons, memRanges_append]
  rfl

/-! ## Runs -/

section

variable {initDescs descs : List EfiMemoryDescriptor} {ops : List Stage1Op}

/-- A run that reaches the hand-over, taken apart. -/
theorem stage1_ok (valid : ∀ op ∈ ops, op.Valid) (ran : stage1 granted initDescs ops descs = .ok t) :
    ∃ bmem s ext node uefi our, bmemInit granted initDescs = .ok bmem ∧
      Run.run Stage1.step ⟨bmem, []⟩ ops = .ok s ∧ s.Inv granted ∧
      HandedOver granted s descs ext node uefi our t := by
  obtain ⟨bmem, init, ran⟩ := bind_eq_ok.mp ran
  obtain ⟨s, ranOps, ran⟩ := bind_eq_ok.mp ran
  have inv : s.Inv granted := by
    refine Run.run_invariant (Stage1.Inv granted) ?_ (bmemInit_stage1 init) ranOps
    intro u op v member inv stepped
    exact inv.step (valid op member) stepped
  obtain ⟨ext, node, uefi, our, handed⟩ := prepareToHandOver_ok inv ran
  exact ⟨bmem, s, ext, node, uefi, our, init, ranOps, inv, handed⟩

end

end Biefircate
