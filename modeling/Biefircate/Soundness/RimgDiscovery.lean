import Biefircate.Model.Stage1.PciRom
import Biefircate.Proofs.Stage1.FvGather

/-! # Two ways to find the image of an option ROM

A ROM may hold several images, the last of which says so. The code for firmware volumes goes through all of them. The
code for PCI devices looks at the first one only.
-/

namespace Biefircate

section

variable {rom : List UInt8} {before rest images : List FvImage} {first last image : FvImage} {start : ℕ}

/-- Recording the images that `fv_cache_rimg` is called for. -/
def recordCall (calls : List FvImage) (image : FvImage) : Exec (List FvImage) := .ok (calls ++ [image])

theorem run_recordCall (calls images : List FvImage) : Run.run recordCall calls images = .ok (calls ++ images) := by
  induction images generalizing calls with
  | nil => rw [Run.run_nil, List.append_nil]
  | cons image rest ih =>
    rw [Run.run, recordCall, ok_bind, ih, List.append_assoc, List.singleton_append]

/-! ## The choice from a group -/

theorem chosen_eq_none_iff : chosen rom images = none ↔ ∀ image ∈ images, ¬ image.IsPcat rom := by
  rw [chosen, Option.or_eq_none_iff, List.find?_eq_none, List.find?_eq_none]
  simp only [decide_eq_true_eq, not_and]
  exact ⟨fun none => none.2, fun none => ⟨fun image member pcat => absurd pcat (none image member), none⟩⟩

theorem mem_of_chosen (chose : chosen rom images = some image) : image ∈ images ∧ image.IsPcat rom := by
  rcases Option.or_eq_some_iff.mp chose with late | ⟨-, early⟩
  · have both := List.find?_some late
    exact ⟨List.mem_of_find?_eq_some late, (of_decide_eq_true both).1⟩
  · have holds := List.find?_some early
    exact ⟨List.mem_of_find?_eq_some early, of_decide_eq_true holds⟩

/-- The first image is chosen when it is for a PC-AT, unless a later one of a late revision is preferred to it. -/
theorem chosen_eq_first_iff : chosen rom (first :: images) = some first ↔ first.IsPcat rom ∧
    (first.IsLate rom ∨ ∀ image ∈ images, image.IsPcat rom → ¬ image.IsLate rom) := by
  by_cases pcat : first.IsPcat rom
  · by_cases late : first.IsLate rom
    · simp [chosen, pcat, late]
    · have choice : chosen rom (first :: images) =
          (images.find? fun image => decide (image.IsPcat rom ∧ image.IsLate rom)).or (some first) := by
        rw [chosen, List.find?_cons_of_neg (by simp [late]), List.find?_cons_of_pos (by simp [pcat])]
      rw [choice]
      cases better : images.find? fun image => decide (image.IsPcat rom ∧ image.IsLate rom) with
      | none =>
        refine iff_of_true rfl ⟨pcat, Or.inr fun image member isPcat isLate => ?_⟩
        exact List.find?_eq_none.mp better image member (decide_eq_true ⟨isPcat, isLate⟩)
      | some image =>
        have holds := List.find?_some better
        have both : image.IsPcat rom ∧ image.IsLate rom := of_decide_eq_true holds
        apply iff_of_false
        · intro same
          exact late (Option.some.inj same ▸ both.2)
        · rintro ⟨-, isLate | none⟩
          · exact late isLate
          · exact none image (List.mem_of_find?_eq_some better) both.1 both.2
  · exact iff_of_false (fun chose => pcat (mem_of_chosen chose).2) fun both => pcat both.1

/-! ## The images of the first group -/

theorem cacheCalls_append_last (group : List FvImage) (unended : ∀ image ∈ before, ¬ image.IsLast rom)
    (ended : last.IsLast rom) : cacheCalls rom group (before ++ last :: rest) =
      (chosen rom (group ++ before ++ [last])).toList ++ cacheCalls rom [] rest := by
  induction before generalizing group with
  | nil => rw [List.nil_append, cacheCalls, if_pos ended, List.append_nil]
  | cons image before ih =>
    obtain ⟨here, later⟩ := List.forall_mem_cons.mp unended
    rw [List.cons_append, cacheCalls, if_neg here, ih _ later]
    simp

theorem mem_of_mem_cacheCalls {group : List FvImage} (member : image ∈ cacheCalls rom group images) :
    image ∈ group ++ images := by
  induction images generalizing group with
  | nil => cases member
  | cons other rest ih =>
    rw [cacheCalls] at member
    split at member
    · rcases List.mem_append.mp member with chose | later
      · have found := (mem_of_chosen (Option.mem_toList.mp chose)).1
        simp only [List.mem_append, List.mem_cons] at found ⊢
        tauto
      · have found := ih later
        simp only [List.mem_append, List.mem_cons, List.not_mem_nil, false_or] at found ⊢
        tauto
    · have found := ih member
      simpa using found

/-! ## The chain -/

theorem ImageChain.le_rimg (chain : ImageChain rom start images) : ∀ image ∈ images, start ≤ image.rimg := by
  induction chain with
  | stop none => simp
  | image first others ih =>
    refine List.forall_mem_cons.mpr ⟨le_rfl, fun image member => ?_⟩
    exact (Nat.le_add_right ..).trans (ih image member)

/-- The bytes that some images take, one after the other. -/
def totalSz (images : List FvImage) : ℕ := (images.map FvImage.sz).sum

/-- The images of the chain that come first lie before the others. -/
theorem ImageChain.cut (typed : rom.length < 2 ^ 64) (chain : ImageChain rom start (images ++ rest)) :
    (∀ image ∈ images, image.rimg < start + totalSz images) ∧ ImageChain rom (start + totalSz images) rest := by
  induction images generalizing start with
  | nil => exact ⟨by simp, chain⟩
  | cons first images ih =>
    have total : totalSz (first :: images) = first.sz + totalSz images := List.sum_cons ..
    cases chain with
    | @image _ off _ here others =>
      have nonempty : 0 < (imageAt rom start off).sz := (here.isImage typed).nonempty
      obtain ⟨earlier, after⟩ := ih others
      rw [Nat.add_assoc, ← total] at earlier after
      refine ⟨List.forall_mem_cons.mpr ⟨?_, earlier⟩, after⟩
      change start < start + totalSz _
      omega

/-- The code for PCI devices selects the first image of the chain or none. -/
theorem rimgFromPciIo_eq (typed : rom.length < 2 ^ 64) (chain : ImageChain rom 0 (first :: images)) :
    rimgFromPciIo rom rom.length = .ok (if first.IsPcat rom then some first else none) := by
  cases chain with
  | @image _ off _ here others =>
    have image := here.isImage typed
    have inside := image.leastInside.trans image.fits
    rw [List.drop_zero] at image inside
    have size : imageSz rom off = number rom (off + pcirRimgSzHkibAt) 2 * hkibyte := rfl
    have short := number_lt rom (off + pcirRimgSzHkibAt) 2
    have same : number rom (off + pcirRimgSzHkibAt) 2 * hkibyte % 2 ^ 32 = imageSz rom off := by
      rw [size]
      exact Nat.mod_eq_of_lt (by simp only [hkibyte, kibyte]; omega)
    have found : rimgFindPcir rom rom.length = .ok (some off) := here
    have first : imageAt rom 0 off = ⟨0, imageSz rom off, off⟩ := by rw [imageAt, List.drop_zero, Nat.zero_add]
    have readable : ∀ {at_ n}, at_ + n ≤ pcirMinSz → numberIn (rom.drop off) at_ n = .ok (number rom (off + at_) n) :=
      fun within => numberIn_drop (by omega)
    rw [rimgFromPciIo, found, ok_bind, first]
    dsimp only
    rw [readable (by decide), ok_bind]
    by_cases pcat : number rom (off + pcirTypeAt) 1 = pcirTypPcat
    · rw [if_neg (not_not.mpr pcat), if_pos (show FvImage.IsPcat rom ⟨0, imageSz rom off, off⟩ from pcat),
        readable (by decide), ok_bind, same]
      rfl
    · rw [if_pos pcat, if_neg (show ¬ FvImage.IsPcat rom ⟨0, imageSz rom off, off⟩ from pcat)]
      rfl

/-- The images are a group: the last of them, and no other, has the flag for the last image. -/
def IsGroup (rom : List UInt8) (images : List FvImage) : Prop := ∃ before last, images = before ++ [last] ∧
  last.IsLast rom ∧ ∀ image ∈ before, ¬ image.IsLast rom

/-- What the two ways select from a group of images at the start of a ROM: the image passed to `get_rimg`, and those
of the images passed to `fv_cache_rimg` that lie in the group. -/
structure Selections (rom : List UInt8) (images : List FvImage) (viaPciIo : Option FvImage) (viaFv : List FvImage) :
    Prop where
  pciIo : rimgFromPciIo rom rom.length = .ok viaPciIo
  fv : ∃ calls, (∀ rounds, rom.length / hkibyte < rounds →
    fvGatherRimgsForOneSxn rom recordCall rounds rom.length [] = .ok calls) ∧
      viaFv = calls.filter fun call => call.rimg < totalSz images

/-- The selections that the two ways make. -/
theorem selections (typed : rom.length < 2 ^ 64) (chain : ImageChain rom 0 (first :: images ++ rest))
    (group : IsGroup rom (first :: images)) :
    Selections rom (first :: images) (if first.IsPcat rom then some first else none)
      (chosen rom (first :: images)).toList := by
  obtain ⟨before, last, parts, ended, unended⟩ := group
  refine ⟨rimgFromPciIo_eq typed chain, (chosen rom (first :: images)).toList ++ cacheCalls rom [] rest, ?_, ?_⟩
  · intro rounds enough
    have start : Gathering rom ⟨0, rom.length, none, 0, none⟩ 0 [] :=
      ⟨rfl, rfl, Nat.zero_le _, rfl, (fun _ chose => nomatch chose), fun _ chose => nomatch chose⟩
    have calls := @cacheCalls_append_last rom before rest last [] unended ended
    rw [← List.singleton_append, ← List.append_assoc, ← parts, List.nil_append, ← parts] at calls
    rw [fvGatherRimgsForOneSxn, fvGatherLoop_eq typed recordCall chain start ((chain.length_le typed).trans_lt enough),
      run_recordCall, calls, List.nil_append]
  · obtain ⟨earlier, after⟩ := chain.cut typed
    rw [Nat.zero_add] at earlier after
    rw [List.filter_append, List.filter_eq_self.mpr, List.filter_eq_nil_iff.mpr, List.append_nil]
    · intro call member inside
      have later := after.le_rimg call (mem_of_mem_cacheCalls member)
      exact absurd (of_decide_eq_true inside) (not_lt.mpr later)
    · intro call member
      exact decide_eq_true (earlier call (mem_of_chosen (Option.mem_toList.mp member)).1)

theorem Selections.unique {viaPciIo viaPciIo' : Option FvImage} {viaFv viaFv' : List FvImage}
    (first : Selections rom images viaPciIo viaFv) (second : Selections rom images viaPciIo' viaFv') :
    viaPciIo = viaPciIo' ∧ viaFv = viaFv' := by
  obtain ⟨calls, ran, rfl⟩ := first.fv
  obtain ⟨calls', ran', rfl⟩ := second.fv
  have same := (ran _ (Nat.lt_succ_self _)).symm.trans (ran' _ (Nat.lt_succ_self _))
  rw [Except.ok.inj same]
  exact ⟨Except.ok.inj (first.pciIo.symm.trans second.pciIo), rfl⟩

/-- The two ways agree on a group: where it has a PC-AT image both select the same one, and else neither selects any. -/
structure DiscoveriesAgree (rom : List UInt8) (images : List FvImage) : Prop where
  pcat : (∃ image ∈ images, image.IsPcat rom) → ∃ image, image.IsPcat rom ∧ Selections rom images (some image) [image]
  none : (∀ image ∈ images, ¬ image.IsPcat rom) → Selections rom images none []

/-- They agree exactly when there is no PC-AT image, or the first image is one, and is of a late revision or comes
with no other PC-AT image that is. -/
theorem discoveries_agree_iff (typed : rom.length < 2 ^ 64) (chain : ImageChain rom 0 (first :: images ++ rest))
    (group : IsGroup rom (first :: images)) : DiscoveriesAgree rom (first :: images) ↔
      ((∃ image ∈ first :: images, image.IsPcat rom) → first.IsPcat rom ∧
        (first.IsLate rom ∨ ∀ image ∈ images, image.IsPcat rom → ¬ image.IsLate rom)) := by
  have made := selections typed chain group
  rw [← chosen_eq_first_iff]
  constructor
  · intro agree some
    obtain ⟨image, isPcat, both⟩ := agree.pcat some
    obtain ⟨viaPciIo, viaFv⟩ := made.unique both
    split at viaPciIo
    · cases viaPciIo
      exact Option.toList_eq_singleton_iff.mp viaFv
    · cases viaPciIo
  · intro firstChosen
    constructor
    · intro some
      have chose := firstChosen some
      have isPcat := (mem_of_chosen chose).2
      rw [chose, if_pos isPcat] at made
      exact ⟨first, isPcat, made⟩
    · intro none
      rwa [chosen_eq_none_iff.mpr none, if_neg (none first (List.mem_cons_self ..))] at made

/-- A ROM of one image, which is for a PC-AT. -/
def oneImage : List UInt8 := smallRimg smallPcir

theorem discoveries_agree_sample : DiscoveriesAgree oneImage [imageAt oneImage 0 0x1c] := by
  have first : ImageAt oneImage 0 0x1c := by
    unfold ImageAt
    decide +kernel
  have after : rimgFindPcir (oneImage.drop (0 + (imageAt oneImage 0 0x1c).sz))
      (oneImage.drop (0 + (imageAt oneImage 0 0x1c).sz)).length = .ok none := by decide +kernel
  have chain : ImageChain oneImage 0 [imageAt oneImage 0 0x1c] :=
    .image first (.stop fun off here => nomatch after.symm.trans here)
  exact (@discoveries_agree_iff oneImage [] [] _ (by decide +kernel) chain
    ⟨[], _, rfl, by decide +kernel, by simp⟩).mpr fun _ => ⟨by decide +kernel, Or.inl (by decide +kernel)⟩

/-- A ROM with an image for UEFI and after it one for a PC-AT. -/
def uefiFirst : List UInt8 := smallRimg (overwrite smallPcir pcirTypeAt [3, 0]) ++ smallRimg smallPcir

/-- The code for firmware volumes caches the second image. The code for PCI devices selects none. -/
theorem uefiFirst_disagree : ∃ first last, ImageChain uefiFirst 0 [first, last] ∧ IsGroup uefiFirst [first, last] ∧
    last.IsPcat uefiFirst ∧ ¬ DiscoveriesAgree uefiFirst [first, last] := by
  have first : ImageAt uefiFirst 0 0x1c := by
    unfold ImageAt
    decide +kernel
  have second : ImageAt uefiFirst (0 + (imageAt uefiFirst 0 0x1c).sz) 0x1c := by
    unfold ImageAt
    decide +kernel
  generalize place : 0 + (imageAt uefiFirst 0 0x1c).sz = next at second
  obtain rfl : next = 512 := by
    rw [← place]
    decide +kernel
  have after : rimgFindPcir (uefiFirst.drop (512 + (imageAt uefiFirst 512 0x1c).sz))
      (uefiFirst.drop (512 + (imageAt uefiFirst 512 0x1c).sz)).length = .ok none := by decide +kernel
  have chain : ImageChain uefiFirst 0 [imageAt uefiFirst 0 0x1c, imageAt uefiFirst 512 0x1c] := by
    apply ImageChain.image first
    rw [place]
    exact .image second (.stop fun off here => nomatch after.symm.trans here)
  have pcat : (imageAt uefiFirst 512 0x1c).IsPcat uefiFirst := by decide +kernel
  refine ⟨_, _, chain, ⟨[_], _, rfl, by decide +kernel, ?_⟩, pcat, ?_⟩
  · rw [List.forall_mem_singleton]
    decide +kernel
  · intro agree
    obtain ⟨image, -, both⟩ := agree.pcat ⟨_, by simp, pcat⟩
    have none : rimgFromPciIo uefiFirst uefiFirst.length = .ok none := by decide +kernel
    exact nomatch none.symm.trans both.pciIo

end

end Biefircate
