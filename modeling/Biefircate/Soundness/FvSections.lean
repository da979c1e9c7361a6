import Biefircate.Proofs.Stage1.FvGather

/-! # Which images of a section are cached

A section is read as the longest chain of images that `rimg_find_pcir` accepts, in groups that each end with an image
with the flag for the last image. Of each group one PC-AT image is cached, if it has any.
-/

namespace Biefircate

section

variable {rom : List UInt8}

/-- The images of a chain in groups, each ended by an image with the flag, and those after the last such image. -/
structure Grouped (rom : List UInt8) (images : List FvImage) (groups : List (List FvImage)) (rest : List FvImage) :
    Prop where
  parts : images = groups.flatten ++ rest
  ended : ∀ group ∈ groups, ∃ before last, group = before ++ [last] ∧ last.IsLast rom ∧
    ∀ image ∈ before, ¬ image.IsLast rom
  unended : ∀ image ∈ rest, ¬ image.IsLast rom

/-- An open group and the images after it form groups, from each of which one image is chosen. -/
theorem cacheCalls_groups (group images : List FvImage) (unended : ∀ image ∈ group, ¬ image.IsLast rom) :
    ∃ groups rest, Grouped rom (group ++ images) groups rest ∧
      cacheCalls rom group images = groups.filterMap (chosen rom) := by
  induction images generalizing group with
  | nil => exact ⟨[], group, ⟨List.append_nil _, List.forall_mem_nil _, unended⟩, rfl⟩
  | cons image images ih =>
    rw [cacheCalls]
    by_cases last : image.IsLast rom
    · obtain ⟨groups, rest, ⟨parts, ended, open_⟩, calls⟩ := ih [] (List.forall_mem_nil _)
      refine ⟨(group ++ [image]) :: groups, rest, ⟨?_, List.forall_mem_cons.mpr ⟨⟨group, image, rfl, last, unended⟩, ended⟩, open_⟩, ?_⟩
      · rw [List.flatten_cons, List.append_assoc, ← parts]
        simp
      · rw [if_pos last, calls, List.filterMap_cons]
        cases chosen rom (group ++ [image]) <;> rfl
    · obtain ⟨groups, rest, grouped, calls⟩ := ih (group ++ [image]) (by
        simpa [or_imp, forall_and] using ⟨unended, last⟩)
      refine ⟨groups, rest, ?_, ?_⟩
      · rwa [List.append_assoc] at grouped
      · rw [if_neg last, calls]

/-- Going through a section ends after a round for every 512 bytes and one more, and comes to caching the images
chosen from the groups, in their order. -/
theorem fvGather_calls (typed : rom.length < 2 ^ 64) : ∃ images groups rest, ImageChain rom 0 images ∧
    Grouped rom images groups rest ∧ ∀ {σ : Type} (cache : σ → FvImage → Exec σ) (s : σ) (rounds : ℕ),
      rom.length / hkibyte < rounds → fvGatherRimgsForOneSxn rom cache rounds rom.length s =
        Run.run cache s (groups.filterMap (chosen rom)) := by
  obtain ⟨images, chain⟩ := exists_imageChain typed 0
  obtain ⟨groups, rest, grouped, calls⟩ := cacheCalls_groups [] images (fun _ member => nomatch member)
  refine ⟨images, groups, rest, chain, grouped, fun cache s rounds enough => ?_⟩
  have start : Gathering rom ⟨0, rom.length, none, 0, none⟩ 0 [] :=
    ⟨rfl, rfl, Nat.zero_le _, rfl, (fun _ chose => nomatch chose), fun _ chose => nomatch chose⟩
  rw [fvGatherRimgsForOneSxn, fvGatherLoop_eq typed cache chain start ((chain.length_le typed).trans_lt enough), calls]

/-- A UEFI image, a PC-AT image of revision 0 and one of revision 3, which is the last. -/
def threeImages : List UInt8 :=
  smallRimg (overwrite smallPcir pcirTypeAt [3, 0]) ++
    (smallRimg (overwrite (overwrite smallPcir pcirPcirRevAt [0]) pcirFlagsAt [0]) ++ smallRimg smallPcir)

/-- Only the last of them is cached. -/
theorem fvGather_calls_sample : ∃ images groups rest, ImageChain threeImages 0 images ∧
    Grouped threeImages images groups rest ∧ Run.run (fun calls image => (.ok (calls ++ [image]) : Exec (List FvImage))) []
      (groups.filterMap (chosen threeImages)) = .ok [⟨1024, 512, 1052⟩] := by
  obtain ⟨images, groups, rest, chain, grouped, same⟩ := fvGather_calls (show threeImages.length < 2 ^ 64 by decide +kernel)
  refine ⟨images, groups, rest, chain, grouped, ?_⟩
  rw [← same _ _ 4 (by decide +kernel)]
  decide +kernel

end

end Biefircate
