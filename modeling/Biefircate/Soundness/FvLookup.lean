import Biefircate.Proofs.Stage1.FvCache
import Mathlib.Data.List.Induction

/-! # The cache as a map in which the last writer wins

After any number of images were cached, looking for a device finds the copy of the image cached last among those for
it.
-/

namespace Biefircate

section

variable {granted : ℕ → Bool} {images : List CachedRimg} {c : FvCache} {nodes : List HtNode}

/-- The image at some place is the last one with a property. -/
structure Newest (images : List CachedRimg) (P : CachedRimg → Prop) (place : ℕ) (image : CachedRimg) : Prop where
  here : images[place]? = some image
  holds : P image
  last : ∀ later other, place < later → images[later]? = some other → ¬ P other

/-- What was found for a device: nothing, and no image is for it, or the copy and the size of the newest that is. -/
def Answers (images : List CachedRimg) (copies : List (List UInt8)) (pciId classIf : ℕ) : Option (ℕ × ℕ) → Prop
  | none => ∀ image ∈ images, ¬ image.Matches pciId classIf
  | some (rimgCopy, sz) => ∃ place image, Newest images (CachedRimg.Matches · pciId classIf) place image ∧
      copies[rimgCopy]? = some image.bytes ∧ sz = image.bytes.length

/-- The copies are those of the images, and the nodes answer as the images do. -/
structure FvCache.Holds (images : List CachedRimg) (c : FvCache) : Prop where
  copies : c.copies = images.map CachedRimg.bytes
  answers : ∀ pciId classIf, Answers images c.copies pciId classIf (fvFindRimg c pciId classIf)

theorem Newest.append {P : CachedRimg → Prop} {place : ℕ} {image other : CachedRimg} (newest : Newest images P place image)
    (unlike : ¬ P other) : Newest (images ++ [other]) P place image := by
  obtain ⟨here, holds, last⟩ := newest
  have inside := (List.getElem?_eq_some_iff.mp here).1
  refine ⟨by rwa [List.getElem?_append_left inside], holds, fun later found after at_later => ?_⟩
  by_cases old : later < images.length
  · rw [List.getElem?_append_left old] at at_later
    exact last later found after at_later
  · rw [List.getElem?_append_right (not_lt.mp old)] at at_later
    have only : found = other := by
      have member := List.mem_of_getElem? at_later
      simpa using member
    rwa [only]

theorem Newest.concat {P : CachedRimg → Prop} {image : CachedRimg} (holds : P image) :
    Newest (images ++ [image]) P images.length image := by
  refine ⟨by simp, holds, fun later other after at_later => ?_⟩
  have inside := (List.getElem?_eq_some_iff.mp at_later).1
  simp at inside
  omega

/-- Caching one more image. -/
theorem FvCache.Holds.step {image : CachedRimg} (succeed : ∀ n, granted n = true) (accepted : image.Accepted)
    (entered : c.Entered nodes) (holds : c.Holds images) :
    ∃ c' fresh, fvCacheRimg granted image.bytes image.bytes.length image.pcir c = .ok c' ∧ c'.Entered (fresh ++ nodes) ∧
      c'.Holds (images ++ [image]) := by
  obtain ⟨c', fresh, ran, copies, entered', own, keys⟩ := fvCacheRimg_ok succeed accepted entered
  refine ⟨c', fresh, ran, entered', ?_, fun pciId classIf => ?_⟩
  · rw [copies, holds.copies, List.map_append]
    rfl
  · have before := holds.answers pciId classIf
    rw [entered.find] at before
    rw [entered'.find, List.find?_append, copies]
    have matching := keys pciId classIf
    cases found : fresh.find? fun node => decide (node.key = (pciId, classIf)) with
    | some node =>
      have same := List.find?_some found
      have member := List.mem_of_find?_eq_some found
      obtain ⟨copyIs, szIs⟩ := own node member
      have forDevice : image.Matches pciId classIf := matching.mp ⟨node, member, of_decide_eq_true same⟩
      refine ⟨images.length, image, .concat forDevice, ?_, szIs⟩
      rw [copyIs, List.getElem?_append_right le_rfl, Nat.sub_self]
      rfl
    | none =>
      have unlike : ¬ image.Matches pciId classIf := fun forDevice => by
        obtain ⟨node, member, same⟩ := matching.mpr forDevice
        exact List.find?_eq_none.mp found node member (decide_eq_true same)
      rw [Option.none_or]
      cases older : nodes.find? fun node => decide (node.key = (pciId, classIf)) with
      | none =>
        rw [older] at before
        exact List.forall_mem_append.mpr ⟨before, by simpa using unlike⟩
      | some node =>
        rw [older] at before
        obtain ⟨place, other, newest, copied, size⟩ := before
        refine ⟨place, other, newest.append unlike, ?_, size⟩
        rwa [List.getElem?_append_left (List.getElem?_eq_some_iff.mp copied).1]

/-- After any calls of `fv_cache_rimg` on images accepted at their own size, which all succeed without a read past an
image, looking for a device finds the newest image for it. -/
theorem fvFindRimg_newest (succeed : ∀ n, granted n = true) (images : List CachedRimg)
    (accepted : ∀ image ∈ images, image.Accepted) :
    ∃ c, Run.run (fun c image => fvCacheRimg granted image.bytes image.bytes.length image.pcir c) FvCache.empty images = .ok c ∧
      c.Holds images := by
  suffices ran : ∃ c nodes, Run.run (fun c image => fvCacheRimg granted image.bytes image.bytes.length image.pcir c)
      FvCache.empty images = .ok c ∧ c.Entered nodes ∧ c.Holds images from
    let ⟨c, _, done, _, holds⟩ := ran
    ⟨c, done, holds⟩
  induction images using List.reverseRec with
  | nil =>
    exact ⟨FvCache.empty, [], rfl, HashTable.represents_empty, rfl, fun _ _ _ member => nomatch member⟩
  | append_singleton images image ih =>
    obtain ⟨before, one⟩ := List.forall_mem_append.mp accepted
    obtain ⟨c, nodes, ran, entered, holds⟩ := ih before
    obtain ⟨c', fresh, cached, entered', holds'⟩ := holds.step succeed (one image (List.mem_singleton_self image)) entered
    refine ⟨c', fresh ++ nodes, ?_, entered', holds'⟩
    rw [Run.run_append, ran, ok_bind, Run.run, cached]
    rfl

/-- Two images for the same device, the second of which lists another one. -/
def sampleImages : List CachedRimg :=
  [⟨smallRimg smallPcir, 0x1c⟩, ⟨smallRimg (overwrite smallPcir pcirDevIdsOffAt [24, 0] ++ [0x0f, 0x10, 0, 0]), 0x1c⟩]

theorem fvFindRimg_newest_sample : ∃ c, Run.run (fun c image => fvCacheRimg (fun _ => true) image.bytes image.bytes.length
    image.pcir c) FvCache.empty sampleImages = .ok c ∧ c.Holds sampleImages :=
  fvFindRimg_newest (fun _ => rfl) sampleImages (by decide +kernel)

end

end Biefircate
