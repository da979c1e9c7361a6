import Biefircate.Model.Stage1.Fv
import Biefircate.Soundness.RimgParser

/-! # Going through the images of a section

The variables `found_rimg`, `found_sz` and `found_pcir` hold the choice among the images since the last one with the
flag for the last image.
-/

namespace Biefircate

section

variable (rom : List UInt8)

/-- The remaining bytes of a section begin with an image. -/
def ImageAt (start off : ℕ) : Prop := rimgFindPcir (rom.drop start) (rom.drop start).length = .ok (some off)

/-- The image at an offset, with its own size and structure. -/
def imageAt (start off : ℕ) : FvImage := ⟨start, imageSz (rom.drop start) off, start + off⟩

/-- The longest chain of images, one after the other, from an offset on. -/
inductive ImageChain : ℕ → List FvImage → Prop
  | stop {start : ℕ} (none : ∀ off, ¬ ImageAt rom start off) : ImageChain start []
  | image {start off : ℕ} {rest : List FvImage} (first : ImageAt rom start off)
      (others : ImageChain (start + (imageAt rom start off).sz) rest) : ImageChain start (imageAt rom start off :: rest)

namespace FvImage

variable (image : FvImage)

def IsPcat : Prop := number rom (image.pcir + pcirTypeAt) 1 = pcirTypPcat
def IsLate : Prop := 3 ≤ number rom (image.pcir + pcirPcirRevAt) 1
def IsLast : Prop := number rom (image.pcir + pcirFlagsAt) 1 &&& pcirFlagsLastImage ≠ 0

instance : Decidable (image.IsPcat rom) := inferInstanceAs (Decidable (_ = _))
instance : Decidable (image.IsLate rom) := inferInstanceAs (Decidable (_ ≤ _))
instance : Decidable (image.IsLast rom) := inferInstanceAs (Decidable (_ ≠ _))

end FvImage

/-- The image to cache of a group: the first PC-AT image of a late revision, or else the first PC-AT image. -/
def chosen (group : List FvImage) : Option FvImage :=
  (group.find? fun image => decide (image.IsPcat rom ∧ image.IsLate rom)).or
    (group.find? fun image => decide (image.IsPcat rom))

end

section

variable {rom : List UInt8} {group : List FvImage} {image other : FvImage}

theorem chosen_append (rom : List UInt8) (group : List FvImage) (image : FvImage) :
    chosen rom (group ++ [image]) =
      if image.IsPcat rom then
        match chosen rom group with
        | none => some image
        | some found => if ¬ found.IsLate rom ∧ image.IsLate rom then some image else some found
      else chosen rom group := by
  unfold chosen
  rw [List.find?_append, List.find?_append]
  cases late : group.find? fun image => decide (image.IsPcat rom ∧ image.IsLate rom) with
  | some found =>
    have both := List.find?_some late
    have isLate : found.IsLate rom := (of_decide_eq_true both).2
    simp [isLate]
  | none =>
    cases pcat : group.find? fun image => decide (image.IsPcat rom) with
    | some found =>
      have holds := List.find?_some pcat
      have isPcat : found.IsPcat rom := of_decide_eq_true holds
      have early : ¬ found.IsLate rom := fun isLate =>
        List.find?_eq_none.mp late found (List.mem_of_find?_eq_some pcat) (decide_eq_true ⟨isPcat, isLate⟩)
      by_cases here : image.IsPcat rom <;> by_cases hereLate : image.IsLate rom <;> simp [early, here, hereLate]
    | none => by_cases here : image.IsPcat rom <;> by_cases hereLate : image.IsLate rom <;> simp [here, hereLate]

/-- The variables hold the choice among the images of the open group, and the rest of the section. -/
structure Gathering (rom : List UInt8) (g : FvGather) (start : ℕ) (group : List FvImage) : Prop where
  at_start : g.romLeft = start
  left : g.romLeftSz = rom.length - start
  inside : start ≤ rom.length
  rimg : g.foundRimg = (chosen rom group).map FvImage.rimg
  found : ∀ image, chosen rom group = some image → g.foundSz = image.sz ∧ g.foundPcir = some image.pcir
  readable : ∀ image, chosen rom group = some image → image.pcir + pcirMinSz ≤ rom.length

/-- The images to cache among those from here on, with the open group. -/
def cacheCalls (rom : List UInt8) : List FvImage → List FvImage → List FvImage
  | _, [] => []
  | group, image :: rest =>
    if image.IsLast rom then (chosen rom (group ++ [image])).toList ++ cacheCalls rom [] rest
    else cacheCalls rom (group ++ [image]) rest

theorem ImageAt.isImage {start off : ℕ} (typed : rom.length < 2 ^ 64) (first : ImageAt rom start off) :
    IsImage (rom.drop start) off :=
  (rimgFindPcir_eq_some_iff (by rw [List.length_drop]; omega)).mp first

/-- The fields of a PCI data structure in a section. -/
def gathered (rom : List UInt8) (pcir : ℕ) : GatheredPcir where
  rimgSzHkib := number rom (pcir + pcirRimgSzHkibAt) 2
  type := number rom (pcir + pcirTypeAt) 1
  pcirRev := number rom (pcir + pcirPcirRevAt) 1
  flags := number rom (pcir + pcirFlagsAt) 1

theorem fvGatherPcir_ok {pcir : ℕ} (inside : pcir + pcirMinSz ≤ rom.length) :
    fvGatherPcir (rom.drop pcir) = .ok (gathered rom pcir) := by
  have readable : ∀ {off n}, off + n ≤ pcirMinSz → numberIn (rom.drop pcir) off n = .ok (number rom (pcir + off) n) :=
    fun within => numberIn_drop (by omega)
  rw [fvGatherPcir, readable (by decide), readable (by decide), readable (by decide), readable (by decide)]
  rfl

/-- Considering an image makes the choice among the group with it. -/
theorem Gathering.consider {g : FvGather} {start : ℕ} (gathering : Gathering rom g start group) (image : FvImage)
    (here : image.rimg = start) (inside : image.pcir + pcirMinSz ≤ rom.length) :
    ∃ g', g.consider rom image.sz image.pcir (gathered rom image.pcir) = .ok g' ∧
      Gathering rom g' start (group ++ [image]) := by
  obtain ⟨atStart, left, within, rimg, found, readable⟩ := gathering
  have taken : chosen rom (group ++ [image]) = some image → Gathering rom
      { g with foundRimg := some g.romLeft, foundSz := image.sz, foundPcir := some image.pcir } start (group ++ [image]) := by
    intro choice
    refine ⟨atStart, left, within, ?_, ?_, ?_⟩
    · rw [choice, atStart, ← here]
      rfl
    · rintro other chose
      rw [choice] at chose
      cases chose
      exact ⟨rfl, rfl⟩
    · rintro other chose
      rw [choice] at chose
      cases chose
      exact inside
  have kept : chosen rom (group ++ [image]) = chosen rom group → Gathering rom g start (group ++ [image]) := by
    intro same
    exact ⟨atStart, left, within, same ▸ rimg, same ▸ found, same ▸ readable⟩
  have choice := chosen_append rom group image
  unfold FvGather.consider
  by_cases pcat : image.IsPcat rom
  · rw [if_pos pcat] at choice
    rw [if_pos (show (gathered rom image.pcir).type = pcirTypPcat from pcat)]
    cases before : chosen rom group with
    | none =>
      rw [before] at choice rimg
      rw [rimg]
      exact ⟨_, rfl, taken choice⟩
    | some first =>
      rw [before] at choice rimg
      rw [rimg]
      obtain ⟨-, pcirIs⟩ := found first before
      have fits := readable first before
      have rev : g.foundPcirRev rom = .ok (number rom (first.pcir + pcirPcirRevAt) 1) := by
        rw [FvGather.foundPcirRev, pcirIs]
        exact numberIn_drop (by simp only [pcirMinSz, pcirMaxRtSzHkibAt, pcirPcirRevAt] at fits ⊢; omega)
      have test : number rom (first.pcir + pcirPcirRevAt) 1 < 3 ∧ 3 ≤ (gathered rom image.pcir).pcirRev ↔
          ¬ first.IsLate rom ∧ image.IsLate rom := and_congr_left' not_le.symm
      dsimp only [Option.map_some]
      dsimp only at choice
      rw [rev, ok_bind]
      split at choice
      · next better =>
        rw [if_pos (test.mpr better)]
        exact ⟨_, rfl, taken choice⟩
      · next worse =>
        rw [if_neg (mt test.mp worse)]
        exact ⟨_, rfl, kept (choice.trans before.symm)⟩
  · rw [if_neg pcat] at choice
    rw [if_neg (show (gathered rom image.pcir).type ≠ pcirTypPcat from pcat)]
    exact ⟨g, rfl, kept choice⟩

/-- The flag for the last image ends the group. -/
theorem Gathering.finish {g : FvGather} {start : ℕ} (gathering : Gathering rom g start group) (flags : ℕ) :
    ∃ g', g.finish flags = .ok (if flags &&& pcirFlagsLastImage ≠ 0 then chosen rom group else none, g') ∧
      Gathering rom g' start (if flags &&& pcirFlagsLastImage ≠ 0 then [] else group) := by
  obtain ⟨atStart, left, within, rimg, found, readable⟩ := gathering
  have emptied : ∀ g' : FvGather, g'.romLeft = g.romLeft → g'.romLeftSz = g.romLeftSz → g'.foundRimg = none →
      Gathering rom g' start [] := fun g' sameAt sameLeft cleared =>
    ⟨sameAt.trans atStart, sameLeft.trans left, within, cleared, (fun _ chose => nomatch chose), fun _ chose => nomatch chose⟩
  unfold FvGather.finish
  split
  · cases choice : chosen rom group with
    | none =>
      rw [choice] at rimg
      rw [rimg]
      exact ⟨g, rfl, emptied g rfl rfl rimg⟩
    | some image =>
      rw [choice] at rimg
      obtain ⟨sz, pcir⟩ := found image choice
      refine ⟨{ g with foundRimg := none }, ?_, emptied _ rfl rfl rfl⟩
      simp only [rimg, pcir, sz, Option.map_some]
  · exact ⟨g, rfl, atStart, left, within, rimg, found, readable⟩

/-- One round of the loop, over an image. -/
theorem Gathering.round {σ : Type} {g : FvGather} {start off : ℕ} (typed : rom.length < 2 ^ 64)
    (gathering : Gathering rom g start group) (first : ImageAt rom start off) (cache : σ → FvImage → Exec σ) (s : σ)
    (rounds : ℕ) :
    let image := imageAt rom start off
    ∃ g', Gathering rom g' (start + image.sz) (if image.IsLast rom then [] else group ++ [image]) ∧
      fvGatherLoop rom cache (rounds + 1) g s =
        Run.run cache s (if image.IsLast rom then (chosen rom (group ++ [image])).toList else []) >>=
          fvGatherLoop rom cache rounds g' := by
  intro image
  have isImage := first.isImage typed
  have least := isImage.leastInside.trans isImage.fits
  rw [List.length_drop] at least
  have size : image.sz ≤ rom.length - start := by
    rw [← List.length_drop]
    exact isImage.fits
  have inside : image.pcir + pcirMinSz ≤ rom.length := by
    have within := gathering.inside
    change start + off + pcirMinSz ≤ rom.length
    omega
  have found : rimgFindPcir (rom.drop g.romLeft) g.romLeftSz = .ok (some off) := by
    rw [gathering.at_start, gathering.left, ← List.length_drop]
    exact first
  have thisSz : (gathered rom image.pcir).rimgSzHkib * hkibyte % 2 ^ 32 = image.sz := by
    have short := number_lt rom (image.pcir + pcirRimgSzHkibAt) 2
    have same : image.sz = (gathered rom image.pcir).rimgSzHkib * hkibyte := by
      change imageSz (rom.drop start) off = number rom (start + off + pcirRimgSzHkibAt) 2 * hkibyte
      rw [imageSz, number_drop, Nat.add_assoc]
    rw [same]
    exact Nat.mod_eq_of_lt (by simp only [gathered, hkibyte, kibyte]; omega)
  obtain ⟨considered, ran, chose⟩ := gathering.consider image rfl inside
  obtain ⟨finished, ended, atStart, left, within, rimg, rest, readable⟩ := chose.finish (gathered rom image.pcir).flags
  refine ⟨{ finished with romLeft := finished.romLeft + image.sz, romLeftSz := Word.sub 64 finished.romLeftSz image.sz },
    ⟨?_, ?_, ?_, rimg, rest, readable⟩, ?_⟩
  · rw [← atStart]
  · change Word.sub 64 finished.romLeftSz image.sz = rom.length - (start + image.sz)
    rw [left, Word.sub_of_le size (by omega)]
    omega
  · have within := gathering.inside
    omega
  · rw [fvGatherLoop, found, ok_bind]
    dsimp only
    rw [gathering.at_start, show start + off = image.pcir from rfl, fvGatherPcir_ok inside, ok_bind, thisSz, ran, ok_bind, ended]
    by_cases last : image.IsLast rom
    · rw [if_pos (show (gathered rom image.pcir).flags &&& pcirFlagsLastImage ≠ 0 from last), if_pos last, ok_bind]
      cases chosen rom (group ++ [image]) with
      | none => rfl
      | some call =>
        rw [Option.toList_some, Run.run]
        dsimp only
        cases cache s call with
        | error stop => rfl
        | ok next => rfl
    · rw [if_neg (show ¬ ((gathered rom image.pcir).flags &&& pcirFlagsLastImage ≠ 0) from last), if_neg last, ok_bind]
      rfl

/-- The loop caches the images of the groups in a chain, whatever caching does. -/
theorem fvGatherLoop_eq {σ : Type} (typed : rom.length < 2 ^ 64) (cache : σ → FvImage → Exec σ) {start rounds : ℕ}
    {images : List FvImage} (chain : ImageChain rom start images) {g : FvGather} (gathering : Gathering rom g start group)
    (enough : images.length < rounds) (s : σ) :
    fvGatherLoop rom cache rounds g s = Run.run cache s (cacheCalls rom group images) := by
  induction chain generalizing group g rounds s with
  | @stop start none =>
    obtain ⟨rounds, rfl⟩ := Nat.exists_eq_succ_of_ne_zero (Nat.ne_zero_of_lt enough)
    have typedRest : (rom.drop start).length < 2 ^ 64 := by
      rw [List.length_drop]
      omega
    obtain ⟨found, ran, exactly_⟩ := rimgFindPcir_finds typedRest
    have nothing : found = Option.none :=
      Option.eq_none_iff_forall_ne_some.mpr fun off here => none off (ran.trans (congrArg _ here))
    rw [fvGatherLoop, gathering.at_start, gathering.left, ← List.length_drop, ran, nothing]
    rfl
  | @image start off rest first others ih =>
    obtain ⟨rounds, rfl⟩ := Nat.exists_eq_succ_of_ne_zero (Nat.ne_zero_of_lt enough)
    obtain ⟨next, gathered, ran⟩ := gathering.round typed first cache s rounds
    have shorter : rest.length < rounds := by simpa using enough
    rw [ran, cacheCalls]
    split at gathered
    · next last =>
      rw [if_pos last, if_pos last, Run.run_append]
      exact congrArg _ (funext fun s => ih gathered shorter s)
    · next more =>
      rw [if_neg more, if_neg more]
      exact ih gathered shorter s

/-- A section has one longest chain of images from any offset on. -/
theorem exists_imageChain (typed : rom.length < 2 ^ 64) (start : ℕ) : ∃ images, ImageChain rom start images := by
  by_cases none : ∀ off, ¬ ImageAt rom start off
  · exact ⟨[], .stop none⟩
  · obtain ⟨off, first⟩ := not_forall_not.mp none
    have image := first.isImage typed
    have fits := image.fits
    have long := image.long_image
    rw [List.length_drop] at fits
    simp only [hkibyte, kibyte] at long
    have shorter : rom.length - (start + (imageAt rom start off).sz) < rom.length - start := by
      change rom.length - (start + imageSz (rom.drop start) off) < rom.length - start
      omega
    obtain ⟨rest, others⟩ := exists_imageChain typed (start + (imageAt rom start off).sz)
    exact ⟨_, .image first others⟩
termination_by rom.length - start

/-- Every image of a chain takes 512 bytes of the section or more. -/
theorem ImageChain.length_le (typed : rom.length < 2 ^ 64) {start : ℕ} {images : List FvImage}
    (chain : ImageChain rom start images) : images.length ≤ (rom.length - start) / hkibyte := by
  induction chain with
  | stop none => exact Nat.zero_le _
  | @image start off rest first others ih =>
    have image := first.isImage typed
    have fits := image.fits
    have long := image.long_image
    rw [List.length_drop] at fits
    change rest.length ≤ (rom.length - (start + imageSz (rom.drop start) off)) / hkibyte at ih
    simp only [hkibyte, kibyte] at ih long ⊢
    rw [List.length_cons]
    omega

end

end Biefircate
