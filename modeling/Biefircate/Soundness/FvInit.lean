import Biefircate.Model.Stage1.FvInit
import Biefircate.Soundness.FvLookup
import Biefircate.Soundness.FvSections

/-! # What the cache holds after all firmware volumes

The images chosen from the groups of each section are cached section by section, file by file and volume by volume. Looking for
a device then finds the last of all of them that is for it.
-/

namespace Biefircate

/-! ## What there is to find -/

/-- An image of a section on its own. -/
def FvImage.alone (rom : List UInt8) (image : FvImage) : CachedRimg :=
  ⟨slice rom image.rimg image.sz, image.pcir - image.rimg⟩

/-- The images to cache from a section: those chosen from the groups of its longest chain, as far as the buffer for
sections has it. -/
def SectionYields (contents : List UInt8) (found : List CachedRimg) : Prop :=
  ∃ images groups rest, ImageChain (contents.take maxOromSz) 0 images ∧
    Grouped (contents.take maxOromSz) images groups rest ∧
      found = (groups.filterMap (chosen (contents.take maxOromSz))).map (FvImage.alone (contents.take maxOromSz))

section

variable {γ : Type}

/-- Whether the sections of a file are looked at. -/
def FvFile.IsSkipped (file : FvFile γ) : Prop :=
  file.type = efiFvFiletypeFfsPad ∨ file.type = efiFvFiletypeFirmwareVolumeImage

instance (file : FvFile γ) : Decidable file.IsSkipped := inferInstanceAs (Decidable (_ ∨ _))

/-- The sections of a volume, in the order in which they are looked at. -/
def FirmwareVolume.searched (fv : FirmwareVolume γ) : List (List UInt8) :=
  fv.files.flatMap fun file => if file.IsSkipped then [] else fv.sections file.guid

/-- The sections of all volumes whose protocol there is. -/
def searchedSections (handles : List (Option (FirmwareVolume γ))) : List (List UInt8) :=
  handles.flatMap fun handle => (handle.map FirmwareVolume.searched).getD []

end

section

variable {γ : Type} {granted : ℕ → Bool} {rom : List UInt8} {images : List FvImage} {groups : List (List FvImage)}
  {rest : List FvImage} {image : FvImage} {start : ℕ} {c : FvCache} {got : List CachedRimg}

/-! ## The images of a section -/

/-- An image in a chain is where `rimg_find_pcir` accepts it. -/
theorem ImageChain.mem (chain : ImageChain rom start images) (member : image ∈ images) :
    ∃ place off, ImageAt rom place off ∧ image = imageAt rom place off := by
  induction chain with
  | stop none => cases member
  | @image start off rest first others ih =>
    rcases List.mem_cons.mp member with rfl | later
    · exact ⟨start, off, first, rfl⟩
    · exact ih later

/-- There is one longest chain. -/
theorem ImageChain.unique {others : List FvImage} (typed : rom.length < 2 ^ 64) (chain : ImageChain rom start images)
    (other : ImageChain rom start others) : images = others := by
  induction chain generalizing others with
  | stop none =>
    cases other with
    | stop none' => rfl
    | image first others => exact absurd first (none _)
  | @image start off rest first others ih =>
    cases other with
    | stop none => exact absurd first (none _)
    | @image start' off' rest' first' others' =>
      have same : off = off' := (first.isImage typed).place.symm.trans (first'.isImage typed).place
      subst same
      rw [ih others']

/-- Going through an open group, the images up to the next one with the flag, and others after it. -/
theorem cacheCalls_group (group before : List FvImage) {last : FvImage} (early : ∀ image ∈ before, ¬ image.IsLast rom)
    (isLast : last.IsLast rom) (images : List FvImage) :
    cacheCalls rom group (before ++ last :: images) =
      (chosen rom (group ++ (before ++ [last]))).toList ++ cacheCalls rom [] images := by
  induction before generalizing group with
  | nil => rw [List.nil_append, cacheCalls, if_pos isLast, List.nil_append]
  | cons image before ih =>
    obtain ⟨notLast, early⟩ := List.forall_mem_cons.mp early
    rw [List.cons_append, cacheCalls, if_neg notLast, ih _ early]
    simp

theorem cacheCalls_unended (group : List FvImage) (unended : ∀ image ∈ rest, ¬ image.IsLast rom) :
    cacheCalls rom group rest = [] := by
  induction rest generalizing group with
  | nil => rfl
  | cons image rest ih =>
    obtain ⟨notLast, unended⟩ := List.forall_mem_cons.mp unended
    rw [cacheCalls, if_neg notLast, ih _ unended]

/-- Whatever the groups are, the images chosen from them are cached. -/
theorem Grouped.calls (grouped : Grouped rom images groups rest) :
    cacheCalls rom [] images = groups.filterMap (chosen rom) := by
  obtain ⟨rfl, ended, unended⟩ := grouped
  induction groups with
  | nil => exact cacheCalls_unended [] unended
  | cons group groups ih =>
    obtain ⟨here, later⟩ := List.forall_mem_cons.mp ended
    obtain ⟨before, last, rfl, isLast, early⟩ := here
    rw [List.flatten_cons, List.append_assoc, List.append_assoc, List.singleton_append, cacheCalls_group [] before early isLast, ih later, List.nil_append, List.filterMap_cons]
    cases chosen rom (before ++ [last]) <;> rfl

theorem SectionYields.unique {contents : List UInt8} {first second : List CachedRimg} (yields : SectionYields contents first)
    (yieldsToo : SectionYields contents second) : first = second := by
  obtain ⟨images, groups, rest, chain, grouped, rfl⟩ := yields
  obtain ⟨images', groups', rest', chain', grouped', rfl⟩ := yieldsToo
  have short : (contents.take maxOromSz).length < 2 ^ 64 :=
    (List.length_take_le ..).trans_lt (by decide)
  obtain rfl := chain.unique short chain'
  rw [← grouped.calls, ← grouped'.calls]

/-- A chosen image is one of the chain. -/
theorem Grouped.mem_of_chosen (grouped : Grouped rom images groups rest) (member : image ∈ groups.filterMap (chosen rom)) :
    image ∈ images := by
  obtain ⟨group, isGroup, choice⟩ := List.mem_filterMap.mp member
  have inGroup : image ∈ group := by
    rcases Option.or_eq_some_iff.mp choice with late | ⟨-, first⟩
    · exact List.mem_of_find?_eq_some late
    · exact List.mem_of_find?_eq_some first
  rw [grouped.parts]
  exact List.mem_append_left _ (List.mem_flatten.mpr ⟨group, isGroup, inGroup⟩)

/-- An image of a chain is accepted on its own. -/
theorem ImageAt.accepted {off : ℕ} (typed : rom.length < 2 ^ 64) (first : ImageAt rom start off) :
    ((imageAt rom start off).alone rom).Accepted ∧
      ((imageAt rom start off).alone rom).bytes.length = (imageAt rom start off).sz ∧
        start + (imageAt rom start off).sz ≤ rom.length := by
  have image := first.isImage typed
  obtain ⟨alone, size⟩ := image.alone
  have fits := image.fits
  have long := image.long_image
  rw [List.length_drop] at fits
  simp only [hkibyte, kibyte] at long
  have inside : start + imageSz (rom.drop start) off ≤ rom.length := by omega
  have length : (slice rom start (imageSz (rom.drop start) off)).length = imageSz (rom.drop start) off := slice_length inside
  have place : start + off - start = off := Nat.add_sub_cancel_left ..
  refine ⟨⟨?_, ?_⟩, length, inside⟩
  · rw [FvImage.alone, imageAt, place]
    exact (rimgFindPcir_eq_some_iff (by rw [length]; omega)).mpr alone
  · rw [FvImage.alone, imageAt, place, length]
    exact size

/-! ## What each step caches -/

/-- The nodes entered, and the images of which the cache holds copies. -/
def FvCache.Gathered (c : FvCache) (got : List CachedRimg) : Prop := (∃ nodes, c.Entered nodes) ∧ c.Holds got

theorem FvCache.Gathered.withAllocs (gathered : c.Gathered got) (allocs : ℕ) : { c with allocs := allocs }.Gathered got :=
  ⟨gathered.1, gathered.2.copies, gathered.2.answers⟩

theorem cacheFvImage_gathers (succeed : ∀ n, granted n = true) (typed : rom.length < 2 ^ 64) {place off : ℕ}
    (first : ImageAt rom place off) (gathered : c.Gathered got) :
    ∃ c', cacheFvImage granted rom c (imageAt rom place off) = .ok c' ∧
      c'.Gathered (got ++ [(imageAt rom place off).alone rom]) := by
  obtain ⟨accepted, length, inside⟩ := first.accepted typed
  obtain ⟨⟨nodes, entered⟩, holds⟩ := gathered
  obtain ⟨c', fresh, ran, entered', holds'⟩ := holds.step succeed accepted entered
  refine ⟨c', ?_, ⟨_, entered'⟩, holds'⟩
  rw [length] at ran
  rw [cacheFvImage, bytesIn_of_le (show (imageAt rom place off).rimg + _ ≤ _ from inside), ok_bind]
  exact ran

/-- Caching images of a chain, one after the other. -/
theorem run_cacheFvImage (succeed : ∀ n, granted n = true) (typed : rom.length < 2 ^ 64)
    (accepted : ∀ image ∈ images, ∃ place off, ImageAt rom place off ∧ image = imageAt rom place off)
    (gathered : c.Gathered got) :
    ∃ c', Run.run (cacheFvImage granted rom) c images = .ok c' ∧ c'.Gathered (got ++ images.map (FvImage.alone rom)) := by
  induction images generalizing c got with
  | nil => exact ⟨c, rfl, by rwa [List.map_nil, List.append_nil]⟩
  | cons image images ih =>
    obtain ⟨⟨place, off, first, rfl⟩, others⟩ := List.forall_mem_cons.mp accepted
    obtain ⟨c', cached, here⟩ := cacheFvImage_gathers succeed typed first gathered
    obtain ⟨c'', ran, there⟩ := ih others here
    refine ⟨c'', ?_, ?_⟩
    · rw [Run.run, cached, ok_bind, ran]
    · rwa [List.append_assoc] at there

/-- Going through a buffer caches the images chosen from the groups in it. -/
theorem fvGatherRimgsForOneSxn_gathers (succeed : ∀ n, granted n = true) (typed : rom.length < 2 ^ 64)
    (gathered : c.Gathered got) :
    ∃ c' images groups rest, ImageChain rom 0 images ∧ Grouped rom images groups rest ∧
      fvGatherRimgsForOneSxn rom (cacheFvImage granted rom) (rom.length / hkibyte + 1) rom.length c = .ok c' ∧
        c'.Gathered (got ++ (groups.filterMap (chosen rom)).map (FvImage.alone rom)) := by
  obtain ⟨images, chain⟩ := exists_imageChain typed 0
  obtain ⟨groups, rest, grouped, calls⟩ := cacheCalls_groups [] images (List.forall_mem_nil _)
  have start : Gathering rom ⟨0, rom.length, none, 0, none⟩ 0 [] :=
    ⟨rfl, rfl, Nat.zero_le _, rfl, (fun _ chose => nomatch chose), fun _ chose => nomatch chose⟩
  have enough : images.length < rom.length / hkibyte + 1 := Nat.lt_succ_of_le (chain.length_le typed)
  obtain ⟨c', ran, after⟩ := run_cacheFvImage succeed typed (fun image member => chain.mem (grouped.mem_of_chosen member)) gathered
  refine ⟨c', images, groups, rest, chain, grouped, ?_, after⟩
  rw [fvGatherRimgsForOneSxn, fvGatherLoop_eq typed _ chain start enough, calls, ran]

/-- Going through a section caches what it yields. -/
theorem fvGatherSection_gathers (succeed : ∀ n, granted n = true) (contents : List UInt8) (gathered : c.Gathered got) :
    ∃ c' more, SectionYields contents more ∧ fvGatherSection granted c contents = .ok c' ∧ c'.Gathered (got ++ more) := by
  have length : (if maxOromSz < contents.length then maxOromSz else contents.length) = (contents.take maxOromSz).length := by
    rw [List.length_take]
    split <;> omega
  have typed : (contents.take maxOromSz).length < 2 ^ 64 := (List.length_take_le ..).trans_lt (by decide)
  obtain ⟨c', images, groups, rest, chain, grouped, ran, after⟩ := fvGatherRimgsForOneSxn_gathers succeed typed gathered
  refine ⟨c', _, ⟨images, groups, rest, chain, grouped, rfl⟩, ?_, after⟩
  rw [← ran, ← length]
  rfl

/-- The loop over the sections of a file takes them one by one. -/
theorem fvGatherSections_eq {sections : List (List UInt8)} (few : sections.length < 2 ^ 64) (inst : ℕ) :
    fvGatherSections granted sections ((sections.drop inst).length + 1) inst c =
      Run.run (fvGatherSection granted) c (sections.drop inst) := by
  generalize left : sections.drop inst = later
  induction later generalizing inst c with
  | nil =>
    have past : sections[inst]? = none := by
      rw [← List.head?_drop, left]
      rfl
    rw [fvGatherSections, past]
    rfl
  | cons contents later ih =>
    have here : sections[inst]? = some contents := by
      rw [← List.head?_drop, left]
      rfl
    have inside := (List.getElem?_eq_some_iff.mp here).1
    have next : sections.drop (inst + 1) = later := by
      rw [← List.tail_drop, left]
      rfl
    have more : Word.add 64 inst 1 = inst + 1 := Word.add_of_lt (by omega)
    rw [List.length_cons, fvGatherSections, here, Run.run]
    dsimp only
    congr 1
    funext c
    rw [more, if_pos (Nat.succ_ne_zero inst), ih (inst + 1) next]

theorem fvGatherRimgsForOneFile_gathers (succeed : ∀ n, granted n = true) (fv : FirmwareVolume γ) (guid : γ)
    (few : (fv.sections guid).length < 2 ^ 64) (gathered : c.Gathered got) :
    ∃ c' more, Run.Gathered SectionYields (fv.sections guid) more ∧ fvGatherRimgsForOneFile granted fv guid c = .ok c' ∧
      c'.Gathered (got ++ more) := by
  rw [fvGatherRimgsForOneFile, show (fv.sections guid).length = ((fv.sections guid).drop 0).length from rfl,
    fvGatherSections_eq few]
  exact Run.Gathered.run (fun c got contents _ gathered => fvGatherSection_gathers succeed contents gathered)
    (gathered.withAllocs _)

theorem fvGatherFile_gathers (succeed : ∀ n, granted n = true) (fv : FirmwareVolume γ) (file : FvFile γ)
    (few : (fv.sections file.guid).length < 2 ^ 64) (gathered : c.Gathered got) :
    ∃ c' more, Run.Gathered SectionYields (if file.IsSkipped then [] else fv.sections file.guid) more ∧
      fvGatherFile granted fv c file = .ok c' ∧ c'.Gathered (got ++ more) := by
  unfold fvGatherFile
  by_cases skipped : file.IsSkipped
  · rw [if_pos skipped, if_pos (show _ ∨ _ from skipped)]
    exact ⟨c, [], .nil, rfl, by rwa [List.append_nil]⟩
  · rw [if_neg skipped, if_neg (show ¬ (_ ∨ _) from skipped)]
    exact fvGatherRimgsForOneFile_gathers succeed fv file.guid few gathered

theorem fvGatherHandle_gathers (succeed : ∀ n, granted n = true) (handle : Option (FirmwareVolume γ))
    (few : ∀ fv ∈ handle, ∀ guid, (fv.sections guid).length < 2 ^ 64) (gathered : c.Gathered got) :
    ∃ c' more, Run.Gathered SectionYields ((handle.map FirmwareVolume.searched).getD []) more ∧
      fvGatherHandle granted c handle = .ok c' ∧ c'.Gathered (got ++ more) := by
  cases handle with
  | none => exact ⟨c, [], .nil, rfl, by rwa [List.append_nil]⟩
  | some fv =>
    obtain ⟨c', more, gathers, ran, after⟩ := Run.Gathered.run
      (fun c got file (_ : file ∈ fv.files) gathered => fvGatherFile_gathers succeed fv file (few fv rfl file.guid) gathered)
      (gathered.withAllocs (c.allocs + 1))
    refine ⟨c', more, gathers.flatMap, ?_, after⟩
    rw [fvGatherHandle, fvGatherRimgsForOneFv, allocatePool_ok succeed]
    exact ran

/-- After the firmware volumes were gone through, which succeeds without a read past a section or an image, looking for a device
finds the last image for it among those that the sections yield, one after the other. -/
theorem fvInit_finds (succeed : ∀ n, granted n = true) (handles : List (Option (FirmwareVolume γ)))
    (few : ∀ fv, some fv ∈ handles → ∀ guid, (fv.sections guid).length < 2 ^ 64) :
    ∃ c images, fvInit granted handles FvCache.empty = .ok c ∧
      (∀ found, Run.Gathered SectionYields (searchedSections handles) found ↔ found = images) ∧ c.Holds images := by
  have start : FvCache.empty.Gathered [] :=
    ⟨⟨[], HashTable.represents_empty⟩, rfl, fun _ _ => List.forall_mem_nil _⟩
  obtain ⟨c, images, gathers, ran, -, holds⟩ := Run.Gathered.run
    (fun c got handle (member : handle ∈ handles) gathered =>
      fvGatherHandle_gathers succeed handle (fun fv here => few fv (Option.mem_def.mp here ▸ member)) gathered) start
  refine ⟨c, images, ?_, fun found => ⟨fun other => ?_, fun same => same ▸ gathers.flatMap⟩, holds⟩
  · unfold fvInit
    split
    · next none =>
      rw [none] at ran
      exact ran
    · exact ran
  · exact other.unique (fun _ _ _ _ yields => yields.unique) gathers.flatMap

/-- A volume that is not there, and one with a padding file and a file with two sections, of which the second holds an image
after another for the same device. -/
def sampleHandles : List (Option (FirmwareVolume ℕ)) :=
  [none, some ⟨[⟨0xf0, 1⟩, ⟨0x02, 2⟩],
    fun guid => if guid = 2 then [[1, 2, 3], smallRimg smallPcir ++ smallRimg smallPcir] else [smallRimg smallPcir]⟩]

theorem fvInit_finds_sample : ∃ c images, fvInit (fun _ => true) sampleHandles FvCache.empty = .ok c ∧
    (∀ found, Run.Gathered SectionYields (searchedSections sampleHandles) found ↔ found = images) ∧ c.Holds images := by
  refine fvInit_finds (fun _ => rfl) sampleHandles fun fv member guid => ?_
  have only : some fv = sampleHandles[1] := by
    simpa [sampleHandles] using member
  obtain rfl := Option.some.inj only
  dsimp only
  split <;> exact Nat.lt_of_le_of_lt (show _ ≤ 2 by decide) (by decide)

end

end Biefircate
