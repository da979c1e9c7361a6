import Biefircate.Lib.HashTable
import Biefircate.Model.Stage1.Fv
import Biefircate.Soundness.RimgParser

/-! # The cache of option ROM images

The two loops over a device list, which first look for its end and then enter its ids, agree on where it ends.
-/

namespace Biefircate

/-! ## Device lists -/

/-- The device ids from an offset on, up to a zero, all inside the buffer. -/
def DevList (rimg : List UInt8) : ℕ → List ℕ → Prop
  | p, [] => p + 2 ≤ rimg.length ∧ number rimg p 2 = 0
  | p, dev :: devs => p + 2 ≤ rimg.length ∧ number rimg p 2 = dev ∧ dev ≠ 0 ∧ DevList rimg (p + 2) devs

section

variable {rimg : List UInt8} {devs : List ℕ} {p : ℕ}

theorem DevList.length_le (list : DevList rimg p devs) : p + 2 * (devs.length + 1) ≤ rimg.length := by
  induction devs generalizing p with
  | nil => exact list.1
  | cons dev devs ih =>
    have rest := ih list.2.2.2
    rw [List.length_cons]
    omega

/-- There is one list from an offset on at most. -/
theorem DevList.unique {others : List ℕ} (list : DevList rimg p devs) (other : DevList rimg p others) : devs = others := by
  induction devs generalizing p others with
  | nil =>
    cases others with
    | nil => rfl
    | cons dev others => exact absurd (other.2.1.symm.trans list.2) other.2.2.1
  | cons dev devs ih =>
    cases others with
    | nil => exact absurd (list.2.1.symm.trans other.2) list.2.2.1
    | cons dev' others => rw [ih list.2.2.2 other.2.2.2, ← list.2.1, ← other.2.1]

/-- The first loop finds out whether the list ends inside the image. -/
theorem devIdsEnd_ok {rounds : ℕ} (enough : rimg.length ≤ p + rounds) :
    ∃ found, devIdsEnd rimg rimg.length (rounds + 1) p = .ok found ∧ (found = true ↔ ∃ devs, DevList rimg p devs) := by
  induction rounds using Nat.strong_induction_on generalizing p with
  | _ rounds ih =>
    rw [devIdsEnd]
    by_cases past : rimg.length ≤ p ∨ rimg.length ≤ p + 1
    · rw [if_pos past]
      refine ⟨false, rfl, iff_of_false Bool.false_ne_true ?_⟩
      rintro ⟨devs, list⟩
      have inside := list.length_le
      omega
    · have both : number rimg p 2 = number rimg p 1 + 256 * number rimg (p + 1) 1 := number_add (k := 1) (show p + 1 ≤ rimg.length by omega)
      rw [if_neg past, numberIn_of_le (by omega), ok_bind, numberIn_of_le (by omega), ok_bind]
      split
      · next more =>
        obtain ⟨rest, rfl⟩ : ∃ rest, rounds = rest + 1 := ⟨rounds - 1, by omega⟩
        obtain ⟨found, ran, exactly_⟩ := @ih rest (Nat.lt_succ_self _) (p + 2) (by omega)
        refine ⟨found, ran, exactly_.trans ⟨?_, ?_⟩⟩
        · rintro ⟨devs, list⟩
          exact ⟨number rimg p 2 :: devs, by omega, rfl, by omega, list⟩
        · rintro ⟨_ | ⟨dev, devs⟩, list⟩
          · have zero := list.2
            omega
          · exact ⟨devs, list.2.2.2⟩
      · next zero => exact ⟨true, rfl, iff_of_true rfl ⟨[], by omega, by omega⟩⟩

end

/-! ## Cached images -/

/-- An image on its own, and where its PCI data structure is. -/
structure CachedRimg where
  bytes : List UInt8
  pcir : ℕ
deriving DecidableEq, Repr

namespace CachedRimg

variable (image : CachedRimg)

/-- `rimg_find_pcir` accepted the image at its own size. -/
structure Accepted : Prop where
  found : rimgFindPcir image.bytes image.bytes.length = .ok (some image.pcir)
  size : imageSz image.bytes image.pcir = image.bytes.length

instance : Decidable image.Accepted :=
  decidable_of_iff (_ ∧ _) ⟨fun ⟨found, size⟩ => ⟨found, size⟩, fun ⟨found, size⟩ => ⟨found, size⟩⟩

def pciId : ℕ := number image.bytes (image.pcir + pcirPciIdAt) 4
def classIf : ℕ := 256 * number image.bytes (image.pcir + pcirClassIfAt) 3
def pcirRev : ℕ := number image.bytes (image.pcir + pcirPcirRevAt) 1
def devIds : ℕ := image.pcir + number image.bytes (image.pcir + pcirDevIdsOffAt) 2

/-- The image has a device list, which ends inside it. -/
def HasDevList (devs : List ℕ) : Prop :=
  3 ≤ image.pcirRev ∧ image.devIds ≠ image.pcir ∧ DevList image.bytes image.devIds devs

/-- The image is for a device: of its class, and with its primary id or the same vendor id and a listed device id. -/
def Matches (pciId classIf : ℕ) : Prop :=
  classIf = image.classIf ∧ (pciId = image.pciId ∨
    ∃ devs, image.HasDevList devs ∧ ∃ dev ∈ devs, pciId = dev * 2 ^ 16 + pciIdVendor image.pciId)

end CachedRimg

section

variable {image : CachedRimg} {granted : ℕ → Bool} {c : FvCache}

theorem CachedRimg.Accepted.isImage (accepted : image.Accepted) : IsImage image.bytes image.pcir := by
  have units := number_lt image.bytes (image.pcir + pcirRimgSzHkibAt) 2
  have size : number image.bytes (image.pcir + pcirRimgSzHkibAt) 2 * 512 = image.bytes.length := accepted.size
  exact (rimgFindPcir_eq_some_iff (by omega)).mp accepted.found

/-- The fields of an accepted image are inside it. -/
theorem CachedRimg.Accepted.field (accepted : image.Accepted) {off n : ℕ} (within : off + n ≤ pcirMinSz) :
    numberIn (image.bytes.drop image.pcir) off n = .ok (number image.bytes (image.pcir + off) n) := by
  have isImage := accepted.isImage
  have inside := isImage.leastInside.trans isImage.fits
  exact numberIn_drop (by omega)

theorem rimgPcirFindDevIdList_ok (accepted : image.Accepted) :
    ∃ found, rimgPcirFindDevIdList image.bytes image.pcir image.bytes.length = .ok found ∧
      ∀ p, found = some p ↔ p = image.devIds ∧ ∃ devs, image.HasDevList devs := by
  rw [rimgPcirFindDevIdList, findDevIdListPcir, accepted.field (by decide), ok_bind, ← CachedRimg.pcirRev]
  by_cases early : image.pcirRev < 3
  · rw [if_pos early]
    refine ⟨none, rfl, fun p => iff_of_false (fun found => nomatch found) ?_⟩
    rintro ⟨-, devs, late, -⟩
    exact early.not_ge late
  · rw [if_neg early, accepted.field (by decide), ok_bind]
    by_cases zero : number image.bytes (image.pcir + pcirDevIdsOffAt) 2 = 0
    · rw [if_pos zero]
      refine ⟨none, rfl, fun p => iff_of_false (fun found => nomatch found) ?_⟩
      rintro ⟨-, devs, -, listed, -⟩
      exact listed (Nat.add_eq_left.mpr zero)
    · obtain ⟨ends, ran, exactly_⟩ := devIdsEnd_ok (show image.bytes.length ≤ image.devIds + image.bytes.length by omega)
      rw [if_neg zero]
      unfold CachedRimg.devIds at ran
      rw [ran, ok_bind]
      refine ⟨_, rfl, fun p => ?_⟩
      cases ends with
      | false =>
        apply iff_of_false (fun found => nomatch found)
        rintro ⟨-, devs, -, -, list⟩
        exact Bool.false_ne_true (exactly_.mpr ⟨devs, list⟩)
      | true =>
        obtain ⟨devs, list⟩ := exactly_.mp rfl
        have has : image.HasDevList devs := ⟨not_lt.mp early, fun same => zero (Nat.add_eq_left.mp same), list⟩
        exact Option.some_inj.trans (eq_comm.trans (iff_self_and.mpr fun _ => ⟨devs, has⟩))

/-- The cache with one more node. -/
def FvCache.put (c : FvCache) (node : HtNode) : FvCache :=
  { c with
    ht := Function.update c.ht (fvHashBucket node.pciId node.classIf) (node :: c.ht (fvHashBucket node.pciId node.classIf))
    allocs := c.allocs + 1 }

/-- The key of a node. -/
def HtNode.key (node : HtNode) : ℕ × ℕ := (node.pciId, node.classIf)

/-- The nodes entered so far, latest first. -/
def FvCache.Entered (c : FvCache) (nodes : List HtNode) : Prop :=
  HashTable.Represents (fun key : ℕ × ℕ => fvHashBucket key.1 key.2) HtNode.key c.ht nodes

theorem FvCache.Entered.put {nodes : List HtNode} (entered : c.Entered nodes) (node : HtNode) :
    (c.put node).Entered (node :: nodes) := HashTable.Represents.insert entered node

theorem FvCache.Entered.find {nodes : List HtNode} (entered : c.Entered nodes) (pciId classIf : ℕ) :
    fvFindRimg c pciId classIf =
      (nodes.find? fun node => decide (node.key = (pciId, classIf))).map fun node => (node.rimgCopy, node.rimgSz) := by
  rw [← HashTable.Represents.find? entered (pciId, classIf)]
  simp only [fvFindRimg, HtNode.key, Prod.mk.injEq]

theorem allocatePool_ok (succeed : ∀ n, granted n = true) (c : FvCache) (msg : String) :
    c.allocatePool granted msg = .ok { c with allocs := c.allocs + 1 } := if_pos (succeed _)

theorem fvAddHashEntry_ok (succeed : ∀ n, granted n = true) (c : FvCache) (pciId classIf rimgCopy sz : ℕ) :
    fvAddHashEntry granted c pciId classIf rimgCopy sz = .ok (c.put ⟨pciId, classIf, rimgCopy, sz⟩) := by
  rw [fvAddHashEntry, allocatePool_ok succeed]
  rfl

/-- The nodes for an image and the device ids that it lists, latest first. -/
def nodesFor (image : CachedRimg) (rimgCopy : ℕ) (devs : List ℕ) : List HtNode :=
  (((image.pciId :: (devs.map (pciMakeId (pciIdVendor image.pciId))).filter (· ≠ image.pciId)).map fun pciId =>
    ⟨pciId, image.classIf, rimgCopy, image.bytes.length⟩)).reverse

/-- The second loop enters the listed ids up to the end of the list. -/
theorem addDevIds_ok (succeed : ∀ n, granted n = true) (pciId0 classIf rimgCopy sz : ℕ) {rimg : List UInt8} {rounds p : ℕ}
    {devs : List ℕ} {nodes : List HtNode} (list : DevList rimg p devs) (enough : devs.length < rounds)
    (entered : c.Entered nodes) :
    ∃ c', addDevIds granted rimg pciId0 classIf rimgCopy sz rounds p c = .ok c' ∧ c'.copies = c.copies ∧
      c'.Entered ((((devs.map (pciMakeId (pciIdVendor pciId0))).filter (· ≠ pciId0)).map fun pciId =>
        ⟨pciId, classIf, rimgCopy, sz⟩).reverse ++ nodes) := by
  induction devs generalizing p rounds c nodes with
  | nil =>
    obtain ⟨rounds, rfl⟩ := Nat.exists_eq_succ_of_ne_zero (Nat.ne_zero_of_lt enough)
    rw [addDevIds, numberIn_of_le list.1, ok_bind, if_pos list.2]
    exact ⟨c, rfl, rfl, entered⟩
  | cons dev devs ih =>
    obtain ⟨rounds, rfl⟩ := Nat.exists_eq_succ_of_ne_zero (Nat.ne_zero_of_lt enough)
    obtain ⟨inside, here, nonzero, rest⟩ := list
    have shorter : devs.length < rounds := by simpa using enough
    rw [addDevIds, numberIn_of_le inside, ok_bind, here, if_neg nonzero]
    dsimp only
    by_cases own : pciMakeId (pciIdVendor pciId0) dev = pciId0
    · obtain ⟨c', ran, copies, result⟩ := ih rest shorter entered
      refine ⟨c', ?_, copies, ?_⟩
      · rw [if_neg (not_not.mpr own)]
        exact ran
      · rw [List.map_cons, List.filter_cons_of_neg (by simpa using own)]
        exact result
    · obtain ⟨c', ran, copies, result⟩ := ih rest shorter (entered.put ⟨pciMakeId (pciIdVendor pciId0) dev, classIf, rimgCopy, sz⟩)
      refine ⟨c', ?_, copies, ?_⟩
      · rw [if_pos own, fvAddHashEntry_ok succeed]
        exact ran
      · rw [List.map_cons, List.filter_cons_of_pos (by simpa using own), List.map_cons, List.reverse_cons, List.append_assoc]
        exact result

theorem pciMakeId_eq {vendor : ℕ} (typed : vendor < 2 ^ 16) (dev : ℕ) : pciMakeId vendor dev = dev * 2 ^ 16 + vendor := by
  rw [pciMakeId, ← Nat.shiftLeft_add_eq_or_of_lt typed, Nat.shiftLeft_eq]

/-- The bytes of a class code, put in their places. -/
private theorem shift_or_shift {high middle low : ℕ} (middleTyped : middle < 256) (lowTyped : low < 256) :
    high <<< 24 ||| middle <<< 16 ||| low <<< 8 = 256 * (low + 256 * (middle + 256 * high)) := by
  have first : high <<< 24 ||| middle <<< 16 = (256 * high + middle) <<< 16 := by
    rw [← Nat.shiftLeft_add_eq_or_of_lt (by rw [Nat.shiftLeft_eq]; omega)]
    simp only [Nat.shiftLeft_eq]
    ring
  rw [first, ← Nat.shiftLeft_add_eq_or_of_lt (by rw [Nat.shiftLeft_eq]; omega)]
  simp only [Nat.shiftLeft_eq]
  ring

theorem fvCacheRimgPcir_ok (accepted : image.Accepted) :
    fvCacheRimgPcir (image.bytes.drop image.pcir) = .ok (image.classIf, image.pciId) := by
  have isImage := accepted.isImage
  have inside := isImage.leastInside.trans isImage.fits
  have low := number_lt image.bytes (image.pcir + pcirClassIfAt) 1
  have middle := number_lt image.bytes (image.pcir + pcirClassIfAt + 1) 1
  have readable : image.pcir + pcirClassIfAt + 1 + 1 ≤ image.bytes.length :=
    le_trans (by simp only [pcirMinSz, pcirMaxRtSzHkibAt, pcirClassIfAt]; omega) inside
  have first : number image.bytes (image.pcir + pcirClassIfAt) 3 =
      number image.bytes (image.pcir + pcirClassIfAt) 1 + 256 ^ 1 * number image.bytes (image.pcir + pcirClassIfAt + 1) 2 :=
    number_add (k := 2) (by omega)
  have second : number image.bytes (image.pcir + pcirClassIfAt + 1) 2 =
      number image.bytes (image.pcir + pcirClassIfAt + 1) 1 +
        256 ^ 1 * number image.bytes (image.pcir + pcirClassIfAt + 1 + 1) 1 := number_add (k := 1) readable
  rw [fvCacheRimgPcir, accepted.field (by decide), accepted.field (by decide), accepted.field (by decide),
    accepted.field (by decide)]
  simp only [ok_bind, ← Nat.add_assoc]
  rw [shift_or_shift middle low, CachedRimg.classIf, first, second, pow_one]
  rfl

theorem mem_nodesFor {rimgCopy : ℕ} {devs : List ℕ} {node : HtNode} :
    node ∈ nodesFor image rimgCopy devs ↔ node.classIf = image.classIf ∧ node.rimgCopy = rimgCopy ∧
      node.rimgSz = image.bytes.length ∧
        (node.pciId = image.pciId ∨ ∃ dev ∈ devs, node.pciId = dev * 2 ^ 16 + pciIdVendor image.pciId) := by
  have typed : pciIdVendor image.pciId < 2 ^ 16 := Nat.mod_lt _ (by decide)
  obtain ⟨pciId, classIf, copy, sz⟩ := node
  simp only [nodesFor, List.mem_reverse, List.mem_map, List.mem_cons, List.mem_filter, decide_eq_true_eq, pciMakeId_eq typed,
    HtNode.mk.injEq]
  constructor
  · rintro ⟨id, rfl | ⟨⟨dev, listed, rfl⟩, -⟩, rfl, rfl, rfl, rfl⟩
    · exact ⟨rfl, rfl, rfl, .inl rfl⟩
    · exact ⟨rfl, rfl, rfl, .inr ⟨dev, listed, rfl⟩⟩
  · rintro ⟨rfl, rfl, rfl, id⟩
    refine ⟨pciId, ?_, rfl, rfl, rfl, rfl⟩
    by_cases own : pciId = image.pciId
    · exact .inl own
    · obtain ⟨dev, listed, rfl⟩ := id.resolve_left own
      exact .inr ⟨⟨dev, listed, rfl⟩, own⟩

/-- The nodes for an image have the keys with its class, and its primary id or that of a listed device. -/
theorem exists_key_iff {rimgCopy : ℕ} {devs : List ℕ} {pciId classIf : ℕ} :
    (∃ node ∈ nodesFor image rimgCopy devs, node.key = (pciId, classIf)) ↔ classIf = image.classIf ∧
      (pciId = image.pciId ∨ ∃ dev ∈ devs, pciId = dev * 2 ^ 16 + pciIdVendor image.pciId) := by
  constructor
  · rintro ⟨node, member, same⟩
    obtain ⟨isClass, -, -, isId⟩ := mem_nodesFor.mp member
    obtain ⟨rfl, rfl⟩ := Prod.mk.inj same
    exact ⟨isClass, isId⟩
  · rintro ⟨isClass, isId⟩
    exact ⟨⟨pciId, classIf, rimgCopy, image.bytes.length⟩, mem_nodesFor.mpr ⟨isClass, rfl, rfl, isId⟩, rfl⟩

/-- What `fv_cache_rimg` does once it knows of the device list. -/
theorem fvCacheRimg_eq (succeed : ∀ n, granted n = true) (accepted : image.Accepted) {found : Option ℕ}
    (searched : rimgPcirFindDevIdList image.bytes image.pcir image.bytes.length = .ok found) :
    fvCacheRimg granted image.bytes image.bytes.length image.pcir c =
      let primary := FvCache.put { c with allocs := c.allocs + 1, copies := c.copies ++ [image.bytes] }
        ⟨image.pciId, image.classIf, c.copies.length, image.bytes.length⟩
      found.elim (.ok primary) fun devIds => addDevIds granted image.bytes image.pciId image.classIf c.copies.length
        image.bytes.length (image.bytes.length + 1) devIds primary := by
  rw [fvCacheRimg, fvCacheRimgPcir_ok accepted, ok_bind]
  dsimp only
  rw [allocatePool_ok succeed, ok_bind, bytesIn_of_le (by omega), ok_bind, slice_zero, List.take_length, searched, ok_bind,
    fvAddHashEntry_ok succeed, ok_bind]
  cases found <;> rfl

/-- Caching an image copies it and enters nodes for the copy under every id that it is for. -/
theorem fvCacheRimg_ok (succeed : ∀ n, granted n = true) (accepted : image.Accepted) {nodes : List HtNode}
    (entered : c.Entered nodes) :
    ∃ c' fresh, fvCacheRimg granted image.bytes image.bytes.length image.pcir c = .ok c' ∧
      c'.copies = c.copies ++ [image.bytes] ∧ c'.Entered (fresh ++ nodes) ∧
        (∀ node ∈ fresh, node.rimgCopy = c.copies.length ∧ node.rimgSz = image.bytes.length) ∧
          ∀ pciId classIf, (∃ node ∈ fresh, node.key = (pciId, classIf)) ↔ image.Matches pciId classIf := by
  obtain ⟨found, searched, exactly_⟩ := rimgPcirFindDevIdList_ok accepted
  have start : (FvCache.put { c with allocs := c.allocs + 1, copies := c.copies ++ [image.bytes] }
      ⟨image.pciId, image.classIf, c.copies.length, image.bytes.length⟩).Entered
        (⟨image.pciId, image.classIf, c.copies.length, image.bytes.length⟩ :: nodes) := FvCache.Entered.put entered _
  have own : ∀ devs, ∀ node ∈ nodesFor image c.copies.length devs,
      node.rimgCopy = c.copies.length ∧ node.rimgSz = image.bytes.length := fun devs node member =>
    ⟨(mem_nodesFor.mp member).2.1, (mem_nodesFor.mp member).2.2.1⟩
  rw [fvCacheRimg_eq succeed accepted searched]
  cases found with
  | none =>
    refine ⟨_, nodesFor image c.copies.length [], rfl, rfl, start, own _, fun pciId classIf => exists_key_iff.trans ?_⟩
    have noList : ¬ ∃ devs, image.HasDevList devs := fun some => nomatch (exactly_ _).mpr ⟨rfl, some⟩
    refine and_congr_right fun _ => or_congr_right (iff_of_false (by simp) ?_)
    exact fun ⟨devs, has, _⟩ => noList ⟨devs, has⟩
  | some p =>
    obtain ⟨rfl, devs, has⟩ := (exactly_ p).mp rfl
    have short := has.2.2.length_le
    obtain ⟨c', ran, copies, result⟩ := addDevIds_ok succeed image.pciId image.classIf c.copies.length image.bytes.length
      has.2.2 (show devs.length < image.bytes.length + 1 by omega) start
    refine ⟨c', nodesFor image c.copies.length devs, ran, copies, ?_, own _, fun pciId classIf => exists_key_iff.trans ?_⟩
    · rw [nodesFor, List.map_cons, List.reverse_cons, List.append_assoc]
      exact result
    · refine and_congr_right fun _ => or_congr_right ⟨fun listed => ⟨devs, has, listed⟩, ?_⟩
      rintro ⟨others, hasOthers, listed⟩
      rwa [hasOthers.2.2.unique has.2.2] at listed

end

end Biefircate
