import Biefircate.Lib.Span
import Biefircate.Model.Stage1.PciBars

/-! # Which registers the base addresses come from

The loop takes the registers one by one, and two at a time where the first holds a 64-bit base address. Its guard
against a 64-bit base address in the last register tests for an index that does not occur.
-/

namespace Biefircate

section

variable (pciConf : List ℕ)

/-- The value fetched for a register. -/
def barReg (i : ℕ) : ℕ := pciConf[i]?.getD 0

/-- The register is the upper half of the 64-bit base address in the register before it. -/
def IsUpper : ℕ → Prop
  | 0 => False
  | i + 1 => barKind (barReg pciConf i) = some .mem64 ∧ ¬ IsUpper i

instance : (i : ℕ) → Decidable (IsUpper pciConf i)
  | 0 => inferInstanceAs (Decidable False)
  | i + 1 =>
    let _ := instDecidableIsUpper i
    inferInstanceAs (Decidable (_ ∧ ¬ IsUpper pciConf i))

/-- The register holds a base address of a kind that is not supported. -/
def Unhandled (i : ℕ) : Prop := barReg pciConf i ≠ 0 ∧ barKind (barReg pciConf i) = none ∧ ¬ IsUpper pciConf i

/-- The last register holds the lower half of a 64-bit base address. -/
def LastIsLower : Prop := barKind (barReg pciConf 5) = some .mem64 ∧ ¬ IsUpper pciConf 5

instance (i : ℕ) : Decidable (Unhandled pciConf i) := inferInstanceAs (Decidable (_ ∧ _))
instance : Decidable (LastIsLower pciConf) := inferInstanceAs (Decidable (_ ∧ _))

end

namespace ShownBar

/-- One past the last register of a base address. -/
def stop (b : ShownBar) : ℕ := if b.kind = .mem64 then b.idx + 2 else b.idx + 1

/-- The base address is what its register holds, and for 64 bits the one after it. -/
structure Decodes (b : ShownBar) (pciConf : List ℕ) : Prop where
  nonzero : barReg pciConf b.idx ≠ 0
  kind : barKind (barReg pciConf b.idx) = some b.kind
  addr : b.addr = match b.kind with
    | .mem32 => barReg pciConf b.idx &&& 0xfffffff0
    | .mem64 => barReg pciConf (b.idx + 1) <<< 32 ||| barReg pciConf b.idx &&& 0xfffffff0
    | .io => barReg pciConf b.idx &&& 0xfffffffc

end ShownBar

/-- The base addresses shown are those in the registers below `i`, each register that is not zero being part of
just one of them. -/
structure Enumerated (pciConf : List ℕ) (i : ℕ) (shown : List ShownBar) : Prop where
  inside : ∀ b ∈ shown, b.stop ≤ i
  once : Span.Ordered ShownBar.idx ShownBar.stop shown
  all : ∀ j < i, barReg pciConf j ≠ 0 → ∃ b ∈ shown, Span.Covers ShownBar.idx ShownBar.stop b j
  decodes : ∀ b ∈ shown, b.Decodes pciConf

section

variable {pciConf : List ℕ} {i prev : ℕ} {shown : List ShownBar} {b : ShownBar}

theorem Enumerated.skip (enumerated : Enumerated pciConf i shown) (zero : barReg pciConf i = 0) :
    Enumerated pciConf (i + 1) shown where
  inside b member := (enumerated.inside b member).trans (Nat.le_succ i)
  once := enumerated.once
  all := by
    intro j below nonzero
    apply enumerated.all j _ nonzero
    have other : j ≠ i := fun same => nonzero (same ▸ zero)
    omega
  decodes := enumerated.decodes

theorem Enumerated.add (enumerated : Enumerated pciConf i shown) (here : b.idx = i) (decodes : b.Decodes pciConf) :
    Enumerated pciConf b.stop (shown ++ [b]) where
  inside := by
    have after : i ≤ b.stop := by
      unfold ShownBar.stop
      split <;> omega
    simp only [List.mem_append, List.mem_singleton]
    rintro other (old | rfl)
    · exact (enumerated.inside other old).trans after
    · exact le_rfl
  once := by
    refine Span.ordered_append_iff.mpr ⟨enumerated.once, List.pairwise_singleton _ _, ?_⟩
    intro other old new member
    obtain rfl := List.mem_singleton.mp member
    exact here ▸ enumerated.inside other old
  all := by
    intro j below nonzero
    by_cases old : j < i
    · obtain ⟨other, member, covers⟩ := enumerated.all j old nonzero
      exact ⟨other, List.mem_append_left _ member, covers⟩
    · exact ⟨b, by simp, ⟨by omega, below⟩⟩
  decodes := by
    simp only [List.mem_append, List.mem_singleton]
    rintro other (old | rfl)
    · exact enumerated.decodes other old
    · exact decodes

theorem ShownBar.lt_stop (b : ShownBar) : b.idx < b.stop := by
  unfold ShownBar.stop
  split <;> omega

/-- The register after a base address is not an upper half. -/
theorem ShownBar.Decodes.not_isUpper_stop (decodes : b.Decodes pciConf) (start : ¬ IsUpper pciConf b.idx) :
    ¬ IsUpper pciConf b.stop := by
  have kind := decodes.kind
  unfold ShownBar.stop
  split
  · next wide =>
    rw [wide] at kind
    exact fun upper => upper.2 ⟨kind, start⟩
  · next narrow =>
    intro upper
    have same := kind.symm.trans upper.1
    exact narrow (Option.some.inj same)

/-- The registers of a base address are no reason to stop. -/
theorem ShownBar.Decodes.passed (decodes : b.Decodes pciConf) (start : ¬ IsUpper pciConf b.idx) :
    (∀ j, b.idx ≤ j → j < b.stop → ¬ Unhandled pciConf j) ∧ (b.stop = 6 → ¬ LastIsLower pciConf) := by
  have kind := decodes.kind
  constructor
  · rintro j low high ⟨-, none, lower⟩
    rcases Nat.lt_or_eq_of_le low with later | rfl
    · unfold ShownBar.stop at high
      split at high
      · next wide =>
        obtain rfl : j = b.idx + 1 := by omega
        exact lower ⟨by rw [kind, wide], start⟩
      · omega
    · cases kind.symm.trans none
  · rintro last ⟨wide, lower⟩
    unfold ShownBar.stop at last
    split at last
    · next pair =>
      have four : b.idx = 4 := by omega
      rw [four] at kind start
      exact lower ⟨pair ▸ kind, start⟩
    · next single =>
      have five : b.idx = 5 := by omega
      rw [five, wide] at kind
      exact single (Option.some.inj kind).symm

/-- How the loop may end from register `i` on. -/
def Ends (pciConf : List ℕ) (i : ℕ) (ran : Exec (List ShownBar)) : Prop :=
  (∃ shown, ran = .ok shown ∧ Enumerated pciConf 6 shown ∧ ¬ LastIsLower pciConf) ∨
    (∃ msg, ran = .error (.error msg) ∧ (LastIsLower pciConf → ∃ j < 5, Unhandled pciConf j)) ∨
      ran = .error .outside ∧ LastIsLower pciConf ∧ ∀ j, i ≤ j → j < 5 → ¬ Unhandled pciConf j

theorem Ends.before {next : ℕ} {ran : Exec (List ShownBar)} (ends : Ends pciConf next ran)
    (handled : ∀ j, i ≤ j → j < next → ¬ Unhandled pciConf j) : Ends pciConf i ran := by
  rcases ends with done | rejected | ⟨outside, last, rest⟩
  · exact Or.inl done
  · exact Or.inr (Or.inl rejected)
  · refine Or.inr (Or.inr ⟨outside, last, fun j low high => ?_⟩)
    rcases Nat.lt_or_ge j next with earlier | later
    · exact handled j low earlier
    · exact rest j later high

/-- What the loop does with a register that holds a base address. -/
theorem enumBarsFrom_own {rounds : ℕ} {k : BarKind} (size : pciConf.length = 6) (low : i < 6)
    (at_i : Word.add 32 prev 1 = i) (nonzero : barReg pciConf i ≠ 0) (kind : barKind (barReg pciConf i) = some k) :
    (∃ b, b.idx = i ∧ b.Decodes pciConf ∧ b.stop ≤ 6 ∧
        enumBarsFrom pciConf (rounds + 1) prev shown = enumBarsFrom pciConf rounds (b.stop - 1) (shown ++ [b])) ∨
      i = 5 ∧ k = .mem64 ∧ enumBarsFrom pciConf (rounds + 1) prev shown = .error .outside := by
  have fetched : ∀ j < 6, load pciConf j = .ok (barReg pciConf j) := by
    intro j inside
    rw [load_of_lt (by omega), barReg, List.getElem?_eq_getElem (by omega), Option.getD_some]
  rw [enumBarsFrom, at_i, if_pos low, fetched i low, ok_bind, if_neg nonzero, kind]
  cases k with
  | mem32 => exact Or.inl ⟨⟨.mem32, i, _, _⟩, rfl, ⟨nonzero, kind, rfl⟩, low, rfl⟩
  | io => exact Or.inl ⟨⟨.io, i, _, _⟩, rfl, ⟨nonzero, kind, rfl⟩, low, rfl⟩
  | mem64 =>
    dsimp only
    rw [if_neg (by omega), Word.add_of_lt (by omega)]
    rcases Nat.lt_or_eq_of_le (show i + 1 ≤ 6 by omega) with inside | last
    · left
      rw [fetched (i + 1) inside, ok_bind]
      exact ⟨⟨.mem64, i, _, _⟩, rfl, ⟨nonzero, kind, rfl⟩, inside, rfl⟩
    · right
      refine ⟨by omega, rfl, ?_⟩
      rw [load, List.getElem?_eq_none (by omega)]
      rfl

/-- From a register on that is not an upper half, the loop ends in one of these ways. -/
theorem enumBarsFrom_ends {rounds : ℕ} (size : pciConf.length = 6) (enough : 6 < rounds + i) (low : i ≤ 6)
    (at_i : Word.add 32 prev 1 = i) (start : ¬ IsUpper pciConf i) (ahead : i = 6 → ¬ LastIsLower pciConf)
    (enumerated : Enumerated pciConf i shown) : Ends pciConf i (enumBarsFrom pciConf rounds prev shown) := by
  induction rounds generalizing i prev shown with
  | zero => omega
  | succ rounds ih =>
    rcases Nat.lt_or_eq_of_le low with inside | rfl
    · by_cases zero : barReg pciConf i = 0
      · have kind : barKind (barReg pciConf i) = some .mem32 := by rw [zero]; rfl
        have skipped : enumBarsFrom pciConf (rounds + 1) prev shown = enumBarsFrom pciConf rounds i shown := by
          rw [enumBarsFrom, at_i, if_pos inside, load_of_lt (by omega), ok_bind, if_pos]
          rwa [barReg, List.getElem?_eq_getElem (by omega), Option.getD_some] at zero
        rw [skipped]
        refine (ih (by omega) inside (Word.add_of_lt (by omega)) ?_ ?_ (enumerated.skip zero)).before ?_
        · rintro ⟨wide, -⟩
          cases kind.symm.trans wide
        · rintro last ⟨wide, -⟩
          obtain rfl : i = 5 := by omega
          cases kind.symm.trans wide
        · intro j above below unhandled
          obtain rfl : j = i := by omega
          exact unhandled.1 zero
      · cases kind : barKind (barReg pciConf i) with
        | none =>
          refine Or.inr (Or.inl ⟨"unhandled 16-bit PCI BAR", ?_, ?_⟩)
          · rw [enumBarsFrom, at_i, if_pos inside, load_of_lt (by omega), ok_bind]
            rw [barReg, List.getElem?_eq_getElem (by omega), Option.getD_some] at zero kind
            rw [if_neg zero, kind]
          · rintro ⟨wide, -⟩
            have other : i ≠ 5 := by
              rintro rfl
              cases kind.symm.trans wide
            exact ⟨i, by omega, zero, kind, start⟩
        | some k =>
          rcases @enumBarsFrom_own pciConf i prev shown rounds k size inside at_i zero kind with
            ⟨b, here, decodes, fits, ran⟩ | ⟨rfl, rfl, ran⟩
          · subst here
            have after := b.lt_stop
            obtain ⟨handled, ahead⟩ := decodes.passed start
            rw [ran]
            refine (ih (by omega) fits ?_ (decodes.not_isUpper_stop start) ahead (enumerated.add rfl decodes)).before handled
            rw [Word.add_of_lt (by omega)]
            omega
          · exact Or.inr (Or.inr ⟨ran, ⟨kind, start⟩, fun j above below => by omega⟩)
    · refine Or.inl ⟨shown, ?_, enumerated, ahead rfl⟩
      rw [enumBarsFrom, at_i]
      rfl

end

/-- The loop reads the six registers only, shows every register that is not zero as part of one base address, or
stops with an error, as it does at a 64-bit base address in the last register. -/
structure BarsHandled (pciConf : List ℕ) : Prop where
  ends : (∃ shown, enumBars pciConf = .ok shown ∧ Enumerated pciConf 6 shown) ∨
    ∃ msg, enumBars pciConf = .error (.error msg)
  last : LastIsLower pciConf → ∃ msg, enumBars pciConf = .error (.error msg)

/-- The registers are handled so exactly when a 64-bit base address in the last of them comes after one of a kind that
is not supported, or there is none. -/
theorem enumBars_handled_iff {pciConf : List ℕ} (size : pciConf.length = 6) :
    BarsHandled pciConf ↔ (LastIsLower pciConf → ∃ j < 5, Unhandled pciConf j) := by
  have nothing : Enumerated pciConf 0 [] := ⟨by simp, List.Pairwise.nil, by simp, by simp⟩
  have ends : Ends pciConf 0 (enumBars pciConf) :=
    enumBarsFrom_ends size (by decide) (by decide) (by decide) id (fun zero => nomatch zero) nothing
  rcases ends with ⟨shown, ran, enumerated, narrow⟩ | ⟨msg, ran, early⟩ | ⟨ran, last, handled⟩
  · exact iff_of_true ⟨Or.inl ⟨shown, ran, enumerated⟩, fun last => absurd last narrow⟩ fun last => absurd last narrow
  · exact iff_of_true ⟨Or.inr ⟨msg, ran⟩, fun _ => ⟨msg, ran⟩⟩ early
  · apply iff_of_false
    · rintro ⟨-, rejected⟩
      obtain ⟨msg, other⟩ := rejected last
      rw [ran] at other
      cases other
    · intro early
      obtain ⟨j, below, unhandled⟩ := early last
      exact handled j (Nat.zero_le j) below unhandled

/-- A prefetchable 32-bit base address, one of 64 bits, and one in I/O space. -/
theorem enumBars_handled_sample : BarsHandled [0xe0000008, 0, 0xf000000c, 0x1, 0xc001, 0] :=
  (enumBars_handled_iff rfl).mpr (by decide)

/-- With a 64-bit base address in the last register the loop reads past the six values. -/
theorem lastBar_not_handled : enumBars [0xe0000008, 0xc001, 0, 0, 0, 0xf000000c] = .error .outside ∧
    ¬ BarsHandled [0xe0000008, 0xc001, 0, 0, 0, 0xf000000c] := by
  have ran : enumBars [0xe0000008, 0xc001, 0, 0, 0, 0xf000000c] = .error .outside := by decide +kernel
  refine ⟨ran, fun handled => ?_⟩
  obtain ⟨msg, other⟩ := handled.last (by decide)
  rw [ran] at other
  cases other

end Biefircate
