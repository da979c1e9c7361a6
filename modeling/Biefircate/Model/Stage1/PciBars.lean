import Biefircate.Model.Common
import Biefircate.Lib.Word

/-! # The base address registers of a PCI device

`process_one_pci_io` reads six registers into `pci_conf` and prints the base addresses (BARs) that they hold. A
64-bit base address takes two registers.
-/

namespace Biefircate

/-- What a register holds by its low three bits. -/
inductive BarKind where
  | mem32
  | mem64
  | io
deriving DecidableEq, Repr

/-- A base address as it is printed, and the index of its register, which is not. -/
structure ShownBar where
  kind : BarKind
  idx : ℕ
  addr : ℕ
  prefetchable : Bool
deriving DecidableEq, Repr

/-- `switch (bar & 0x00000007U)`. -/
def barKind (bar : ℕ) : Option BarKind :=
  match bar &&& 0x00000007 with
  | 0x00000000 => some .mem32
  | 0x00000004 => some .mem64
  | 0x00000001 => some .io
  | 0x00000003 => some .io
  | 0x00000005 => some .io
  | 0x00000007 => some .io
  | _ => none

/-- `bar & 0x00000008U`. -/
def barPrefetchable (bar : ℕ) : Bool := decide (bar &&& 0x00000008 ≠ 0)

/-- The loop over the registers, for at most `rounds` rounds, with the base addresses shown so far. -/
def enumBarsFrom (pciConf : List ℕ) : ℕ → ℕ → List ShownBar → Exec (List ShownBar)
  | 0, _, _ => .error .stuck
  | rounds + 1, idx, shown =>
    let idx := Word.add 32 idx 1
    if idx < 6 then do
      let bar ← load pciConf idx
      if bar = 0 then enumBarsFrom pciConf rounds idx shown
      else
        match barKind bar with
        | some .mem32 =>
          enumBarsFrom pciConf rounds idx (shown ++ [⟨.mem32, idx, bar &&& 0xfffffff0, barPrefetchable bar⟩])
        | some .mem64 =>
          if idx = 9 then .error (.error "bogus 64-bit PCI BAR")
          else do
            let high ← load pciConf (Word.add 32 idx 1)
            enumBarsFrom pciConf rounds (Word.add 32 idx 1)
              (shown ++ [⟨.mem64, idx, high <<< 32 ||| bar &&& 0xfffffff0, barPrefetchable bar⟩])
        | some .io => enumBarsFrom pciConf rounds idx (shown ++ [⟨.io, idx, bar &&& 0xfffffffc, false⟩])
        | none => .error (.error "unhandled 16-bit PCI BAR")
    else .ok shown

/-- "Enumerate all BAR values", in `process_one_pci_io`. The index starts at `0U - 1`. -/
def enumBars (pciConf : List ℕ) : Exec (List ShownBar) := enumBarsFrom pciConf 7 (Word.sub 32 0 1) []

end Biefircate
