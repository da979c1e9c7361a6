import Biefircate.Model.Common
import Biefircate.Model.Stage1.Pci

/-! # The real mode code that stage 2 calls

`stage2_main` runs the option ROMs of the display controllers, then its own greeting, which prints through the display, and then
the other option ROMs.
-/

namespace Biefircate

/-- A call of `rm16_call`: the registers, and the far address of what is called. -/
structure Rm16Call where
  eax : ℕ
  edx : ℕ
  ecx : ℕ
  ebx : ℕ
  callee : ℕ
deriving DecidableEq, Repr

/-- `MK_FP16`. -/
def mkFp16 (seg off : ℕ) : ℕ := (seg <<< 16 ||| off) % 2 ^ 32

/-- The body of the loop of `rimg_init`. -/
def rimgInitBparm (initVga : Bool) : Bparm → Option Rm16Call
  | .pcid pd =>
    let doInit := if Pci.IsVga pd.classIf then initVga else !initVga
    if doInit = false then none
    else if pd.rimgSeg = 0 then none
    else some ⟨pd.pciLocn, 0, 0, pd.rimgRtSeg, mkFp16 pd.rimgSeg 0x0003⟩
  | _ => none

/-- `rimg_init`, with the calls it makes. -/
def rimgInit (bparms : List Bparm) (initVga : Bool) : List Rm16Call := bparms.filterMap (rimgInitBparm initVga)

/-- `hello`, for the code segment and the offset of `hello16`. -/
def hello (rm16Cs hello16 : ℕ) : Rm16Call := ⟨0, 0, 0, 0, mkFp16 rm16Cs hello16⟩

/-- The calls that `stage2_main` makes, each once the one before it has come back. The greeting itself ends in a loop. -/
def stage2Calls (bparms : List Bparm) (rm16Cs hello16 : ℕ) : List Rm16Call :=
  rimgInit bparms true ++ hello rm16Cs hello16 :: rimgInit bparms false

end Biefircate
