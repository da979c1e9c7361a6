import Biefircate.Model.Common
import Biefircate.Lib.Bytes

/-! # The keyboard interrupt of stage 2

`kb.c` turns a scan code into a change of the shift status or a key, and adds the key to the buffer
in the BIOS data area. The segment of the data area is memory addressed by offset, so a buffer may
lie anywhere in it. `start_upd_leds` and `argh` do nothing.
-/

namespace Biefircate

/-! ## Variables of `bda_t` -/

def kbStat1 : ℕ := 0x17
def kbStat2 : ℕ := 0x18
def kbBufHead : ℕ := 0x1a
def kbBufTail : ℕ := 0x1c
def defKbBuf : ℕ := 0x1e
def defKbBufEnd : ℕ := 0x3e
def kbBufStart : ℕ := 0x80
def kbBufEnd : ℕ := 0x82

/-! ## Scan codes and status bits -/

def kbROverrun : UInt8 := 0xff
def kbKCtl : UInt8 := 0x1d
def kbKLshft : UInt8 := 0x2a
def kbKRshft : UInt8 := 0x36
def kbKAlt : UInt8 := 0x38
def kbKCaplk : UInt8 := 0x3a
def kbKNumlk : UInt8 := 0x45
def kbKScllk : UInt8 := 0x46
def kbKKeyUp : UInt8 := 0x80
def kbKKp7 : UInt8 := 0x47
def kbKDel : UInt8 := 0x53
def kbKQ : UInt8 := 0x10
def kbKP : UInt8 := 0x19
def kbKA : UInt8 := 0x1e
def kbKL : UInt8 := 0x26
def kbKZ : UInt8 := 0x2c
def kbKM : UInt8 := 0x32

def kbS1Rshft : UInt8 := 0x01
def kbS1Lshft : UInt8 := 0x02
def kbS1Ctl : UInt8 := 0x04
def kbS1Alt : UInt8 := 0x08
def kbS1ScllkAct : UInt8 := 0x10
def kbS1NumlkAct : UInt8 := 0x20
def kbS1CaplkAct : UInt8 := 0x40
def kbS2Scllk : UInt8 := 0x10
def kbS2Numlk : UInt8 := 0x20
def kbS2Caplk : UInt8 := 0x40

def noShiftMap : List ℕ := [
  0x0000, 0x011b, 0x0231, 0x0332, 0x0433, 0x0534, 0x0635, 0x0736,
  0x0837, 0x0938, 0x0a39, 0x0b30, 0x0c2d, 0x0d3d, 0x0e08, 0x0f09,
  0x1071, 0x1177, 0x1265, 0x1372, 0x1474, 0x1579, 0x1675, 0x1769,
  0x186f, 0x1970, 0x1a5b, 0x1b5d, 0x1c0d, 0x0000, 0x1e61, 0x1f73,
  0x2064, 0x2166, 0x2267, 0x2368, 0x246a, 0x256b, 0x266c, 0x273b,
  0x2827, 0x2960, 0x0000, 0x2b5c, 0x2c7a, 0x2d78, 0x2e63, 0x2f76,
  0x3062, 0x316e, 0x326d, 0x332c, 0x342e, 0x352f, 0x0000, 0x372a,
  0x0000, 0x3920, 0x0000, 0x3b00, 0x3c00, 0x3d00, 0x3e00, 0x3f00,
  0x4000, 0x4100, 0x4200, 0x4300, 0x4400, 0x0000, 0x0000, 0x4700,
  0x4800, 0x4900, 0x4a2d, 0x4b00, 0x4c00, 0x4d00, 0x4e2b, 0x4f00,
  0x5000, 0x5100, 0x5200, 0x5300]

def shiftMap : List ℕ := [
  0x0000, 0x011b, 0x0221, 0x0340, 0x0423, 0x0524, 0x0625, 0x075e,
  0x0826, 0x092a, 0x0a28, 0x0b29, 0x0c5f, 0x0d2b, 0x0e08, 0x0f00,
  0x1051, 0x1157, 0x1245, 0x1352, 0x1454, 0x1559, 0x1655, 0x1749,
  0x184f, 0x1950, 0x1a7b, 0x1b7d, 0x1c0d, 0x0000, 0x1e41, 0x1f53,
  0x2044, 0x2146, 0x2247, 0x2348, 0x244a, 0x254b, 0x264c, 0x273a,
  0x2822, 0x297e, 0x0000, 0x2b7c, 0x2c5a, 0x2d58, 0x2e43, 0x2f56,
  0x3042, 0x314e, 0x324d, 0x333c, 0x343e, 0x353f, 0x0000, 0x0000,
  0x0000, 0x3920, 0x0000, 0x5400, 0x5500, 0x5600, 0x5700, 0x5800,
  0x5900, 0x5a00, 0x5b00, 0x5c00, 0x5d00, 0x0000, 0x0000, 0x4737,
  0x4838, 0x4939, 0x4a2d, 0x4b34, 0x4c35, 0x4d36, 0x4e2b, 0x4f31,
  0x5032, 0x5133, 0x5230, 0x532e]

def ctlMap : List ℕ := [
  0x0000, 0x011b, 0x0000, 0x0300, 0x0000, 0x0000, 0x0000, 0x071e,
  0x0000, 0x0000, 0x0000, 0x0000, 0x0c1f, 0x0000, 0x0e7f, 0x9400,
  0x1011, 0x1117, 0x1205, 0x1312, 0x1414, 0x1519, 0x1615, 0x1709,
  0x180f, 0x1910, 0x1a1b, 0x1b1d, 0x1c0a, 0x0000, 0x1e01, 0x1f13,
  0x2004, 0x2106, 0x2207, 0x2308, 0x240a, 0x250b, 0x260c, 0x0000,
  0x0000, 0x0000, 0x0000, 0x2b1c, 0x2c1a, 0x2d18, 0x2e03, 0x2f16,
  0x3002, 0x310e, 0x320d, 0x0000, 0x0000, 0x0000, 0x0000, 0x9600,
  0x0000, 0x3920, 0x0000, 0x5e00, 0x5f00, 0x6000, 0x6100, 0x6200,
  0x6300, 0x6400, 0x6500, 0x6600, 0x6700, 0x0000, 0x0000, 0x7700,
  0x8d00, 0x8400, 0x8e00, 0x7300, 0x8f00, 0x7400, 0x0000, 0x7500,
  0x9100, 0x7600, 0x9200, 0x9300]

/-- Only the scan code part: with Alt no key has an ASCII character. -/
def altMap : List ℕ := [
  0x00, 0x01, 0x78, 0x79, 0x7a, 0x7b, 0x7c, 0x7d,
  0x7e, 0x7f, 0x80, 0x81, 0x82, 0x83, 0x0e, 0xa5,
  0x10, 0x11, 0x12, 0x13, 0x14, 0x15, 0x16, 0x17,
  0x18, 0x19, 0x1a, 0x1b, 0xa6, 0x00, 0x1e, 0x1f,
  0x20, 0x21, 0x22, 0x23, 0x24, 0x25, 0x26, 0x27,
  0x28, 0x29, 0x00, 0x2b, 0x2c, 0x2d, 0x2e, 0x2f,
  0x30, 0x31, 0x32, 0x33, 0x34, 0x35, 0x00, 0x37,
  0x00, 0x39, 0x00, 0x68, 0x69, 0x6a, 0x6b, 0x6c,
  0x6d, 0x6e, 0x6f, 0x70, 0x71, 0x00, 0x00, 0x97,
  0x98, 0x99, 0x4a, 0x9b, 0x9c, 0x9d, 0x4e, 0x9f,
  0xa0, 0xa1, 0xa2, 0xa3]

/-! ## `handle_code` -/

/-- `bda.kb_stat1` and `bda.kb_stat2`. -/
structure KbStat where
  stat1 : UInt8
  stat2 : UInt8
deriving DecidableEq, Repr

namespace KbStat

/-- A shift key goes down or up. -/
def hold (s : KbStat) (bit : UInt8) : KbStat := { s with stat1 := s.stat1 ||| bit }
def letGo (s : KbStat) (bit : UInt8) : KbStat := { s with stat1 := s.stat1 &&& ~~~bit }

/-- A lock key goes down, which toggles its lock, or up. -/
def lock (s : KbStat) (act bit : UInt8) : KbStat := ⟨s.stat1 ^^^ act, s.stat2 ||| bit⟩
def unlock (s : KbStat) (bit : UInt8) : KbStat := { s with stat2 := s.stat2 &&& ~~~bit }

/-- The key for a code, from the label `no_caps` on. Past the end of its map a code has none. -/
def key (s : KbStat) (code : UInt8) (shifted : Bool) : ℕ :=
  if s.stat1 &&& kbS1Alt ≠ 0 then altMap[code.toNat]?.getD 0 * 0x100
  else if s.stat1 &&& kbS1Ctl ≠ 0 then ctlMap[code.toNat]?.getD 0
  else
    let shifted := if s.stat1 &&& (kbS1Rshft ||| kbS1Lshft) ≠ 0 then !shifted else shifted
    if shifted then shiftMap[code.toNat]?.getD 0 else noShiftMap[code.toNat]?.getD 0

/-- `switch (code)`: the status afterwards, and the key or zero. -/
def switch (s : KbStat) (code : UInt8) : KbStat × ℕ :=
  if code = kbROverrun then (s, 0)
  else if code = kbKLshft then (s.hold kbS1Lshft, 0)
  else if code = kbKLshft ||| kbKKeyUp then (s.letGo kbS1Lshft, 0)
  else if code = kbKRshft then (s.hold kbS1Rshft, 0)
  else if code = kbKRshft ||| kbKKeyUp then (s.letGo kbS1Rshft, 0)
  else if code = kbKCtl then (s.hold kbS1Ctl, 0)
  else if code = kbKCtl ||| kbKKeyUp then (s.letGo kbS1Ctl, 0)
  else if code = kbKAlt then (s.hold kbS1Alt, 0)
  else if code = kbKAlt ||| kbKKeyUp then (s.letGo kbS1Alt, 0)
  else if code = kbKCaplk then (s.lock kbS1CaplkAct kbS2Caplk, 0)
  else if code = kbKCaplk ||| kbKKeyUp then (s.unlock kbS2Caplk, 0)
  else if code = kbKNumlk then (s.lock kbS1NumlkAct kbS2Numlk, 0)
  else if code = kbKNumlk ||| kbKKeyUp then (s.unlock kbS2Numlk, 0)
  else if code = kbKScllk then (s.lock kbS1ScllkAct kbS2Scllk, 0)
  else if code = kbKScllk ||| kbKKeyUp then (s.unlock kbS2Scllk, 0)
  else if kbKKp7 ≤ code ∧ code ≤ kbKDel then (s, s.key code (s.stat1 &&& kbS1NumlkAct ≠ 0))
  else if kbKQ ≤ code ∧ code ≤ kbKP ∨ kbKA ≤ code ∧ code ≤ kbKL ∨ kbKZ ≤ code ∧ code ≤ kbKM then
    (s, s.key code (s.stat1 &&& kbS1CaplkAct ≠ 0))
  else (s, s.key code false)

end KbStat

/-- The status bytes in the data area. -/
def kbStat (bda : Mem) : KbStat := ⟨bda kbStat1, bda kbStat2⟩

/-- `handle_code` after its switch, with a key. -/
def addKey (bda : Mem) (key : ℕ) : Mem :=
  let oldTail := bda.readLE kbBufTail 2
  let newTail := Word.add 16 oldTail 2
  let newTail := if Word.sub 16 (bda.readLE kbBufEnd 2) newTail < 2 then bda.readLE kbBufStart 2 else newTail
  if newTail = bda.readLE kbBufHead 2 then bda
  else (bda.writeLE oldTail 2 key).writeLE kbBufTail 2 newTail

def handleCode (bda : Mem) (code : UInt8) : Mem :=
  let (s, key) := (kbStat bda).switch code
  -- The two status bytes are adjacent; the one that the switch leaves alone is stored as it was.
  let bda := bda.write kbStat1 [s.stat1, s.stat2]
  if key = 0 then bda else addKey bda key

/-- A program that takes the key at the head, if there is one. Stage 2 itself has no such program. -/
def readKey (bda : Mem) : Option (ℕ × Mem) :=
  let head := bda.readLE kbBufHead 2
  if head = bda.readLE kbBufTail 2 then none
  else
    let next := if head + 2 = bda.readLE kbBufEnd 2 then bda.readLE kbBufStart 2 else head + 2
    some (bda.readLE head 2, bda.writeLE kbBufHead 2 next)

/-- The keyboard variables as `rm16_init` sets them. -/
def rm16InitKb (bda : Mem) : Mem :=
  (((bda.writeLE kbBufStart 2 defKbBuf).writeLE kbBufHead 2 defKbBuf).writeLE kbBufTail 2 defKbBuf).writeLE
    kbBufEnd 2 defKbBufEnd

end Biefircate
