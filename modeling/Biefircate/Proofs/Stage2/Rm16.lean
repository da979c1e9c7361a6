import Biefircate.Lib.Copy
import Biefircate.Model.Stage2.Rm16
import Biefircate.Proofs.Stage2.Clib

/-! # What each part of `rm16_init` does to memory

The code, the data, the interrupt vectors and the keyboard buffer are set up one after the other. Each part is described by what
it leaves and by a frame, the addresses outside which it changes nothing.
-/

namespace Biefircate.Rm16

open Clib

variable {syms : Syms} {mem : Mem} {text data : ℕ}

/-! ## Loops -/

theorem repStos_eq (mem : Mem) {count lo edi : ℕ} (ordered : lo ≤ edi) (fits : edi + 4 * count < 2 ^ 32) :
    repStos 0 count edi (mem.zeroed lo edi) = (edi + 4 * count, mem.zeroed lo (edi + 4 * count)) := by
  induction count generalizing edi with
  | zero => rfl
  | succ count ih =>
    rw [repStos, Word.add_of_lt (by omega), Mem.zeroed_up ordered, ih (by omega) (by omega), Nat.add_assoc,
      show 4 + 4 * count = 4 * (count + 1) by omega]

/-- Vectors from `edi` on have the low half from the words of a table and the high half of EAX, and nothing else is changed. -/
structure VecsSet (count eax esi edi : ℕ) (mem mem' : Mem) : Prop where
  vec : ∀ i < count, mem'.readLE (edi + 4 * i) 4 = eax / 0x10000 * 0x10000 + mem.readLE (esi + 2 * i) 2
  frame : ∀ x, x < edi ∨ edi + 4 * count ≤ x → mem' x = mem x

theorem setVecs_spec (mem : Mem) {count eax esi edi : ℕ} (word : eax < 2 ^ 32) (apart : edi + 4 * count ≤ esi)
    (fits : esi + 2 * count < 2 ^ 32) : VecsSet count eax esi edi mem (setVecs count eax esi edi mem) := by
  induction count generalizing mem eax esi edi with
  | zero => exact ⟨fun _ none => absurd none (Nat.not_lt_zero _), fun _ _ => rfl⟩
  | succ count ih =>
    have low : mem.readLE esi 2 < 0x10000 := mem.readLE_lt esi 2
    generalize entry : eax / 0x10000 * 0x10000 + mem.readLE esi 2 = vec
    have high : vec / 0x10000 = eax / 0x10000 := by omega
    have rest := ih (mem.writeLE edi 4 vec) (show vec < 2 ^ 32 by omega)
      (show edi + 4 + 4 * count ≤ esi + 2 by omega) (by omega)
    rw [setVecs, entry, Word.add_of_lt (by omega), Word.add_of_lt (by omega)]
    refine ⟨fun i inside => ?_, fun x outside => ?_⟩
    · cases i with
      | zero =>
        have here : (setVecs count vec (esi + 2) (edi + 4) (mem.writeLE edi 4 vec)).readLE edi 4 =
            (mem.writeLE edi 4 vec).readLE edi 4 := Mem.readLE_congr fun x _ below => rest.frame x (.inl below)
        change (setVecs count vec (esi + 2) (edi + 4) (mem.writeLE edi 4 vec)).readLE edi 4 = _
        rw [here, Mem.readLE_writeLE, Nat.mod_eq_of_lt (by omega), ← entry]
        rfl
      | succ i =>
        have there := rest.vec i (Nat.lt_of_succ_lt_succ inside)
        rw [Mem.readLE_writeLE_apart (.inr (by omega)), high] at there
        rw [show edi + 4 * (i + 1) = edi + 4 + 4 * i by omega, there, show esi + 2 * (i + 1) = esi + 2 + 2 * i by omega]
    · rw [rest.frame x (by omega), Mem.writeLE_of_outside (by omega)]

/-- Whole words copied down. -/
theorem movsd_eq (mem : Mem) {dst src len : ℕ} (down : dst ≤ src) (whole : 4 ∣ len) (fits : src + len < 2 ^ 32) :
    repMovs false 4 (Word.sub 32 (src + len) src / 4) (UInt32.ofNat src) (UInt32.ofNat dst) mem =
      (UInt32.ofNat (src + len), UInt32.ofNat (dst + len), mem.copied dst src 0 len) := by
  obtain ⟨count, rfl⟩ := whole
  have four : (4 : UInt32).toNat = 4 := rfl
  have copies : repMovs false 4 count (UInt32.ofNat (src + 0)) (UInt32.ofNat (dst + 0)) (mem.copied dst src 0 0) = _ :=
    repMovs_up down (by decide) (by rw [four]; omega)
  rw [Word.sub_of_le (Nat.le_add_right ..) fits, Nat.add_sub_cancel_left, Nat.mul_div_cancel_left count (by decide)]
  simpa [four] using copies

/-! ## What the build makes sure of -/

/-- The bytes of the code and of the initialized data, in whole words. -/
def Syms.textLen (syms : Syms) : ℕ := syms.text16LoadEnd - syms.text16Load
def Syms.dataLen (syms : Syms) : ℕ := syms.data16LoadEnd - syms.data16Load

/-- The copies to load are whole words, no longer than what they are copies of but for that, and lie with the other variables of
stage 2 above 1 MiB. -/
structure Syms.Linked (syms : Syms) : Prop where
  text : syms.text16Load + syms.textLen = syms.text16LoadEnd
  textWhole : 4 ∣ syms.textLen
  textPadded : 0 < syms.etext16 ∧ syms.etext16 ≤ syms.textLen ∧ syms.textLen < syms.etext16 + 4
  data : syms.data16Load + syms.dataLen = syms.data16LoadEnd
  dataWhole : 4 ∣ syms.dataLen
  dataInside : 0 < syms.dataLen ∧ syms.dataLen ≤ syms.end16
  endWhole : kibyte ∣ syms.end16
  rmCs16 : syms.rmCs16 + 2 ≤ syms.etext16
  vecs16 : syms.vecs16 + 2 * syms.numVecs16 ≤ syms.dataLen
  numVecs16 : 0 < syms.numVecs16 ∧ syms.numVecs16 < 0x100
  high : bmemMaxAddr ≤ syms.text16Load ∧ bmemMaxAddr ≤ syms.data16Load ∧ bmemMaxAddr ≤ syms.gdtDescCs16 ∧
    bmemMaxAddr ≤ syms.rm16Cs
  fits : syms.text16LoadEnd < 2 ^ 32 ∧ syms.data16LoadEnd < 2 ^ 32 ∧ syms.end16 < 2 ^ 32
  gdtApart : (syms.gdtDescCs16 + 8 ≤ syms.text16Load ∨ syms.text16LoadEnd ≤ syms.gdtDescCs16) ∧
    (syms.gdtDescCs16 + 8 ≤ syms.data16Load ∨ syms.data16LoadEnd ≤ syms.gdtDescCs16)
  rm16CsApart : (syms.rm16Cs + 2 ≤ syms.text16Load ∨ syms.text16LoadEnd ≤ syms.rm16Cs) ∧
    (syms.rm16Cs + 2 ≤ syms.data16Load ∨ syms.data16LoadEnd ≤ syms.rm16Cs) ∧
      (syms.rm16Cs + 2 ≤ syms.gdtDescCs16 ∨ syms.gdtDescCs16 + 8 ≤ syms.rm16Cs)

/-! ## The parts -/

/-- What is there once the code is loaded. -/
structure TextLoaded (syms : Syms) (text : ℕ) (mem mem' : Mem) : Prop where
  gdt : mem'.readLE (syms.gdtDescCs16 + 2) 4 = mem.readLE (syms.gdtDescCs16 + 2) 4 ||| text
  copy : mem'.read text syms.textLen = overwrite (mem.read syms.text16Load syms.textLen) syms.rmCs16 (toBytes 2 (text / 16))
  rm16Cs : mem'.readLE syms.rm16Cs 2 = text / 16
  frame : ∀ x, (x < syms.gdtDescCs16 + 2 ∨ syms.gdtDescCs16 + 6 ≤ x) → (x < text ∨ text + syms.textLen ≤ x) →
    (x < syms.rm16Cs ∨ syms.rm16Cs + 2 ≤ x) → mem' x = mem x

theorem loadText_loaded (linked : syms.Linked) (below : text + syms.textLen ≤ bmemMaxAddr) :
    TextLoaded syms text mem (loadText syms text mem) := by
  obtain ⟨-, padded, -⟩ := linked.textPadded
  obtain ⟨highText, -, highGdt, highCs⟩ := linked.high
  have rmCs16 := linked.rmCs16
  have limit : bmemMaxAddr = 2 ^ 20 := rfl
  have inText := linked.text
  have fits := linked.fits.1
  obtain ⟨csText, -, csGdt⟩ := linked.rm16CsApart
  have gdtText := linked.gdtApart.1
  have seg : text >>> 4 = text / 16 := Nat.shiftRight_eq_div_pow text 4
  generalize or : mem.readLE (syms.gdtDescCs16 + 2) 4 ||| text = entry
  have small : entry < 256 ^ 4 := by
    rw [← or]
    exact Nat.or_lt_two_pow (n := 32) (mem.readLE_lt _ 4) (by omega)
  have ran : loadText syms text mem = (((mem.writeLE (syms.gdtDescCs16 + 2) 4 entry).copied text syms.text16Load 0
      syms.textLen).writeLE syms.rm16Cs 2 (text / 16)).writeLE (text + syms.rmCs16) 2 (text / 16) := by
    unfold loadText
    dsimp only [stext16, Nat.add_zero]
    rw [or, ← inText, movsd_eq _ (by omega) linked.textWhole (by omega), seg, Word.add_of_lt (by omega)]
  rw [ran]
  refine ⟨?_, ?_, ?_, ?_⟩
  · rw [Mem.readLE_writeLE_apart (by omega), Mem.readLE_writeLE_apart (by omega), or]
    refine (Mem.readLE_congr fun x _ _ => Mem.copied_of_outside (by omega)).trans ?_
    rw [Mem.readLE_writeLE, Nat.mod_eq_of_lt small]
  · have image : (mem.writeLE (syms.gdtDescCs16 + 2) 4 entry).read syms.text16Load syms.textLen =
        mem.read syms.text16Load syms.textLen := Mem.read_write_apart (by rw [toBytes_length]; omega)
    rw [Mem.writeLE, Mem.read_write_inside _ _ (by rw [toBytes_length]; omega), Mem.writeLE,
      Mem.read_write_apart (by rw [toBytes_length]; omega), Mem.read_copied, image]
  · rw [Mem.readLE_writeLE_apart (by omega), Mem.readLE_writeLE, Nat.mod_eq_of_lt (by omega)]
  · intro x offGdt offText offCs
    rw [Mem.writeLE_of_outside (by omega), Mem.writeLE_of_outside offCs, Mem.copied_of_outside (by omega),
      Mem.writeLE_of_outside (by omega)]

/-- What is there once the data are loaded. -/
structure DataLoaded (syms : Syms) (data : ℕ) (mem mem' : Mem) : Prop where
  ebda : mem'.readLE (bdaAt + bdaEbda) 2 = data / 16
  copy : mem'.read data syms.dataLen = mem.read syms.data16Load syms.dataLen
  bss : ∀ x, data + syms.dataLen ≤ x → x < data + syms.end16 → mem' x = 0
  frame : ∀ x, (x < bdaAt + bdaEbda ∨ bdaAt + bdaEbda + 2 ≤ x) → (x < data ∨ data + syms.end16 ≤ x) → mem' x = mem x

theorem loadData_loaded (linked : syms.Linked) (above : bdaAt + bdaEbda + 2 ≤ data) (below : data + syms.end16 ≤ bmemMaxAddr) :
    DataLoaded syms data mem (loadData syms data mem) := by
  obtain ⟨some_, inside⟩ := linked.dataInside
  obtain ⟨-, highData, -, -⟩ := linked.high
  have limit : bmemMaxAddr = 2 ^ 20 := rfl
  have bda : bdaAt + bdaEbda = 0x40e := rfl
  have inData := linked.data
  have fits := linked.fits.2.1
  have seg : data >>> 4 = data / 16 := Nat.shiftRight_eq_div_pow data 4
  obtain ⟨words, whole⟩ : 4 ∣ syms.end16 - syms.dataLen :=
    Nat.dvd_sub ((show 4 ∣ kibyte by decide).trans linked.endWhole) linked.dataWhole
  have ran : loadData syms data mem = ((mem.writeLE (bdaAt + bdaEbda) 2 (data / 16)).copied data syms.data16Load 0
      syms.dataLen).zeroed (data + syms.dataLen) (data + syms.end16) := by
    unfold loadData
    have edi : (UInt32.ofNat (data + syms.dataLen)).toNat = data + syms.dataLen := toNat_ofNat_of_lt (by omega)
    have count : (data + (syms.end16 + 3) - (data + syms.dataLen)) >>> 2 = words := by
      rw [Nat.shiftRight_eq_div_pow]
      omega
    dsimp only [sdata16, Nat.add_zero]
    rw [← inData, movsd_eq _ (by omega) linked.dataWhole (by omega), seg]
    dsimp only
    have fill := repStos_eq ((mem.writeLE (bdaAt + bdaEbda) 2 (data / 16)).copied data syms.data16Load 0 syms.dataLen)
      (le_refl (data + syms.dataLen)) (show data + syms.dataLen + 4 * words < 2 ^ 32 by omega)
    rw [Mem.zeroed_empty] at fill
    rw [edi, Word.add_of_lt (by omega), Word.sub_of_le (by omega) (by omega), count, fill,
      show data + syms.dataLen + 4 * words = data + syms.end16 by omega]
  rw [ran]
  refine ⟨?_, ?_, ?_, ?_⟩
  · refine (Mem.readLE_congr fun x _ _ => ?_).trans
      ((Mem.readLE_writeLE mem (bdaAt + bdaEbda) 2 (data / 16)).trans (Nat.mod_eq_of_lt (by omega)))
    rw [Mem.zeroed_of_outside (by omega), Mem.copied_of_outside (by omega)]
  · refine (Mem.read_congr fun x _ before => Mem.zeroed_of_outside (.inl before)).trans ((Mem.read_copied _ _ _ _).trans ?_)
    exact Mem.read_write_apart (by rw [toBytes_length]; omega)
  · exact fun x low high => if_pos ⟨low, high⟩
  · intro x offEbda offData
    rw [Mem.zeroed_of_outside (by omega), Mem.copied_of_outside (by omega), Mem.writeLE_of_outside offEbda]

/-- The keyboard buffer is set up in six bytes besides its end. -/
theorem setKb_frame {x : ℕ} (offKeys : x < bdaAt + kbBufHead ∨ bdaAt + kbBufTail + 2 ≤ x)
    (offBounds : x < bdaAt + kbBufStart ∨ bdaAt + kbBufEnd + 2 ≤ x) : setKb mem x = mem x := by
  simp only [bdaAt, kbBufHead, kbBufTail, kbBufStart, kbBufEnd] at offKeys offBounds
  unfold setKb
  simp only [bdaAt, kbBufHead, kbBufTail, kbBufStart, kbBufEnd]
  rw [Mem.writeLE_of_outside (by omega), Mem.writeLE_of_outside (by omega), Mem.writeLE_of_outside (by omega),
    Mem.writeLE_of_outside (by omega)]

end Biefircate.Rm16
