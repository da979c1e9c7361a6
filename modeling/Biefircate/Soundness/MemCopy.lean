import Biefircate.Proofs.Stage2.Clib

/-! # `memcpy` and `memmove`

Whichever way the spans overlap, the routine goes away from the bytes that it has yet to read.
-/

namespace Biefircate.Clib

open Machine

variable {s : Cpu} {eip : UInt32} {below : List UInt32}

/-- What a call leaves: the bytes at the destination are those that were at the source, everything else is as it was, and the
routine has returned its destination to its caller. -/
structure Moved (s : Cpu) (eip : UInt32) (below : List UInt32) (t : Cpu) : Prop where
  copied : t.mem.read s.eax.toNat s.ecx.toNat = s.mem.read s.edx.toNat s.ecx.toNat
  frame : ∀ x, x < s.eax.toNat ∨ s.eax.toNat + s.ecx.toNat ≤ x → t.mem x = s.mem x
  result : t.eax = s.eax
  clear : t.df = false
  place : t.place = .returned eip
  stack : t.stack = below
  saved : t.esi = s.esi ∧ t.edi = s.edi

/-- From its entry with the direction flag clear, for any two spans in the address space. The destination is in EAX, the source
in EDX and the number of bytes in ECX. -/
theorem memmove_moves (entry : s.place = .inside memmove) (stack : s.stack = eip :: below) (clear : s.df = false)
    (dst : s.eax.toNat + s.ecx.toNat ≤ 2 ^ 32) (src : s.edx.toNat + s.ecx.toNat ≤ 2 ^ 32) :
    ∃ t, Finishes step quiet s [] t ∧ Moved s eip below t := by
  obtain ⟨eax, ecx, edx, esi, edi, zf, cf, df, stack', mem, place⟩ := s
  dsimp only at entry stack clear dst src
  subst entry stack clear
  obtain ⟨t, finishes, returned, left, result, esi_eq, edi_eq, up, copy⟩ :=
    memmove_returns eax ecx edx esi edi eip zf cf below mem dst src
  refine ⟨t, finishes, ?_, ?_, result, up, returned, left, esi_eq, edi_eq⟩
  · rw [copy]
    exact Mem.read_copied ..
  · intro x outside
    rw [copy]
    exact Mem.copied_of_outside outside

/-- A call to copy seven bytes up by two, over a part of themselves, at the end of the address space. -/
def sampleCall : Cpu :=
  ⟨0xfffffff9, 7, 0xfffffff7, 1, 2, true, true, false, [0x8000], fun x => UInt8.ofNat x, .inside memmove⟩

theorem memmove_moves_sample : ∃ t, Finishes step quiet sampleCall [] t ∧ Moved sampleCall 0x8000 [] t :=
  memmove_moves rfl rfl rfl (by decide) (by decide)

end Biefircate.Clib
