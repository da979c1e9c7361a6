import Biefircate.Model.Stage2.KbIrq
import Biefircate.Soundness.KeyboardBuffer

/-! # Keyboard interrupts from the controller to the program

Whatever the keyboard controller and the PIC answer, each interrupt takes one code from the controller, acknowledges the PIC once
and leaves the keyboard enabled. So the keys that programs take are those of the codes that were read, in order.
-/

namespace Biefircate.Kb

open Ports

/-! ## One interrupt -/

def inFull (sta : UInt8) : Bool := sta &&& kbStaInFull != 0

/-- A wait for the input buffer of the controller. -/
abbrev Waits : List Access → Prop := Polled kbSta inFull 0xffff

/-- The accesses of an interrupt that reads a code. -/
structure Serves (code : UInt8) (log : List Access) : Prop where
  parts : ∃ disable ready enable, Waits disable ∧ Waits ready ∧ Waits enable ∧
    log = disable ++ [.outp kbSta kbStaDis] ++ ready ++ [.inp kbPortA code, .outp pic1CmdPort picEoi] ++ enable ++
      [.outp kbSta kbStaEna]

variable {δ : Type} {devs : Devices δ} {code : UInt8} {log : List Access}

theorem Serves.readFrom (serves : Serves code log) : readFrom kbPortA log = [code] := by
  obtain ⟨disable, ready, enable, first, second, third, rfl⟩ := serves
  have apart : kbSta ≠ kbPortA := by decide
  simp only [readFrom_append, first.readFrom apart, second.readFrom apart, third.readFrom apart]
  rfl

/-- What an interrupt writes. -/
def commands : List (ℕ × UInt8) := [(kbSta, kbStaDis), (pic1CmdPort, picEoi), (kbSta, kbStaEna)]

theorem Serves.writes (serves : Serves code log) : writes log = commands := by
  obtain ⟨disable, ready, enable, first, second, third, rfl⟩ := serves
  simp only [writes_append, first.writes, second.writes, third.writes]
  rfl

/-- The most accesses that an interrupt makes. -/
def accessBound : ℕ := 6 * 0xffff + 4

theorem Serves.length (serves : Serves code log) : log.length ≤ accessBound := by
  obtain ⟨disable, ready, enable, first, second, third, rfl⟩ := serves
  have one := first.length
  have two := second.length
  have three := third.length
  simp only [List.length_append, List.length_cons, List.length_nil, accessBound]
  omega

theorem sndSta_log (devs : Devices δ) (io : Io δ) (cmd : UInt8) :
    ∃ wait, Waits wait ∧ (sndSta devs io cmd).log = io.log ++ wait ++ [.outp kbSta cmd] := by
  obtain ⟨wait, polled, log⟩ := poll_polled devs kbSta inFull 0xffff io
  exact ⟨wait, polled, congrArg (· ++ _) log⟩

theorem irq1Impl_serves (devs : Devices δ) (io : Io δ) (bda : Mem) : ∃ code log, Serves code log ∧
    (irq1Impl devs io bda).1.log = io.log ++ log ∧ (irq1Impl devs io bda).2 = handleCode bda code := by
  have total : irq1Impl devs io bda =
      (sndSta devs (devs.write (devs.read (waitKbInBufClear devs (sndSta devs io kbStaDis)) kbPortA).2 pic1CmdPort picEoi)
        kbStaEna, handleCode bda (devs.read (waitKbInBufClear devs (sndSta devs io kbStaDis)) kbPortA).1) := rfl
  obtain ⟨disable, first, disabled⟩ := sndSta_log devs io kbStaDis
  obtain ⟨ready, second, isReady⟩ := poll_polled devs kbSta inFull 0xffff (sndSta devs io kbStaDis)
  change (waitKbInBufClear devs (sndSta devs io kbStaDis)).log = _ at isReady
  rw [total]
  generalize waitKbInBufClear devs (sndSta devs io kbStaDis) = io' at isReady
  obtain ⟨enable, third, enabled⟩ := sndSta_log devs (devs.write (devs.read io' kbPortA).2 pic1CmdPort picEoi) kbStaEna
  refine ⟨(devs.read io' kbPortA).1, _, ⟨disable, ready, enable, first, second, third, rfl⟩, ?_, rfl⟩
  rw [enabled, write_log, read_log, isReady, disabled]
  simp only [List.append_assoc, List.cons_append, List.nil_append]

/-! ## Runs -/

/-- An interrupt comes, or a program takes a key. -/
inductive Turn where
  | irq
  | take
deriving DecidableEq, Repr

/-- The devices and the data area, with the keys that were taken. -/
structure Desk (δ : Type) where
  io : Io δ
  bda : Mem
  taken : List ℕ

def Desk.step (devs : Devices δ) (s : Desk δ) : Turn → Desk δ
  | .irq => ⟨(irq1Impl devs s.io s.bda).1, (irq1Impl devs s.io s.bda).2, s.taken⟩
  | .take => (readKey s.bda).elim s fun (key, bda) => ⟨s.io, bda, s.taken ++ [key]⟩

def Desk.run (devs : Devices δ) (dev : δ) (bda : Mem) (turns : List Turn) : Desk δ := turns.foldl (Desk.step devs) ⟨⟨dev, []⟩, bda, []⟩

/-- The turns, with the codes that the interrupts read. -/
def events : List UInt8 → List Turn → List Event
  | codes, .take :: turns => .dequeue :: events codes turns
  | code :: codes, .irq :: turns => .code code :: events codes turns
  | _, _ => []

/-- What happened to the keys, for a run that began with `bda`. -/
structure Served (bda : Mem) (turns : List Turn) (s : Desk δ) : Prop where
  /-- One code for each interrupt. -/
  codes : (readFrom kbPortA s.io.log).length = turns.count .irq
  writes : writes s.io.log = (List.replicate (turns.count .irq) commands).flatten
  short : s.io.log.length ≤ turns.count .irq * accessBound
  fifo : queue bda ++ (Traffic.run bda (events (readFrom kbPortA s.io.log) turns)).accepted = s.taken ++ queue s.bda
  same : s.bda = (Traffic.run bda (events (readFrom kbPortA s.io.log) turns)).bda

section

variable {codes : List UInt8} {logs : List (List Access)}

theorem readFrom_flatten (serves : List.Forall₂ Serves codes logs) : readFrom kbPortA logs.flatten = codes := by
  induction serves with
  | nil => rfl
  | cons first _ ih => rw [List.flatten_cons, readFrom_append, first.readFrom, ih, List.singleton_append]

theorem writes_flatten (serves : List.Forall₂ Serves codes logs) :
    writes logs.flatten = (List.replicate codes.length commands).flatten := by
  induction serves with
  | nil => rfl
  | cons first _ ih => rw [List.flatten_cons, writes_append, first.writes, ih, List.length_cons, List.replicate_succ, List.flatten_cons]

theorem length_flatten (serves : List.Forall₂ Serves codes logs) : logs.flatten.length ≤ codes.length * accessBound := by
  induction serves with
  | nil => exact Nat.zero_le _
  | cons first _ ih =>
    have bound := first.length
    rw [List.flatten_cons, List.length_append, List.length_cons, Nat.add_mul]
    omega

/-- The desk and the traffic agree on the data area and on the keys taken. -/
structure Agrees (s : Desk δ) (t : Traffic) : Prop where
  bda : t.bda = s.bda
  taken : t.dequeued = s.taken

theorem Agrees.irq {s : Desk δ} {t : Traffic} (agrees : Agrees s t)
    (handled : (irq1Impl devs s.io s.bda).2 = handleCode s.bda code) : Agrees (s.step devs .irq) (t.step (.code code)) := by
  obtain ⟨bda, taken⟩ := agrees
  refine ⟨?_, taken⟩
  change handleCode t.bda code = (irq1Impl devs s.io s.bda).2
  rw [bda, handled]

theorem Agrees.take {s : Desk δ} {t : Traffic} (agrees : Agrees s t) : Agrees (s.step devs .take) (t.step .dequeue) := by
  obtain ⟨bda, taken⟩ := agrees
  unfold Desk.step Traffic.step
  rw [bda]
  cases readKey s.bda with
  | none => exact ⟨bda, taken⟩
  | some found => exact ⟨rfl, congrArg (· ++ [found.1]) taken⟩

theorem log_take (s : Desk δ) : (s.step devs .take).io = s.io := by
  unfold Desk.step
  cases readKey s.bda <;> rfl

theorem run_serves (devs : Devices δ) (s : Desk δ) (turns : List Turn) : ∃ codes logs, List.Forall₂ Serves codes logs ∧
    codes.length = turns.count .irq ∧ (turns.foldl (Desk.step devs) s).io.log = s.io.log ++ logs.flatten ∧
      ∀ t, Agrees s t → Agrees (turns.foldl (Desk.step devs) s) ((events codes turns).foldl Traffic.step t) := by
  induction turns generalizing s with
  | nil => exact ⟨[], [], .nil, rfl, (List.append_nil _).symm, fun t agrees => agrees⟩
  | cons turn turns ih =>
    cases turn with
    | irq =>
      obtain ⟨code, log, serves, grown, handled⟩ := irq1Impl_serves devs s.io s.bda
      obtain ⟨codes, logs, all, count, rest, agree⟩ := ih (s.step devs .irq)
      refine ⟨code :: codes, log :: logs, .cons serves all, ?_, ?_, fun t agrees => agree _ (agrees.irq handled)⟩
      · rw [List.length_cons, count, List.count_cons_self]
      · rw [List.foldl_cons, rest, List.flatten_cons, ← List.append_assoc, ← grown]
        rfl
    | take =>
      obtain ⟨codes, logs, all, count, rest, agree⟩ := ih (s.step devs .take)
      refine ⟨codes, logs, all, ?_, ?_, fun t agrees => ?_⟩
      · rw [count, List.count_cons_of_ne (by decide)]
      · rw [List.foldl_cons, rest, log_take]
      · rw [events]
        exact agree _ agrees.take

end

/-- Every run of interrupts and reads of keys from an empty log, for any devices. -/
theorem keyboard_served {bda : Mem} (ready : Ready bda) (clear : Clear bda) (devs : Devices δ) (dev : δ) (turns : List Turn) :
    Served bda turns (Desk.run devs dev bda turns) := by
  obtain ⟨codes, logs, serves, count, grown, agree⟩ := run_serves devs ⟨⟨dev, []⟩, bda, []⟩ turns
  rw [List.nil_append] at grown
  have agrees : Agrees (Desk.run devs dev bda turns) (Traffic.run bda (events codes turns)) := agree ⟨bda, [], []⟩ ⟨rfl, rfl⟩
  change (Desk.run devs dev bda turns).io.log = logs.flatten at grown
  have fifo := (Traffic.Inv.run ready clear (events codes turns)).fifo
  rw [agrees.taken, agrees.bda] at fifo
  have read : readFrom kbPortA (Desk.run devs dev bda turns).io.log = codes := by rw [grown, readFrom_flatten serves]
  constructor
  · rw [read, count]
  · rw [grown, writes_flatten serves, count]
  · rw [grown, ← count]
    exact length_flatten serves
  · rw [read]
    exact fifo
  · rw [read]
    exact agrees.bda.symm

/-- A controller that is never busy and has the same code again and again. -/
def stuck : Devices UInt8 where
  inp code port := (if port = kbPortA then code else 0, code)
  outp code _ _ := code

theorem keyboard_served_sample :
    Served (rm16InitKb .zero) [.irq, .irq, .take] (Desk.run stuck 0x1e (rm16InitKb .zero) [.irq, .irq, .take]) :=
  keyboard_served (rm16InitKb_ready _).1 (rm16InitKb_ready _).2.1 stuck 0x1e _

end Biefircate.Kb
