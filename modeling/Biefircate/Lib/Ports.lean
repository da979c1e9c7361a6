import Mathlib.Data.List.Basic
import Mathlib.Data.Nat.Notation

/-! # Port I/O and its log

Programs see devices only through reads and writes of ports, and what a device answers is up to it. A log keeps the accesses in
order, so that what a program does can be told for every device at once. A bounded poll reads a port until its value says that
the device is ready, or until it has read it often enough.
-/

namespace Biefircate.Ports

/-- What reads and writes of ports do in some devices. -/
structure Devices (δ : Type) where
  inp : δ → ℕ → UInt8 × δ
  outp : δ → ℕ → UInt8 → δ

/-- A read, a write, or a small delay. -/
inductive Access where
  | inp (port : ℕ) (byte : UInt8)
  | outp (port : ℕ) (byte : UInt8)
  | delay
deriving DecidableEq, Repr

/-- The devices, and the accesses so far. -/
structure Io (δ : Type) where
  dev : δ
  log : List Access

namespace Devices

variable {δ : Type} (devs : Devices δ)

def read (io : Io δ) (port : ℕ) : UInt8 × Io δ :=
  ((devs.inp io.dev port).1, ⟨(devs.inp io.dev port).2, io.log ++ [.inp port (devs.inp io.dev port).1]⟩)

def write (io : Io δ) (port : ℕ) (byte : UInt8) : Io δ := ⟨devs.outp io.dev port byte, io.log ++ [.outp port byte]⟩

/-- A read after a small delay. -/
def readDelayed (io : Io δ) (port : ℕ) : UInt8 × Io δ := devs.read { io with log := io.log ++ [.delay] } port

/-- Read a port while its value is a busy one, but at most `n` times. -/
def poll (port : ℕ) (busy : UInt8 → Bool) : ℕ → Io δ → Io δ
  | 0, io => io
  | n + 1, io =>
    let answer := devs.readDelayed io port
    if busy answer.1 then poll port busy n answer.2 else answer.2

end Devices

/-- The accesses of a poll: all values but the last are busy ones, and so is the last if it is the `n`th. -/
inductive Polled (port : ℕ) (busy : UInt8 → Bool) : ℕ → List Access → Prop
  | spent : Polled port busy 0 []
  | ready (n : ℕ) {byte : UInt8} (idle : busy byte = false) : Polled port busy (n + 1) [.delay, .inp port byte]
  | again {n : ℕ} {byte : UInt8} {accesses : List Access} (waiting : busy byte = true) (rest : Polled port busy n accesses) :
      Polled port busy (n + 1) (.delay :: .inp port byte :: accesses)

/-- The bytes that were read from a port. -/
def readFrom (port : ℕ) (log : List Access) : List UInt8 :=
  log.filterMap fun
    | .inp from_ byte => if from_ = port then some byte else none
    | _ => none

/-- The writes: ports with bytes. -/
def writes (log : List Access) : List (ℕ × UInt8) :=
  log.filterMap fun
    | .outp port byte => some (port, byte)
    | _ => none

section

variable {δ : Type} {port : ℕ} {busy : UInt8 → Bool} {n : ℕ} {log : List Access}

@[simp] theorem read_log (devs : Devices δ) (io : Io δ) (port : ℕ) :
    (devs.read io port).2.log = io.log ++ [.inp port (devs.read io port).1] := rfl

@[simp] theorem write_log (devs : Devices δ) (io : Io δ) (port : ℕ) (byte : UInt8) :
    (devs.write io port byte).log = io.log ++ [.outp port byte] := rfl

theorem readFrom_append (port : ℕ) (first second : List Access) :
    readFrom port (first ++ second) = readFrom port first ++ readFrom port second := List.filterMap_append

theorem writes_append (first second : List Access) : writes (first ++ second) = writes first ++ writes second :=
  List.filterMap_append

theorem poll_polled (devs : Devices δ) (port : ℕ) (busy : UInt8 → Bool) (n : ℕ) (io : Io δ) :
    ∃ accesses, Polled port busy n accesses ∧ (devs.poll port busy n io).log = io.log ++ accesses := by
  induction n generalizing io with
  | zero => exact ⟨[], .spent, (List.append_nil _).symm⟩
  | succ n ih =>
    have seen : (devs.readDelayed io port).2.log = io.log ++ [.delay, .inp port (devs.readDelayed io port).1] :=
      List.append_assoc ..
    generalize answer : devs.readDelayed io port = byte at seen
    rw [Devices.poll, answer]
    cases value : busy byte.1 with
    | false => exact ⟨_, .ready n value, seen⟩
    | true =>
      obtain ⟨accesses, polled, rest⟩ := ih byte.2
      rw [seen, List.append_assoc] at rest
      exact ⟨_, .again value polled, rest⟩

/-- A poll is no longer than it may be. -/
theorem Polled.length (polled : Polled port busy n log) : log.length ≤ 2 * n := by
  induction polled with
  | spent => exact Nat.le_refl _
  | ready n => simp only [List.length_cons, List.length_nil]; omega
  | again _ _ ih => simp only [List.length_cons]; omega

theorem Polled.writes (polled : Polled port busy n log) : writes log = [] := by
  induction polled with
  | spent => rfl
  | ready => rfl
  | again _ _ ih => exact ih

/-- A poll reads no other port. -/
theorem Polled.readFrom (polled : Polled port busy n log) {other : ℕ} (apart : port ≠ other) : readFrom other log = [] := by
  induction polled with
  | spent => rfl
  | ready => simp [Ports.readFrom, apart]
  | again _ _ ih =>
    rw [← ih]
    simp [Ports.readFrom, apart]

end

end Biefircate.Ports
