import Emu8085.Machine.Run
import Emu8085.Memory.Range

/-!
# Control of a machine

The operations of an operator: load a program, move the program counter, write a cell, step, run.
Addresses and values are any numbers and are checked before anything changes, so a refused
operation leaves no trace. Loading and moving wake a halted machine.
-/
namespace Emu8085

open Text

inductive ControlError where
  | addressOutOfRange (address : Nat)
  | valueOutOfRange (value : Nat)
  | programTooLarge (start length : Nat)
  | halted (pc : Word)
  | memory (cause : MemoryError)
  deriving DecidableEq, Repr

namespace ControlError

def message : ControlError → String
  | addressOutOfRange address =>
    "address 0x" ++ upperHex 1 address ++ " is out of range, address max is 0xFFFF"
  | valueOutOfRange value => "value 0x" ++ upperHex 1 value ++ " does not fit in a byte"
  | programTooLarge start length => "a program of " ++ toString length ++ " bytes loaded at #0x" ++
      upperHex 4 start ++ " runs past the end of memory"
  | halted pc => "processor is halted at #0x" ++ upperHex 4 pc.toNat
  | memory cause => "memory error: " ++ cause.message

def cause? : ControlError → Option MemoryError
  | memory cause => some cause
  | _ => none

end ControlError

inductive StepKind where
  | advanced | halted | unrecognized
  deriving DecidableEq, Repr

namespace Machine

def checkedAddress (n : Nat) : Except ControlError Word :=
  match address? n with
  | some address => .ok address
  | none => .error (.addressOutOfRange n)

/-- Moves the program counter; a halted machine is ready again. -/
def resumeAt (s : Machine) (address : Word) : Machine :=
  { s with registers.pc := address, registers.halted := false }

def goto (s : Machine) (address : Nat) : Except ControlError Machine :=
  match checkedAddress address with
  | .ok address => .ok (s.resumeAt address)
  | .error e => .error e

/-- Copies a program into memory and points at its first byte. -/
def load (s : Machine) (program : List Byte) (start : Nat) : Except ControlError Machine :=
  match checkedAddress start with
  | .error e => .error e
  | .ok address =>
    if Memory.size < start + program.length then .error (.programTooLarge start program.length)
    else
      match s.memory.writeRange start program with
      | .error e => .error (.memory e)
      | .ok memory => .ok ({ s with memory }.resumeAt address)

def poke (s : Machine) (address value : Nat) : Except ControlError Machine :=
  match checkedAddress address with
  | .error e => .error e
  | .ok address =>
    if value < 0x100 then
      .ok { s with memory := s.memory.write address (BitVec.ofNat 8 value) }
    else .error (.valueOutOfRange value)

/-- A step of a machine that is not halted. -/
def advance (s : Machine) : Except ControlError (StepKind × Entry × Machine) :=
  if s.isHalted then .error (.halted s.registers.pc)
  else
    let (entry, s) := s.step
    let kind :=
      if !entry.fetched.instruction.isRecognized then .unrecognized
      else if s.isHalted then .halted
      else StepKind.advanced
    .ok (kind, entry, s)

def runFrom (s : Machine) (address budget : Nat) : Except ControlError (Report × Machine) :=
  match s.goto address with
  | .ok s => .ok (s.run budget)
  | .error e => .error e

def describe (s : Machine) (address : Nat) : Except ControlError (String × String) :=
  match checkedAddress address with
  | .ok address =>
    let i := (s.memory.fetch address).instruction
    .ok (i.mnemonic, i.operand.text)
  | .error e => .error e

theorem checkedAddress_of_lt {n : Nat} (h : n < 0x10000) :
    checkedAddress n = .ok (BitVec.ofNat 16 n) := by
  simp [checkedAddress, address?, h]

theorem checkedAddress_of_le {n : Nat} (h : 0x10000 ≤ n) :
    checkedAddress n = .error (.addressOutOfRange n) := by
  simp [checkedAddress, address?, Nat.not_lt.2 h]

theorem goto_of_lt (s : Machine) {n : Nat} (h : n < 0x10000) :
    s.goto n = .ok (s.resumeAt (BitVec.ofNat 16 n)) := by
  rw [goto, checkedAddress_of_lt h]

theorem goto_of_le (s : Machine) {n : Nat} (h : 0x10000 ≤ n) :
    s.goto n = .error (.addressOutOfRange n) := by
  rw [goto, checkedAddress_of_le h]

theorem load_of_fits (s : Machine) {program : List Byte} {start : Nat} (h : start < 0x10000)
    (fits : start + program.length ≤ Memory.size) :
    s.load program start =
      .ok ({ s with memory := s.memory.store (BitVec.ofNat 16 start) program }.resumeAt
        (BitVec.ofNat 16 start)) := by
  have addressable : ¬ countLimit ≤ start + program.length := by
    simp only [Memory.size, countLimit] at fits ⊢
    omega
  rw [load, checkedAddress_of_lt h]
  simp only [Memory.writeRange, if_neg (Nat.not_lt.2 fits), if_neg addressable, if_pos fits]

/-- A program that does not fit is refused as a whole, before a byte of it is written. -/
theorem load_of_lt_length (s : Machine) {program : List Byte} {start : Nat} (h : start < 0x10000)
    (long : Memory.size < start + program.length) :
    s.load program start = .error (.programTooLarge start program.length) := by
  rw [load, checkedAddress_of_lt h]
  exact if_pos long

theorem load_of_le (s : Machine) (program : List Byte) {start : Nat} (h : 0x10000 ≤ start) :
    s.load program start = .error (.addressOutOfRange start) := by
  rw [load, checkedAddress_of_le h]

theorem poke_of_lt (s : Machine) {address : Nat} (h : address < 0x10000) (v : Byte) :
    s.poke address v.toNat =
      .ok { s with memory := s.memory.write (BitVec.ofNat 16 address) v } := by
  rw [poke, checkedAddress_of_lt h]
  simp [v.isLt]

theorem goto_eq_ok_iff {s t : Machine} {address : Nat} : s.goto address = .ok t ↔
    address < 0x10000 ∧ t = s.resumeAt (BitVec.ofNat 16 address) := by
  by_cases h : address < 0x10000
  · simp [s.goto_of_lt h, h, eq_comm]
  · simp [s.goto_of_le (Nat.not_lt.1 h), h]

/-- The address has to exist even for an empty program. -/
theorem load_eq_ok_iff {s t : Machine} {program : List Byte} {start : Nat} :
    s.load program start = .ok t ↔
      (start < 0x10000 ∧ start + program.length ≤ Memory.size) ∧
        t = { s with memory := s.memory.store (BitVec.ofNat 16 start) program }.resumeAt
          (BitVec.ofNat 16 start) := by
  by_cases h : start < 0x10000
  · by_cases fits : start + program.length ≤ Memory.size
    · simp [s.load_of_fits h fits, h, fits, eq_comm]
    · simp [s.load_of_lt_length h (Nat.not_le.1 fits), fits]
  · simp [s.load_of_le program (Nat.not_lt.1 h), h]

theorem registers_of_poke {s t : Machine} {address value : Nat} (h : s.poke address value = .ok t) :
    t.registers = s.registers := by
  rw [poke] at h
  split at h
  · cases h
  · split at h <;> cases h
    rfl

end Machine

end Emu8085
