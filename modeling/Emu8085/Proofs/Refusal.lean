import Emu8085.Script.Command

/-!
# Refused commands

Whether a command is carried out is decided by its own numbers, and for a step by the halt latch,
before anything changes (`isAllowed`). A command that is refused leaves the machine as it was, and
one that writes many cells cannot be refused half way through them: of the pokes that a write to
memory consists of, none fails once the range as a whole was found to fit (`pokeEach_of_fits`).
-/
namespace Emu8085

namespace Machine

/-- Pokes bytes into successive cells up to the first that is refused; those before it stay. -/
def pokeEach (s : Machine) (address : Nat) : List Byte → Machine × Option ControlError
  | [] => (s, none)
  | b :: bytes =>
    match s.poke address b.toNat with
    | .ok t => t.pokeEach (address + 1) bytes
    | .error e => (s, some e)

/-- By induction on the bytes: no cell of a range that fits is refused. -/
theorem pokeEach_of_fits (s : Machine) {address : Nat} {bytes : List Byte}
    (fits : address + bytes.length ≤ Memory.size) :
    s.pokeEach address bytes =
      ({ s with memory := s.memory.store (BitVec.ofNat 16 address) bytes }, none) := by
  induction bytes generalizing s address with
  | nil => rfl
  | cons b bytes ih =>
    rw [List.length_cons, Memory.size] at fits
    have next : BitVec.ofNat 16 (address + 1) = BitVec.ofNat 16 address + 1 :=
      BitVec.ofNat_add ..
    have rest : address + 1 + bytes.length ≤ Memory.size := by
      rw [Memory.size]
      omega
    rw [pokeEach, s.poke_of_lt (by omega)]
    simp only [ih _ rest, next, Memory.store_cons]

end Machine

namespace Script.Command

def observes : Command → Bool
  | assert _ _ | disassemble _ _ | marker _ | memoryShow _ _ | nothing | registersShow => true
  | _ => false

/-- What has to hold for a command to be carried out: its first address exists, all that it writes
fits, and a step finds the machine running. -/
def isAllowed (s : Machine) : Command → Bool
  | disassemble start _ | goto start | memoryShow start _ | run _ (some start) _ =>
    decide (start < Memory.size)
  | load address program =>
    decide (address < Memory.size ∧ address + program.length ≤ Memory.size)
  | memoryWrite address bytes => decide (address + bytes.length ≤ Memory.size)
  | registersSet register value => decide (value < register.limit)
  | step => !s.isHalted
  | _ => true

/-- A command is carried out, or refused on a machine that it did not touch. -/
inductive Settled (s : Machine) (c : Command) : Prop where
  | done {t : Machine} {token : Token} {records : List Record} :
      c.isAllowed s = true → c.execute s = .done t token records → Settled s c
  | refused {e : CommandError} :
      c.isAllowed s = false → c.execute s = .refused s e → Settled s c

section

variable (s : Machine)

/-- An address that does not exist is found before a program that does not fit, and either before
anything is written. -/
theorem settled_load (address : Nat) (program : List Byte) : Settled s (.load address program) := by
  by_cases h : address < 0x10000
  · by_cases fits : address + program.length ≤ Memory.size
    · exact .done (decide_eq_true ⟨h, fits⟩) (by
        simp only [execute, s.load_of_fits h fits]
        rfl)
    · exact .refused (decide_eq_false fun both => fits both.2) (by
        simp only [execute, s.load_of_lt_length h (Nat.not_le.1 fits)]
        rfl)
  · exact .refused (decide_eq_false fun both => h both.1) (by
      simp only [execute, s.load_of_le program (Nat.not_lt.1 h)]
      rfl)

theorem settled_goto (address : Nat) : Settled s (.goto address) := by
  by_cases h : address < 0x10000
  · exact .done (decide_eq_true h) (by
      simp only [execute, s.goto_of_lt h]
      rfl)
  · exact .refused (decide_eq_false h) (by
      simp only [execute, s.goto_of_le (Nat.not_lt.1 h)]
      rfl)

/-- A run is refused for its address only, before it takes a step. -/
theorem settled_run (stop : Option Predicate) (start : Option Nat) (maxSteps : Nat) :
    Settled s (.run stop start maxSteps) := by
  cases start with
  | none => exact .done rfl rfl
  | some address =>
    by_cases h : address < 0x10000
    · exact .done (decide_eq_true h) (by
        simp only [execute, s.goto_of_lt h]
        rfl)
    · exact .refused (decide_eq_false h) (by
        simp only [execute, s.goto_of_le (Nat.not_lt.1 h)]
        rfl)

theorem settled_disassemble (start count : Nat) : Settled s (.disassemble start count) := by
  by_cases h : start < 0x10000
  · exact .done (decide_eq_true h) (by
      simp only [execute, address?, if_pos h]
      rfl)
  · exact .refused (decide_eq_false h) (by
      simp only [execute, address?, if_neg h]
      rfl)

theorem settled_memoryShow (address lines : Nat) : Settled s (.memoryShow address lines) := by
  by_cases h : address < Memory.size
  · exact .done (decide_eq_true h) (if_pos h)
  · exact .refused (decide_eq_false h) (if_neg h)

theorem settled_memoryWrite (address : Nat) (bytes : List Byte) :
    Settled s (.memoryWrite address bytes) := by
  by_cases h : Memory.size < address + bytes.length
  · exact .refused (decide_eq_false (Nat.not_le.2 h)) (if_pos h)
  · exact .done (decide_eq_true (Nat.not_lt.1 h)) (if_neg h)

theorem settled_registersSet (register : Register) (value : Nat) :
    Settled s (.registersSet register value) := by
  by_cases h : value < register.limit
  · exact .done (decide_eq_true h) (if_pos h)
  · exact .refused (decide_eq_false h) (if_neg h)

/-- The halt latch is the only thing that can refuse a step. -/
theorem settled_step : Settled s .step := by
  by_cases h : s.isHalted = true
  · exact .refused (by simp [isAllowed, h]) (by
      simp only [execute, Machine.advance, if_pos h]
      rfl)
  · exact .done (by simp [isAllowed, h]) (by
      simp only [execute, Machine.advance, if_neg h]
      rfl)

/-- By cases on the command: each is checked as a whole before it changes anything. -/
theorem settled (c : Command) : Settled s c := by
  cases c with
  | assert | marker | nothing | registersShow | reset => exact .done rfl rfl
  | disassemble start count => exact settled_disassemble s start count
  | goto address => exact settled_goto s address
  | load address program => exact settled_load s address program
  | memoryShow address lines => exact settled_memoryShow s address lines
  | memoryWrite address bytes => exact settled_memoryWrite s address bytes
  | registersSet register value => exact settled_registersSet s register value
  | run stop start maxSteps => exact settled_run s stop start maxSteps
  | step => exact settled_step s

end

/-- What is refused leaves the machine as it was. -/
theorem machine_of_error {s : Machine} {c : Command} {e : CommandError}
    (h : (c.execute s).result = .error e) : (c.execute s).machine = s := by
  cases settled s c with
  | done _ run =>
    rw [run] at h
    cases h
  | refused _ run => rw [run, Execution.refused]

theorem machine_of_observes (s : Machine) {c : Command} (h : c.observes = true) :
    (c.execute s).machine = s := by
  cases c with
  | assert | marker | nothing | registersShow => rfl
  | disassemble start count =>
    rw [execute]
    split <;> rfl
  | memoryShow address lines =>
    rw [execute]
    split <;> rfl
  | _ => cases h

/-- The checks that refuse a command are those of `isAllowed`. -/
theorem error_iff (s : Machine) (c : Command) :
    (∃ e, (c.execute s).result = .error e) ↔ c.isAllowed s = false := by
  cases settled s c with
  | done allowed run =>
    rw [run, allowed]
    simp [Execution.done]
  | refused forbidden run =>
    rw [run, forbidden]
    simp [Execution.refused]

/-- A command is refused just where its numbers or the halt latch forbid it, and then leaves
registers and memory alone, as commands that only look always do. A write to memory that is not
refused is the same as its pokes, each of which succeeds. -/
theorem refused_changes_nothing (s : Machine) (c : Command) :
    ((∃ e, (c.execute s).result = .error e) ↔ c.isAllowed s = false) ∧
    (∀ e, (c.execute s).result = .error e → (c.execute s).machine = s) ∧
    (c.observes = true → (c.execute s).machine = s) ∧
    ∀ address bytes, c = .memoryWrite address bytes → c.isAllowed s = true →
      s.pokeEach address bytes = ((c.execute s).machine, none) := by
  refine ⟨error_iff s c, fun e h => machine_of_error h, machine_of_observes s, ?_⟩
  rintro address bytes rfl allowed
  have fits : address + bytes.length ≤ Memory.size := of_decide_eq_true allowed
  rw [s.pokeEach_of_fits fits, execute, executeWrite, if_neg (Nat.not_lt.2 fits)]
  rfl

end Script.Command

end Emu8085
