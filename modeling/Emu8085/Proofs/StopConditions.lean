import Emu8085.Proofs.RunLength
import Emu8085.Script.Command

/-!
# Conditions that stop a run

A run until a condition and an assertion of the condition ask the same question. The run asks it
after every step that does not halt and goes on as long as the answer is no, so an assertion would
have failed in all states that the run went through, and passes in the last one just when the run
says that it stopped (`run_until_agrees_with_assertion`). What both ask is a relation between two
numbers, which are read off the machine.
-/
namespace Emu8085

/-- The machine that a run begins with, moved to an address if one is given. -/
def Machine.startingAt (s : Machine) : Option Nat → Machine
  | none => s
  | some address => s.resumeAt (BitVec.ofNat 16 address)

namespace Script

/-- The number that a register reads as: a byte, or 256 times the high byte of a pair and the low
one. The status byte has the flags in bits 7, 6, 4, 2 and 0. -/
def Register.number (r : Registers) : Register → Nat
  | a => r.a.toNat
  | b => r.b.toNat
  | c => r.c.toNat
  | d => r.d.toNat
  | e => r.e.toNat
  | h => r.h.toNat
  | l => r.l.toNat
  | f => 128 * r.flags.sign.toNat + 64 * r.flags.zero.toNat + 16 * r.flags.auxCarry.toNat +
      4 * r.flags.parity.toNat + r.flags.carry.toNat
  | bc => 256 * r.b.toNat + r.c.toNat
  | de => 256 * r.d.toNat + r.e.toNat
  | hl => 256 * r.h.toNat + r.l.toNat
  | sp => r.sp.toNat
  | pc => r.pc.toNat

/-- A register reads as its bytes, the flags as the bits that they have in the status byte. -/
theorem Register.value_eq_number (r : Registers) (q : Register) : q.value r = q.number r := by
  cases q with
  | f => exact r.flags.toNat_status
  | bc | de | hl => exact Word.toNat_ofBytes _ _
  | _ => rfl

def Source.number (s : Machine) : Source → Nat
  | register q => q.number s.registers
  | flag k => if k.isSet s.registers.flags = true then 1 else 0
  | memory address => (s.memory.read (BitVec.ofNat 16 address)).toNat
  | literal v => v

theorem Source.value_eq_number (s : Machine) (q : Source) : q.value s = q.number s := by
  cases q with
  | register q => exact q.value_eq_number s.registers
  | flag k => cases set : k.isSet s.registers.flags <;> simp [value, number, set]
  | memory | literal => rfl

def Relation.Relates (x y : Nat) : Relation → Prop
  | equal => x = y
  | different => x ≠ y
  | greaterOrEqual => y ≤ x
  | greater => y < x
  | lesserOrEqual => x ≤ y
  | lesser => x < y

theorem Relation.holds_iff (op : Relation) (x y : Nat) : op.holds x y = true ↔ op.Relates x y := by
  cases op <;> exact decide_eq_true_iff

namespace Predicate

/-- Asserting the condition finds no failure. -/
def Passes (c : Predicate) (s : Machine) : Prop :=
  ∀ description, (Command.execute s (.assert c description)).result =
    .ok (.assertion none description)

/-- Asserting the condition finds a failure. -/
def Fails (c : Predicate) (s : Machine) : Prop :=
  ∀ description, ∃ failure, (Command.execute s (.assert c description)).result =
    .ok (.assertion (some failure) description)

variable (c : Predicate) (s : Machine)

/-- An assertion passes just where the run would stop. -/
theorem passes_iff : c.Passes s ↔ c.holds s = true := by
  rw [← c.failure?_eq_none s]
  simp [Passes, Command.execute, Execution.done]

theorem fails_iff : c.Fails s ↔ c.holds s = false := by
  cases holds : c.holds s <;> simp [Fails, Command.execute, Execution.done, failure?, holds]

/-- A comparison asks whether two numbers are so related. -/
theorem holds_compare_iff (left : Source) (op : Relation) (right : Source) :
    (compare left op right).holds s = true ↔ op.Relates (left.number s) (right.number s) := by
  rw [← left.value_eq_number, ← right.value_eq_number]
  exact op.holds_iff _ _

end Predicate

section

variable (s : Machine) (c : Predicate) {start : Option Nat} (maxSteps : Nat)

/-- The command runs from its address and tells what the run reports. -/
theorem execute_run_until (place : ∀ address ∈ start, address < 0x10000) :
    let run := (s.startingAt start).runUntil c.holds maxSteps
    let execution := Command.execute s (.run (some c) start maxSteps)
    execution.machine = run.2 ∧
      execution.result = .ok (.run (run.1.entries.map Entry.text) run.1.status) := by
  cases start with
  | none => exact ⟨rfl, rfl⟩
  | some address =>
    rw [Command.execute, s.goto_of_lt (place address rfl)]
    exact ⟨rfl, rfl⟩

theorem execute_run_until_refused {address : Nat} (beyond : 0x10000 ≤ address) :
    (Command.execute s (.run (some c) (some address) maxSteps)).result =
      .error (.control (.addressOutOfRange address)) := by
  rw [Command.execute, s.goto_of_le beyond]
  rfl

/-- A run is refused for nothing but its address. -/
theorem run_until_accepted_iff :
    (∃ token, (Command.execute s (.run (some c) start maxSteps)).result = .ok token) ↔
      ∀ address ∈ start, address < 0x10000 := by
  constructor
  · rintro ⟨token, accepted⟩ address rfl
    by_contra beyond
    rw [execute_run_until_refused s c maxSteps (Nat.not_lt.1 beyond)] at accepted
    cases accepted
  · intro place
    exact ⟨_, (execute_run_until s c maxSteps place).2⟩

end

/-- A run until a condition is refused only for an address out of memory. In all states after a step
but before its end an assertion of the condition fails; when the run says that it stopped, one
passes at its end, and when it says that it did not halt, one fails there if any step was taken. An
assertion of a comparison passes just when the two numbers that it names are so related. -/
theorem run_until_agrees_with_assertion (s : Machine) (c : Predicate) (start : Option Nat)
    (maxSteps : Nat) :
    let run := Command.execute s (.run (some c) start maxSteps)
    let u := s.startingAt start
    ((∃ token, run.result = .ok token) ↔ ∀ address ∈ start, address < 0x10000) ∧
    (∀ token, run.result = .ok token → ∃ n status,
      token = .run ((u.history n).map Entry.text) status ∧
      run.machine = u.after n ∧
      (∀ k < n, (u.after k).isHalted = false ∧ (1 ≤ k → c.Fails (u.after k))) ∧
      (status = .halted ↔ run.machine.isHalted = true) ∧
      (status = .stopped ↔ 1 ≤ n ∧ run.machine.isHalted = false ∧ c.Passes run.machine) ∧
      (status = .outOfSteps ↔
        run.machine.isHalted = false ∧ (1 ≤ n → c.Fails run.machine))) ∧
    ∀ (t : Machine) (left : Source) (op : Relation) (right : Source),
      let holds := op.Relates (left.number t) (right.number t)
      ((Predicate.compare left op right).Passes t ↔ holds) ∧
        ((Predicate.compare left op right).Fails t ↔ ¬ holds) := by
  intro run u
  refine ⟨run_until_accepted_iff s c maxSteps, ?_, ?_⟩
  · intro token accepted
    have place := (run_until_accepted_iff s c maxSteps).1 ⟨token, accepted⟩
    obtain ⟨machine, result⟩ := execute_run_until s c maxSteps place
    obtain ⟨n, least, ends⟩ := Machine.exists_runUntil_eq c.holds maxSteps u
    rw [ends] at machine result
    obtain rfl : .run ((u.history n).map Entry.text) (u.verdict c.holds n) = token :=
      Except.ok.inj (result.symm.trans accepted)
    have final : run.machine = u.after n := machine
    rw [final]
    refine ⟨n, _, rfl, rfl, ?_, Machine.verdict_eq_halted_iff, ?_, ?_⟩
    · intro k before
      refine ⟨Machine.running_before least before, fun taken => ?_⟩
      exact (c.fails_iff _).2 (Machine.unwanted_before least taken before)
    · rw [c.passes_iff]
      exact Machine.verdict_eq_stopped_iff
    · rw [c.fails_iff]
      exact Machine.verdict_eq_outOfSteps_iff
  · intro t left op right
    have asked := Predicate.holds_compare_iff t left op right
    refine ⟨by rw [Predicate.passes_iff, asked], ?_⟩
    rw [Predicate.fails_iff, ← asked, Bool.not_eq_true]

end Script

end Emu8085
