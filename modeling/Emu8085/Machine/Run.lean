import Emu8085.History

/-!
# Runs

A run steps until the machine halts, the step budget is spent, or a stop test, asked after every
step that does not halt, says so. `runUntil_zero` and `runUntil_succ` are its defining equations.
-/
namespace Emu8085

inductive RunStatus where
  | halted | outOfSteps | stopped
  deriving DecidableEq, Repr

namespace RunStatus

def text : RunStatus → String
  | halted => "halted"
  | outOfSteps => "did not halt"
  | stopped => "stopped"

end RunStatus

structure Report where
  status : RunStatus
  entries : List Entry
  deriving DecidableEq, Repr

namespace Report

def steps (r : Report) : Nat := r.entries.length

/-- The report of a run that took one step more at its start. -/
def cons (e : Entry) (r : Report) : Report := ⟨r.status, e :: r.entries⟩

end Report

namespace Machine

def isHalted (s : Machine) : Bool := s.registers.halted

/-- The rest of a run whose entries so far are `done`, latest first. -/
def runOnto (stop : Machine → Bool) : Nat → Machine → List Entry → Report × Machine
  | 0, s, done => (⟨if s.isHalted then .halted else .outOfSteps, done.reverse⟩, s)
  | budget + 1, s, done =>
    if s.isHalted then (⟨.halted, done.reverse⟩, s)
    else
      let (entry, s) := s.step
      if !s.isHalted && stop s then (⟨.stopped, (entry :: done).reverse⟩, s)
      else runOnto stop budget s (entry :: done)

def runUntil (stop : Machine → Bool) (budget : Nat) (s : Machine) : Report × Machine :=
  runOnto stop budget s []

def run (budget : Nat) (s : Machine) : Report × Machine := s.runUntil (fun _ => false) budget

/-- The entries so far only stand in front; by induction on the budget. -/
theorem runOnto_eq (stop : Machine → Bool) (budget : Nat) (s : Machine) (done : List Entry) :
    runOnto stop budget s done =
      (⟨(s.runUntil stop budget).1.status, done.reverse ++ (s.runUntil stop budget).1.entries⟩,
        (s.runUntil stop budget).2) := by
  induction budget generalizing s done with
  | zero => simp [runUntil, runOnto]
  | succ budget ih =>
    simp only [runUntil, runOnto]
    split
    · simp
    · split
      · simp
      · rw [ih, ih _ [_]]
        simp

@[simp] theorem runUntil_zero (stop : Machine → Bool) (s : Machine) :
    s.runUntil stop 0 = (⟨if s.isHalted then .halted else .outOfSteps, []⟩, s) := rfl

/-- A run looks at the halt latch before each step, and puts the stop test to the state after it
unless that step halted. -/
theorem runUntil_succ (stop : Machine → Bool) (budget : Nat) (s : Machine) :
    s.runUntil stop (budget + 1) =
      if s.isHalted then (⟨.halted, []⟩, s)
      else if !s.step.2.isHalted && stop s.step.2 then (⟨.stopped, [s.step.1]⟩, s.step.2)
      else ((s.step.2.runUntil stop budget).1.cons s.step.1,
        (s.step.2.runUntil stop budget).2) := by
  rw [runUntil, runOnto]
  split
  · rfl
  · dsimp only
    split
    · rfl
    · rw [runOnto_eq]
      rfl

@[simp] theorem runUntil_halted (stop : Machine → Bool) (budget : Nat) (s : Machine)
    (h : s.isHalted = true) : s.runUntil stop budget = (⟨.halted, []⟩, s) := by
  cases budget <;> simp [runUntil_succ, h]

end Machine

end Emu8085
