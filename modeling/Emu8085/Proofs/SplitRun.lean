import Emu8085.Machine.Control
import Mathlib.Algebra.Ring.Nat

/-!
# Runs in parts

A run whose budget is spent can be taken up where it ended, and then goes on as if it had never
been interrupted: a larger budget is the same as a smaller one followed by the rest. So is a
single step, but that a halted machine refuses it.
-/
namespace Emu8085

namespace Report

def followedBy (first later : Report) : Report := ⟨later.status, first.entries ++ later.entries⟩

/-- The reports of successive runs add up to one. -/
structure AddUpTo (reports : List Report) (whole : Report) : Prop where
  entries : reports.flatMap Report.entries = whole.entries
  steps : (reports.map Report.steps).sum = whole.steps
  status : reports.getLast?.map Report.status = some whole.status

theorem addUpTo_singleton (r : Report) : AddUpTo [r] r where
  entries := by simp
  steps := by simp
  status := rfl

/-- A run in front adds its steps and its entries; how the whole ends is for the last one to say. -/
theorem AddUpTo.cons {reports : List Report} {whole : Report} (h : AddUpTo reports whole)
    (r : Report) : AddUpTo (r :: reports) (r.followedBy whole) where
  entries := by rw [List.flatMap_cons, h.entries, followedBy]
  steps := by
    rw [List.map_cons, List.sum_cons, h.steps]
    exact List.length_append.symm
  status := by
    obtain ⟨last, found, same⟩ := Option.map_eq_some_iff.1 h.status
    rw [List.getLast?_cons, found, Option.getD_some, Option.map_some, same, followedBy]

end Report

namespace Machine

variable (stop : Machine → Bool)

/-- Runs in turn, one for each budget, as long as each one spends its own. -/
def runEach : List Nat → Machine → List Report × Machine
  | [], s => ([], s)
  | budget :: budgets, s =>
    let (report, t) := s.runUntil stop budget
    if report.status = .outOfSteps then
      let (reports, u) := runEach budgets t
      (report :: reports, u)
    else ([report], t)

/-- A run that spends its budget is taken up by a run of what is left; any other run is over. -/
theorem runUntil_add (m n : Nat) (s : Machine) :
    s.runUntil stop (m + n) =
      if (s.runUntil stop m).1.status = .outOfSteps then
        let later := (s.runUntil stop m).2.runUntil stop n
        ((s.runUntil stop m).1.followedBy later.1, later.2)
      else s.runUntil stop m := by
  induction m generalizing s with
  | zero =>
    cases halted : s.isHalted with
    | true => simp [halted]
    | false => simp [halted, Report.followedBy]
  | succ m ih =>
    rw [Nat.succ_add, runUntil_succ, runUntil_succ, ih]
    by_cases halted : s.isHalted = true
    · simp only [if_pos halted, reduceCtorEq, if_false]
    · rw [if_neg halted, if_neg halted]
      by_cases stops : (!s.step.2.isHalted && stop s.step.2) = true
      · simp only [if_pos stops, reduceCtorEq, if_false]
      · rw [if_neg stops, if_neg stops]
        by_cases spent : (s.step.2.runUntil stop m).1.status = .outOfSteps
        · simp only [Report.cons, spent, if_true, Report.followedBy, List.cons_append]
        · simp only [Report.cons, spent, if_false]

/-- Runs in turn add up to one run with all their budgets; by induction on the budgets after the
first, with `runUntil_add` for the step. -/
theorem runEach_addUpTo (first : Nat) (rest : List Nat) (s : Machine) :
    Report.AddUpTo (s.runEach stop (first :: rest)).1 (s.runUntil stop (first :: rest).sum).1 ∧
      (s.runEach stop (first :: rest)).2 = (s.runUntil stop (first :: rest).sum).2 := by
  induction rest generalizing first s with
  | nil =>
    have single : s.runEach stop [first] =
        ([(s.runUntil stop first).1], (s.runUntil stop first).2) := by
      simp [runEach]
    rw [single, List.sum_singleton]
    exact ⟨Report.addUpTo_singleton _, rfl⟩
  | cons next rest ih =>
    rw [List.sum_cons, runUntil_add, runEach]
    by_cases spent : (s.runUntil stop first).1.status = .outOfSteps
    · obtain ⟨reports, state⟩ := ih next (s.runUntil stop first).2
      simp only [if_pos spent]
      exact ⟨reports.cons _, state⟩
    · simp only [if_neg spent]
      exact ⟨Report.addUpTo_singleton _, trivial⟩

/-- A budget of one step is spent on one step. -/
theorem run_one (s : Machine) (running : s.isHalted = false) :
    (s.run 1).1.entries = [s.step.1] ∧ (s.run 1).2 = s.step.2 := by
  rw [run, runUntil_succ, if_neg (by simp [running]), if_neg (by simp)]
  exact ⟨rfl, rfl⟩

/-- A running machine is not refused a step, and the step is that of a run. -/
theorem advance_eq_step (s : Machine) (running : s.isHalted = false) :
    ∃ kind, s.advance = .ok (kind, s.step) := by
  rw [advance, if_neg (by simp [running])]
  exact ⟨_, rfl⟩

/-- Parts of a run, as many as there are budgets or up to the first that does not spend its own,
are the whole run. A single step is the run of one step, but that it is refused, with nothing to
follow, where that run finds the machine halted and takes none. -/
theorem split_run (s : Machine) :
    (∀ (stop : Machine → Bool) (first : Nat) (rest : List Nat),
      let parts := s.runEach stop (first :: rest)
      let whole := s.runUntil stop (first :: rest).sum
      Report.AddUpTo parts.1 whole.1 ∧ parts.2 = whole.2) ∧
    (s.isHalted = false → ∃ kind entry t, s.advance = .ok (kind, entry, t) ∧
      (s.run 1).1.entries = [entry] ∧ (s.run 1).2 = t) ∧
    (s.isHalted = true → s.advance = .error (.halted s.registers.pc) ∧
      s.run 1 = (⟨.halted, []⟩, s)) := by
  refine ⟨fun stop first rest => runEach_addUpTo stop first rest s, ?_, ?_⟩
  · intro running
    obtain ⟨kind, advanced⟩ := advance_eq_step s running
    exact ⟨kind, s.step.1, s.step.2, advanced, run_one s running⟩
  · intro halted
    exact ⟨by rw [advance, if_pos halted], runUntil_halted _ 1 s halted⟩

end Machine

end Emu8085
