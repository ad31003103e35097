import Emu8085.History

/-!
# States along a run

The states that steps lead through, whether or not the machine is halted on the way, and the
entries that the steps leave. Steps carry out in turn the instructions that they fetch
(`after_eq_performAll`), so what is said of sequences of instructions is said of runs.
-/
namespace Emu8085.Machine

def after (s : Machine) : Nat → Machine
  | 0 => s
  | n + 1 => (s.after n).step.2

@[simp] theorem after_zero (s : Machine) : s.after 0 = s := rfl
@[simp] theorem after_succ (s : Machine) (n : Nat) : s.after (n + 1) = (s.after n).step.2 := rfl

/-- The step that comes first may be taken off at the front. -/
theorem after_step (s : Machine) (n : Nat) : s.step.2.after n = s.after (n + 1) := by
  induction n with
  | zero => rfl
  | succ n ih => rw [after_succ, ih, ← after_succ]

theorem after_add (s : Machine) (m n : Nat) : s.after (m + n) = (s.after m).after n := by
  induction n with
  | zero => rfl
  | succ n ih => rw [← Nat.add_assoc, after_succ, ih, after_succ]

def history (s : Machine) (n : Nat) : List Entry := (List.range n).map fun k => (s.after k).step.1

@[simp] theorem history_zero (s : Machine) : s.history 0 = [] := rfl

@[simp] theorem length_history (s : Machine) (n : Nat) : (s.history n).length = n := by
  simp [history]

theorem history_succ (s : Machine) (n : Nat) :
    s.history (n + 1) = s.history n ++ [(s.after n).step.1] := by
  simp [history, List.range_succ]

theorem history_step (s : Machine) (n : Nat) :
    s.history (n + 1) = s.step.1 :: s.step.2.history n := by
  simp only [history, List.range_succ_eq_map, List.map_cons, List.map_map, after_zero]
  congr 1
  apply List.map_congr_left
  intro k _
  rw [Function.comp_apply, after_step]

/-- Carries out an instruction as if it were fetched at the program counter. -/
def perform (s : Machine) (i : Instruction) : Machine :=
  i.execute (s.registers.pc + 1 + BitVec.ofNat 16 i.width) s

theorem step_eq_perform (s : Machine) : s.step.2 = s.perform s.fetched.instruction := rfl

theorem perform_of_next {s : Machine} {i : Instruction} {next : Word}
    (h : s.registers.pc + 1 + BitVec.ofNat 16 i.width = next) :
    s.perform i = i.execute next s := by
  rw [perform, h]

def performAll (s : Machine) (run : List Instruction) : Machine := run.foldl perform s

@[simp] theorem performAll_nil (s : Machine) : s.performAll [] = s := rfl

@[simp] theorem performAll_cons (s : Machine) (i : Instruction) (run : List Instruction) :
    s.performAll (i :: run) = (s.perform i).performAll run := rfl

@[simp] theorem performAll_append (s : Machine) (first later : List Instruction) :
    s.performAll (first ++ later) = (s.performAll first).performAll later :=
  List.foldl_append

/-- Steps carry out the instructions that they fetch. -/
theorem after_eq_performAll (s : Machine) (n : Nat) :
    s.after n = s.performAll ((s.history n).map fun e => e.fetched.instruction) := by
  induction n with
  | zero => rfl
  | succ n ih =>
    rw [history_succ, List.map_append, performAll_append, ← ih]
    exact step_eq_perform (s.after n)

end Emu8085.Machine
