import Emu8085.Machine.Run
import Emu8085.Proofs.Trace
import Mathlib.Order.Bounds.Basic

/-!
# How far a run goes

A run ends at the first state that is halted, or that has used up the budget, or, unless no step
was taken, that the stop test wants. Its status names the first of the three that holds there, but
for the budget, which comes last. The stop test is asked about no other states than those after
a step that are not halted, so it may say anything elsewhere.
-/
namespace Emu8085.Machine

variable (stop : Machine → Bool)

/-- A run has a reason to end after `k` steps. -/
def EndsAt (budget : Nat) (s : Machine) (k : Nat) : Prop :=
  (s.after k).isHalted = true ∨ k = budget ∨ 1 ≤ k ∧ stop (s.after k) = true

/-- The status of a run that ends after `n` steps. -/
def verdict (s : Machine) (n : Nat) : RunStatus :=
  if (s.after n).isHalted then .halted
  else if 1 ≤ n ∧ stop (s.after n) then .stopped
  else .outOfSteps

theorem endsAt_zero_iff (budget : Nat) (s : Machine) :
    s.EndsAt stop budget 0 ↔ s.isHalted = true ∨ 0 = budget := by
  simp [EndsAt]

/-- Past a step that does not end the run, what is left of the run has the same reasons. -/
theorem endsAt_succ_iff (budget : Nat) (s : Machine) (k : Nat)
    (on : s.step.2.isHalted = true ∨ stop s.step.2 = false) :
    s.EndsAt stop (budget + 1) (k + 1) ↔ s.step.2.EndsAt stop budget k := by
  cases k with
  | zero =>
    rw [endsAt_zero_iff]
    rcases on with halted | quiet
    · simp [EndsAt, halted]
    · simpa [EndsAt, quiet] using or_congr_right eq_comm
  | succ k => simp only [EndsAt, after_step, Nat.add_right_cancel_iff, Nat.succ_le_succ_iff,
      Nat.zero_le]

/-- A run that goes on past its first step ends as the rest of it does. -/
theorem verdict_succ (s : Machine) (n : Nat)
    (on : s.step.2.isHalted = true ∨ stop s.step.2 = false) :
    s.verdict stop (n + 1) = s.step.2.verdict stop n := by
  cases n with
  | zero => rcases on with halted | quiet <;> simp [verdict, *]
  | succ n => simp only [verdict, after_step, Nat.succ_le_succ_iff, Nat.zero_le]

/-- A least number that is not zero is found one further down. -/
theorem isLeast_succ {p : Nat → Prop} {n : Nat} (first : ¬ p 0) (h : IsLeast {k | p (k + 1)} n) :
    IsLeast {k | p k} (n + 1) := by
  refine ⟨h.1, ?_⟩
  intro k hk
  cases k with
  | zero => exact absurd hk first
  | succ k => exact Nat.succ_le_succ (h.2 hk)

/-- The run lemma, by induction on the budget. -/
theorem exists_runUntil_eq (budget : Nat) (s : Machine) :
    ∃ n, IsLeast {k | s.EndsAt stop budget k} n ∧
      s.runUntil stop budget = (⟨s.verdict stop n, s.history n⟩, s.after n) := by
  induction budget generalizing s with
  | zero =>
    refine ⟨0, ⟨.inr (.inl rfl), fun _ _ => Nat.zero_le _⟩, ?_⟩
    simp [verdict]
  | succ budget ih =>
    by_cases halted : s.isHalted = true
    · refine ⟨0, ⟨.inl halted, fun _ _ => Nat.zero_le _⟩, ?_⟩
      simp [verdict, halted]
    have first : ¬ s.EndsAt stop (budget + 1) 0 := by
      rw [endsAt_zero_iff]
      simpa using halted
    rw [runUntil_succ, if_neg halted]
    by_cases stops : (!s.step.2.isHalted && stop s.step.2) = true
    · have ends : s.EndsAt stop (budget + 1) 1 :=
        .inr (.inr ⟨Nat.le_refl 1, (Bool.and_eq_true_iff.1 stops).2⟩)
      refine ⟨1, isLeast_succ first ⟨ends, fun _ _ => Nat.zero_le _⟩, ?_⟩
      obtain ⟨running, wanted⟩ : s.step.2.isHalted = false ∧ stop s.step.2 = true := by
        simpa using stops
      simp [running, wanted, verdict, history_succ]
    · have on : s.step.2.isHalted = true ∨ stop s.step.2 = false := by
        cases ended : s.step.2.isHalted <;> simp_all
      obtain ⟨n, least, run⟩ := ih s.step.2
      simp only [← endsAt_succ_iff stop budget s _ on] at least
      refine ⟨n + 1, isLeast_succ first least, ?_⟩
      rw [if_neg stops, run, Report.cons, ← history_step, ← verdict_succ stop s n on, after_step]

/-- The least number of steps is the only one that a run can have. -/
theorem runUntil_eq_of_isLeast {budget : Nat} {s : Machine} {n : Nat}
    (h : IsLeast {k | s.EndsAt stop budget k} n) :
    s.runUntil stop budget = (⟨s.verdict stop n, s.history n⟩, s.after n) := by
  obtain ⟨m, least, run⟩ := exists_runUntil_eq stop budget s
  rw [run, least.unique h]

/-- A run without a stop test goes on as long as the machine does and the budget lasts. -/
theorem run_eq_of_running {budget : Nat} {s : Machine} {n : Nat} (within : n ≤ budget)
    (running : ∀ k < n, (s.after k).isHalted = false)
    (ends : (s.after n).isHalted = true ∨ n = budget) :
    s.run budget =
      (⟨if (s.after n).isHalted then .halted else .outOfSteps, s.history n⟩, s.after n) := by
  have least : IsLeast {k | s.EndsAt (fun _ => false) budget k} n := by
    constructor
    · rcases ends with halted | spent
      · exact .inl halted
      · exact .inr (.inl spent)
    · rintro k (halted | spent | ⟨-, wanted⟩)
      · by_contra before
        have still := running k (by omega)
        rw [halted] at still
        cases still
      · omega
      · cases wanted
  rw [run, runUntil_eq_of_isLeast _ least, verdict]
  simp

variable {stop}

section

variable {budget : Nat} {s : Machine} {n : Nat}

/-- Every step of a run but the first begins in a state that the run went on from, -/
theorem running_before {k : Nat} (least : IsLeast {k | s.EndsAt stop budget k} n)
    (before : k < n) : (s.after k).isHalted = false := by
  by_contra halted
  exact Nat.not_le.2 before (least.2 (.inl (Bool.not_eq_false _ ▸ halted)))

/-- which the stop test did not want. -/
theorem unwanted_before {k : Nat} (least : IsLeast {k | s.EndsAt stop budget k} n)
    (taken : 1 ≤ k) (before : k < n) : stop (s.after k) = false := by
  by_contra wanted
  exact Nat.not_le.2 before (least.2 (.inr (.inr ⟨taken, Bool.not_eq_false _ ▸ wanted⟩)))

theorem verdict_eq_halted_iff : s.verdict stop n = .halted ↔ (s.after n).isHalted = true := by
  unfold verdict
  split
  · simp [*]
  · split <;> simp [*]

/-- A stop is only named after a step, and not where that step halted. -/
theorem verdict_eq_stopped_iff : s.verdict stop n = .stopped ↔
    1 ≤ n ∧ (s.after n).isHalted = false ∧ stop (s.after n) = true := by
  unfold verdict
  split
  · simp [*]
  · split <;> simp_all

theorem verdict_eq_outOfSteps_iff : s.verdict stop n = .outOfSteps ↔
    (s.after n).isHalted = false ∧ (1 ≤ n → stop (s.after n) = false) := by
  unfold verdict
  split
  · simp [*]
  · split <;> simp_all

end

/-- Two stop tests that agree about the running states after a step end a run alike. -/
theorem runUntil_congr {other : Machine → Bool} {budget : Nat} {s : Machine} {n : Nat}
    (h : IsLeast {k | s.EndsAt stop budget k} n)
    (same : ∀ k, 1 ≤ k → k ≤ n → (s.after k).isHalted = false →
      other (s.after k) = stop (s.after k)) :
    s.runUntil other budget = s.runUntil stop budget := by
  have alike (k : Nat) (hk : k ≤ n) : s.EndsAt other budget k ↔ s.EndsAt stop budget k := by
    cases halted : (s.after k).isHalted with
    | true => simp [EndsAt, halted]
    | false =>
      refine or_congr_right (or_congr_right (and_congr_right fun taken => ?_))
      rw [same k taken hk halted]
  have least : IsLeast {k | s.EndsAt other budget k} n := by
    refine ⟨(alike n (Nat.le_refl n)).2 h.1, fun k ends => ?_⟩
    by_contra before
    exact before (h.2 ((alike k (by omega)).1 ends))
  have verdicts : s.verdict other n = s.verdict stop n := by
    unfold verdict
    split
    · rfl
    next running =>
      refine if_congr (and_congr_right fun taken => ?_) rfl rfl
      rw [same n taken (Nat.le_refl n) (by simpa using running)]
  rw [runUntil_eq_of_isLeast other least, runUntil_eq_of_isLeast stop h, verdicts]

/-- Only a run without another reason to end spends its budget. -/
theorem eq_budget_of_verdict {budget : Nat} {s : Machine} {n : Nat} (h : s.EndsAt stop budget n)
    (spent : s.verdict stop n = .outOfSteps) : n = budget := by
  obtain ⟨running, unwanted⟩ := verdict_eq_outOfSteps_iff.1 spent
  rcases h with halted | same | ⟨taken, wanted⟩
  · rw [running] at halted
    cases halted
  · exact same
  · rw [unwanted taken] at wanted
    cases wanted

/-- A run takes the least number of steps after which it has a reason to end, leaves their entries
and the state they lead to, and names the reason, a spent budget only if there is no other. Only
the running states after its steps are put to the stop test. -/
theorem runUntil_takes_least (stop : Machine → Bool) (budget : Nat) (s : Machine) :
    let run := s.runUntil stop budget
    let n := run.1.steps
    IsLeast {k | s.EndsAt stop budget k} n ∧
      run.2 = s.after n ∧
      run.1.entries = s.history n ∧
      run.1.status = s.verdict stop n ∧
      (run.1.status = .outOfSteps → n = budget) ∧
      ∀ other : Machine → Bool,
        (∀ k, 1 ≤ k → k ≤ n → (s.after k).isHalted = false →
          other (s.after k) = stop (s.after k)) →
        s.runUntil other budget = run := by
  obtain ⟨n, least, run⟩ := exists_runUntil_eq stop budget s
  have final : (s.runUntil stop budget).2 = s.after n := by rw [run]
  have entries : (s.runUntil stop budget).1.entries = s.history n := by rw [run]
  have status : (s.runUntil stop budget).1.status = s.verdict stop n := by rw [run]
  have steps : (s.runUntil stop budget).1.steps = n := by
    rw [Report.steps, entries, length_history]
  dsimp only
  rw [steps]
  refine ⟨least, final, entries, status, ?_, fun other same => runUntil_congr least same⟩
  intro spent
  rw [status] at spent
  exact eq_budget_of_verdict least.1 spent

end Emu8085.Machine
