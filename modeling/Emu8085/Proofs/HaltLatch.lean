import Emu8085.Proofs.Operations
import Emu8085.Proofs.RunLength
import Emu8085.Proofs.WriteSet
import Mathlib.Data.List.Infix

/-!
# The halt latch

One instruction sets the latch, and a reset, a load and a move of the program counter by the
operator clear it. What an operation does to the latch can be read off its records one after the
other (`latch`), so the machine is halted just when the last record that concerns the latch is of
the halting instruction. In a run that instruction is the last.
-/
namespace Emu8085

namespace Record

def wakes : Record → Bool
  | reset | loaded _ _ | moved _ => true
  | _ => false

def halts : Record → Bool
  | executed e => e.fetched.opcode == 0x76
  | _ => false

/-- The latch after what is recorded. -/
def latch (halted : Bool) (r : Record) : Bool := r.halts || !r.wakes && halted

end Record

/-- The machine halted and was not made ready again since. -/
def HaltedSince (records : List Record) : Prop :=
  ∃ earlier r later, records = earlier ++ r :: later ∧ r.halts = true ∧
    ∀ q ∈ later, q.wakes = false

/-- The last record halts, or what was so before it stays so. -/
theorem haltedSince_concat_iff (records : List Record) (r : Record) :
    HaltedSince (records ++ [r]) ↔ r.halts = true ∨ HaltedSince records ∧ r.wakes = false := by
  constructor
  · rintro ⟨earlier, q, later, split, halts, quiet⟩
    rcases List.eq_nil_or_concat later with rfl | ⟨later, last, rfl⟩
    · obtain ⟨-, last⟩ := List.append_inj' split rfl
      obtain rfl := List.singleton_inj.1 last
      exact .inl halts
    · rw [List.concat_eq_append, ← List.cons_append, ← List.append_assoc] at split
      obtain ⟨rfl, last⟩ := List.append_inj' split rfl
      obtain rfl := List.singleton_inj.1 last
      rw [List.concat_eq_append, List.forall_mem_append, List.forall_mem_singleton] at quiet
      exact .inr ⟨⟨earlier, q, later, rfl, halts, quiet.1⟩, quiet.2⟩
  · rintro (halts | ⟨⟨earlier, q, later, rfl, halts, quiet⟩, last⟩)
    · exact ⟨records, r, [], rfl, halts, List.forall_mem_nil _⟩
    · refine ⟨earlier, q, later ++ [r], by simp, halts, ?_⟩
      rw [List.forall_mem_append, List.forall_mem_singleton]
      exact ⟨quiet, last⟩

/-- By induction on the records from the end: a record that wakes the machine ends what those
before it did, any other one leaves it as it is. -/
theorem foldl_latch_iff (records : List Record) (halted : Bool) :
    records.foldl Record.latch halted = true ↔
      HaltedSince records ∨ halted = true ∧ ∀ r ∈ records, r.wakes = false := by
  induction records using List.reverseRecOn with
  | nil => simp [HaltedSince]
  | append_singleton records r ih =>
    rw [List.foldl_concat, Record.latch, Bool.or_eq_true, Bool.and_eq_true, ih,
      haltedSince_concat_iff, List.forall_mem_append, List.forall_mem_singleton]
    cases r.wakes <;> simp [or_assoc]

namespace Machine

/-- A step latches just when it carries out the instruction that halts. -/
theorem foldl_latch_step (s : Machine) :
    s.step.1.records.foldl Record.latch s.isHalted = s.step.2.isHalted := by
  have latched : s.step.2.isHalted = (s.isHalted || s.fetched.opcode == 0x76) := s.halted_step
  rw [latched, step_entry, Entry.records]
  split <;> simp [Record.latch, Record.halts, Record.wakes, Bool.or_comm]

/-- The run lemma for steps, by induction on their number. -/
theorem foldl_latch_history (s : Machine) (n : Nat) :
    ((s.history n).flatMap Entry.records).foldl Record.latch s.isHalted =
      (s.after n).isHalted := by
  induction n with
  | zero => rfl
  | succ n ih =>
    rw [history_succ, List.flatMap_append, List.foldl_append, ih, List.flatMap_singleton,
      foldl_latch_step, after_succ]

/-- How a run ends is recorded after its steps and says nothing of the latch. -/
theorem foldl_latch_runUntil (stop : Machine → Bool) (budget : Nat) (s : Machine) (pc : Word) :
    ((s.runUntil stop budget).1.records pc).foldl Record.latch s.isHalted =
      (s.runUntil stop budget).2.isHalted := by
  obtain ⟨n, -, run⟩ := exists_runUntil_eq stop budget s
  rw [run, Report.records, List.foldl_concat, foldl_latch_history]
  simp [Record.latch, Record.halts, Record.wakes]

/-- A run from an address begins by waking the machine. -/
theorem foldl_latch_moved (s : Machine) {t : Machine} {address : Nat} (h : s.goto address = .ok t)
    (stop : Machine → Bool) (budget : Nat) (place pc : Word) :
    (.moved place :: (t.runUntil stop budget).1.records pc).foldl Record.latch s.isHalted =
      (t.runUntil stop budget).2.isHalted := by
  obtain ⟨-, rfl⟩ := goto_eq_ok_iff.1 h
  rw [List.foldl_cons, ← foldl_latch_runUntil stop budget _ pc]
  rfl

/-- A single step records what it does to the latch, and a halted machine is refused one. -/
theorem foldl_latch_advance {s t : Machine} {kind : StepKind} {entry : Entry}
    (h : s.advance = .ok (kind, entry, t)) :
    entry.records.foldl Record.latch s.isHalted = t.isHalted := by
  rw [advance] at h
  split at h
  · cases h
  · cases h
    exact foldl_latch_step s

theorem isHalted_assign (s : Machine) (register : Script.Register) (value : Nat) :
    ({ s with registers := register.assign s.registers value } : Machine).isHalted =
      s.isHalted := by
  cases register <;> rfl

/-- The step lemma: an operation leaves the latch as its records say. -/
theorem foldl_latch_operate (s : Machine) (op : Operation) :
    (s.operate op).2.foldl Record.latch s.isHalted = (s.operate op).1.isHalted := by
  cases op with
  | reset | look | judge | writeStatus => rfl
  | load program start =>
    rw [operate]
    split
    next t loaded =>
      obtain ⟨-, rfl⟩ := load_eq_ok_iff.1 loaded
      rfl
    next => rfl
  | goto address =>
    rw [operate]
    split
    next t moved =>
      obtain ⟨-, rfl⟩ := goto_eq_ok_iff.1 moved
      rfl
    next => rfl
  | poke address value =>
    rw [operate]
    split
    next t poked =>
      rw [isHalted, isHalted, registers_of_poke poked]
      simp [Record.latch, Record.halts, Record.wakes]
    next => rfl
  | step =>
    rw [operate]
    split
    next advanced => exact foldl_latch_advance advanced
    next => rfl
  | run budget => exact foldl_latch_runUntil _ budget s _
  | runUntil stop budget => exact foldl_latch_runUntil stop budget s _
  | runFrom address budget =>
    rw [operate]
    split
    next report t ran =>
      rw [runFrom] at ran
      split at ran
      next u moved =>
        obtain ⟨rfl, rfl⟩ := Prod.mk.inj (Except.ok.inj ran)
        exact foldl_latch_moved s moved _ budget _ _
      next => cases ran
    next => rfl
  | assign register value =>
    rw [operate]
    split
    · exact (isHalted_assign s register value).symm
    · rfl
  | writeFlag flag on => cases flag <;> rfl
  | writePair p w => exact (halted_setPair s p w).symm

/-- The run lemma, by induction on the operations. -/
theorem foldl_latch_operateAll (s : Machine) (ops : List Operation) :
    (s.operateAll ops).2.foldl Record.latch s.isHalted = (s.operateAll ops).1.isHalted := by
  induction ops generalizing s with
  | nil => rfl
  | cons op ops ih => rw [operateAll_cons, List.foldl_append, foldl_latch_operate, ih]

theorem isHalted_serveAll_iff (requests : List Request) :
    (initial.serveAll requests).1.isHalted = true ↔ HaltedSince (initial.serveAll requests).2 := by
  rw [serveAll_eq, ← foldl_latch_operateAll, foldl_latch_iff]
  exact or_iff_left fun h => Bool.false_ne_true h.1

/-- Nothing happens to a halted machine that is not woken. -/
structure Rests (s : Machine) : Prop where
  advance : s.advance = .error (.halted s.registers.pc)
  run : ∀ budget, s.run budget = (⟨.halted, []⟩, s)
  runUntil : ∀ stop budget, s.runUntil stop budget = (⟨.halted, []⟩, s)
  stepCommand : (Script.Command.step.execute s).machine = s
  runCommand : ∀ stop maxSteps, ((Script.Command.run stop none maxSteps).execute s).machine = s

/-- Steps, runs and the commands for them find nothing to do on a halted machine. -/
theorem rests_of_isHalted {s : Machine} (h : s.isHalted = true) : s.Rests := by
  have refused : s.advance = .error (.halted s.registers.pc) := by rw [advance, if_pos h]
  have still (stop : Machine → Bool) (budget : Nat) := runUntil_halted stop budget s h
  refine ⟨refused, still _, still, ?_, fun stop maxSteps => ?_⟩
  · rw [Script.Command.execute, refused]
    rfl
  · rw [Script.Command.execute, Script.Command.executeRun, still]
    rfl

end Machine

namespace Report

def HaltsOnlyLast (r : Report) : Prop := ∀ e ∈ r.entries.dropLast, e.fetched.opcode ≠ 0x76

def EndsInHalt (r : Report) : Prop := ∃ e ∈ r.entries.getLast?, e.fetched.opcode = 0x76

end Report

namespace Machine

/-- No other opcode halts, and no step wakes. -/
theorem isHalted_after_succ_iff (s : Machine) (n : Nat) :
    (s.after (n + 1)).isHalted = true ↔
      (s.after n).isHalted = true ∨ (s.after n).step.1.fetched.opcode = 0x76 := by
  have latched := (s.after n).halted_step
  rw [isHalted, after_succ, latched, Bool.or_eq_true, beq_iff_eq]
  rfl

/-- A run goes no further than the instruction that halts. -/
theorem haltsOnlyLast_runUntil (s : Machine) (stop : Machine → Bool) (budget : Nat) :
    (s.runUntil stop budget).1.HaltsOnlyLast := by
  obtain ⟨n, least, run⟩ := exists_runUntil_eq stop budget s
  rw [run]
  cases n with
  | zero => exact fun _ => nofun
  | succ n =>
    intro e logged halts
    rw [history_succ, List.dropLast_concat] at logged
    obtain ⟨k, before, rfl⟩ := List.mem_map.1 logged
    rw [List.mem_range] at before
    have next := running_before least (Nat.succ_lt_succ before)
    rw [(isHalted_after_succ_iff s k).2 (.inr halts)] at next
    cases next

/-- The step that ends such a run began in a running state, so it is that step that halted. -/
theorem status_runUntil_iff {s : Machine} (running : s.isHalted = false) (stop : Machine → Bool)
    (budget : Nat) : (s.runUntil stop budget).1.status = .halted ↔
      (s.runUntil stop budget).1.EndsInHalt := by
  obtain ⟨n, least, run⟩ := exists_runUntil_eq stop budget s
  rw [run, verdict_eq_halted_iff, Report.EndsInHalt]
  cases n with
  | zero => simp [running]
  | succ n =>
    have before := running_before least n.lt_succ_self
    rw [isHalted_after_succ_iff, history_succ, List.getLast?_concat]
    simp [before]

/-- Whatever operations and commands are asked of it, the machine is halted just when it carried out
the instruction that halts and was neither reset, loaded nor moved since. Halted, it takes no
steps; running, it is that instruction and no other that ends a run as halted, and nothing comes
after it. -/
theorem halt_latch_life_cycle :
    (∀ requests, (initial.serveAll requests).1.isHalted = true ↔
      HaltedSince (initial.serveAll requests).2) ∧
    (∀ s : Machine, s.isHalted = true → s.Rests) ∧
    (∀ (s : Machine) stop budget,
      let report := (s.runUntil stop budget).1
      report.HaltsOnlyLast ∧
        (s.isHalted = false → (report.status = .halted ↔ report.EndsInHalt))) ∧
    ∀ (s t : Machine) address budget report, s.runFrom address budget = .ok (report, t) →
      report.HaltsOnlyLast ∧ (report.status = .halted ↔ report.EndsInHalt) := by
  refine ⟨isHalted_serveAll_iff, fun _ => rests_of_isHalted, ?_, ?_⟩
  · intro s stop budget
    exact ⟨s.haltsOnlyLast_runUntil stop budget, fun h => status_runUntil_iff h stop budget⟩
  · intro s t address budget report ran
    rw [runFrom] at ran
    split at ran
    next u moved =>
      obtain ⟨-, rfl⟩ := goto_eq_ok_iff.1 moved
      obtain ⟨rfl, -⟩ := Prod.mk.inj (Except.ok.inj ran)
      exact ⟨haltsOnlyLast_runUntil _ _ budget, status_runUntil_iff rfl _ budget⟩
    next => cases ran

end Machine

end Emu8085
