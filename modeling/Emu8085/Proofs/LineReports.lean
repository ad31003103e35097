import Emu8085.Proofs.LineByLine
import Emu8085.Proofs.Refusal

/-!
# What lines report

A line is no command, asks for nothing, or holds a command that is refused or carried out; an
assertion may be carried out and yet fail. What the line sends, how it fails and what it leaves
behind is known from that (`Reports`), on any machine, and the account of a session says no more
and no less of its lines (`reports_iff`, `reportsEach_iff`).
-/
namespace Emu8085.Script

/-- What a line sends to the reader, and how it fails if it does. -/
structure LineReport where
  tokens : List Token
  fault : Option String

/-- What a line reports and which machine it leaves. It fails if it is no command, if its command is
refused or if it asserts what does not hold, and then leaves the machine as it was. -/
inductive Reports (maxSteps : Nat) (s : Machine) (line : List Byte) : LineReport → Machine → Prop
  | unreadable {e : LineError} : Command.ofBytes line = .error e →
      Reports maxSteps s line ⟨[], some "syntax error"⟩ s
  | blank : Command.ofBytes line = .ok .nothing → Reports maxSteps s line ⟨[], none⟩ s
  | refused {c : Command} {e : CommandError} : Command.ofBytes line = .ok c →
      ((c.withMaxSteps maxSteps).execute (c.startsOn s)).result = .error e →
      Reports maxSteps s line ⟨[], some "command failed"⟩ s
  | falsified {condition : Predicate} {description : String} :
      Command.ofBytes line = .ok (.assert condition description) → condition.holds s = false →
      Reports maxSteps s line
        ⟨[.assertion (some (condition.complaint s)) description], some "assertion failed"⟩ s
  | done {c : Command} {t : Machine} {token : Token} {records : List Record} :
      Command.ofBytes line = .ok c → c ≠ .nothing →
      (∀ condition description, c = .assert condition description → condition.holds s = true) →
      (c.withMaxSteps maxSteps).execute (c.startsOn s) = .done t token records →
      Reports maxSteps s line ⟨[token], none⟩ t

/-- What some lines report one after the other, whether or not the lines before them failed. -/
inductive ReportsEach (maxSteps : Nat) : Machine → List (List Byte) → List LineReport → Prop
  | nil {s : Machine} : ReportsEach maxSteps s [] []
  | cons {s t : Machine} {line : List Byte} {rest : List (List Byte)} {report : LineReport}
      {reports : List LineReport} : Reports maxSteps s line report t →
      ReportsEach maxSteps t rest reports →
      ReportsEach maxSteps s (line :: rest) (report :: reports)

def LineOutcome.report (o : LineOutcome) : LineReport := ⟨o.tokens, o.fault?⟩

theorem Execution.eq_done {execution : Execution} {token : Token}
    (h : execution.result = .ok token) :
    execution = .done execution.machine token execution.records := by
  obtain ⟨t, result, records⟩ := execution
  obtain rfl : result = .ok token := h
  rfl

namespace Command

/-- An assertion of what does not hold is carried out all the same; its token has the complaint. -/
theorem execute_falsified {s : Machine} {condition : Predicate} (fails : condition.holds s = false)
    (description : String) : execute s (.assert condition description) =
      .done s (.assertion (some (condition.complaint s)) description) [] := by
  rw [execute, Predicate.failure?, fails]
  rfl

/-- Only an assertion can be carried out and yet fail. -/
theorem falsified_of_isFailure {c : Command} {s : Machine} {token : Token}
    (done : (c.execute s).result = .ok token) (failed : token.isFailure = true) :
    ∃ condition description, c = .assert condition description ∧ condition.holds s = false := by
  cases c with
  | assert condition description =>
    obtain rfl := Except.ok.inj done
    cases holds : condition.holds s with
    | false => exact ⟨condition, description, rfl, holds⟩
    | true =>
      rw [(condition.failure?_eq_none s).2 holds] at failed
      cases failed
  | marker | nothing | registersShow | reset =>
    obtain rfl := Except.ok.inj done
    cases failed
  | disassemble | goto | load | memoryShow | step =>
    rw [execute] at done
    split at done
    · obtain rfl := Except.ok.inj done
      cases failed
    · cases done
  | memoryWrite address bytes =>
    rw [execute, executeWrite] at done
    split at done
    · cases done
    · obtain rfl := Except.ok.inj done
      cases failed
  | registersSet register value =>
    rw [execute, executeSet] at done
    split at done
    · obtain rfl := Except.ok.inj done
      cases failed
    · cases done
  | run stop start maxSteps =>
    cases start with
    | none =>
      obtain rfl := Except.ok.inj done
      cases failed
    | some address =>
      rw [execute] at done
      split at done
      · obtain rfl := Except.ok.inj done
        cases failed
      · cases done

theorem eq_assert_of_withMaxSteps {c : Command} {maxSteps : Nat} {condition : Predicate}
    {description : String} (h : c.withMaxSteps maxSteps = .assert condition description) :
    c = .assert condition description := by
  cases c with
  | run => cases h
  | _ => exact h

end Command

section

variable {maxSteps : Nat} {s : Machine} {line : List Byte}

theorem lineOutcome_of_error {e : LineError} (read : Command.ofBytes line = .error e) :
    lineOutcome maxSteps s line = .unreadable e := by
  rw [lineOutcome, read]

theorem lineOutcome_of_nothing (read : Command.ofBytes line = .ok .nothing) :
    lineOutcome maxSteps s line = .blank := by
  rw [lineOutcome, read]

/-- A refused command met the machine itself, as a marker is never refused, and left it alone. -/
theorem lineOutcome_of_refused {c : Command} {e : CommandError}
    (read : Command.ofBytes line = .ok c)
    (refused : ((c.withMaxSteps maxSteps).execute (c.startsOn s)).result = .error e) :
    lineOutcome maxSteps s line = .refused e s := by
  have kept := Command.machine_of_error refused
  rw [lineOutcome, read]
  cases c with
  | nothing | marker description => cases refused
  | _ =>
    simp only [refused, kept]
    rfl

theorem lineOutcome_of_done {c : Command} {t : Machine} {token : Token} {records : List Record}
    (read : Command.ofBytes line = .ok c) (asks : c ≠ .nothing)
    (done : (c.withMaxSteps maxSteps).execute (c.startsOn s) = .done t token records) :
    lineOutcome maxSteps s line = .told token t records := by
  rw [lineOutcome, read]
  cases c with
  | nothing => exact absurd rfl asks
  | _ =>
    simp only [done]
    rfl

/-- A token is a failure just when it comes from an assertion of what does not hold. -/
theorem isFailure_iff_of_done {c : Command} {t : Machine} {token : Token} {records : List Record}
    (done : (c.withMaxSteps maxSteps).execute (c.startsOn s) = .done t token records) :
    token.isFailure = true ↔
      ∃ condition description, c = .assert condition description ∧ condition.holds s = false := by
  constructor
  · intro failed
    obtain ⟨condition, description, asserts, fails⟩ :=
      Command.falsified_of_isFailure (congrArg Execution.result done) failed
    obtain rfl := Command.eq_assert_of_withMaxSteps asserts
    exact ⟨condition, description, rfl, fails⟩
  · rintro ⟨condition, description, rfl, fails⟩
    cases done.symm.trans (Command.execute_falsified fails description)
    rfl

/-- What a line reports is decided by the command on it. -/
theorem Reports.eq {report : LineReport} {t : Machine} (h : Reports maxSteps s line report t) :
    report = (lineOutcome maxSteps s line).report ∧
      t = (lineOutcome maxSteps s line).machineAfter s := by
  cases h with
  | unreadable read =>
    rw [lineOutcome_of_error read]
    exact ⟨rfl, rfl⟩
  | blank read =>
    rw [lineOutcome_of_nothing read]
    exact ⟨rfl, rfl⟩
  | refused read refused =>
    rw [lineOutcome_of_refused read refused]
    exact ⟨rfl, rfl⟩
  | @falsified condition description read fails =>
    have asserted := Command.execute_falsified fails description
    rw [lineOutcome_of_done read Command.noConfusion asserted]
    exact ⟨rfl, rfl⟩
  | @done c _ token _ read asks holds done =>
    have quiet : token.isFailure = false := by
      rw [← Bool.not_eq_true, isFailure_iff_of_done done]
      rintro ⟨condition, description, asserts, fails⟩
      rw [holds condition description asserts] at fails
      cases fails
    rw [lineOutcome_of_done read asks done, LineOutcome.report, LineOutcome.fault?, quiet]
    exact ⟨rfl, rfl⟩

/-- Every line reports something, whatever its bytes and its machine. -/
theorem reports_lineOutcome : Reports maxSteps s line (lineOutcome maxSteps s line).report
    ((lineOutcome maxSteps s line).machineAfter s) := by
  cases read : Command.ofBytes line with
  | error e =>
    rw [lineOutcome_of_error read]
    exact .unreadable read
  | ok c =>
    by_cases asks : c = .nothing
    · rw [lineOutcome_of_nothing (asks ▸ read)]
      exact .blank (asks ▸ read)
    · cases result : ((c.withMaxSteps maxSteps).execute (c.startsOn s)).result with
      | error e =>
        rw [lineOutcome_of_refused read result]
        exact .refused read result
      | ok token =>
        have done := Execution.eq_done result
        by_cases failed : token.isFailure = true
        · obtain ⟨condition, description, rfl, fails⟩ := (isFailure_iff_of_done done).1 failed
          rw [lineOutcome_of_done read asks (Command.execute_falsified fails description)]
          exact .falsified read fails
        · rw [lineOutcome_of_done read asks done, LineOutcome.report, LineOutcome.fault?,
            if_neg failed]
          refine .done read asks (fun condition description asserts => ?_) done
          cases holds : condition.holds s with
          | true => rfl
          | false =>
            exact absurd ((isFailure_iff_of_done done).2 ⟨_, _, asserts, holds⟩) failed

/-- The account of a session says of a line what the causes of its outcome say: it fails just where
it is no command, where its command is refused or where it asserts what does not hold. -/
theorem reports_iff {report : LineReport} {t : Machine} : Reports maxSteps s line report t ↔
    report = (lineOutcome maxSteps s line).report ∧
      t = (lineOutcome maxSteps s line).machineAfter s := by
  refine ⟨Reports.eq, ?_⟩
  rintro ⟨rfl, rfl⟩
  exact reports_lineOutcome

end

/-- The run lemma, by induction on the lines, each of which meets the machine that the one before it
left. -/
theorem reportsEach_iff {maxSteps : Nat} {s : Machine} {lines : List (List Byte)}
    {reports : List LineReport} : ReportsEach maxSteps s lines reports ↔
      reports = (outcomes maxSteps s lines).map LineOutcome.report := by
  constructor
  · intro h
    induction h with
    | nil => rfl
    | cons first rest ih =>
      obtain ⟨rfl, rfl⟩ := reports_iff.1 first
      rw [ih, outcomes_cons, List.map_cons]
  · rintro rfl
    induction lines generalizing s with
    | nil => exact .nil
    | cons line rest ih => exact .cons (reports_iff.2 ⟨rfl, rfl⟩) ih

end Emu8085.Script
