import Emu8085.Script.Session

/-!
# Sessions line by line

A session is an account of what its lines do, each on the machine that the lines before it left
(`outcomes`). While nothing stops it, a line adds its own tokens and records and the session goes
on with the next one (`runLines_goes_on`); where it stops, the line's own tokens are the last
(`runLines_stops`). What is said of the account is said of all readers that keep listening.
-/
namespace Emu8085.Script

namespace LineOutcome

def machineAfter (s : Machine) : LineOutcome → Machine
  | blank | unreadable _ => s
  | refused _ t | told _ t _ => t

def tokens : LineOutcome → List Token
  | told token _ _ => [token]
  | _ => []

/-- How a line that fails is called. -/
def fault? : LineOutcome → Option String
  | blank => none
  | unreadable _ => some "syntax error"
  | refused _ _ => some "command failed"
  | told token _ _ => if token.isFailure then some "assertion failed" else none

def failureAt? (number : Nat) : LineOutcome → Option Failure
  | blank => none
  | unreadable e => some (.unreadable number e)
  | refused e _ => some (.refused number e)
  | told token _ _ => if token.isFailure then some (.falsified number) else none

def recordsAt (number : Nat) : LineOutcome → List Record
  | blank => []
  | unreadable e => [.lineSkipped number e.message]
  | refused e _ => [.lineFailed number e.message]
  | told _ _ records => records

theorem failureAt?_eq_none_iff (number : Nat) (o : LineOutcome) :
    o.failureAt? number = none ↔ o.fault? = none := by
  cases o <;> simp [failureAt?, fault?]

/-- After a line a session goes on, unless it stops at failures and the line is one. -/
theorem goes_on_or_stops (settings : Settings) (number : Nat) (o : LineOutcome) :
    (settings.stopOnFailure = false ∨ o.fault? = none) ∨
      settings.stopOnFailure = true ∧ ∃ f, o.failureAt? number = some f := by
  cases stopping : settings.stopOnFailure with
  | false => exact .inl (.inl rfl)
  | true =>
    cases failure : o.failureAt? number with
    | none => exact .inl (.inr ((o.failureAt?_eq_none_iff number).1 failure))
    | some f => exact .inr ⟨rfl, f, rfl⟩

/-- An error says what went wrong and in which line, and then the cause if there is more to say. -/
theorem message_failureAt (number : Nat) {o : LineOutcome} {fault : String}
    (h : o.fault? = some fault) :
    ∃ f rest, o.failureAt? number = some f ∧
      f.message = fault ++ " at line " ++ toString number ++ rest ∧
      (rest = "" ∨ ∃ cause, rest = ": " ++ cause) := by
  cases o with
  | blank => cases h
  | unreadable e =>
    obtain rfl := Option.some.inj h
    have title : "syntax error at line " = "syntax error" ++ " at line " := by decide +kernel
    refine ⟨.unreadable number e, ": " ++ e.message, rfl, ?_, .inr ⟨_, rfl⟩⟩
    unfold Failure.message
    rw [title]
    simp only [String.append_assoc]
  | refused e t =>
    obtain rfl := Option.some.inj h
    have title : "command failed at line " = "command failed" ++ " at line " := by decide +kernel
    refine ⟨.refused number e, ": " ++ e.message, rfl, ?_, .inr ⟨_, rfl⟩⟩
    unfold Failure.message
    rw [title]
    simp only [String.append_assoc]
  | told token t records =>
    simp only [fault?] at h
    split at h
    next failed =>
      obtain rfl := Option.some.inj h
      have title : "assertion failed at line " = "assertion failed" ++ " at line " := by
        decide +kernel
      refine ⟨.falsified number, "", if_pos failed, ?_, .inl rfl⟩
      unfold Failure.message
      rw [title]
      exact String.append_empty.symm
    next => cases h

end LineOutcome

/-- What each of some lines does, whether or not the lines before it failed. -/
def outcomes (maxSteps : Nat) : Machine → List (List Byte) → List LineOutcome
  | _, [] => []
  | s, line :: rest =>
    let o := lineOutcome maxSteps s line
    o :: outcomes maxSteps (o.machineAfter s) rest

def machineAfterLines (maxSteps : Nat) : Machine → List (List Byte) → Machine
  | s, [] => s
  | s, line :: rest =>
    machineAfterLines maxSteps ((lineOutcome maxSteps s line).machineAfter s) rest

theorem outcomes_cons (maxSteps : Nat) (s : Machine) (line : List Byte)
    (rest : List (List Byte)) :
    outcomes maxSteps s (line :: rest) = lineOutcome maxSteps s line ::
      outcomes maxSteps ((lineOutcome maxSteps s line).machineAfter s) rest := rfl

/-- Every line has an outcome, whether or not a session would come to it. -/
@[simp] theorem length_outcomes (maxSteps : Nat) (s : Machine) (lines : List (List Byte)) :
    (outcomes maxSteps s lines).length = lines.length := by
  induction lines generalizing s with
  | nil => rfl
  | cons line rest ih => rw [outcomes_cons, List.length_cons, List.length_cons, ih]

section

variable (settings : Settings) (number : Nat) (s : Machine) (line : List Byte)
  (rest : List (List Byte))

/-- The step lemma for a line that does not end the session: it adds its tokens and records to what
the lines after it tell. -/
theorem runLines_goes_on (h : settings.stopOnFailure = false ∨
      (lineOutcome settings.maxSteps s line).fault? = none) :
    runLines settings true number s (line :: rest) =
      (runLines settings true (number + 1)
        ((lineOutcome settings.maxSteps s line).machineAfter s) rest).after
        (lineOutcome settings.maxSteps s line).tokens
        ((lineOutcome settings.maxSteps s line).recordsAt number) := by
  rw [runLines]
  cases outcome : lineOutcome settings.maxSteps s line with
  | blank => rfl
  | unreadable e | refused e t =>
    rw [outcome] at h
    rcases h with going | clean
    · simp only [going]
      rfl
    · cases clean
  | told token t records =>
    have quiet : (token.isFailure && settings.stopOnFailure) = false := by
      rw [outcome] at h
      cases failed : token.isFailure <;> simp_all [LineOutcome.fault?]
    simp only [quiet]
    rfl

/-- The step lemma for a line that ends the session: nothing is told after it. -/
theorem runLines_stops {f : Failure} (stopping : settings.stopOnFailure = true)
    (h : (lineOutcome settings.maxSteps s line).failureAt? number = some f) :
    (runLines settings true number s (line :: rest)).tokens =
        (lineOutcome settings.maxSteps s line).tokens ∧
      (runLines settings true number s (line :: rest)).failure = some f := by
  rw [runLines]
  cases outcome : lineOutcome settings.maxSteps s line with
  | blank =>
    rw [outcome] at h
    cases h
  | unreadable e | refused e t =>
    rw [outcome] at h
    simp only [stopping]
    exact ⟨rfl, h⟩
  | told token t records =>
    rw [outcome, LineOutcome.failureAt?] at h
    split at h
    next failed =>
      simp only [stopping, failed]
      exact ⟨rfl, h⟩
    next => cases h

end

/-- The run lemma for sessions that do not stop at failures, by induction on the lines. -/
theorem runLines_going (settings : Settings) (going : settings.stopOnFailure = false)
    (number : Nat) (s : Machine) (lines : List (List Byte)) :
    (runLines settings true number s lines).tokens =
        (outcomes settings.maxSteps s lines).flatMap LineOutcome.tokens ∧
      (runLines settings true number s lines).failure = none := by
  induction lines generalizing number s with
  | nil => exact ⟨rfl, rfl⟩
  | cons line rest ih =>
    obtain ⟨tokens, failure⟩ :=
      ih (number + 1) ((lineOutcome settings.maxSteps s line).machineAfter s)
    rw [runLines_goes_on settings number s line rest (.inl going), outcomes_cons,
      List.flatMap_cons, Transcript.tokens_after, Transcript.failure_after, tokens]
    exact ⟨rfl, failure⟩

end Emu8085.Script
