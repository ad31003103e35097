import Emu8085.Proofs.LineReports
import Emu8085.Proofs.PlanIndependence

/-!
# Stopping at the first failure

A session that goes on past failures tells everything that its lines have to tell and ends without
one. A session that stops tells the same up to the first line that fails, as far as that line
itself tells anything, and says which line it was.
-/
namespace Emu8085.Script

/-- Lines without a fault are told alike whether or not a fault would end the session. -/
theorem runLines_clean (maxSteps number : Nat) (s : Machine) (lines : List (List Byte))
    (clean : ∀ o ∈ outcomes maxSteps s lines, o.fault? = none) :
    runLines ⟨true, maxSteps⟩ true number s lines =
      runLines ⟨false, maxSteps⟩ true number s lines := by
  induction lines generalizing number s with
  | nil => rfl
  | cons line rest ih =>
    rw [outcomes_cons] at clean
    have first := clean _ (List.mem_cons_self ..)
    rw [runLines_goes_on ⟨true, maxSteps⟩ number s line rest (.inr first),
      runLines_goes_on ⟨false, maxSteps⟩ number s line rest (.inl rfl),
      ih _ _ fun o ho => clean o (List.mem_cons_of_mem _ ho)]

/-- The run lemma for sessions that stop, by induction on the lines before the first that fails. -/
theorem runLines_stopping {maxSteps : Nat} {before later : List LineOutcome} {o : LineOutcome}
    (clean : ∀ b ∈ before, b.fault? = none) {number : Nat} {s : Machine}
    {lines : List (List Byte)} (told : outcomes maxSteps s lines = before ++ o :: later)
    {f : Failure} (failure : o.failureAt? (number + before.length) = some f) :
    (runLines ⟨true, maxSteps⟩ true number s lines).tokens =
        before.flatMap LineOutcome.tokens ++ o.tokens ∧
      (runLines ⟨true, maxSteps⟩ true number s lines).failure = some f := by
  induction before generalizing number s lines with
  | nil =>
    cases lines with
    | nil => cases told
    | cons line rest =>
      rw [outcomes_cons] at told
      obtain ⟨rfl, -⟩ := List.cons.inj told
      exact runLines_stops ⟨true, maxSteps⟩ number s line rest rfl failure
  | cons b before ih =>
    cases lines with
    | nil => cases told
    | cons line rest =>
      rw [outcomes_cons] at told
      obtain ⟨rfl, others⟩ := List.cons.inj told
      rw [List.length_cons, Nat.add_comm before.length, ← Nat.add_assoc] at failure
      obtain ⟨tokens, ended⟩ :=
        ih (fun c hc => clean c (List.mem_cons_of_mem _ hc)) others failure
      have first := clean _ (List.mem_cons_self ..)
      rw [runLines_goes_on ⟨true, maxSteps⟩ number s line rest (.inr first), List.flatMap_cons,
        List.append_assoc, Transcript.tokens_after, Transcript.failure_after, tokens]
      exact ⟨rfl, ended⟩

theorem flatMap_tokens_report (told : List LineOutcome) :
    (told.map LineOutcome.report).flatMap LineReport.tokens = told.flatMap LineOutcome.tokens := by
  rw [List.flatMap_map]
  rfl

/-- Each line of a script reports something, one report a line. A session that goes on never ends
early and sends what the reports hold. One that stops sends the same up to the first line that
fails, with the token of that line if it is an assertion, and ends with an error that names the
fault and the line; without such a line the two are the same. -/
theorem stop_mode_is_prefix (maxSteps : Nat) (script : List Byte) :
    let going := runScript ⟨false, maxSteps⟩ true script
    let stopping := runScript ⟨true, maxSteps⟩ true script
    (∃ told, ReportsEach maxSteps .initial (lines script) told) ∧
    ∀ told, ReportsEach maxSteps .initial (lines script) told →
      told.length = (lines script).length ∧
      going.failure = none ∧
      going.tokens = told.flatMap LineReport.tokens ∧
      (∀ before r later fault, told = before ++ r :: later →
        (∀ b ∈ before, b.fault = none) → r.fault = some fault →
        stopping.tokens = before.flatMap LineReport.tokens ++ r.tokens ∧
        ∃ f rest, stopping.failure = some f ∧
          f.message = fault ++ " at line " ++ toString (before.length + 1) ++ rest ∧
          (rest = "" ∨ ∃ cause, rest = ": " ++ cause)) ∧
      ((∀ r ∈ told, r.fault = none) →
        stopping.tokens = going.tokens ∧ stopping.failure = none) := by
  intro going stopping
  refine ⟨⟨_, reportsEach_iff.2 rfl⟩, fun told reports => ?_⟩
  obtain rfl := reportsEach_iff.1 reports
  obtain ⟨tokens, ends⟩ :=
    runLines_going ⟨false, maxSteps⟩ rfl 1 .initial (lines script)
  refine ⟨by rw [List.length_map, length_outcomes], ends, ?_, ?_, ?_⟩
  · rw [flatMap_tokens_report]
    exact tokens
  · intro before r later fault split clean failed
    obtain ⟨earlier, others, told, rfl, last⟩ := List.map_eq_append_iff.1 split
    obtain ⟨o, rest, rfl, rfl, rfl⟩ := List.map_eq_cons_iff.1 last
    rw [List.forall_mem_map] at clean
    obtain ⟨f, rest, failure, message⟩ := o.message_failureAt (earlier.length + 1) failed
    rw [Nat.add_comm] at failure
    obtain ⟨heard, ended⟩ := runLines_stopping clean told failure
    rw [flatMap_tokens_report, List.length_map]
    exact ⟨heard, f, rest, ended, message⟩
  · intro clean
    rw [List.forall_mem_map] at clean
    have same : stopping = going := runLines_clean maxSteps 1 .initial (lines script) clean
    rw [same]
    exact ⟨rfl, ends⟩

/-- Fails in its sixth line and in all that come after it, the eighth of which is no text. -/
def strayScript : List Byte :=
  ascii "marker $$stray$$\n\n// anew\nreset\nassert A = 0x00 $$zero$$\nazerty\n" ++
    (ascii "registers set A = 0x0100\n" ++ 0xFF :: ascii "\nassert A = 0x02 $$two$$")

/-- The session that stops does not come to the assertion in the last line, which the other one
tells. -/
theorem stop_mode_is_prefix_strayScript :
    let going := runScript ⟨false, 10⟩ true strayScript
    let stopping := runScript ⟨true, 10⟩ true strayScript
    let complaint := "(A = 0x02) 0x00 is not equal to 0x02"
    stopping.tokens =
        [.marker "stray", .setup ["processor reset"], .assertion none "zero"] ∧
      going.tokens = stopping.tokens ++ [.assertion (some complaint) "two"] ∧
      ∃ f rest, stopping.failure = some f ∧
        f.message = "syntax error" ++ " at line " ++ toString 6 ++ rest := by
  let isZero : Predicate := .compare (.register .a) .equal (.literal 0)
  let isTwo : Predicate := .compare (.register .a) .equal (.literal 2)
  have parts : lines strayScript = [ascii "marker $$stray$$", [], ascii "// anew", ascii "reset",
      ascii "assert A = 0x00 $$zero$$", ascii "azerty", ascii "registers set A = 0x0100", [0xFF],
      ascii "assert A = 0x02 $$two$$"] := by
    decide +kernel
  have marks : Command.ofBytes (ascii "marker $$stray$$") = .ok (.marker "stray") :=
    Command.ofBytes_eq_ok (by decide +kernel)
  have empty : Command.ofBytes [] = .ok .nothing := Command.ofBytes_eq_ok (by decide +kernel)
  have notes : Command.ofBytes (ascii "// anew") = .ok .nothing :=
    Command.ofBytes_eq_ok (by decide +kernel)
  have resets : Command.ofBytes (ascii "reset") = .ok .reset :=
    Command.ofBytes_eq_ok (by decide +kernel)
  have asserts : Command.ofBytes (ascii "assert A = 0x00 $$zero$$") = .ok (.assert isZero "zero") :=
    Command.ofBytes_eq_ok (by decide +kernel)
  obtain ⟨_, strays⟩ : ∃ e, Command.ofBytes (ascii "azerty") = .error e :=
    Command.exists_ofBytes_eq_error (by decide +kernel)
  have sets : Command.ofBytes (ascii "registers set A = 0x0100") = .ok (.registersSet .a 0x100) :=
    Command.ofBytes_eq_ok (by decide +kernel)
  obtain ⟨_, noText⟩ : ∃ e, Command.ofBytes [0xFF] = .error e :=
    Command.exists_ofBytes_eq_error (by decide +kernel)
  have denies : Command.ofBytes (ascii "assert A = 0x02 $$two$$") = .ok (.assert isTwo "two") :=
    Command.ofBytes_eq_ok (by decide +kernel)
  have told : ReportsEach 10 .initial (lines strayScript)
      ([⟨[.marker "stray"], none⟩, ⟨[], none⟩, ⟨[], none⟩, ⟨[.setup ["processor reset"]], none⟩,
          ⟨[.assertion none "zero"], none⟩] ++
        ⟨[], some "syntax error"⟩ :: [⟨[], some "command failed"⟩, ⟨[], some "syntax error"⟩,
          ⟨[.assertion (some (isTwo.complaint .initial)) "two"], some "assertion failed"⟩]) := by
    rw [parts]
    exact .cons (.done marks Command.noConfusion (fun _ _ => Command.noConfusion) rfl) <|
      .cons (.blank empty) <| .cons (.blank notes) <|
      .cons (.done resets Command.noConfusion (fun _ _ => Command.noConfusion) rfl) <|
      .cons (.done asserts Command.noConfusion (by rintro _ _ ⟨⟩; rfl) rfl) <|
      .cons (.unreadable strays) <| .cons (.refused sets rfl) <| .cons (.unreadable noText) <|
      .cons (.falsified denies rfl) .nil
  have complains : isTwo.complaint .initial = "(A = 0x02) 0x00 is not equal to 0x02" := by
    decide +kernel
  obtain ⟨-, account⟩ := stop_mode_is_prefix 10 strayScript
  obtain ⟨-, -, tokens, stops, -⟩ := account _ told
  obtain ⟨heard, f, rest, ended, message, -⟩ := stops _ _ _ _ rfl (by simp) rfl
  refine ⟨heard, ?_, f, rest, ended, message⟩
  rw [heard, tokens, complains]
  rfl

end Emu8085.Script
