import Emu8085.Proofs.LineByLine

/-!
# Plans of a script

A marker starts over with a fresh machine, so a plan, a script that begins with a marker, is
carried out alike wherever it stands. What comes before it only counts lines: it shifts the line
numbers in what the plan reports (`runLines_shift`). A session without a reader ends at the first
thing to tell, and a marker is one (`failure_unheard`).
-/
namespace Emu8085.Script

/-- The same failure so many lines further down. -/
def Failure.shift (k : Nat) : Failure → Failure
  | unreadable line e => unreadable (line + k) e
  | refused line e => refused (line + k) e
  | falsified line => falsified (line + k)
  | unheard => unheard

/-- A failure is reported with the line that it is in, nothing else depends on line numbers. -/
theorem LineOutcome.failureAt?_shift (number k : Nat) (o : LineOutcome) :
    o.failureAt? (number + k) = (o.failureAt? number).map (Failure.shift k) := by
  cases o with
  | told token t records =>
    rw [failureAt?, failureAt?]
    split <;> rfl
  | _ => rfl

/-- The run lemma, by induction on the lines: what ends a session does so wherever they stand. -/
theorem runLines_shift (settings : Settings) (k number : Nat) (s : Machine)
    (lines : List (List Byte)) :
    (runLines settings true (number + k) s lines).tokens =
        (runLines settings true number s lines).tokens ∧
      (runLines settings true (number + k) s lines).failure =
        (runLines settings true number s lines).failure.map (Failure.shift k) := by
  induction lines generalizing number s with
  | nil => exact ⟨rfl, rfl⟩
  | cons line rest ih =>
    rcases (lineOutcome settings.maxSteps s line).goes_on_or_stops settings number with
      on | ⟨stopping, f, failure⟩
    · obtain ⟨tokens, failure⟩ :=
        ih (number + 1) ((lineOutcome settings.maxSteps s line).machineAfter s)
      rw [Nat.add_right_comm] at tokens failure
      rw [runLines_goes_on settings (number + k) s line rest on,
        runLines_goes_on settings number s line rest on, Transcript.tokens_after,
        Transcript.tokens_after, tokens]
      exact ⟨rfl, failure⟩
    · have shifted : (lineOutcome settings.maxSteps s line).failureAt? (number + k) =
          some (f.shift k) := by
        rw [LineOutcome.failureAt?_shift, failure]
        rfl
      obtain ⟨heard, ended⟩ := runLines_stops settings number s line rest stopping failure
      obtain ⟨heard', ended'⟩ := runLines_stops settings (number + k) s line rest stopping shifted
      rw [heard, heard', ended, ended']
      exact ⟨rfl, rfl⟩

/-- Lines that do not end a session are followed by the lines after them, by induction on those in
front. -/
theorem runLines_append (settings : Settings) (number : Nat) (s : Machine)
    (before after : List (List Byte))
    (on : (runLines settings true number s before).failure = none) :
    runLines settings true number s (before ++ after) =
      (runLines settings true (number + before.length)
        (machineAfterLines settings.maxSteps s before) after).after
        (runLines settings true number s before).tokens
        (runLines settings true number s before).records := by
  induction before generalizing number s with
  | nil => rfl
  | cons line rest ih =>
    rcases (lineOutcome settings.maxSteps s line).goes_on_or_stops settings number with
      goes | ⟨stopping, f, failure⟩
    · have count : number + (line :: rest).length = number + 1 + rest.length := by
        rw [List.length_cons]
        omega
      rw [runLines_goes_on settings number s line rest goes] at on ⊢
      rw [List.cons_append, runLines_goes_on settings number s line _ goes, ih _ _ on,
        Transcript.after_after, count]
      rfl
    · have ended := (runLines_stops settings number s line rest stopping failure).2
      rw [on] at ended
      cases ended

/-- A marker tells itself and leaves a fresh machine, whatever it meets. -/
theorem lineOutcome_marker (maxSteps : Nat) (s : Machine) {line : List Byte} {description : String}
    (h : Command.ofBytes line = .ok (.marker description)) :
    lineOutcome maxSteps s line = .told (.marker description) .initial [] := by
  rw [lineOutcome, h]
  rfl

/-- Lines that begin with a marker do not depend on the machine that they meet. -/
theorem runLines_marker (settings : Settings) (number : Nat) (s t : Machine) {line : List Byte}
    {description : String} (rest : List (List Byte))
    (h : Command.ofBytes line = .ok (.marker description)) :
    runLines settings true number s (line :: rest) =
      runLines settings true number t (line :: rest) := by
  rw [runLines, runLines, lineOutcome_marker _ s h, lineOutcome_marker _ t h]

/-- Without a reader no token is sent. -/
theorem tokens_unheard (settings : Settings) (number : Nat) (s : Machine)
    (lines : List (List Byte)) : (runLines settings false number s lines).tokens = [] := by
  induction lines generalizing number s with
  | nil => rfl
  | cons line rest ih =>
    rw [runLines]
    cases lineOutcome settings.maxSteps s line with
    | blank => exact ih _ _
    | unreadable e | refused e t =>
      cases settings.stopOnFailure with
      | false => exact ih _ _
      | true => rfl
    | told token t records => rfl

/-- Without a reader no session passes a marker, which tells itself: by induction on the lines
before it. -/
theorem failure_unheard (settings : Settings) (number : Nat) (s : Machine)
    (before : List (List Byte)) {line : List Byte} {description : String} (rest : List (List Byte))
    (h : Command.ofBytes line = .ok (.marker description))
    (comes : settings.stopOnFailure = false ∨
      (runLines settings false number s before).failure = none) :
    (runLines settings false number s (before ++ line :: rest)).failure = some .unheard := by
  induction before generalizing number s with
  | nil =>
    rw [List.nil_append, runLines, lineOutcome_marker _ s h]
    rfl
  | cons first before ih =>
    rw [List.cons_append, runLines]
    rw [runLines] at comes
    cases outcome : lineOutcome settings.maxSteps s first with
    | blank =>
      rw [outcome] at comes
      exact ih _ _ comes
    | unreadable e | refused e t =>
      rw [outcome] at comes
      cases stopping : settings.stopOnFailure with
      | false => exact ih _ _ (.inl stopping)
      | true =>
        simp only [stopping] at comes
        rcases comes with going | on
        · cases going
        · cases on
    | told token t records => rfl

/-- A plan after other lines, for a reader that keeps listening. -/
theorem runLines_append_marker (settings : Settings) (before : List (List Byte)) {line : List Byte}
    {description : String} (rest : List (List Byte))
    (h : Command.ofBytes line = .ok (.marker description))
    (on : (runLines settings true 1 .initial before).failure = none) :
    (runLines settings true 1 .initial (before ++ line :: rest)).tokens =
        (runLines settings true 1 .initial before).tokens ++
          (runLines settings true 1 .initial (line :: rest)).tokens ∧
      (runLines settings true 1 .initial (before ++ line :: rest)).failure =
        (runLines settings true 1 .initial (line :: rest)).failure.map
          (Failure.shift before.length) := by
  obtain ⟨tokens, failure⟩ := runLines_shift settings before.length 1 .initial (line :: rest)
  rw [runLines_append settings 1 .initial before (line :: rest) on,
    runLines_marker settings _ _ .initial rest h, Transcript.tokens_after,
    Transcript.failure_after, tokens, failure]
  exact ⟨rfl, rfl⟩

/-- A script that ends at the end of a line keeps its lines whatever follows. -/
theorem lines_append_of_boundary {before : List Byte} (after : List Byte)
    (boundary : before = [] ∨ before.getLast? = some lineFeed) :
    lines (before ++ after) = lines before ++ lines after := by
  rcases boundary with rfl | last
  · rfl
  · obtain ⟨front, rfl⟩ := List.getLast?_eq_some_iff.1 last
    rw [List.append_assoc]
    exact lines_append front after

/-- A plan, which begins with a marker, adds to a session what it tells by itself, whenever the
session comes to it, as one that does not stop at failures always does. The line in which it ends,
if it does, is the later by as many lines as stand before the plan. -/
theorem plan_is_independent (settings : Settings) (heard : Bool) (before plan line : List Byte)
    (description : String) (boundary : before = [] ∨ before.getLast? = some lineFeed)
    (first : (lines plan).head? = some line)
    (marker : Command.ofBytes line = .ok (.marker description)) :
    let earlier := runScript settings heard before
    let later := runScript settings heard plan
    let whole := runScript settings heard (before ++ plan)
    settings.stopOnFailure = false ∨ earlier.failure = none →
      whole.tokens = earlier.tokens ++ later.tokens ∧
      whole.failure = later.failure.map (Failure.shift (lines before).length) := by
  intro earlier later whole comes
  obtain ⟨rest, found⟩ := List.head?_eq_some_iff.1 first
  have parts := lines_append_of_boundary plan boundary
  simp only [earlier, later, whole, runScript] at comes ⊢
  rw [parts, found]
  cases heard with
  | true =>
    exact runLines_append_marker settings (lines before) rest marker <|
      comes.elim (fun going => (runLines_going settings going 1 .initial (lines before)).2) id
  | false =>
    have alone : (runLines settings false 1 .initial (line :: rest)).failure = some .unheard :=
      failure_unheard settings 1 .initial [] rest marker (.inr rfl)
    rw [tokens_unheard, tokens_unheard, tokens_unheard, alone,
      failure_unheard settings 1 .initial (lines before) rest marker comes]
    exact ⟨rfl, rfl⟩

def ascii (text : String) : List Byte := text.toList.map fun c => BitVec.ofNat 8 c.toNat

def settingPlan : List Byte := ascii "registers set A = 0x01\nassert A = 0x01 $$set$$\n"

/-- Expects what `settingPlan` set, in its third line. -/
def expectingPlan : List Byte := ascii "marker $$fresh$$\n\nassert A = 0x01 $$still set$$\n"

theorem plan_is_independent_expectingPlan :
    let settings : Settings := ⟨true, 10⟩
    let whole := runScript settings true (settingPlan ++ expectingPlan)
    whole.tokens = (runScript settings true settingPlan).tokens ++
        (runScript settings true expectingPlan).tokens ∧
      whole.failure = some (.falsified 5) := by
  have marker : Command.ofBytes (ascii "marker $$fresh$$") = .ok (.marker "fresh") :=
    Command.ofBytes_eq_ok (by decide +kernel)
  have first : (lines expectingPlan).head? = some (ascii "marker $$fresh$$") := by decide +kernel
  have succeeds : (runScript ⟨true, 10⟩ true settingPlan).failure = none := by decide +kernel
  have fails : (runScript ⟨true, 10⟩ true expectingPlan).failure = some (.falsified 3) := by
    decide +kernel
  have boundary : settingPlan.getLast? = some lineFeed := by decide +kernel
  obtain ⟨tokens, failure⟩ := plan_is_independent ⟨true, 10⟩ true settingPlan expectingPlan _ "fresh"
    (.inr boundary) first marker (.inr succeeds)
  have count : (lines settingPlan).length = 2 := by decide +kernel
  refine ⟨tokens, failure.trans ?_⟩
  rw [fails, count]
  rfl

end Emu8085.Script
