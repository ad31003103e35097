import Emu8085.Proofs.LineContent
import Emu8085.Proofs.LineReports
import Emu8085.Proofs.PlanIndependence
import Mathlib.Logic.Relation

/-!
# Layout and failing lines

A line without a token that leaves the machine as it found it is silent, and a session that goes on
past failures tells the same without it. Silent are blank lines and comments, lines that are no
commands, and commands that are refused. White space around a line, a carriage return among it, is
not read at all (`ofBytes_padded`), in text or in bytes that are none.
-/
namespace Emu8085.Script

open Text

def carriageReturn : Byte := 0x0D

/-- White space, none of it a line feed. -/
def IsWhite (bytes : List Byte) : Prop :=
  lineFeed ∉ bytes ∧ ∃ cs, Utf8.decode bytes = some cs ∧ ∀ c ∈ cs, isBlank c = true

/-- White space, or white space and a comment. -/
def IsIdle (line : List Byte) : Prop :=
  ∃ lead note, Utf8.decode line = some (lead ++ note) ∧ (∀ c ∈ lead, isBlank c = true) ∧
    (note = [] ∨ "//".toList <+: note)

/-- The line is no command, or one that the machine refuses. -/
def Fails (maxSteps : Nat) (s : Machine) (line : List Byte) : Prop :=
  (∃ e, Command.ofBytes line = .error e) ∨
    ∃ c e, Command.ofBytes line = .ok c ∧
      ((c.withMaxSteps maxSteps).execute (c.startsOn s)).result = .error e

/-- A line of a script between what comes before it and what comes after it, which begins with its
line feed unless the script ends there. -/
structure IsLineIn (before line after : List Byte) : Prop where
  boundary : before = [] ∨ before.getLast? = some lineFeed
  whole : lineFeed ∉ line
  ended : ∀ b ∈ after.head?, b = lineFeed

/-- A change to a script. A line that is removed takes its line feed with it; the machine that it
would have met is the one that the lines before it leave. -/
inductive Edit (maxSteps : Nat) : List Byte → List Byte → Prop
  | idle {before line after : List Byte} : IsLineIn before line after → IsIdle line →
      Edit maxSteps (before ++ (line ++ after)) (before ++ after.tail)
  | failing {before line after : List Byte} : IsLineIn before line after →
      Fails maxSteps (machineAfterLines maxSteps .initial (lines before)) line →
      Edit maxSteps (before ++ (line ++ after)) (before ++ after.tail)
  | padding {before line after lead trail : List Byte} : IsLineIn before line after →
      IsWhite lead → IsWhite trail →
      Edit maxSteps (before ++ (line ++ after)) (before ++ (lead ++ (line ++ (trail ++ after))))
  | lineEnd (before after : List Byte) :
      Edit maxSteps (before ++ lineFeed :: after) (before ++ carriageReturn :: lineFeed :: after)
  /-- The last line may end in a line feed or with the script. -/
  | lastFeed (script : List Byte) : Edit maxSteps script (script ++ [lineFeed])

/-- A line that tells nothing and changes nothing. -/
structure Silent (maxSteps : Nat) (s : Machine) (line : List Byte) : Prop where
  tokens : (lineOutcome maxSteps s line).tokens = []
  machine : (lineOutcome maxSteps s line).machineAfter s = s

/-- What the lines tell a reader that keeps listening, past all failures. -/
def told (maxSteps : Nat) (s : Machine) (lines : List (List Byte)) : List Token :=
  (outcomes maxSteps s lines).flatMap LineOutcome.tokens

section

variable {maxSteps : Nat} {s : Machine} {line : List Byte}

theorem told_cons (line : List Byte) (rest : List (List Byte)) :
    told maxSteps s (line :: rest) = (lineOutcome maxSteps s line).tokens ++
      told maxSteps ((lineOutcome maxSteps s line).machineAfter s) rest := rfl

/-- The lines after others meet the machine that those leave; by induction on the lines in front. -/
theorem told_append (before after : List (List Byte)) :
    told maxSteps s (before ++ after) =
      told maxSteps s before ++ told maxSteps (machineAfterLines maxSteps s before) after := by
  induction before generalizing s with
  | nil => rfl
  | cons line rest ih =>
    rw [List.cons_append, told_cons, told_cons, ih, List.append_assoc]
    rfl

theorem told_cons_silent (h : Silent maxSteps s line) (rest : List (List Byte)) :
    told maxSteps s (line :: rest) = told maxSteps s rest := by
  rw [told_cons, h.tokens, h.machine, List.nil_append]

/-- A line is known by the command that is read on it. -/
theorem told_cons_congr {other : List Byte} (h : Command.ofBytes other = Command.ofBytes line)
    (rest : List (List Byte)) :
    told maxSteps s (other :: rest) = told maxSteps s (line :: rest) := by
  have same : lineOutcome maxSteps s other = lineOutcome maxSteps s line := by
    rw [lineOutcome, lineOutcome, h]
  rw [told_cons, told_cons, same]

theorem tokens_runScript (maxSteps : Nat) (script : List Byte) :
    (runScript ⟨false, maxSteps⟩ true script).tokens = told maxSteps .initial (lines script) :=
  (runLines_going ⟨false, maxSteps⟩ rfl 1 .initial (lines script)).1

theorem silent_of_error {e : LineError} (h : Command.ofBytes line = .error e) :
    Silent maxSteps s line := by
  constructor <;> rw [lineOutcome_of_error h] <;> rfl

theorem silent_of_nothing (h : Command.ofBytes line = .ok .nothing) : Silent maxSteps s line := by
  constructor <;> rw [lineOutcome_of_nothing h] <;> rfl

/-- A command that is refused leaves the machine as it found it, so it may as well not be there. -/
theorem silent_of_refused {c : Command} {e : CommandError} (h : Command.ofBytes line = .ok c)
    (refused : ((c.withMaxSteps maxSteps).execute (c.startsOn s)).result = .error e) :
    Silent maxSteps s line := by
  constructor <;> rw [lineOutcome_of_refused h refused] <;> rfl

theorem Fails.silent (h : Fails maxSteps s line) : Silent maxSteps s line := by
  rcases h with ⟨e, unread⟩ | ⟨c, e, read, refused⟩
  · exact silent_of_error unread
  · exact silent_of_refused read refused

/-- The first ink on a line of tokens is that of its first token. -/
theorem exists_ink_of_laid {t : List Char} {ts : List (List Char)} {line : List Char}
    (opens : Opens t) (laid : Laid (t :: ts) line) : ∃ c ∈ (trimStart line).head?, c ≠ '/' := by
  obtain ⟨lead, body, gap, note, trail, blank, spread, -, -, -, rfl⟩ := laid
  cases spread with
  | @cons g _ rest _ gaps _ =>
    obtain ⟨c, first, ink, slash⟩ := (opens.append rest).append (gap ++ (note ++ trail))
    rw [trimStart_append blank, List.append_assoc,
      trimStart_append fun d h => isBlank_of_isGap (gaps d h),
      trimStart_of_head fun d h => Option.mem_unique first h ▸ ink]
    exact ⟨c, first, slash⟩

/-- No command begins with a slash, so neither white space nor a comment ask for one. -/
theorem ofLine_of_idle {lead note : List Char} (blank : ∀ c ∈ lead, isBlank c = true)
    (comment : note = [] ∨ "//".toList <+: note) :
    Command.ofLine (lead ++ note) = .ok .nothing ∨
      Command.ofLine (lead ++ note) = .error .malformed := by
  have slash : ∀ c ∈ (trimStart (lead ++ note)).head?, c = '/' := by
    rw [trimStart_append blank]
    rcases comment with rfl | ⟨more, rfl⟩
    · rintro _ ⟨⟩
    · rw [trimStart_of_head (by rintro _ ⟨⟩; decide)]
      rintro _ ⟨⟩
      rfl
  by_cases malformed : Command.ofLine (lead ++ note) = .error .malformed
  · exact .inr malformed
  · obtain ⟨ts, spelled, laid⟩ := (ofLine_eq_iff malformed (lead ++ note)).1 rfl
    cases ts with
    | nil =>
      generalize Command.ofLine (lead ++ note) = r at spelled
      cases spelled
      exact .inl rfl
    | cons t ts =>
      obtain ⟨c, first, ink⟩ := exists_ink_of_laid spelled.opens laid
      exact absurd (slash c first) ink

theorem IsIdle.silent (h : IsIdle line) : Silent maxSteps s line := by
  obtain ⟨lead, note, text, blank, comment⟩ := h
  have read : Command.ofBytes line = Command.ofLine (lead ++ note) := by
    rw [Command.ofBytes, text]
  rcases ofLine_of_idle blank comment with nothing | malformed
  · exact silent_of_nothing (read.trans nothing)
  · exact silent_of_error (read.trans malformed)

/-- White space around a text goes with the white space that the text begins and ends with. -/
theorem trim_padded {before behind : List Char} (front : ∀ c ∈ before, isBlank c = true)
    (back : ∀ c ∈ behind, isBlank c = true) (cs : List Char) :
    trim (before ++ (cs ++ behind)) = trim cs := by
  have ends (text : List Char) : trimEnd (text ++ behind) = trimEnd text := by
    rw [trimEnd, List.reverse_append, trimStart_append (by simpa using back), trimEnd]
  rw [trim, trimStart_append front, trimStart, List.dropWhile_append]
  split
  next blank =>
    have nothing : trimStart cs = [] := List.isEmpty_iff.1 blank
    rw [trim, nothing]
    exact trimEnd_of_blank fun c h => back c ((List.dropWhile_suffix _).subset h)
  next => exact ends _

/-- White space around a line is not read, whether or not the line is text. -/
theorem ofBytes_padded {lead trail : List Byte} (front : IsWhite lead) (back : IsWhite trail)
    (line : List Byte) : Command.ofBytes (lead ++ (line ++ trail)) = Command.ofBytes line := by
  obtain ⟨-, before, textBefore, blankBefore⟩ := front
  obtain ⟨-, behind, textBehind, blankBehind⟩ := back
  have whole : Utf8.decode (lead ++ (line ++ trail)) =
      (Utf8.decode (line ++ trail)).map (before ++ ·) := Utf8.decode_append textBefore _
  cases text : Utf8.decode line with
  | some cs =>
    have same : trim (before ++ (cs ++ behind)) = trim cs := trim_padded blankBefore blankBehind cs
    rw [Command.ofBytes, Command.ofBytes, whole, Utf8.decode_append text, textBehind, text]
    simp only [Option.map_some, Command.ofLine, same]
  | none =>
    have none : Utf8.decode (line ++ trail) = none := by
      cases joined : Utf8.decode (line ++ trail) with
      | none => rfl
      | some cs =>
        obtain ⟨as, split⟩ := Utf8.exists_decode_of_append textBehind joined
        rw [text] at split
        cases split
    rw [Command.ofBytes, Command.ofBytes, whole, none, text, Option.map_none]

namespace IsLineIn

variable {before after : List Byte}

/-- An empty line at the end of a script, where there is none, would tell nothing. -/
theorem told_lines (h : IsLineIn before line after) (s : Machine) :
    told maxSteps s (lines (line ++ after)) = told maxSteps s (line :: lines after.tail) := by
  cases after with
  | nil =>
    rw [List.append_nil, List.tail_nil, lines_nil]
    by_cases empty : line = []
    · subst empty
      have idle : IsIdle [] := ⟨[], [], Utf8.decode_nil, List.forall_mem_nil _, .inl rfl⟩
      rw [told_cons_silent idle.silent, lines_nil]
    · rw [lines_last h.whole empty]
  | cons b after =>
    obtain rfl : b = lineFeed := h.ended b rfl
    rw [lines_line h.whole, List.tail_cons]

/-- A script is told in three parts: the lines before a line, that line, and the lines after it. -/
theorem told_script (h : IsLineIn before line after) :
    told maxSteps .initial (lines (before ++ (line ++ after))) =
      told maxSteps .initial (lines before) ++
        told maxSteps (machineAfterLines maxSteps .initial (lines before))
          (line :: lines after.tail) := by
  rw [lines_append_of_boundary _ h.boundary, told_append, h.told_lines]

/-- A silent line may be taken out of a script, with its line feed. -/
theorem told_remove (h : IsLineIn before line after)
    (silent : Silent maxSteps (machineAfterLines maxSteps .initial (lines before)) line) :
    told maxSteps .initial (lines (before ++ (line ++ after))) =
      told maxSteps .initial (lines (before ++ after.tail)) := by
  rw [h.told_script, told_cons_silent silent, lines_append_of_boundary _ h.boundary, told_append]

theorem told_pad (h : IsLineIn before line after) {lead trail : List Byte} (front : IsWhite lead)
    (back : IsWhite trail) :
    told maxSteps .initial (lines (before ++ (line ++ after))) =
      told maxSteps .initial (lines (before ++ (lead ++ (line ++ (trail ++ after))))) := by
  have whole : lineFeed ∉ lead ++ (line ++ trail) := by
    simp only [List.mem_append, not_or]
    exact ⟨front.1, h.whole, back.1⟩
  have padded : IsLineIn before (lead ++ (line ++ trail)) after := ⟨h.boundary, whole, h.ended⟩
  have bytes : lead ++ (line ++ (trail ++ after)) = lead ++ (line ++ trail) ++ after := by
    simp only [List.append_assoc]
  rw [bytes, h.told_script, padded.told_script, told_cons_congr (ofBytes_padded front back line)]

end IsLineIn

/-- Every place of a script is in one of its lines. -/
theorem exists_boundary (text : List Byte) : ∃ before line, text = before ++ line ∧
    (before = [] ∨ before.getLast? = some lineFeed) ∧ lineFeed ∉ line := by
  induction text using List.reverseRecOn with
  | nil => exact ⟨[], [], rfl, .inl rfl, List.not_mem_nil⟩
  | append_singleton text b ih =>
    obtain ⟨before, line, rfl, boundary, whole⟩ := ih
    by_cases feed : b = lineFeed
    · exact ⟨before ++ line ++ [b], [], by simp, .inr (by simp [feed]), List.not_mem_nil⟩
    · refine ⟨before, line ++ [b], by simp, boundary, ?_⟩
      simpa using ⟨whole, Ne.symm feed⟩

/-- The step lemma: one edit at a time. -/
theorem Edit.told_eq {script other : List Byte} (h : Edit maxSteps script other) :
    told maxSteps .initial (lines script) = told maxSteps .initial (lines other) := by
  cases h with
  | idle place idle => exact place.told_remove idle.silent
  | failing place fails => exact place.told_remove fails.silent
  | padding place front back => exact place.told_pad front back
  | lineEnd before after =>
    obtain ⟨before, line, rfl, boundary, whole⟩ := exists_boundary before
    have place : IsLineIn before line (lineFeed :: after) :=
      ⟨boundary, whole, by rintro _ ⟨⟩; rfl⟩
    have none : IsWhite [] := ⟨List.not_mem_nil, [], Utf8.decode_nil, List.forall_mem_nil _⟩
    have back : IsWhite [carriageReturn] := by
      refine ⟨by decide, ['\r'], Utf8.decode_cons_ascii (by decide) [], ?_⟩
      rw [List.forall_mem_singleton]
      decide
    rw [List.append_assoc, List.append_assoc]
    exact place.told_pad none back
  | lastFeed =>
    obtain ⟨before, line, rfl, boundary, whole⟩ := exists_boundary script
    have unfed : IsLineIn before line [] := ⟨boundary, whole, by rintro _ ⟨⟩⟩
    have fed : IsLineIn before line [lineFeed] := ⟨boundary, whole, by rintro _ ⟨⟩; rfl⟩
    have alike : told maxSteps .initial _ = _ := unfed.told_script
    rw [List.append_nil] at alike
    rw [alike, List.append_assoc, fed.told_script]
    rfl

/-- A session that goes on past failures sends the same tokens after any edits of its script:
blank lines and comments put in or taken out, lines that fail left out or put in, white space put
around lines or taken off, line ends of either kind, a line feed after the last line or none. -/
theorem layout_does_not_matter (maxSteps : Nat) {script other : List Byte}
    (h : Relation.EqvGen (Edit maxSteps) script other) :
    (runScript ⟨false, maxSteps⟩ true script).tokens =
      (runScript ⟨false, maxSteps⟩ true other).tokens := by
  rw [tokens_runScript, tokens_runScript]
  induction h with
  | rel _ _ edit => exact edit.told_eq
  | refl => rfl
  | symm _ _ _ ih => exact ih.symm
  | trans _ _ _ _ _ first second => exact first.trans second

end

/-- Halts in its second line, so that the third is refused. -/
def haltingScript : List Byte :=
  ascii "load #0x0000 0x(76)\nrun\nstep\n// done\nassert A=0x00 $$still$$"

/-- The same without the refused line and the comment, with other white space. -/
def tidiedScript : List Byte := ascii "load #0x0000 0x(76)\r\nrun\n\tassert A=0x00 $$still$$"

theorem layout_does_not_matter_halting :
    (runScript ⟨false, 10⟩ true haltingScript).tokens =
        (runScript ⟨false, 10⟩ true tidiedScript).tokens ∧
      (runScript ⟨false, 10⟩ true haltingScript).tokens.length = 3 := by
  let before := ascii "load #0x0000 0x(76)\nrun\n"
  let last := ascii "assert A=0x00 $$still$$"
  have boundary : before.getLast? = some lineFeed := by decide +kernel
  have refused : Edit 10 haltingScript (before ++ (ascii "// done" ++ lineFeed :: last)) := by
    have read : Command.ofBytes (ascii "step") = .ok .step :=
      Command.ofBytes_eq_ok (by decide +kernel)
    have halted : (machineAfterLines 10 .initial (lines before)).isHalted = true := by
      decide +kernel
    have whole : haltingScript =
        before ++ (ascii "step" ++ lineFeed :: (ascii "// done" ++ lineFeed :: last)) := by
      decide +kernel
    have fails : Fails 10 (machineAfterLines 10 .initial (lines before)) (ascii "step") :=
      .inr ⟨.step, _, read, Command.result_of_refusal trivial (.step halted)⟩
    rw [whole]
    exact .failing ⟨.inr boundary, by decide +kernel, by rintro _ ⟨⟩; rfl⟩ fails
  have noted : Edit 10 (before ++ (ascii "// done" ++ lineFeed :: last)) (before ++ last) := by
    have idle : IsIdle (ascii "// done") :=
      ⟨[], "// done".toList, by decide +kernel, List.forall_mem_nil _, .inr ⟨" done".toList, rfl⟩⟩
    exact .idle ⟨.inr boundary, by decide +kernel, by rintro _ ⟨⟩; rfl⟩ idle
  have indented : Edit 10 (before ++ last) (before ++ (ascii "\t" ++ last)) := by
    have none : IsWhite [] := ⟨List.not_mem_nil, [], Utf8.decode_nil, List.forall_mem_nil _⟩
    have tab : IsWhite (ascii "\t") :=
      ⟨by decide +kernel, ['\t'], by decide +kernel, List.all_eq_true.1 rfl⟩
    have place : IsLineIn before last [] := ⟨.inr boundary, by decide +kernel, by rintro _ ⟨⟩⟩
    have padding : Edit 10 (before ++ (last ++ [])) _ := .padding place tab none
    simpa using padding
  have ended : Edit 10 (before ++ (ascii "\t" ++ last)) tidiedScript := by
    have split : before ++ (ascii "\t" ++ last) =
        ascii "load #0x0000 0x(76)" ++ lineFeed :: (ascii "run\n\t" ++ last) := by decide +kernel
    have joined : tidiedScript = ascii "load #0x0000 0x(76)" ++
        carriageReturn :: lineFeed :: (ascii "run\n\t" ++ last) := by decide +kernel
    rw [split, joined]
    exact .lineEnd _ _
  have edits : Relation.EqvGen (Edit 10) haltingScript tidiedScript :=
    .trans _ _ _ (.rel _ _ refused) <| .trans _ _ _ (.rel _ _ noted) <|
      .trans _ _ _ (.rel _ _ indented) (.rel _ _ ended)
  exact ⟨layout_does_not_matter 10 edits, by decide +kernel⟩

end Emu8085.Script
