import Emu8085.Script.Grammar
import Emu8085.Text.Utf8

/-!
# Lines of a script

A script is a string of bytes, cut after each line feed. A line is text or not by itself; a
carriage return at its end is white space like any other.
-/
namespace Emu8085.Script

open Text

def lineFeed : Byte := 0x0A

/-- Puts a byte in front of some lines: on the first one, or as the end of an empty line. -/
def addByte (b : Byte) (lines : List (List Byte)) : List (List Byte) :=
  if b = lineFeed then [] :: lines
  else match lines with
    | [] => [[b]]
    | line :: rest => (b :: line) :: rest

/-- The lines without their line feeds; after the last line feed there is one only if bytes
follow. -/
def lines (script : List Byte) : List (List Byte) := script.foldr addByte []

def Command.ofBytes (line : List Byte) : Except LineError Command :=
  match Utf8.decode line with
  | some cs => Command.ofLine cs
  | none => .error .notText

theorem Command.ofBytes_eq_ok {line : List Byte} {c : Command}
    (h : (Command.ofBytes line).toOption = some c) : Command.ofBytes line = .ok c := by
  cases read : Command.ofBytes line with
  | error e =>
    rw [read] at h
    cases h
  | ok d =>
    rw [read] at h
    exact congrArg Except.ok (Option.some.inj h)

theorem Command.exists_ofBytes_eq_error {line : List Byte}
    (h : (Command.ofBytes line).toOption = none) : ∃ e, Command.ofBytes line = .error e := by
  cases read : Command.ofBytes line with
  | error e => exact ⟨e, rfl⟩
  | ok d =>
    rw [read] at h
    cases h

@[simp] theorem lines_nil : lines [] = [] := rfl

@[simp] theorem lines_cons (b : Byte) (script : List Byte) :
    lines (b :: script) = addByte b (lines script) := rfl

/-- A line ends at the first line feed. -/
theorem lines_line {line : List Byte} (whole : lineFeed ∉ line) (rest : List Byte) :
    lines (line ++ lineFeed :: rest) = line :: lines rest := by
  induction line with
  | nil => simp only [List.nil_append, lines_cons, addByte, if_pos]
  | cons b line ih =>
    rw [List.mem_cons, not_or] at whole
    simp only [List.cons_append, lines_cons, ih whole.2, addByte, if_neg (Ne.symm whole.1)]

/-- The last line needs no line feed. -/
theorem lines_last {line : List Byte} (whole : lineFeed ∉ line) (nonempty : line ≠ []) :
    lines line = [line] := by
  induction line with
  | nil => exact absurd rfl nonempty
  | cons b line ih =>
    rw [List.mem_cons, not_or] at whole
    cases line with
    | nil => simp only [lines_cons, lines_nil, addByte, if_neg (Ne.symm whole.1)]
    | cons c line =>
      rw [lines_cons, ih whole.2 (List.cons_ne_nil c line)]
      simp only [addByte, if_neg (Ne.symm whole.1)]

/-- A script that ends with a line feed has the same lines whatever follows it. -/
theorem lines_append (s t : List Byte) :
    lines (s ++ lineFeed :: t) = lines (s ++ [lineFeed]) ++ lines t := by
  induction s with
  | nil => simp [addByte]
  | cons b s ih =>
    simp only [List.cons_append, lines_cons, ih]
    unfold addByte
    split
    · rfl
    · cases h : lines (s ++ [lineFeed]) with
      | nil =>
        cases s with
        | nil => simp [addByte] at h
        | cons c s =>
          simp only [List.cons_append, lines_cons, addByte] at h
          split at h
          · simp at h
          · split at h <;> simp at h
      | cons => simp

end Emu8085.Script
