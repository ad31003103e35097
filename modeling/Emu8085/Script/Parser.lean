import Emu8085.Text.Number

/-!
# Reading a line

A parser takes characters off the front of a line or fails. Choices are ordered: what the first
matching alternative took is never given back. Between tokens blanks, tabs and a comment are
skipped; inside a token nothing is.
-/
namespace Emu8085.Script

def Parser (α : Type) : Type := List Char → Option (α × List Char)

namespace Parser

variable {α β : Type}

protected def pure (x : α) : Parser α := fun cs => some (x, cs)

protected def bind (p : Parser α) (f : α → Parser β) : Parser β := fun cs =>
  match p cs with
  | some (x, rest) => f x rest
  | none => none

instance : Monad Parser where
  pure := Parser.pure
  bind := Parser.bind

def fail : Parser α := fun _ => none

/-- The second alternative where the first fails, from the same place. -/
def orElse (p q : Parser α) : Parser α := fun cs =>
  match p cs with
  | some r => some r
  | none => q cs

def choice : List (Parser α) → Parser α
  | [] => fail
  | p :: ps => orElse p (choice ps)

/-- Takes nothing where the parser fails. -/
def optional (p : Parser α) : Parser (Option α) := fun cs =>
  match p cs with
  | some (x, rest) => some (some x, rest)
  | none => some (none, cs)

def isGap (c : Char) : Bool := c == ' ' || c == '\t'

def endsLine (c : Char) : Bool := c == '\n' || c == '\r'

/-- What is left after blanks, tabs and a comment up to the end of its line. -/
def afterGap (cs : List Char) : List Char :=
  match cs.dropWhile isGap with
  | '/' :: '/' :: rest => rest.dropWhile (!endsLine ·)
  | rest => rest

def gap : Parser Unit := fun cs => some ((), afterGap cs)

def afterFront : List Char → List Char → Option (List Char)
  | [], cs => some cs
  | _ :: _, [] => none
  | w :: ws, c :: cs => if w = c then afterFront ws cs else none

def exactly (text : String) : Parser Unit := fun cs =>
  (afterFront text.toList cs).map fun rest => ((), rest)

def token (p : Parser α) : Parser α := do
  gap
  p

def word (text : String) : Parser Unit := token (exactly text)

/-- The number that so many hexadecimal digits denote, at least one. -/
def hexNumber (digits : Nat) : Parser Nat := fun cs =>
  if (cs.take digits).length = digits then
    (Text.number? 16 (cs.take digits)).map fun n => (n, cs.drop digits)
  else none

def digits : Parser (List Char) := fun cs =>
  match cs.takeWhile Char.isDigit with
  | [] => none
  | ds => some (ds, cs.dropWhile Char.isDigit)

/-- The text in front of the first `$$`, or all of it. -/
def splitMark : List Char → List Char × List Char
  | '$' :: '$' :: rest => ([], '$' :: '$' :: rest)
  | c :: rest => (c :: (splitMark rest).1, (splitMark rest).2)
  | [] => ([], [])

def beforeMark : Parser String := fun cs =>
  some (String.ofList (splitMark cs).1, (splitMark cs).2)

def finish : Parser Unit := fun cs =>
  match afterGap cs with
  | [] => some ((), [])
  | _ => none

@[simp] theorem pure_apply (x : α) (cs : List Char) : (pure x : Parser α) cs = some (x, cs) := rfl

theorem bind_apply (p : Parser α) (f : α → Parser β) (cs : List Char) :
    (p >>= f) cs = match p cs with
      | some (x, rest) => f x rest
      | none => none := rfl

@[simp] theorem bind_of_eq_some {p : Parser α} {f : α → Parser β} {cs rest : List Char} {x : α}
    (h : p cs = some (x, rest)) : (p >>= f) cs = f x rest := by
  rw [bind_apply, h]

@[simp] theorem bind_of_eq_none {p : Parser α} {f : α → Parser β} {cs : List Char}
    (h : p cs = none) : (p >>= f) cs = none := by
  rw [bind_apply, h]

@[simp] theorem token_apply (p : Parser α) (cs : List Char) : token p cs = p (afterGap cs) := rfl

theorem afterFront_eq_some {ws cs rest : List Char} :
    afterFront ws cs = some rest ↔ cs = ws ++ rest := by
  induction ws generalizing cs with
  | nil => simp [afterFront]
  | cons w ws ih =>
    cases cs with
    | nil => simp [afterFront]
    | cons c cs =>
      by_cases h : w = c
      · simp [afterFront, h, ih]
      · simp [afterFront, h, Ne.symm h]

theorem exactly_append (text : String) (rest : List Char) :
    exactly text (text.toList ++ rest) = some ((), rest) := by
  simp [exactly, afterFront_eq_some.2 rfl]

/-- The two parts of a split are the whole. -/
theorem splitMark_append (cs : List Char) : (splitMark cs).1 ++ (splitMark cs).2 = cs := by
  fun_induction splitMark cs with
  | case1 => rfl
  | case2 c rest _ ih => simp [ih]
  | case3 => rfl

end Parser

end Emu8085.Script
