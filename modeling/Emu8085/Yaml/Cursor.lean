import Emu8085.Text.Number

/-!
# Places in a YAML text

A reader moves along a text and knows how far it is, on which line and in which column, since
YAML gives meaning to all three.
-/
namespace Emu8085.Yaml

def isPrintable (c : Char) : Bool :=
  let n := c.toNat
  n == 0x09 || n == 0x0A || n == 0x0D || (0x20 ≤ n && n ≤ 0x7E) || n == 0x85 ||
    (0xA0 ≤ n && n ≤ 0xD7FF) || (0xE000 ≤ n && n ≤ 0xFFFD) || 0x10000 ≤ n

/-- The breaks that mean no more than a new line, as line feeds. -/
def unifyBreaks : List Char → List Char
  | '\r' :: '\n' :: cs => '\n' :: unifyBreaks cs
  | c :: cs => (if c == '\r' || c == '\x85' then '\n' else c) :: unifyBreaks cs
  | [] => []

/-- A line feed, or a line or paragraph separator, which a folded text keeps. -/
def isBreak (c : Char) : Bool := c == '\n' || c == '\u2028' || c == '\u2029'

def isBlank (c : Char) : Bool := c == ' ' || c == '\t'

def isSpace (c : Char) : Bool := isBlank c || isBreak c

def isGap (c : Option Char) : Bool := c.all isSpace

def endsLine (c : Option Char) : Bool := c.all isBreak

def isNameChar (c : Char) : Bool := c.isAlphanum || c == '_' || c == '-'

structure Cursor where
  rest : List Char
  index : Nat
  line : Nat
  column : Nat

namespace Cursor

def start (cs : List Char) : Cursor := ⟨cs, 0, 0, 0⟩

def advance (place : Cursor) : Cursor :=
  match place.rest with
  | [] => place
  | c :: rest =>
    if isBreak c then ⟨rest, place.index + 1, place.line + 1, 0⟩
    else ⟨rest, place.index + 1, place.line, place.column + 1⟩

def isDocumentStart (place : Cursor) : Bool :=
  place.column == 0 && match place.rest with
    | '-' :: '-' :: '-' :: rest => isGap rest.head?
    | _ => false

def isDocumentEnd (place : Cursor) : Bool :=
  place.column == 0 && match place.rest with
    | '.' :: '.' :: '.' :: rest => isGap rest.head?
    | _ => false

def isMarker (place : Cursor) : Bool := place.isDocumentStart || place.isDocumentEnd

end Cursor

abbrev Reader := StateT Cursor Option

namespace Reader

def peek : Reader (Option Char) := do return (← get).rest.head?

def skip : Reader Unit := modify Cursor.advance

def skips : Nat → Reader Unit
  | 0 => pure ()
  | n + 1 => do
    skip
    skips n

def takeWhile (p : Char → Bool) : Reader (List Char) := do
  let taken := (← get).rest.takeWhile p
  skips taken.length
  return taken

def comment : Reader Unit := do
  if (← peek) == some '#' then discard (takeWhile (!isBreak ·)) else pure ()

/-- Moves to the end of the line, where only a comment may follow, and past it. -/
def restOfLine : Reader Unit := do
  discard (takeWhile isBlank)
  comment
  guard (endsLine (← peek))
  skip

end Reader

end Emu8085.Yaml
