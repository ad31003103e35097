import Emu8085.Yaml.Cursor
import Emu8085.Yaml.Token

/-!
# Scalars of YAML

The text of a scalar is not the text that is written: white space at line breaks is folded, quoted
characters are replaced, indentation is dropped.
-/
namespace Emu8085.Yaml

open Reader

def isFlowMark (c : Char) : Bool := c == ',' || c == '[' || c == ']' || c == '{' || c == '}'

/-- What line breaks fold to, the first of them apart: a single line feed to a blank, more of them
to all but the first. A separator stays. -/
def fold : Option Char → List Char → List Char
  | some '\n', [] => [' ']
  | some '\n', breaks => breaks
  | some c, breaks => c :: breaks
  | none, breaks => breaks

/-- What white space stands for inside a scalar; `broken` says that a line break before it was
dropped. -/
def gapText (broken : Bool) (run : List Char) : List Char :=
  match run.filter isBreak with
  | [] => if broken then [] else run
  | c :: breaks => if broken then fold none (c :: breaks) else fold (some c) breaks

/-- The characters of a plain scalar up to white space or its end. A colon ends it before white
space, and is an error in front of punctuation of a flow collection. -/
def plainRun (flow : Bool) : List Char → Option (List Char)
  | [] => some []
  | c :: rest =>
    if isSpace c then some []
    else if flow && c == ':' && rest.head?.any (fun d => isFlowMark d || d == '?') then none
    else if c == ':' && isGap rest.head? || flow && isFlowMark c then some []
    else (plainRun flow rest).map (c :: ·)

/-- White space between parts of a plain scalar; a tab does not indent. -/
def plainGap (least : Nat) : Nat → Bool → Reader (List Char)
  | 0, _ => failure
  | fuel + 1, broken => do
    let here ← get
    match here.rest with
    | c :: _ =>
      if isSpace c then
        guard (!(broken && c == '\t' && here.column < least))
        skip
        return c :: (← plainGap least fuel (broken || isBreak c))
      else return []
    | [] => return []

/-- A plain scalar after white space that stands for `gap` if more of the scalar follows. Further
lines have at least the given column. Also gives whether it ends after a line break. -/
def plainText (flow : Bool) (least : Nat) :
    Nat → (gap : List Char) → (broken : Bool) → Reader (List Char × Bool)
  | 0, _, _ => failure
  | fuel + 1, gap, broken => do
    let here ← get
    if here.isMarker || here.rest.head? == some '#' then return ([], broken)
    else
      let run ← (plainRun flow here.rest).elim failure pure
      skips run.length
      if run.isEmpty then return ([], broken)
      else
        let space ← plainGap least (fuel + 1) false
        let after ← get
        let ended := space.isEmpty || (!flow && after.column < least)
        let (more, broken) ←
          if ended then pure ([], space.any isBreak)
          else plainText flow least fuel (gapText false space) (space.any isBreak)
        return (gap ++ run ++ more, broken)

/-- The character of an escape in double quotes; `x`, `u` and `U` take hexadecimal digits. -/
def escaped : Reader Char := do
  let c ← (← peek).elim failure pure
  skip
  let numeric (width : Nat) : Reader Char := do
    let digits := (← get).rest.take width
    guard (digits.length == width)
    skips width
    let n ← (Text.number? 16 digits).elim failure pure
    guard (decide n.isValidChar)
    return Char.ofNat n
  match c with
  | '0' => return '\x00'
  | 'a' => return '\x07'
  | 'b' => return '\x08'
  | 't' | '\t' => return '\t'
  | 'n' => return '\n'
  | 'v' => return '\x0b'
  | 'f' => return '\x0c'
  | 'r' => return '\r'
  | 'e' => return '\x1b'
  | ' ' | '"' | '/' | '\\' => return c
  | 'N' => return '\x85'
  | '_' => return '\xa0'
  | 'L' => return '\u2028'
  | 'P' => return '\u2029'
  | 'x' => numeric 2
  | 'u' => numeric 4
  | 'U' => numeric 8
  | _ => failure

/-- The text up to the closing quote. A single quote is doubled inside single quotes; a backslash
in double quotes takes away the line break after it. -/
def quotedText (quote : Char) : Nat → Reader (List Char)
  | 0 => failure
  | fuel + 1 => do
    let here ← get
    guard (!here.isMarker)
    match here.rest with
    | [] => failure
    | c :: rest =>
      if isSpace c then
        let space ← takeWhile isSpace
        return gapText false space ++ (← quotedText quote fuel)
      else
        skip
        if c == quote then
          if quote == '\'' && rest.head? == some '\'' then
            skip
            return '\'' :: (← quotedText quote fuel)
          else return []
        else if quote == '"' && c == '\\' then
          if rest.head?.any isBreak then
            skip
            let space ← takeWhile isSpace
            return gapText true (space.drop 1) ++ (← quotedText quote fuel)
          else
            let e ← escaped
            return e :: (← quotedText quote fuel)
        else return c :: (← quotedText quote fuel)

/-- Passes empty lines of a block scalar and the indentation of the next line. Gives the line
breaks and the largest column reached. Without an indentation all spaces are passed. -/
def emptyLines (indent : Nat) : Nat → Nat → Reader (List Char × Nat)
  | 0, _ => failure
  | fuel + 1, widest => do
    let here ← get
    let spaces := (here.rest.takeWhile (· == ' ')).length
    skips (if indent == 0 then spaces else min spaces (indent - here.column))
    let here ← get
    let widest := max widest here.column
    match here.rest.head? with
    | some c =>
      if isBreak c then
        skip
        let (breaks, widest) ← emptyLines indent fuel widest
        return (c :: breaks, widest)
      else
        guard (!(c == '\t' && (indent == 0 || here.column < indent)))
        return ([], widest)
    | none => return ([], widest)

/-- The lines of a block scalar, the line breaks before them being `first` and `breaks`; `indented`
says that the line before begins with a blank. Breaks next to such a line are not folded. Also
gives the breaks that are left at the end. -/
def blockLines (folding : Bool) (indent : Nat) :
    Nat → (first breaks : List Char) → (indented : Bool) → Reader (List Char × List Char × List Char)
  | 0, _, _, _ => failure
  | fuel + 1, first, breaks, indented => do
    let here ← get
    if here.column != indent || here.rest.isEmpty then return ([], first, breaks)
    else
      let blank := here.rest.head?.any isBlank
      let joint :=
        if folding && first == ['\n'] && !indented && !blank then fold (some '\n') breaks
        else first ++ breaks
      let line ← takeWhile (!isBreak ·)
      let first := (← peek).toList
      skip
      let (breaks, _) ← emptyLines indent (fuel + 1) 0
      let (more, first, breaks) ← blockLines folding indent fuel first breaks blank
      return (joint ++ line ++ more, first, breaks)

/-- A block scalar after its sign, inside a collection whose content has the margin as its least
column. After the sign stand how breaks at the end are treated, all kept or all dropped, and how
far the lines are indented, in any order. -/
def blockText (folding : Bool) (margin : Nat) (fuel : Nat) : Reader (List Char) := do
  let isChomp (c : Char) : Bool := c == '+' || c == '-'
  let header ← takeWhile fun c => isChomp c || c.isDigit
  let (chomps, digits) := header.partition isChomp
  guard (chomps.length ≤ 1 && digits.length ≤ 1 && digits != ['0'])
  restOfLine
  let given := match digits with
    | d :: _ => margin - 1 + (d.toNat - '0'.toNat)
    | [] => 0
  let (breaks, widest) ← emptyLines given fuel 0
  let indent := if given == 0 then max 1 (max margin widest) else given
  let (text, first, breaks) ← blockLines folding indent fuel [] breaks false
  return match chomps with
    | ['-'] => text
    | ['+'] => text ++ first ++ breaks
    | _ => text ++ first

end Emu8085.Yaml
