import Emu8085.Yaml.Cursor
import Emu8085.Yaml.Token

/-!
# Names, tags and directives of YAML

A tag says of what type a value is: a handle, which a directive may define, and the rest of its
name, in the characters of resource names. An octet that is escaped in it stands as the character
of the same number.
-/
namespace Emu8085.Yaml

open Reader

/-- The name of an anchor or of a reference, with a gap or punctuation after it. -/
def anchorName : Reader String := do
  let name ← takeWhile isNameChar
  let next ← peek
  guard (!name.isEmpty && (isGap next || next.any fun c => "?:,]\x7d%@\x60".contains c))
  return String.ofList name

def isTagChar (delimited : Bool) (c : Char) : Bool :=
  isNameChar c || ";/?:@&=+$.%!~*'()".contains c || (delimited && ",[]".contains c)

def octet : Reader Nat := do
  match (← get).rest with
  | '%' :: high :: low :: _ =>
    skips 3
    (Text.number? 16 [high, low]).elim failure pure
  | _ => failure

def following? (first : Nat) : Option Nat :=
  if first < 0x80 then some 0
  else if first < 0xC0 then none
  else if first < 0xE0 then some 1
  else if first < 0xF0 then some 2
  else if first < 0xF8 then some 3
  else none

def continuations : Nat → Reader (List Char)
  | 0 => return []
  | n + 1 => do
    let code ← octet
    guard (0x80 ≤ code && code < 0xC0)
    return Char.ofNat code :: (← continuations n)

def escapedOctets : Reader (List Char) := do
  let first ← octet
  let count ← (following? first).elim failure pure
  return Char.ofNat first :: (← continuations count)

def tagChars (delimited : Bool) : Nat → Reader (List Char)
  | 0 => failure
  | fuel + 1 => do
    match ← peek with
    | some c =>
      if isTagChar delimited c then
        let cs ←
          if c == '%' then escapedOctets
          else do
            skip
            pure [c]
        return cs ++ (← tagChars delimited fuel)
      else return []
    | none => return []

/-- The rest of a tag; a zero octet ends it. -/
def tagText (delimited : Bool) (fuel : Nat) : Reader String := do
  let cs ← tagChars delimited fuel
  return String.ofList (cs.takeWhile (· != '\x00'))

/-- A rest of a tag that is not empty as it is written. -/
def someTagText (delimited : Bool) (fuel : Nat) : Reader String := do
  guard ((← peek).any (isTagChar delimited))
  tagText delimited fuel

/-- An exclamation mark and the name after it, up to a second mark if there is one. -/
def handleName : Reader (List Char) := do
  guard ((← peek) == some '!')
  skip
  let name ← takeWhile isNameChar
  if (← peek) == some '!' then
    skip
    return '!' :: name ++ ['!']
  else return '!' :: name

def isEnclosed (name : List Char) : Bool := 2 ≤ name.length && name.getLast? == some '!'

/-- A tag with its handle, which is empty if the tag is given in full. A gap ends it, or a comma
in a flow collection. -/
def tag (flow : Bool) (fuel : Nat) : Reader Token := do
  let (handle, text) ←
    if (← get).rest[1]? == some '<' then do
      skips 2
      let text ← someTagText true fuel
      guard ((← peek) == some '>')
      skip
      pure ("", text)
    else do
      let name ← handleName
      if isEnclosed name then pure (String.ofList name, ← someTagText false fuel)
      else do
        let text := String.ofList (name.drop 1) ++ (← tagText false fuel)
        pure (if text.isEmpty then ("", "!") else ("!", text))
  let next ← peek
  guard (isGap next || (flow && next == some ','))
  return .tag handle text

def versionNumber : Reader Nat := do
  let digits ← takeWhile Char.isDigit
  guard (digits.length ≤ 9)
  (Text.number? 10 digits).elim failure pure

def directive (fuel : Nat) : Reader Token := do
  skip
  let name ← takeWhile isNameChar
  guard (isGap (← peek))
  discard (takeWhile isBlank)
  match String.ofList name with
  | "YAML" =>
    let major ← versionNumber
    guard ((← peek) == some '.')
    skip
    let minor ← versionNumber
    restOfLine
    return .version major minor
  | "TAG" =>
    let name ← handleName
    guard (isEnclosed name || name == ['!'])
    guard ((← peek).any isBlank)
    discard (takeWhile isBlank)
    let meaning ← someTagText true fuel
    guard (isGap (← peek))
    restOfLine
    return .handle (String.ofList name) meaning
  | _ => failure

end Emu8085.Yaml
