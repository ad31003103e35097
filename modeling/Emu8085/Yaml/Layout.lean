import Emu8085.Yaml.Scalar
import Emu8085.Yaml.Tag

/-!
# The layout of YAML

The tokens of a text. A block collection is open as long as lines are indented to its column. A
value is known to be a key only at the colon after it, so the mark of the key is inserted later, at
the place where the value began; that has to be on the same line and not far away.
-/
namespace Emu8085.Yaml

open Reader

/-- A place where a key may have begun: how many tokens and characters are before it. -/
structure KeyPlace where
  tokens : Nat
  index : Nat
  line : Nat
  column : Nat
  /-- Nothing else than a key can stand there. -/
  required : Bool

structure Layout where
  cursor : Cursor
  tokens : Array Token
  /-- The least column of what is inside the innermost block collection. -/
  margin : Nat
  /-- The margins of the collections around it. -/
  outer : List Nat
  /-- The key that may have begun, for each flow collection and the block structure around. -/
  keys : List (Option KeyPlace)
  keyAllowed : Bool

def keyReach : Nat := 1024

abbrev Scan := StateT Layout Option

namespace Layout

def start (cs : List Char) : Layout := ⟨.start cs, #[], 0, [], [none], true⟩

def inFlow (s : Layout) : Bool := 1 < s.keys.length

def closeFrom (bound : Nat) (tokens : Array Token) (margin : Nat) :
    List Nat → Array Token × Nat × List Nat
  | [] => (tokens, margin, [])
  | m :: outer =>
    if margin ≤ bound then (tokens, margin, m :: outer)
    else closeFrom bound (tokens.push .blockEnd) m outer

/-- Ends the block collections that are indented further; flow collections have no indentation. -/
def closeBlocks (bound : Nat) (s : Layout) : Layout :=
  if s.inFlow then s
  else
    let (tokens, margin, outer) := closeFrom bound s.tokens s.margin s.outer
    { s with tokens, margin, outer }

/-- Begins a block collection in a column, unless one is open there, at a place among the tokens. -/
def openBlock (column place : Nat) (bracket : Token) (s : Layout) : Layout :=
  if s.inFlow || column < s.margin then s
  else
    { s with
      tokens := s.tokens.insertIdxIfInBounds place bracket
      margin := column + 1
      outer := s.margin :: s.outer }

end Layout

namespace Scan

def read {α : Type} (r : Reader α) : Scan α := do
  let s ← get
  match r.run s.cursor with
  | some (x, cursor) =>
    set { s with cursor }
    return x
  | none => failure

def emit (token : Token) : Scan Unit := modify fun s => { s with tokens := s.tokens.push token }

def allowKey (allowed : Bool) : Scan Unit := modify fun s => { s with keyAllowed := allowed }

def dropKey : Scan Unit := do
  let s ← get
  guard (s.keys.head?.join.all (!·.required))
  set { s with keys := none :: s.keys.drop 1 }

/-- A key may begin here, if it may at all. -/
def mayBeginKey : Scan Unit := do
  let s ← get
  if s.keyAllowed then
    dropKey
    let here := s.cursor
    let required := !s.inFlow && s.margin == here.column + 1
    let key : KeyPlace := ⟨s.tokens.size, here.index, here.line, here.column, required⟩
    modify fun s => { s with keys := some key :: s.keys.drop 1 }
  else pure ()

/-- Forgets the keys whose colon can no longer come. -/
def dropLostKeys : Scan Unit := do
  let s ← get
  let isLost (key : KeyPlace) : Bool :=
    key.line < s.cursor.line || key.index + keyReach < s.cursor.index
  guard (s.keys.all fun key => key.all fun key => !(isLost key && key.required))
  set { s with keys := s.keys.map (Option.filter (!isLost ·)) }

/-- Passes white space, comments and line breaks. A tab is no white space where a key may begin; a
byte order mark may begin a line. -/
def toToken : Nat → Scan Unit
  | 0 => failure
  | fuel + 1 => do
    let s ← get
    if s.cursor.column == 0 && s.cursor.rest.head? == some '\uFEFF' then read skip else pure ()
    let tabs := s.inFlow || !s.keyAllowed
    discard (read (takeWhile fun c => c == ' ' || (tabs && c == '\t')))
    read comment
    if (← read peek).any isBreak then
      read skip
      if s.inFlow then pure () else allowKey true
      toToken fuel
    else pure ()

def sign (length : Nat) (token : Token) : Scan Unit := do
  read (skips length)
  emit token

def endBlocks : Scan Unit := do
  modify (·.closeBlocks 0)
  dropKey
  allowKey false

/-- A sign that belongs to a block collection begins one here if none is open. -/
def beginBlock (bracket : Token) : Scan Unit := do
  let s ← get
  guard (s.inFlow || s.keyAllowed)
  set (s.openBlock s.cursor.column s.tokens.size bracket)

def beginFlow (bracket : Token) : Scan Unit := do
  mayBeginKey
  modify fun s => { s with keys := none :: s.keys, keyAllowed := true }
  sign 1 bracket

def endFlow (bracket : Token) : Scan Unit := do
  dropKey
  modify fun s => { s with keys := if s.inFlow then s.keys.drop 1 else s.keys, keyAllowed := false }
  sign 1 bracket

def comma : Scan Unit := do
  dropKey
  allowKey true
  sign 1 .comma

def item : Scan Unit := do
  beginBlock .blockSequence
  dropKey
  allowKey true
  sign 1 .item

def keySign : Scan Unit := do
  beginBlock .blockMapping
  dropKey
  allowKey (!(← get).inFlow)
  sign 1 .key

/-- A colon. What may have begun as a key is one now. -/
def valueSign : Scan Unit := do
  let s ← get
  match s.keys.head?.join with
  | some key =>
    let s := { s with
      tokens := s.tokens.insertIdxIfInBounds key.tokens .key
      keys := none :: s.keys.drop 1
      keyAllowed := false }
    set (s.openBlock key.column key.tokens .blockMapping)
  | none =>
    beginBlock .blockMapping
    allowKey (!s.inFlow)
  sign 1 .value

/-- A token that may begin a key but after which none begins. -/
def keyPart (token : Reader Token) : Scan Unit := do
  mayBeginKey
  allowKey false
  emit (← read token)

def named (token : String → Token) : Scan Unit := keyPart do
  skip
  return token (← anchorName)

def quotedScalar (quote : Char) (fuel : Nat) : Scan Unit := keyPart do
  skip
  let text ← quotedText quote fuel
  return .scalar .quoted (String.ofList text)

/-- A plain scalar that ends after a line break lets a key begin on the new line. -/
def plainScalar (fuel : Nat) : Scan Unit := do
  mayBeginKey
  let s ← get
  let (text, broken) ← read (plainText s.inFlow s.margin fuel [] false)
  allowKey broken
  emit (.scalar .plain (String.ofList text))

def blockScalar (style : Style) (fuel : Nat) : Scan Unit := do
  dropKey
  allowKey true
  let s ← get
  guard (!s.inFlow)
  read skip
  let text ← read (blockText (style == .folded) s.margin fuel)
  emit (.scalar style (String.ofList text))

def tokenAt (c : Char) (fuel : Nat) : Scan Unit := do
  let s ← get
  let place := s.cursor
  let stands := isGap place.rest[1]?
  if place.column == 0 && c == '%' then
    endBlocks
    emit (← read (directive fuel))
  else if place.isDocumentStart then
    endBlocks
    sign 3 .documentStart
  else if place.isDocumentEnd then
    endBlocks
    sign 3 .documentEnd
  else match c with
    | '[' => beginFlow .flowSequence
    | '{' => beginFlow .flowMapping
    | ']' => endFlow .flowSequenceEnd
    | '}' => endFlow .flowMappingEnd
    | ',' => comma
    | '-' => if stands then item else plainScalar fuel
    | '?' => if s.inFlow || stands then keySign else plainScalar fuel
    | ':' => if s.inFlow || stands then valueSign else plainScalar fuel
    | '*' => named .reference
    | '&' => named .anchor
    | '!' => keyPart (tag s.inFlow fuel)
    | '|' => blockScalar .literal fuel
    | '>' => blockScalar .folded fuel
    | '\'' | '"' => quotedScalar c fuel
    | '\t' | '%' | '@' | '\x60' => failure
    | _ => plainScalar fuel

/-- Scans the text to its end. The fuel, more than there are characters left, serves every loop. -/
def toEnd : Nat → Scan Unit
  | 0 => failure
  | fuel + 1 => do
    toToken fuel
    dropLostKeys
    modify fun s => s.closeBlocks (s.cursor.column + 1)
    match ← read peek with
    | some c =>
      tokenAt c fuel
      toEnd fuel
    | none => endBlocks

end Scan

def tokens? (cs : List Char) : Option (List Token) :=
  ((Scan.toEnd (cs.length + 2)).run (.start cs)).map fun (_, s) => s.tokens.toList

end Emu8085.Yaml
