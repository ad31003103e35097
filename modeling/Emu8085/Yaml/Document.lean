import Emu8085.Yaml.Layout
import Emu8085.Yaml.Node

/-!
# Documents of YAML

A document is read from tokens. An anchor gives a value a number, that of the different anchors
before it, and a reference means the number that its name has at that place; where several values
bear one number, the last one that begins counts. A text holds at most one document.
-/
namespace Emu8085.Yaml

structure DocumentState where
  tokens : List Token
  /-- What the handles of tags stand for. -/
  handles : List (String × String)
  /-- The numbers of anchors, by their names. -/
  numbers : List (String × Nat)
  bearers : List (Nat × Node)

abbrev TokenReader := StateT DocumentState Option

namespace TokenReader

def peek : TokenReader (Option Token) := do return (← get).tokens.head?

def drop : TokenReader Unit := modify fun s => { s with tokens := s.tokens.drop 1 }

def isNext (tokens : List Token) : TokenReader Bool := do return (← peek).any tokens.contains

def expect (token : Token) : TokenReader Unit := do
  guard ((← peek) == some token)
  drop

def anchor? : TokenReader (Option String) := do
  match ← peek with
  | some (.anchor name) =>
    drop
    return some name
  | _ => return none

/-- The tag that is next, its handle replaced by what it stands for. -/
def tag? : TokenReader (Option String) := do
  match ← peek with
  | some (.tag handle text) =>
    drop
    if handle.isEmpty then return some text
    else
      let meaning ← ((← get).handles.lookup handle).elim failure pure
      return some (meaning ++ text)
  | _ => return none

def properties : TokenReader (Option String × Option String) := do
  match ← anchor? with
  | some name => return (some name, ← tag?)
  | none =>
    let tag ← tag?
    match tag with
    | some _ => return (← anchor?, tag)
    | none => return (none, none)

/-- The value that an anchor is given to. Values inside it begin later than it does, so the number
stays with one of those that takes it. -/
def numbered (anchor : Option String) (value : TokenReader Node) : TokenReader Node := do
  match anchor with
  | none => value
  | some name =>
    let number := (← get).numbers.length
    modify fun s => { s with
      numbers := (name, number) :: s.numbers.filter (·.1 != name)
      bearers := s.bearers.filter (·.1 != number) }
    let node ← value
    modify fun s => { s with
      bearers :=
        if (s.bearers.lookup number).isSome then s.bearers else (number, node) :: s.bearers }
    return node

end TokenReader

open TokenReader

mutual

/-- A value. Block collections may stand where `block` says so, items of a block sequence without
its brackets where `bare` does. Properties alone give an empty scalar. -/
def node (block bare : Bool) : Nat → TokenReader Node
  | 0 => failure
  | fuel + 1 => do
    match ← peek with
    | some (.reference name) =>
      drop
      let number ← ((← get).numbers.lookup name).elim failure pure
      return .reference number
    | _ =>
      let (anchor, tag) ← properties
      let alone : TokenReader Node := do
        guard (anchor.isSome || tag.isSome)
        return .scalar tag .plain ""
      numbered anchor do
        match ← peek with
        | some (.scalar style text) =>
          drop
          return .scalar (tag.filter (· != "!")) style text
        | some .flowSequence =>
          drop
          return .sequence (← flowItems true fuel)
        | some .flowMapping =>
          drop
          return .mapping (← flowEntries true fuel)
        | some .blockSequence =>
          guard block
          drop
          return .sequence (← blockItems fuel)
        | some .blockMapping =>
          guard block
          drop
          return .mapping (← blockEntries fuel)
        | some .item => if bare then return .sequence (← bareItems fuel) else alone
        | _ => alone
termination_by structural fuel => fuel

def nodeUnless (ends : List Token) (block bare : Bool) : Nat → TokenReader Node
  | 0 => failure
  | fuel + 1 => do
    if ← isNext ends then return .empty else node block bare fuel
termination_by structural fuel => fuel

/-- The value after a colon, empty if there is no colon. -/
def valueUnless (ends : List Token) (block : Bool) : Nat → TokenReader Node
  | 0 => failure
  | fuel + 1 => do
    if ← isNext [.value] then
      drop
      nodeUnless ends block block fuel
    else return .empty
termination_by structural fuel => fuel

def blockItems : Nat → TokenReader (List Node)
  | 0 => failure
  | fuel + 1 => do
    if ← isNext [.item] then
      drop
      let first ← nodeUnless [.item, .blockEnd] true false fuel
      return first :: (← blockItems fuel)
    else
      expect .blockEnd
      return []
termination_by structural fuel => fuel

/-- The items of a block sequence that is indented no further than the key it belongs to. -/
def bareItems : Nat → TokenReader (List Node)
  | 0 => failure
  | fuel + 1 => do
    if ← isNext [.item] then
      drop
      let first ← nodeUnless [.item, .key, .value, .blockEnd] true false fuel
      return first :: (← bareItems fuel)
    else return []
termination_by structural fuel => fuel

def blockEntries : Nat → TokenReader (List (Node × Node))
  | 0 => failure
  | fuel + 1 => do
    if ← isNext [.key] then
      drop
      let key ← nodeUnless [.key, .value, .blockEnd] true true fuel
      let value ← valueUnless [.key, .value, .blockEnd] true fuel
      return (key, value) :: (← blockEntries fuel)
    else
      expect .blockEnd
      return []
termination_by structural fuel => fuel

/-- The one entry of a mapping that is an item of a flow sequence, after the mark of its key. A
token that cannot begin a key is passed. -/
def pair : Nat → TokenReader Node
  | 0 => failure
  | fuel + 1 => do
    let key ←
      if ← isNext [.value, .comma, .flowSequenceEnd] then do
        drop
        pure .empty
      else node false false fuel
    let value ← valueUnless [.comma, .flowSequenceEnd] false fuel
    return .mapping [(key, value)]
termination_by structural fuel => fuel

/-- The items of a flow sequence; commas stand between them and may stand after them. -/
def flowItems (first : Bool) : Nat → TokenReader (List Node)
  | 0 => failure
  | fuel + 1 => do
    if !first && !(← isNext [.flowSequenceEnd]) then expect .comma else pure ()
    if ← isNext [.flowSequenceEnd] then
      drop
      return []
    else if ← isNext [.key] then
      drop
      let entry ← pair fuel
      return entry :: (← flowItems false fuel)
    else
      let item ← node false false fuel
      return item :: (← flowItems false fuel)
termination_by structural fuel => fuel

/-- The entries of a flow mapping; a value without the mark of a key is a key alone. -/
def flowEntries (first : Bool) : Nat → TokenReader (List (Node × Node))
  | 0 => failure
  | fuel + 1 => do
    if !first && !(← isNext [.flowMappingEnd]) then expect .comma else pure ()
    if ← isNext [.flowMappingEnd] then
      drop
      return []
    else if ← isNext [.key] then
      drop
      let key ← nodeUnless [.value, .comma, .flowMappingEnd] false false fuel
      let value ← valueUnless [.comma, .flowMappingEnd] false fuel
      return (key, value) :: (← flowEntries false fuel)
    else
      let key ← node false false fuel
      return (key, .empty) :: (← flowEntries false fuel)
termination_by structural fuel => fuel

end

/-- The directives in front of a document: at most one version, a known one, and handles, each
defined once. -/
def directives (versioned : Bool) : List Token → TokenReader Unit
  | .version major minor :: rest => do
    guard (!versioned && major == 1 && (minor == 1 || minor == 2))
    drop
    directives true rest
  | .handle name meaning :: rest => do
    let s ← get
    guard (s.handles.lookup name).isNone
    set { s with handles := (name, meaning) :: s.handles, tokens := rest }
    directives versioned rest
  | _ => pure ()

def standardHandles : List (String × String) := [("!", "!"), ("!!", standardTag)]

def Token.isOutside : Token → Bool
  | version _ _ | handle _ _ | documentStart | documentEnd => true
  | _ => false

/-- The value of the only document, `none` if there is no document. -/
def onlyRoot (fuel : Nat) : TokenReader (Option Node) := do
  let tokens := (← get).tokens
  if tokens.isEmpty then return none
  else
    let explicit := tokens.head?.any fun t => t.isOutside && t != .documentEnd
    if explicit then
      directives false tokens
      expect .documentStart
    else pure ()
    modify fun s => { s with handles := s.handles ++ standardHandles }
    let isAbsent := explicit && (← peek).all Token.isOutside
    let root ← if isAbsent then pure .empty else node true false fuel
    guard ((← get).tokens.all (· == .documentEnd))
    return some root

/-- Reads a text as YAML; `none` is a text that is not, `some none` one without a document. -/
def parse (text : String) : Option (Option Document) := do
  let cs := text.toList
  guard (cs.all isPrintable)
  let tokens ← tokens? (unifyBreaks cs)
  let (root, s) ← (onlyRoot (4 * tokens.length + 16)).run ⟨tokens, [], [], []⟩
  return root.map fun root => ⟨root, s.bearers⟩

end Emu8085.Yaml
