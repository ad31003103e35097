/-!
# Tokens of YAML

A text as a list of tokens in which the brackets of block collections, which indentation implies,
and the marks of keys stand explicitly.
-/
namespace Emu8085.Yaml

inductive Style where
  | plain | quoted | literal | folded
  deriving DecidableEq, Repr

inductive Token where
  /-- The version of the language that a document is written in. -/
  | version (major minor : Nat)
  /-- A handle and what it abbreviates in tags. -/
  | handle (name meaning : String)
  | documentStart
  | documentEnd
  | blockSequence
  | blockMapping
  | blockEnd
  | flowSequence
  | flowSequenceEnd
  | flowMapping
  | flowMappingEnd
  /-- The dash in front of an item. -/
  | item
  /-- The comma between items. -/
  | comma
  | key
  | value
  /-- A name given to the value that follows. -/
  | anchor (name : String)
  /-- The value that has the name. -/
  | reference (name : String)
  | tag (handle text : String)
  | scalar (style : Style) (text : String)
  deriving DecidableEq, Repr

end Emu8085.Yaml
