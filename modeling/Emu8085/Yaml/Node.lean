import Emu8085.Text.Number
import Emu8085.Word
import Emu8085.Yaml.Token

/-!
# YAML values

The tree of a document. Only scalars that are written plain stand for numbers, truth values and
nothing, and literal ones that are tagged so.
-/
namespace Emu8085.Yaml

inductive Node where
  | scalar (tag : Option String) (style : Style) (text : String)
  | sequence (items : List Node)
  | mapping (entries : List (Node × Node))
  /-- The value that bears the number. -/
  | reference (number : Nat)

/-- A document: its value and the values that bear numbers, by which it refers to them. -/
structure Document where
  root : Node
  bearers : List (Nat × Node)

def standardTag : String := "tag:yaml.org,2002:"

namespace Node

def empty : Node := scalar none .plain ""

/-- Whether a value says that there is none; a tag that says so allows no other text. -/
def isNull? : Node → Option Bool
  | scalar t .plain text =>
    let isWord := ["~", "null", "Null", "NULL"].contains text
    match t with
    | none => some (isWord || text.isEmpty)
    | some t => if t = standardTag ++ "null" then (if isWord then some true else none) else some false
  | _ => some false

/-- The text of a scalar that may stand for a value of a type. -/
def textFor? (type : String) : Node → Option String
  | scalar _ .plain text => some text
  | scalar (some t) .literal text => if t = standardTag ++ type then some text else none
  | _ => none

def bool? (n : Node) : Option Bool :=
  (n.textFor? "bool").bind fun text =>
    if ["true", "True", "TRUE"].contains text then some true
    else if ["false", "False", "FALSE"].contains text then some false
    else none

/-- A number in the base that its first two characters name; a decimal one has no leading zero. -/
def number? : List Char → Option Nat
  | '0' :: 'x' :: cs => Text.number? 16 cs
  | '0' :: 'o' :: cs => Text.number? 8 cs
  | '0' :: 'b' :: cs => Text.number? 2 cs
  | '0' :: _ :: _ => none
  | cs => Text.number? 10 cs

/-- A natural number of 64 bits, with or without a plus sign. -/
def natural? (n : Node) : Option Nat :=
  (n.textFor? "int").bind fun text =>
    (number? (Text.dropPlus text.toList)).filter (· < countLimit)

end Node

/-- The value that a reference means; any other value means itself. -/
def Document.resolve (d : Document) : Node → Node
  | .reference number => (d.bearers.lookup number).getD .empty
  | node => node

end Emu8085.Yaml
