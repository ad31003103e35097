import Emu8085.Script.Command
import Emu8085.Script.Parser
import Emu8085.Text.Blank

/-!
# The grammar of script lines

A line is a command, or blanks and a comment, which ask for nothing. Addresses are written
`#0x1234`, values `0x12` or `0x1234`, byte lists `0x(12,34)`, descriptions `$$text$$`. A line that
does not match as a whole is malformed; only then is a count judged, which has to fit in 64 bits.
-/
namespace Emu8085.Script

open Text Script.Parser

inductive LineError where
  | notText
  | malformed
  | countTooLarge (digits : String)
  deriving DecidableEq, Repr

namespace LineError

def message : LineError → String
  | notText => "stream did not contain valid UTF-8"
  | malformed => " --> the line is no command"
  | countTooLarge digits =>
    "'" ++ digits ++ "' is not a valid count: number too large to fit in target type"

end LineError

namespace Grammar

def address : Parser Nat := token do
  exactly "#0x"
  hexNumber 4

/-- Four digits where there are four, else two. -/
def value : Parser Nat := token do
  exactly "0x"
  orElse (hexNumber 4) (hexNumber 2)

/-- The first name that matches, each with what it stands for. -/
def named {α : Type} (names : List (String × α)) : Parser α :=
  choice (names.map fun (name, x) => do
    word name
    pure x)

def wideRegister : Parser Register :=
  named ([.bc, .de, .hl, .pc, .sp].map fun r => (Register.name r, r))

def narrowRegister : Parser Register :=
  named ([.a, .b, .c, .d, .e, .h, .l, .f].map fun r => (Register.name r, r))

def register : Parser Register := orElse wideRegister narrowRegister

/-- Flags come before single registers, so a lone `C` is a register and `CY` a flag. -/
def flag : Parser Flag :=
  named ([.carry, .auxCarry, .zero, .sign, .parity].map fun f => (Flag.name f, f))

def source : Parser Source :=
  choice [
    do return .memory (← address),
    do return .literal (← value),
    do return .register (← wideRegister),
    do return .flag (← flag),
    do return .register (← narrowRegister)]

/-- Two-character symbols come before their first character alone. -/
def relation : Parser Relation :=
  named ([.different, .equal, .greaterOrEqual, .greater, .lesserOrEqual, .lesser].map
    fun r => (Relation.symbol r, r))

def constant : Parser Predicate := named [("true", .constant true), ("false", .constant false)]

def comparison : Parser Predicate := do
  let left ← source
  let relation ← relation
  let right ← source
  return .compare left relation right

def predicate : Parser Predicate := orElse constant comparison

def byte : Parser Byte := do
  let n ← hexNumber 2
  return BitVec.ofNat 8 n

/-- The bytes after commas; the list ends before a comma that no byte follows. -/
def moreBytes : Nat → Parser (List Byte)
  | 0 => pure []
  | fuel + 1 => fun cs =>
    match cs with
    | ',' :: rest =>
      match byte (rest.dropWhile (· == ' ')) with
      | some (b, rest) => (moreBytes fuel rest).map fun (bs, rest) => (b :: bs, rest)
      | none => some ([], cs)
    | _ => some ([], cs)

/-- Bytes and commas, with blanks only after a comma. -/
def byteList : Parser (List Byte) := do
  let first ← byte
  let rest ← fun cs => moreBytes cs.length cs
  return first :: rest

def bytes : Parser (List Byte) := do
  word "0x("
  let bs ← token byteList
  word ")"
  return bs

/-- The gap after the opening mark belongs to no description. -/
def description : Parser String := do
  word "$$"
  let text ← token beforeMark
  word "$$"
  return text

def counted (command : Nat → Command) : Parser (Except LineError Command) := do
  let ds ← token digits
  let n := Nat.ofDigitChars 10 ds 0
  return if n < countLimit then .ok (command n) else .error (.countTooLarge (String.ofList ds))

def memoryCommand : Parser (Except LineError Command) := do
  word "memory"
  orElse
    (do
      word "write"
      let a ← address
      let bs ← bytes
      return .ok (.memoryWrite a bs))
    (do
      word "show"
      let a ← address
      counted (.memoryShow a))

def registersCommand : Parser (Except LineError Command) := do
  word "registers"
  orElse
    (do
      word "show"
      return .ok .registersShow)
    (do
      word "set"
      let r ← register
      word "="
      let v ← value
      return .ok (.registersSet r v))

def stopClause : Parser Predicate := do
  word "until"
  predicate

def runCommand : Parser (Except LineError Command) := do
  word "run"
  let start ← optional address
  let stop ← optional stopClause
  return .ok (.run stop start defaultMaxSteps)

def command : Parser (Except LineError Command) :=
  choice [
    do
      word "marker"
      return .ok (.marker (← description)),
    do
      word "reset"
      return .ok .reset,
    do
      word "load"
      let a ← address
      let bs ← bytes
      return .ok (.load a bs),
    memoryCommand,
    registersCommand,
    do
      word "goto"
      return .ok (.goto (← address)),
    do
      word "step"
      return .ok .step,
    runCommand,
    do
      word "disassemble"
      let a ← address
      counted (.disassemble a),
    do
      word "assert"
      let p ← predicate
      return .ok (.assert p (← description))]

def line : Parser (Except LineError Command) := do
  let found ← optional command
  finish
  return found.getD (.ok .nothing)

end Grammar

/-- The command on a line, white space at its ends apart. -/
def Command.ofLine (line : List Char) : Except LineError Command :=
  match Grammar.line (trim line) with
  | some (result, _) => result
  | none => .error .malformed

end Emu8085.Script
