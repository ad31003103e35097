import Emu8085.Options

/-!
# Arguments

What the words of a command line ask for. Options take their value from the same word or from the
next one, short ones may share a word, and no option stands twice. Words are judged in order, so a
request for help counts unless an error comes before it.
-/
namespace Emu8085.CommandLine

structure Arguments where
  filepath : String
  config : Option String
  options : Options
  deriving DecidableEq, Repr

inductive Stop where
  | help | version | misuse
  deriving DecidableEq, Repr

inductive Switch where
  | continueOnFailure | verbose | help | version
  deriving DecidableEq, Repr

inductive Setting where
  | filepath | maxSteps | config
  deriving DecidableEq, Repr

structure Partial where
  filepath : Option String
  config : Option String
  options : Options

namespace Partial

def empty : Partial := ⟨none, none, .unset⟩

def switch (p : Partial) : Switch → Except Stop Partial
  | .help => .error .help
  | .version => .error .version
  | .continueOnFailure =>
    if p.options.continueOnFailure.isSome then .error .misuse
    else .ok { p with options.continueOnFailure := some true }
  | .verbose =>
    if p.options.verbose.isSome then .error .misuse
    else .ok { p with options.verbose := some true }

/-- A decimal number of 64 bits, with or without a plus sign. -/
def count? (value : String) : Option Nat :=
  (Text.number? 10 (Text.dropPlus value.toList)).filter (· < countLimit)

def set (p : Partial) (setting : Setting) (value : String) : Except Stop Partial :=
  match setting with
  | .filepath =>
    if p.filepath.isSome || value.isEmpty then .error .misuse
    else .ok { p with filepath := some value }
  | .config =>
    if p.config.isSome || value.isEmpty then .error .misuse
    else .ok { p with config := some value }
  | .maxSteps =>
    match count? value with
    | some n =>
      if p.options.maxSteps.isSome then .error .misuse
      else .ok { p with options.maxSteps := some n }
    | none => .error .misuse

def finish (p : Partial) : Except Stop Arguments :=
  match p.filepath with
  | some filepath => .ok ⟨filepath, p.config, p.options⟩
  | none => .error .misuse

end Partial

def longSwitch? : String → Option Switch
  | "continue-on-failure" => some .continueOnFailure
  | "verbose" => some .verbose
  | "help" => some .help
  | "version" => some .version
  | _ => none

def longSetting? : String → Option Setting
  | "filepath" => some .filepath
  | "max-steps" => some .maxSteps
  | "config" => some .config
  | _ => none

def shortSwitch? : Char → Option Switch
  | 'c' => some .continueOnFailure
  | 'v' => some .verbose
  | 'h' => some .help
  | 'V' => some .version
  | _ => none

def shortSetting? : Char → Option Setting
  | 'f' => some .filepath
  | 'm' => some .maxSteps
  | _ => none

/-- Reads the letters of one word. A setting takes the rest of the word, without an equals sign,
or waits for the next word. -/
def letters (p : Partial) : List Char → Except Stop (Partial × Option Setting)
  | [] => .ok (p, none)
  | c :: cs =>
    match shortSwitch? c, shortSetting? c with
    | some s, _ =>
      match p.switch s with
      | .ok p => letters p cs
      | .error e => .error e
    | none, some s =>
      match cs with
      | [] => .ok (p, some s)
      | '=' :: value => (p.set s (String.ofList value)).map (·, none)
      | value => (p.set s (String.ofList value)).map (·, none)
    | none, none => .error .misuse

/-- Reads a word after two dashes: a name, and perhaps a value after an equals sign. -/
def longWord (p : Partial) (cs : List Char) : Except Stop (Partial × Option Setting) :=
  let name := String.ofList (cs.takeWhile (· != '='))
  let value := cs.dropWhile (· != '=')
  match longSwitch? name, longSetting? name, value with
  | some s, _, [] => (p.switch s).map (·, none)
  | none, some s, [] => .ok (p, some s)
  | none, some s, _ :: value => (p.set s (String.ofList value)).map (·, none)
  | _, _, _ => .error .misuse

def isOption (word : String) : Bool :=
  match word.toList with
  | '-' :: _ :: _ => true
  | _ => false

def optionWord (p : Partial) (word : String) : Except Stop (Partial × Option Setting) :=
  match word.toList with
  | '-' :: '-' :: cs => longWord p cs
  | '-' :: c :: cs => letters p (c :: cs)
  | _ => .error .misuse

/-- Reads the words in order. After a word of two dashes nothing may follow. -/
def readWords (p : Partial) : List String → Except Stop Arguments
  | [] => p.finish
  | ["--"] => p.finish
  | word :: words =>
    if word == "--" then .error .misuse
    else
      match optionWord p word with
      | .error e => .error e
      | .ok (p, none) => readWords p words
      | .ok (p, some s) =>
        match words with
        | [] => .error .misuse
        | value :: words =>
          if isOption value then .error .misuse
          else
            match p.set s value with
            | .ok p => readWords p words
            | .error e => .error e

def Arguments.ofWords (words : List String) : Except Stop Arguments := readWords .empty words

end Emu8085.CommandLine
