import Emu8085.CommandLine.Arguments
import Emu8085.Script.Display

/-!
# The program

What the program answers to a command line: an exit code and two texts. It reads at most a script
and a configuration, as bytes; everything it shows comes before the error that ends it.
-/
namespace Emu8085.CommandLine

open Script

structure Response where
  code : Nat
  stdout : String
  stderr : String
  deriving DecidableEq, Repr

def helpText : String :=
  "8085 code tester This program allows step by step execution of an 8085 processor and " ++
  "assertions on memory, registers or flags. It takes a script as parameter (or standard input) " ++
  "to execute tests\n" ++
  "\n" ++
  "Usage: soft8085_tester [OPTIONS] --filepath <FILEPATH>\n" ++
  "\n" ++
  "Options:\n" ++
  "  -f, --filepath <FILEPATH>    Test script file location (\"-\" to read from standard input)\n" ++
  "  -c, --continue-on-failure    Do not stop execution when an assertion fails\n" ++
  "  -v, --verbose                Display not only assertion results but also setup commands " ++
  "output\n" ++
  "  -m, --max-steps <MAX_STEPS>  Maximum number of instructions executed by a single run\n" ++
  "      --config <CONFIG>        YAML configuration file\n" ++
  "  -h, --help                   Print help\n" ++
  "  -V, --version                Print version\n"

def versionText : String := "soft8085_tester 0.1.0\n"

def misuseText : String :=
  "error: the arguments cannot be understood\n" ++
  "\n" ++
  "Usage: soft8085_tester [OPTIONS] --filepath <FILEPATH>\n" ++
  "\n" ++
  "For more information, try '--help'.\n"

def painted (message : String) : String := "\x1b[31m" ++ message ++ "\x1b[0m\n"

def failed (stdout message : String) : Response := ⟨1, stdout, painted message⟩

inductive FileError where
  | missing
  | forbidden
  /-- The path goes on after the name of a file. -/
  | notFolder
  | folder
  | nameTooLong
  deriving DecidableEq, Repr

def FileError.message : FileError → String
  | missing => "No such file or directory (os error 2)"
  | forbidden => "Permission denied (os error 13)"
  | notFolder => "Not a directory (os error 20)"
  | folder => "Is a directory (os error 21)"
  | nameTooLong => "File name too long (os error 36)"

/-- What reading gives, by the path. -/
abbrev Files := String → Except FileError (List Byte)

def loadOptions (files : Files) (path : String) : Except String Options :=
  let unreadable (reason : String) := "Failed to read configuration file " ++ path ++ ": " ++ reason
  match files path with
  | .error e => .error (unreadable e.message)
  | .ok bytes =>
    match Text.Utf8.decode bytes with
    | none => .error (unreadable "stream did not contain valid UTF-8")
    | some cs =>
      match Options.ofYaml (String.ofList cs) with
      | some options => .ok options
      | none => .error ("Failed to parse YAML from " ++ path ++ ": no configuration")

def inputPath : String := "-"

/-- The bytes of a script. A folder opens like a file, but its first line cannot be read. -/
def loadScript (files : Files) (stdin : List Byte) (path : String) : Except String (List Byte) :=
  if path = inputPath then .ok stdin
  else
    match files path with
    | .ok bytes => .ok bytes
    | .error .folder => .error ("syntax error at line 1: " ++ FileError.folder.message)
    | .error e => .error ("Could not open script file " ++ path ++ ": " ++ e.message)

def perform (options : Options) (script : List Byte) : Response :=
  let transcript := runScript options.settings true script
  let stdout := display options.isVerbose transcript.tokens
  match transcript.failure with
  | none => ⟨0, stdout, ""⟩
  | some failure => failed stdout failure.message

def execute (files : Files) (stdin : List Byte) (a : Arguments) : Response :=
  let base : Except String Options := match a.config with
    | none => .ok .unset
    | some path => loadOptions files path
  match base with
  | .error message => failed "" message
  | .ok base =>
    match loadScript files stdin a.filepath with
    | .error message => failed "" message
    | .ok script => perform (base.override a.options) script

theorem code_perform (options : Options) (script : List Byte) :
    (perform options script).code = 0 ↔
      (runScript options.settings true script).failure = none := by
  rw [perform]
  cases (runScript options.settings true script).failure <;> simp [failed]

theorem stdout_perform (options : Options) (script : List Byte) :
    (perform options script).stdout =
      display options.isVerbose (runScript options.settings true script).tokens := by
  rw [perform]
  cases (runScript options.settings true script).failure <;> rfl

/-- An option on the command line takes precedence over the configuration file, and one that is left
out is as the file has it, or as it is by default where the file leaves it out too. -/
theorem execute_of_read {files : Files} {stdin script : List Byte} {a : Arguments} {base : Options}
    (configured : ∀ path, a.config = some path → loadOptions files path = .ok base)
    (plain : a.config = none → base = .unset)
    (read : loadScript files stdin a.filepath = .ok script) :
    let o := a.options
    let transcript := runScript
      ⟨(o.continueOnFailure.map (!·)).getD base.settings.stopOnFailure,
        o.maxSteps.getD base.settings.maxSteps⟩ true script
    (execute files stdin a).stdout =
        display (o.verbose.getD base.isVerbose) transcript.tokens ∧
      ((execute files stdin a).code = 0 ↔ transcript.failure = none) := by
  intro o transcript
  have performed : execute files stdin a = perform (base.override o) script := by
    cases config : a.config with
    | none =>
      rw [execute, config, plain config]
      simp only [read]
      rfl
    | some path =>
      rw [execute, config]
      simp only [configured path config, read]
      rfl
  have settings : (base.override o).settings =
      ⟨(o.continueOnFailure.map (!·)).getD base.settings.stopOnFailure,
        o.maxSteps.getD base.settings.maxSteps⟩ := by
    rw [← base.stopOnFailure_override, ← base.maxSteps_override]
  rw [performed, stdout_perform, code_perform, settings, base.isVerbose_override]
  exact ⟨rfl, Iff.rfl⟩

def respond (files : Files) (stdin : List Byte) (words : List String) : Response :=
  match Arguments.ofWords words with
  | .ok arguments => execute files stdin arguments
  | .error .help => ⟨0, helpText, ""⟩
  | .error .version => ⟨0, versionText, ""⟩
  | .error .misuse => ⟨2, "", misuseText⟩

end Emu8085.CommandLine
