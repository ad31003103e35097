import Emu8085.Script.Session
import Emu8085.Yaml.Document

/-!
# Options

What a user may set, in a YAML file or on the command line, each or not at all. Keys that name no
option are ignored; one that does may stand only once.
-/
namespace Emu8085

structure Options where
  maxSteps : Option Nat
  continueOnFailure : Option Bool
  verbose : Option Bool
  deriving DecidableEq, Repr

namespace Options

def unset : Options := ⟨none, none, none⟩

/-- Where both set an option, the second one counts. -/
def override (base chosen : Options) : Options :=
  ⟨chosen.maxSteps.or base.maxSteps, chosen.continueOnFailure.or base.continueOnFailure,
    chosen.verbose.or base.verbose⟩

def settings (o : Options) : Script.Settings :=
  ⟨!o.continueOnFailure.getD false, o.maxSteps.getD Script.defaultMaxSteps⟩

def isVerbose (o : Options) : Bool := o.verbose.getD false

def nullable {α : Type} (d : Yaml.Document) (read : Yaml.Node → Option α) (value : Yaml.Node) :
    Option (Option α) := do
  let value := d.resolve value
  if ← value.isNull? then return none
  else return some (← read value)

/-- Reads the entries of a mapping; `seen` are the keys that had an entry before. -/
def ofEntries (d : Yaml.Document) :
    (seen : List String) → Options → List (Yaml.Node × Yaml.Node) → Option Options
  | _, o, [] => some o
  | seen, o, (key, value) :: entries =>
    match d.resolve key with
    | .scalar _ _ key => do
      let known := ["max_steps", "continue_on_failure", "verbose"].contains key
      guard (!(known && seen.contains key))
      let o ← match key with
        | "max_steps" => (nullable d Yaml.Node.natural? value).map fun v => { o with maxSteps := v }
        | "continue_on_failure" =>
          (nullable d Yaml.Node.bool? value).map fun v => { o with continueOnFailure := v }
        | "verbose" => (nullable d Yaml.Node.bool? value).map fun v => { o with verbose := v }
        | _ => some o
      ofEntries d (key :: seen) o entries
    | _ => none

/-- Reads a document: a mapping, all options in their order, or nothing. -/
def ofDocument (d : Yaml.Document) : Option Options :=
  match d.root with
  | .mapping entries => ofEntries d [] unset entries
  | .sequence [maxSteps, continueOnFailure, verbose] =>
    return ⟨← nullable d Yaml.Node.natural? maxSteps, ← nullable d Yaml.Node.bool? continueOnFailure,
      ← nullable d Yaml.Node.bool? verbose⟩
  | .scalar _ .plain "" => some unset
  | _ => none

def ofYaml (text : String) : Option Options := do
  match ← Yaml.parse text with
  | some d => ofDocument d
  | none => return unset

section

variable (base chosen : Options)

/-- What is chosen counts; what is left out is as it was, by default or not. -/
theorem maxSteps_override : (base.override chosen).settings.maxSteps =
    chosen.maxSteps.getD base.settings.maxSteps := by
  rw [override, settings, settings]
  cases chosen.maxSteps <;> rfl

theorem stopOnFailure_override : (base.override chosen).settings.stopOnFailure =
    (chosen.continueOnFailure.map (!·)).getD base.settings.stopOnFailure := by
  rw [override, settings, settings]
  cases chosen.continueOnFailure <;> rfl

theorem isVerbose_override : (base.override chosen).isVerbose =
    chosen.verbose.getD base.isVerbose := by
  rw [override, isVerbose, isVerbose]
  cases chosen.verbose <;> rfl

end

end Options

end Emu8085
