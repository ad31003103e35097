import Emu8085.Script.Line

/-!
# Sessions

A script is carried out line by line on one machine; a marker starts over with a fresh one. A line
fails when it is no command, when its command is refused, or when it asserts what does not hold.
A session either stops at the first failure and says where it was, or goes on past it.
-/
namespace Emu8085.Script

inductive Failure where
  | unreadable (line : Nat) (e : LineError)
  | refused (line : Nat) (e : CommandError)
  | falsified (line : Nat)
  /-- Nobody reads the tokens. -/
  | unheard
  deriving DecidableEq, Repr

namespace Failure

def message : Failure → String
  | unreadable line e => "syntax error at line " ++ toString line ++ ": " ++ e.message
  | refused line e => "command failed at line " ++ toString line ++ ": " ++ e.message
  | falsified line => "assertion failed at line " ++ toString line
  | unheard => "sending on a closed channel"

end Failure

structure Settings where
  stopOnFailure : Bool
  maxSteps : Nat
  deriving DecidableEq, Repr

inductive LineOutcome where
  /-- It asks for nothing. -/
  | blank
  | unreadable (e : LineError)
  | refused (e : CommandError) (after : Machine)
  | told (token : Token) (after : Machine) (records : List Record)

/-- The machine that a command meets: a marker gets a fresh one. -/
def Command.startsOn (s : Machine) : Command → Machine
  | marker _ => .initial
  | _ => s

def lineOutcome (maxSteps : Nat) (s : Machine) (line : List Byte) : LineOutcome :=
  match Command.ofBytes line with
  | .error e => .unreadable e
  | .ok .nothing => .blank
  | .ok command =>
    let execution := (command.withMaxSteps maxSteps).execute (command.startsOn s)
    match execution.result with
    | .error e => .refused e execution.machine
    | .ok token => .told token execution.machine execution.records

structure Transcript where
  tokens : List Token
  failure : Option Failure
  records : List Record
  deriving DecidableEq, Repr

namespace Transcript

def ended (failure : Option Failure) (records : List Record) : Transcript := ⟨[], failure, records⟩

/-- A transcript with more told before it. -/
def after (tokens : List Token) (records : List Record) (t : Transcript) : Transcript :=
  ⟨tokens ++ t.tokens, t.failure, records ++ t.records⟩

@[simp] theorem tokens_after (tokens : List Token) (records : List Record) (t : Transcript) :
    (t.after tokens records).tokens = tokens ++ t.tokens := rfl

@[simp] theorem failure_after (tokens : List Token) (records : List Record) (t : Transcript) :
    (t.after tokens records).failure = t.failure := rfl

theorem after_after (tokens tokens' : List Token) (records records' : List Record)
    (t : Transcript) :
    (t.after tokens records).after tokens' records' =
      t.after (tokens' ++ tokens) (records' ++ records) := by
  simp only [after, List.append_assoc]

end Transcript

/-- Carries out lines from a line number on; `heard` says whether anybody takes the tokens. -/
def runLines (settings : Settings) (heard : Bool) :
    Nat → Machine → List (List Byte) → Transcript
  | _, _, [] => .ended none []
  | number, s, line :: rest =>
    match lineOutcome settings.maxSteps s line with
    | .blank => runLines settings heard (number + 1) s rest
    | .unreadable e =>
      if settings.stopOnFailure then .ended (some (.unreadable number e)) []
      else (runLines settings heard (number + 1) s rest).after [] [.lineSkipped number e.message]
    | .refused e t =>
      if settings.stopOnFailure then .ended (some (.refused number e)) []
      else (runLines settings heard (number + 1) t rest).after [] [.lineFailed number e.message]
    | .told token t records =>
      if !heard then .ended (some .unheard) records
      else if token.isFailure && settings.stopOnFailure then
        ⟨[token], some (.falsified number), records⟩
      else (runLines settings heard (number + 1) t rest).after [token] records

def runScript (settings : Settings) (heard : Bool) (script : List Byte) : Transcript :=
  runLines settings heard 1 .initial (lines script)

end Emu8085.Script
