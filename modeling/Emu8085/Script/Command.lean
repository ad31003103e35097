import Emu8085.Machine.Control
import Emu8085.Record
import Emu8085.Script.Predicate

/-!
# Commands

What a line of a script asks for, and what carrying it out gives: a machine, a token for the
reader or an error, and the records on the way. A command is checked before it changes anything,
so an error leaves the machine as it was.
-/
namespace Emu8085.Script

open Text

def defaultMaxSteps : Nat := 100000

inductive Command where
  | assert (condition : Predicate) (description : String)
  | disassemble (start count : Nat)
  | goto (address : Nat)
  | load (address : Nat) (program : List Byte)
  | marker (description : String)
  | memoryShow (address lines : Nat)
  | memoryWrite (address : Nat) (bytes : List Byte)
  | nothing
  | registersSet (register : Register) (value : Nat)
  | registersShow
  | reset
  | run (stop : Option Predicate) (start : Option Nat) (maxSteps : Nat)
  | step
  deriving DecidableEq, Repr

inductive Token where
  | assertion (failure : Option String) (description : String)
  | marker (description : String)
  | run (lines : List String) (status : RunStatus)
  | setup (lines : List String)
  | view (lines : List String)
  deriving DecidableEq, Repr

namespace Token

def isFailure : Token → Bool
  | assertion (some _) _ => true
  | _ => false

end Token

inductive CommandError where
  | control (cause : ControlError)
  | outOfRange (address : Nat)
  | pastTheEnd (length address : Nat)
  | tooWide (value bits : Nat)
  deriving DecidableEq, Repr

namespace CommandError

def message : CommandError → String
  | control cause => cause.message
  | outOfRange address => "Address 0x" ++ upperHex 1 address ++ " is out of memory range."
  | pastTheEnd length address => "Writing " ++ toString length ++ " bytes at #0x" ++
      upperHex 4 address ++ " runs past the end of memory."
  | tooWide value bits => "Value " ++ toString value ++ " cannot fit in " ++ toString bits ++
      " bits destination."

end CommandError

structure Execution where
  machine : Machine
  result : Except CommandError Token
  records : List Record

namespace Execution

def done (s : Machine) (token : Token) (records : List Record) : Execution :=
  ⟨s, .ok token, records⟩

def refused (s : Machine) (e : CommandError) : Execution := ⟨s, .error e, []⟩

end Execution

def dumpWidth : Nat := 16

/-- The cells from `address` up to `stop`, each line labelled with its first address. -/
def dump (m : Memory) (address stop : Nat) : List String :=
  let count := (stop - address + (dumpWidth - 1)) / dumpWidth
  (List.range count).map fun i =>
    let start := address + dumpWidth * i
    let bytes := m.cells start (min dumpWidth (stop - start))
    "#0x" ++ upperHex 4 start ++ ": " ++ " ".intercalate (bytes.map fun b => lowerHex 2 b.toNat)

namespace Command

/-- The budget of a run; any other command has none. -/
def withMaxSteps (maxSteps : Nat) : Command → Command
  | run stop start _ => run stop start maxSteps
  | command => command

/-- Runs from the state reached, the records so far first. -/
def executeRun (stop : Option Predicate) (maxSteps : Nat) (s : Machine) (records : List Record) :
    Execution :=
  let (report, after) := s.runUntil (fun t => stop.any (·.holds t)) maxSteps
  .done after (.run (report.entries.map Entry.text) report.status)
    (records ++ report.records after.registers.pc)

def executeWrite (address : Nat) (bytes : List Byte) (s : Machine) : Execution :=
  if Memory.size < address + bytes.length then .refused s (.pastTheEnd bytes.length address)
  else
    let start : Word := BitVec.ofNat 16 address
    let message := match bytes.length with
      | 0 => "nothing was written"
      | 1 => "1 byte written"
      | n => toString n ++ " bytes written"
    .done { s with memory := s.memory.store start bytes } (.setup [message])
      (bytes.mapIdx fun i b => .wrote b (start + BitVec.ofNat 16 i))

def executeSet (register : Register) (value : Nat) (s : Machine) : Execution :=
  if value < register.limit then
    .done { s with registers := register.assign s.registers value }
      (.setup ["register " ++ register.name ++ " set to 0x" ++
        lowerHex (register.bits / 4) value]) []
  else .refused s (.tooWide value register.bits)

def execute (s : Machine) : Command → Execution
  | assert condition description =>
    .done s (.assertion (condition.failure? s) description) []
  | disassemble start count =>
    match address? start with
    | some address => .done s (.view ((s.memory.disassemble count address).map Located.text)) []
    | none => .refused s (.outOfRange start)
  | goto address =>
    match s.goto address with
    | .ok after => .done after (.setup ["program counter set to #0x" ++ upperHex 4 address])
        [.moved after.registers.pc]
    | .error e => .refused s (.control e)
  | load address program =>
    match s.load program address with
    | .ok after =>
      .done after
        (.setup [toString program.length ++ " bytes loaded at #0x" ++ upperHex 4 address])
        [.loaded program.length after.registers.pc]
    | .error e => .refused s (.control e)
  | marker description => .done s (.marker description) []
  | memoryShow address lines =>
    if address < Memory.size then
      .done s (.view (dump s.memory address (min Memory.size (address + dumpWidth * lines)))) []
    else .refused s (.outOfRange address)
  | memoryWrite address bytes => executeWrite address bytes s
  | nothing => .done s (.setup []) []
  | registersSet register value => executeSet register value s
  | registersShow => .done s (.view [s.registers.text]) []
  | reset => .done .initial (.setup ["processor reset"]) [.reset]
  | run stop none maxSteps => executeRun stop maxSteps s []
  | run stop (some address) maxSteps =>
    match s.goto address with
    | .ok after => executeRun stop maxSteps after [.moved after.registers.pc]
    | .error e => .refused s (.control e)
  | step =>
    match s.advance with
    | .ok (kind, entry, after) =>
      let status := if kind = .halted then .halted else RunStatus.stopped
      .done after (.run [entry.text] status) entry.records
    | .error e => .refused s (.control e)

end Command

end Emu8085.Script
