import Emu8085.Machine.Run

/-!
# Records

What a machine and a script report while they work, apart from their results. A record has a
level; a reader asks for all records up to a level.
-/
namespace Emu8085

open Text

inductive Level where
  | warn | info | debug | trace
  deriving DecidableEq, Repr

namespace Level

def name : Level → String
  | warn => "WARN"
  | info => "INFO"
  | debug => "DEBUG"
  | trace => "TRACE"

def depth : Level → Nat
  | warn => 0
  | info => 1
  | debug => 2
  | trace => 3

end Level

inductive Record where
  | unrecognized (fetched : Located)
  | executed (entry : Entry)
  | runEnded (status : RunStatus) (steps : Nat) (pc : Word)
  | reset
  | loaded (count : Nat) (address : Word)
  | moved (address : Word)
  | wrote (value : Byte) (address : Word)
  | lineSkipped (line : Nat) (reason : String)
  | lineFailed (line : Nat) (reason : String)
  deriving DecidableEq, Repr

namespace Record

def level : Record → Level
  | unrecognized _ | lineSkipped _ _ | lineFailed _ _ => .warn
  | runEnded _ _ _ => .info
  | reset | loaded _ _ | moved _ | wrote _ _ => .debug
  | executed _ => .trace

def message : Record → String
  | unrecognized i => "unrecognized opcode 0x" ++ upperHex 2 i.opcode.toNat ++ " at address #0x" ++
      upperHex 4 i.address.toNat ++ ", executed as NOP"
  | executed e => e.text
  | runEnded status steps pc => "run " ++ status.text ++ " after " ++ toString steps ++
      " steps, PC=#0x" ++ upperHex 4 pc.toNat
  | reset => "reset"
  | loaded count address => "loaded " ++ toString count ++ " bytes at #0x" ++
      upperHex 4 address.toNat
  | moved address => "goto #0x" ++ upperHex 4 address.toNat
  | wrote value address => "write 0x" ++ upperHex 2 value.toNat ++ " at #0x" ++
      upperHex 4 address.toNat
  | lineSkipped line reason => "line " ++ toString line ++ " skipped: " ++ reason
  | lineFailed line reason => "line " ++ toString line ++ " failed: " ++ reason

def isSeenAt (r : Record) (level : Level) : Bool := decide (r.level.depth ≤ level.depth)

end Record

/-- A step reports an unknown opcode before the line it leaves. -/
def Entry.records (e : Entry) : List Record :=
  if e.fetched.instruction.isRecognized then [.executed e]
  else [.unrecognized e.fetched, .executed e]

/-- A run reports its steps and then how it ended, the program counter being at `pc`. -/
def Report.records (r : Report) (pc : Word) : List Record :=
  r.entries.flatMap Entry.records ++ [.runEnded r.status r.steps pc]

end Emu8085
