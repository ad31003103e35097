import Emu8085.Word
import Emu8085.Text.Hex

/-!
# Inline operands

The data that follows an opcode: nothing, a byte, or a word whose low byte comes first.
-/
namespace Emu8085

open Text

inductive Operand where
  | none
  | byte (value : Byte)
  | word (value : Word)
  deriving DecidableEq, Repr

namespace Operand

def bytes : Operand → List Byte
  | none => []
  | byte v => [v]
  | word v => [v.low, v.high]

def length (o : Operand) : Nat := o.bytes.length

/-- The number itself in upper case digits, so a word reads high byte first. -/
def text : Operand → String
  | none => ""
  | byte v => "#" ++ upperHex 2 v.toNat
  | word v => "#" ++ upperHex 4 v.toNat

def asByte : Operand → Byte
  | byte v => v
  | _ => 0

def asWord : Operand → Word
  | word v => v
  | _ => 0

theorem length_le_two (o : Operand) : o.length ≤ 2 := by
  cases o <;> simp [length, bytes]

end Operand

/-- An opcode and its operand bytes, as two digits each with blanks between. -/
def machineCode (letters : LetterCase) (opcode : Byte) (operand : Operand) : String :=
  " ".intercalate ((opcode :: operand.bytes).map fun b => hex letters 2 b.toNat)

end Emu8085
