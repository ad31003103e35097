import Emu8085.Flags

/-!
# Branch conditions

The eight tests of conditional jumps, calls and returns: four flags, each clear or set.
-/
namespace Emu8085

inductive Condition where
  | notZero | zero | noCarry | carry | parityOdd | parityEven | plus | minus
  deriving DecidableEq, Repr

namespace Condition

def ofField : Nat → Condition
  | 0 => notZero
  | 1 => zero
  | 2 => noCarry
  | 3 => carry
  | 4 => parityOdd
  | 5 => parityEven
  | 6 => plus
  | _ => minus

def holds : Condition → Flags → Bool
  | notZero, f => !f.zero
  | zero, f => f.zero
  | noCarry, f => !f.carry
  | carry, f => f.carry
  | parityOdd, f => !f.parity
  | parityEven, f => f.parity
  | plus, f => !f.sign
  | minus, f => f.sign

def suffix : Condition → String
  | notZero => "NZ"
  | zero => "Z"
  | noCarry => "NC"
  | carry => "C"
  | parityOdd => "PO"
  | parityEven => "PE"
  | plus => "P"
  | minus => "M"

end Condition

end Emu8085
