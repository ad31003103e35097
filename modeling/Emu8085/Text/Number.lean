import Emu8085.Text.Hex

/-!
# Digit strings

The number that a string of digits denotes in a base up to sixteen. There is at least one digit,
and every character is one.
-/
namespace Emu8085.Text

/-- The value after more digits, those read so far having the given value. -/
def numberAfter (base value : Nat) : List Char → Option Nat
  | [] => some value
  | c :: cs =>
    match hexValue? c with
    | some digit => if digit < base then numberAfter base (base * value + digit) cs else none
    | none => none

def number? (base : Nat) : List Char → Option Nat
  | [] => none
  | cs => numberAfter base 0 cs

def dropPlus : List Char → List Char
  | '+' :: cs => cs
  | cs => cs

end Emu8085.Text
