import Emu8085.Script.Command

/-!
# Display

The text that a reader sees. Assertions are numbered in order; what runs and setups say is shown
only on request, but a run that did not halt is always mentioned.
-/
namespace Emu8085.Script

def signed (sign : String) (lines : List String) : String :=
  String.join (lines.map fun line => sign ++ " " ++ line ++ "\n")

/-- A number of two digits or more. -/
def ordinal (n : Nat) : String := (if n < 10 then "0" else "") ++ toString n

namespace Token

def isAssertion : Token → Bool
  | assertion _ _ => true
  | _ => false

/-- What is shown of a token, `number` being that of the next assertion. -/
def display (verbose : Bool) (number : Nat) : Token → String
  | assertion none description => ordinal number ++ " → " ++ description ++ " ✅\n"
  | assertion (some failure) description =>
    ordinal number ++ " → " ++ description ++ " ❌ " ++ failure ++ "\n"
  | marker description => "♯ " ++ description ++ "\n"
  | run lines status =>
    (if verbose then signed "⚡" lines else "") ++
      (if status = .outOfSteps then
        "⚠ program " ++ status.text ++ " after " ++ toString lines.length ++ " instructions\n"
      else "")
  | setup lines => if verbose then signed "⚙" lines else ""
  | view lines => signed "📄" lines

end Token

/-- What is shown of each token, assertions being numbered from `number` on. -/
def displayFrom (verbose : Bool) : Nat → List Token → List String
  | _, [] => []
  | number, token :: tokens =>
    token.display verbose number ::
      displayFrom verbose (if token.isAssertion then number + 1 else number) tokens

def display (verbose : Bool) (tokens : List Token) : String :=
  String.join (displayFrom verbose 1 tokens)

end Emu8085.Script
