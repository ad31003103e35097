/-!
# Padded columns

A text narrower than its column is filled up with blanks; a wider one is left as it is.
-/
namespace Emu8085.Text

inductive Alignment where
  | left | right | center
  deriving DecidableEq, Repr

def blanks (n : Nat) : String := String.ofList (List.replicate n ' ')

/-- Centred text leans to the left: the odd blank goes after it. -/
def pad (alignment : Alignment) (width : Nat) (text : String) : String :=
  let missing := width - text.length
  match alignment with
  | .left => text ++ blanks missing
  | .right => blanks missing ++ text
  | .center => blanks (missing / 2) ++ text ++ blanks (missing - missing / 2)

def cut (width : Nat) (text : String) : String := String.ofList (text.toList.take width)

@[simp] theorem length_blanks (n : Nat) : (blanks n).length = n := by
  simp [blanks]

/-- A text that is too long for its column stays as it is. -/
theorem length_pad (alignment : Alignment) (width : Nat) (text : String) :
    (pad alignment width text).length = max width text.length := by
  cases alignment <;> simp [pad, String.length_append] <;> omega

end Emu8085.Text
