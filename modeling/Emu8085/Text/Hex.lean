/-!
# Hexadecimal text

Numbers are written with the digits they need, zeros filling up to a least width, so bytes and
words fit theirs exactly. Digits above nine are upper or lower case letters.
-/
namespace Emu8085.Text

inductive LetterCase where
  | upper | lower
  deriving DecidableEq, Repr

def hexDigit (letters : LetterCase) (n : Nat) : Char :=
  match letters with
  | .lower => Nat.digitChar n
  | .upper => (Nat.digitChar n).toUpper

/-- The lowest `count` digits of a number, highest first, in front of `rest`. -/
def lowDigits (letters : LetterCase) : (count n : Nat) → (rest : List Char) → List Char
  | 0, _, rest => rest
  | count + 1, n, rest => lowDigits letters count (n / 16) (hexDigit letters (n % 16) :: rest)

def hexLength (n : Nat) : Nat := n.log2 / 4 + 1

/-- Hexadecimal text of at least `width` digits. -/
def hex (letters : LetterCase) (width n : Nat) : String :=
  String.ofList (lowDigits letters (max width (hexLength n)) n [])

def upperHex (width n : Nat) : String := hex .upper width n

def lowerHex (width n : Nat) : String := hex .lower width n

def hexValue? (c : Char) : Option Nat :=
  if c.isDigit then some (c.toNat - 48)
  else if 'a' ≤ c ∧ c ≤ 'f' then some (c.toNat - 87)
  else if 'A' ≤ c ∧ c ≤ 'F' then some (c.toNat - 55)
  else none

theorem length_lowDigits (letters : LetterCase) (count n : Nat) (rest : List Char) :
    (lowDigits letters count n rest).length = count + rest.length := by
  induction count generalizing n rest with
  | zero => simp [lowDigits]
  | succ count ih =>
    rw [lowDigits, ih, List.length_cons]
    omega

theorem lowDigits_append (letters : LetterCase) (count n : Nat) (ds rest : List Char) :
    lowDigits letters count n (ds ++ rest) = lowDigits letters count n ds ++ rest := by
  induction count generalizing n ds with
  | zero => rfl
  | succ count ih => rw [lowDigits, lowDigits, ← List.cons_append, ih]

theorem lowDigits_succ (letters : LetterCase) (count n : Nat) :
    lowDigits letters (count + 1) n [] =
      lowDigits letters count (n / 16) [] ++ [hexDigit letters (n % 16)] := by
  rw [lowDigits, ← lowDigits_append, List.nil_append]

/-- So many digits are enough below that power of sixteen; zero needs one all the same. -/
theorem hexLength_le_iff {count n : Nat} :
    hexLength n ≤ count + 1 ↔ n < Nat.pow 16 (count + 1) := by
  have power : Nat.pow 16 (count + 1) = 2 ^ (4 * (count + 1)) := (Nat.pow_mul 2 4 _).symm
  rw [hexLength, power]
  by_cases zero : n = 0
  · subst zero
    exact iff_of_true (Nat.le_add_left 1 count) (Nat.two_pow_pos _)
  · rw [← Nat.log2_lt zero]
    omega

theorem length_hex (letters : LetterCase) (width n : Nat) :
    (hex letters width n).toList.length = max width (hexLength n) := by
  rw [hex, String.toList_ofList, length_lowDigits, List.length_nil, Nat.add_zero]

theorem hexValue?_hexDigit (letters : LetterCase) (n : Fin 16) :
    hexValue? (hexDigit letters n) = some n.val := by
  cases letters <;> revert n <;> decide

end Emu8085.Text
