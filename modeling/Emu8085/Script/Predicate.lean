import Emu8085.Machine
import Emu8085.Text.Hex

/-!
# Predicates of scripts

Comparisons between registers, flags, memory cells and literals, read on a machine state. They
stop runs and are what assertions assert; one that fails says which values it found.
-/
namespace Emu8085.Script

open Text

/-- A register or pair, as scripts name it. -/
inductive Register where
  | a | b | c | d | e | h | l | f | bc | de | hl | sp | pc
  deriving DecidableEq, Repr

namespace Register

def name : Register → String
  | a => "A"
  | b => "B"
  | c => "C"
  | d => "D"
  | e => "E"
  | h => "H"
  | l => "L"
  | f => "F"
  | bc => "BC"
  | de => "DE"
  | hl => "HL"
  | sp => "SP"
  | pc => "PC"

def isWide : Register → Bool
  | bc | de | hl | sp | pc => true
  | _ => false

def bits (r : Register) : Nat := if r.isWide then 16 else 8

def limit (r : Register) : Nat := if r.isWide then 0x10000 else 0x100

def value (r : Registers) : Register → Nat
  | a => r.a.toNat
  | b => r.b.toNat
  | c => r.c.toNat
  | d => r.d.toNat
  | e => r.e.toNat
  | h => r.h.toNat
  | l => r.l.toNat
  | f => r.flags.status.toNat
  | bc => (r.pair .bc).toNat
  | de => (r.pair .de).toNat
  | hl => (r.pair .hl).toNat
  | sp => r.sp.toNat
  | pc => r.pc.toNat

/-- Gives a register the low bits of a value. -/
def assign (r : Registers) (v : Nat) : Register → Registers
  | a => { r with a := BitVec.ofNat 8 v }
  | b => { r with b := BitVec.ofNat 8 v }
  | c => { r with c := BitVec.ofNat 8 v }
  | d => { r with d := BitVec.ofNat 8 v }
  | e => { r with e := BitVec.ofNat 8 v }
  | h => { r with h := BitVec.ofNat 8 v }
  | l => { r with l := BitVec.ofNat 8 v }
  | f => { r with flags := .ofStatus (BitVec.ofNat 8 v) }
  | bc => r.setPair .bc (BitVec.ofNat 16 v)
  | de => r.setPair .de (BitVec.ofNat 16 v)
  | hl => r.setPair .hl (BitVec.ofNat 16 v)
  | sp => { r with sp := BitVec.ofNat 16 v }
  | pc => { r with pc := BitVec.ofNat 16 v }

end Register

inductive Flag where
  | sign | zero | auxCarry | parity | carry
  deriving DecidableEq, Repr

namespace Flag

def name : Flag → String
  | sign => "S"
  | zero => "Z"
  | auxCarry => "AC"
  | parity => "P"
  | carry => "CY"

def isSet (f : Flags) : Flag → Bool
  | sign => f.sign
  | zero => f.zero
  | auxCarry => f.auxCarry
  | parity => f.parity
  | carry => f.carry

end Flag

inductive Source where
  | register (r : Register)
  | flag (f : Flag)
  | memory (address : Nat)
  | literal (value : Nat)
  deriving DecidableEq, Repr

namespace Source

/-- A flag counts as one or zero; an address means its low sixteen bits. -/
def value (s : Machine) : Source → Nat
  | register r => r.value s.registers
  | flag f => (f.isSet s.registers.flags).toNat
  | memory address => (s.memory.read (BitVec.ofNat 16 address)).toNat
  | literal v => v

def text : Source → String
  | register r => r.name
  | flag f => f.name
  | memory address => "#0x" ++ upperHex 4 address
  | literal v => "0x" ++ upperHex 2 v

end Source

inductive Relation where
  | equal | different | greaterOrEqual | greater | lesserOrEqual | lesser
  deriving DecidableEq, Repr

namespace Relation

def symbol : Relation → String
  | equal => "="
  | different => "!="
  | greaterOrEqual => ">="
  | greater => ">"
  | lesserOrEqual => "<="
  | lesser => "<"

def phrase : Relation → String
  | equal => "equal to"
  | different => "different from"
  | greaterOrEqual => "greater than or equal to"
  | greater => "strictly greater than"
  | lesserOrEqual => "lesser than or equal to"
  | lesser => "strictly lesser than"

def holds (left right : Nat) : Relation → Bool
  | equal => decide (left = right)
  | different => decide (left ≠ right)
  | greaterOrEqual => decide (left ≥ right)
  | greater => decide (left > right)
  | lesserOrEqual => decide (left ≤ right)
  | lesser => decide (left < right)

end Relation

inductive Predicate where
  | constant (value : Bool)
  | compare (left : Source) (relation : Relation) (right : Source)
  deriving DecidableEq, Repr

namespace Predicate

def text : Predicate → String
  | constant value => if value then "true" else "false"
  | compare left relation right => left.text ++ " " ++ relation.symbol ++ " " ++ right.text

def holds (s : Machine) : Predicate → Bool
  | constant value => value
  | compare left relation right => relation.holds (left.value s) (right.value s)

/-- Why it does not hold, with the values that were compared. -/
def complaint (s : Machine) : Predicate → String
  | constant value => (constant value).text
  | compare left relation right =>
    "(" ++ (compare left relation right).text ++ ") 0x" ++ lowerHex 2 (left.value s) ++
      " is not " ++ relation.phrase ++ " 0x" ++ lowerHex 2 (right.value s)

def failure? (s : Machine) (p : Predicate) : Option String :=
  if p.holds s then none else some (p.complaint s)

theorem failure?_eq_none (s : Machine) (p : Predicate) :
    p.failure? s = none ↔ p.holds s = true := by
  cases h : p.holds s <;> simp [failure?, h]

end Predicate

end Emu8085.Script
