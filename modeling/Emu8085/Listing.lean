import Emu8085.Instruction
import Emu8085.Text.Pad

/-!
# Listings

Instructions where they lie in memory. Fetching wraps past the last address; a listing goes from
each instruction to the cell after it and ends with the one that reaches the end of memory.
-/
namespace Emu8085

open Text

/-- An instruction at an address, with the opcode that was decoded there. -/
structure Located where
  address : Word
  opcode : Byte
  instruction : Instruction
  deriving DecidableEq, Repr

/-- What decoding `opcode` at an address gives, whatever the cell there holds. -/
def Memory.decodeAt (m : Memory) (opcode : Byte) (address : Word) : Located :=
  ⟨address, opcode, .decode opcode (m.read (address + 1)) (m.read (address + 2))⟩

def Memory.fetch (m : Memory) (address : Word) : Located := m.decodeAt (m.read address) address

namespace Located

def width (i : Located) : Nat := i.instruction.width

def next (i : Located) : Word := i.address + 1 + BitVec.ofNat 16 i.width

/-- The address after the instruction, unless that is past the end of memory. -/
def successor? (i : Located) : Option Word := address? (i.address.toNat + 1 + i.width)

def bytes (i : Located) : List Byte := i.opcode :: i.instruction.operand.bytes

/-- Address, machine code, mnemonic and operand in fixed columns. -/
def text (i : Located) : String :=
  "#0x" ++ upperHex 4 i.address.toNat ++ ": " ++
    pad .left 11 ("(" ++ machineCode .lower i.opcode i.instruction.operand ++ ")") ++
    pad .left 8 i.instruction.mnemonic ++ " " ++ pad .left 6 i.instruction.operand.text

end Located

/-- At most `count` instructions from `address` on, after those in `listed`, latest first. -/
def Memory.listOnto (m : Memory) : Nat → Word → List Located → List Located
  | 0, _, listed => listed.reverse
  | count + 1, address, listed =>
    let i := m.fetch address
    match i.successor? with
    | none => (i :: listed).reverse
    | some next => m.listOnto count next (i :: listed)

def Memory.disassemble (m : Memory) (count : Nat) (address : Word) : List Located :=
  m.listOnto count address []

/-- The listing up to the end of memory. -/
def Memory.walk (m : Memory) (address : Word) : List Located := m.disassemble size address

namespace Memory

/-- What is listed first only stands in front; by induction on the count. -/
theorem listOnto_eq (m : Memory) (count : Nat) (address : Word) (listed : List Located) :
    m.listOnto count address listed = listed.reverse ++ m.disassemble count address := by
  induction count generalizing address listed with
  | zero => simp [listOnto, disassemble]
  | succ count ih =>
    simp only [listOnto, disassemble]
    split
    · simp
    · rw [ih, ih _ [_]]
      simp

@[simp] theorem disassemble_zero (m : Memory) (address : Word) : m.disassemble 0 address = [] := rfl

/-- A listing goes on from the first instruction to the one behind it, if there is one. -/
theorem disassemble_succ (m : Memory) (count : Nat) (address : Word) :
    m.disassemble (count + 1) address =
      m.fetch address :: (match (m.fetch address).successor? with
        | none => []
        | some next => m.disassemble count next) := by
  rw [disassemble, listOnto]
  split
  · rfl
  · rw [listOnto_eq]
    rfl

end Memory

end Emu8085
