import Emu8085.Proofs.Advance

/-!
# Opcodes

The decoder read backwards: the opcodes by which an instruction is written, from its registers,
pairs, conditions and operations. What a step fetches is always written at the program counter,
opcode first and operand behind it (`holds_fetched`).
-/
namespace Emu8085

def Reg.code : Reg → Nat
  | b => 0
  | c => 1
  | d => 2
  | e => 3
  | h => 4
  | l => 5
  | m => 6
  | a => 7

/-- The two bits that select a pair; the last two pairs share theirs. -/
def Pair.code : Pair → Nat
  | bc => 0
  | de => 1
  | hl => 2
  | sp | psw => 3

def Condition.code : Condition → Nat
  | notZero => 0
  | zero => 1
  | noCarry => 2
  | carry => 3
  | parityOdd => 4
  | parityEven => 5
  | plus => 6
  | minus => 7

def Alu.code : Alu → Nat
  | add => 0
  | adc => 1
  | sub => 2
  | sbb => 3
  | ana => 4
  | xra => 5
  | ora => 6
  | cmp => 7

def Rotation.code : Rotation → Nat
  | rlc => 0
  | rrc => 1
  | ral => 2
  | rar => 3

namespace Instruction

/-- A branch has one opcode without a condition and eight with one. -/
def branchOpcode (unconditional first : Nat) : Option Condition → Nat
  | none => unconditional
  | some c => first + 8 * c.code

/-- The opcodes that no instruction has. -/
def unassigned : List Nat :=
  [0x08, 0x10, 0x18, 0x28, 0x38, 0xCB, 0xD9, 0xDD, 0xDE, 0xE3, 0xE9, 0xED, 0xF9, 0xFD]

/-- The opcodes that an instruction is written by, one unless it is not recognized. -/
def opcodes : Instruction → List Nat
  | nop => [0x00]
  | rim => [0x20]
  | sim => [0x30]
  | lxi dst _ => [0x01 + 16 * dst.code]
  | stax pointer => [0x02 + 16 * pointer.code]
  | inx dst => [0x03 + 16 * dst.code]
  | inr dst => [0x04 + 8 * dst.code]
  | dcr dst => [0x05 + 8 * dst.code]
  | mvi dst _ => [0x06 + 8 * dst.code]
  | rotate op => [0x07 + 8 * op.code]
  | dad src => [0x09 + 16 * src.code]
  | ldax pointer => [0x0A + 16 * pointer.code]
  | dcx dst => [0x0B + 16 * dst.code]
  | shld _ => [0x22]
  | daa => [0x27]
  | lhld _ => [0x2A]
  | cma => [0x2F]
  | sta _ => [0x32]
  | stc => [0x37]
  | lda _ => [0x3A]
  | cmc => [0x3F]
  | mov dst src => [0x40 + 8 * dst.code + src.code]
  | hlt => [0x76]
  | alu op src => [0x80 + 8 * op.code + src.code]
  | ret condition => [branchOpcode 0xC9 0xC0 condition]
  | pop dst => [0xC1 + 16 * dst.code]
  | jump condition _ => [branchOpcode 0xC3 0xC2 condition]
  | call condition _ => [branchOpcode 0xCD 0xC4 condition]
  | push src => [0xC5 + 16 * src.code]
  | aluImmediate op _ => [0xC6 + 8 * op.code]
  | rst vector => [0xC7 + 8 * vector.val]
  | output _ => [0xD3]
  | input _ => [0xDB]
  | xchg => [0xEB]
  | di => [0xF3]
  | ei => [0xFB]
  | unrecognized => unassigned

theorem opcodes_fill (i : Instruction) (a b : Byte) : (i.fill a b).opcodes = i.opcodes := by
  cases i <;> rfl

/-- Each of the 256 opcodes is one of those that its instruction is written by. -/
theorem mem_opcodes_decode (opcode a b : Byte) : opcode.toNat ∈ (decode opcode a b).opcodes := by
  have bare : ∀ opcode : Byte, opcode.toNat ∈ (decode opcode 0 0).opcodes := by decide +kernel
  rw [decode_eq_fill, opcodes_fill]
  exact bare opcode

/-- Only one opcode halts. -/
theorem decode_eq_hlt_iff (opcode a b : Byte) : decode opcode a b = hlt ↔ opcode = 0x76 := by
  constructor
  · intro h
    have written := mem_opcodes_decode opcode a b
    rw [h] at written
    exact BitVec.eq_of_toNat_eq (List.mem_singleton.1 written)
  · rintro rfl
    rfl

end Instruction

/-- An instruction is written at an address: one of its opcodes, and its operand behind it. -/
structure Memory.Holds (m : Memory) (address : Word) (i : Instruction) : Prop where
  opcode : (m.read address).toNat ∈ i.opcodes
  operand : i.operand.bytes =
    (List.range i.width).map fun k => m.read (address + 1 + BitVec.ofNat 16 k)

theorem Machine.holds_fetched (s : Machine) :
    s.memory.Holds s.registers.pc s.fetched.instruction where
  opcode := Instruction.mem_opcodes_decode _ _ _
  operand := by
    have width : s.fetched.instruction.width = operandWidth (s.memory.read s.registers.pc) :=
      Instruction.width_decode _ _ _
    rw [width, Machine.bytes_fetched]

end Emu8085
