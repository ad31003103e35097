import Emu8085.Condition
import Emu8085.Operand
import Emu8085.Registers

/-!
# Instructions

What an opcode and the two bytes after it say: an operation with its operands inside. The opcode
is read as three octal digits, a group, a field `y` and a field `z`, the way the instruction set
was laid out. `decode` is the only table: the operand and its width, the mnemonic and the effect
are all functions of the instruction.
-/
namespace Emu8085

inductive Alu where
  | add | adc | sub | sbb | ana | xra | ora | cmp
  deriving DecidableEq, Repr

namespace Alu

def ofField : Nat → Alu
  | 0 => add
  | 1 => adc
  | 2 => sub
  | 3 => sbb
  | 4 => ana
  | 5 => xra
  | 6 => ora
  | _ => cmp

def mnemonic : Alu → String
  | add => "ADD"
  | adc => "ADC"
  | sub => "SUB"
  | sbb => "SBB"
  | ana => "ANA"
  | xra => "XRA"
  | ora => "ORA"
  | cmp => "CMP"

def immediateMnemonic : Alu → String
  | add => "ADI"
  | adc => "ACI"
  | sub => "SUI"
  | sbb => "SBI"
  | ana => "ANI"
  | xra => "XRI"
  | ora => "ORI"
  | cmp => "CPI"

end Alu

/-- Rotations of the accumulator: the `a` forms go through the carry. -/
inductive Rotation where
  | rlc | rrc | ral | rar
  deriving DecidableEq, Repr

namespace Rotation

def mnemonic : Rotation → String
  | rlc => "RLC"
  | rrc => "RRC"
  | ral => "RAL"
  | rar => "RAR"

end Rotation

/-- A jump, call or return without a condition is always taken. -/
inductive Instruction where
  | nop
  | hlt
  | rim
  | sim
  | di
  | ei
  | mov (dst src : Reg)
  | mvi (dst : Reg) (data : Byte)
  | lxi (dst : Pair) (data : Word)
  | sta (address : Word)
  | lda (address : Word)
  | shld (address : Word)
  | lhld (address : Word)
  | stax (pointer : Pair)
  | ldax (pointer : Pair)
  | xchg
  | alu (op : Alu) (src : Reg)
  | aluImmediate (op : Alu) (data : Byte)
  | inr (dst : Reg)
  | dcr (dst : Reg)
  | inx (dst : Pair)
  | dcx (dst : Pair)
  | dad (src : Pair)
  | daa
  | cma
  | stc
  | cmc
  | rotate (op : Rotation)
  | jump (condition : Option Condition) (target : Word)
  | call (condition : Option Condition) (target : Word)
  | ret (condition : Option Condition)
  | rst (vector : Fin 8)
  | push (src : Pair)
  | pop (dst : Pair)
  | input (port : Byte)
  | output (port : Byte)
  | unrecognized
  deriving DecidableEq, Repr

namespace Instruction

def operand : Instruction → Operand
  | mvi _ data | aluImmediate _ data => .byte data
  | input port | output port => .byte port
  | lxi _ data => .word data
  | sta address | lda address | shld address | lhld address => .word address
  | jump _ target | call _ target => .word target
  | _ => .none

/-- The number of bytes after the opcode. -/
def width (i : Instruction) : Nat := i.operand.length

def isRecognized : Instruction → Bool
  | unrecognized => false
  | _ => true

/-- The letter of a branch family, with the suffix of its condition or its unconditional name. -/
def branchMnemonic (family unconditional : String) : Option Condition → String
  | none => unconditional
  | some c => family ++ c.suffix

def mnemonic : Instruction → String
  | nop => "NOP"
  | hlt => "HLT"
  | rim => "RIM"
  | sim => "SIM"
  | di => "DI"
  | ei => "EI"
  | mov dst src => "MOV " ++ dst.name ++ "," ++ src.name
  | mvi dst _ => "MVI " ++ dst.name
  | lxi dst _ => "LXI " ++ dst.name
  | sta _ => "STA"
  | lda _ => "LDA"
  | shld _ => "SHLD"
  | lhld _ => "LHLD"
  | stax pointer => "STAX " ++ pointer.name
  | ldax pointer => "LDAX " ++ pointer.name
  | xchg => "XCHG"
  | alu op src => op.mnemonic ++ " " ++ src.name
  | aluImmediate op _ => op.immediateMnemonic
  | inr dst => "INR " ++ dst.name
  | dcr dst => "DCR " ++ dst.name
  | inx dst => "INX " ++ dst.name
  | dcx dst => "DCX " ++ dst.name
  | dad src => "DAD " ++ src.name
  | daa => "DAA"
  | cma => "CMA"
  | stc => "STC"
  | cmc => "CMC"
  | rotate op => op.mnemonic
  | jump condition _ => branchMnemonic "J" "JMP" condition
  | call condition _ => branchMnemonic "C" "CALL" condition
  | ret condition => branchMnemonic "R" "RET" condition
  | rst vector => "RST " ++ toString vector.val
  | push src => "PUSH " ++ src.name
  | pop dst => "POP " ++ dst.name
  | input _ => "IN"
  | output _ => "OUT"
  | unrecognized => "UNKNOWN"

/-- Group 0: data transfer, pairs, increments and accumulator operations. -/
def decodeData (y z : Nat) (data : Byte) (word : Word) : Instruction :=
  let pair := Pair.ofField (y / 2)
  match z with
  | 0 => match y with
    | 0 => nop
    | 4 => rim
    | 6 => sim
    | _ => unrecognized
  | 1 => if y % 2 = 0 then lxi pair word else dad pair
  | 2 => match y with
    | 4 => shld word
    | 5 => lhld word
    | 6 => sta word
    | 7 => lda word
    | _ => if y % 2 = 0 then stax pair else ldax pair
  | 3 => if y % 2 = 0 then inx pair else dcx pair
  | 4 => inr (Reg.ofField y)
  | 5 => dcr (Reg.ofField y)
  | 6 => mvi (Reg.ofField y) data
  | _ => match y with
    | 0 => rotate .rlc
    | 1 => rotate .rrc
    | 2 => rotate .ral
    | 3 => rotate .rar
    | 4 => daa
    | 5 => cma
    | 6 => stc
    | _ => cmc

/-- Group 3: branches, stack, immediate operands and input and output. -/
def decodeControl (y z : Nat) (data : Byte) (word : Word) : Instruction :=
  let pair := Pair.ofStackField (y / 2)
  let condition := some (Condition.ofField y)
  match z with
  | 0 => ret condition
  | 1 => if y % 2 = 0 then pop pair else if y = 1 then ret none else unrecognized
  | 2 => jump condition word
  | 3 => match y with
    | 0 => jump none word
    | 2 => output data
    | 3 => input data
    | 5 => xchg
    | 6 => di
    | 7 => ei
    | _ => unrecognized
  | 4 => call condition word
  | 5 => if y % 2 = 0 then push pair else if y = 1 then call none word else unrecognized
  | 6 => if y = 3 then unrecognized else aluImmediate (Alu.ofField y) data
  | _ => rst (Fin.ofNat 8 y)

/-- The instruction of an opcode followed by two bytes; those it does not need are ignored. -/
def decode (opcode first second : Byte) : Instruction :=
  let y := opcode.toNat / 8 % 8
  let z := opcode.toNat % 8
  let word := Word.ofBytes second first
  match opcode.toNat / 64 with
  | 0 => decodeData y z first word
  | 1 => if y = 6 ∧ z = 6 then hlt else mov (Reg.ofField y) (Reg.ofField z)
  | 2 => alu (Alu.ofField y) (Reg.ofField z)
  | _ => decodeControl y z first word

end Instruction

def operandWidth (opcode : Byte) : Nat := (Instruction.decode opcode 0 0).width

end Emu8085
