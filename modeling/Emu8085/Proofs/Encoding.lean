import Emu8085.Listing

/-!
# Encodings

The decoder reads an opcode as three octal digits. Here its answers are compared with the bit
patterns by which the instruction set is usually written down. The bytes after an opcode only fill
in the operand of an instruction that the opcode alone determines (`decode_eq_fill`), so what is
said of decoding has to be checked for the 256 opcodes only.
-/
namespace Emu8085

namespace Instruction

/-- The instruction with its operand taken from two bytes, the first one the lower. -/
def fill (i : Instruction) (first second : Byte) : Instruction :=
  let word := Word.ofBytes second first
  match i with
  | mvi dst _ => mvi dst first
  | aluImmediate op _ => aluImmediate op first
  | input _ => input first
  | output _ => output first
  | lxi dst _ => lxi dst word
  | sta _ => sta word
  | lda _ => lda word
  | shld _ => shld word
  | lhld _ => lhld word
  | jump condition _ => jump condition word
  | call condition _ => call condition word
  | i => i

/-- Decoding with no operand and filling it in later is decoding at once, by cases on the fields. -/
theorem fill_decodeData (y z : Nat) (a b : Byte) :
    (decodeData y z 0 (Word.ofBytes 0 0)).fill a b = decodeData y z a (Word.ofBytes b a) := by
  unfold decodeData
  split
  · split <;> rfl
  · split <;> rfl
  · split <;> try rfl
    split <;> rfl
  · split <;> rfl
  · rfl
  · rfl
  · rfl
  · split <;> rfl

theorem fill_decodeControl (y z : Nat) (a b : Byte) :
    (decodeControl y z 0 (Word.ofBytes 0 0)).fill a b = decodeControl y z a (Word.ofBytes b a) := by
  unfold decodeControl
  split
  · rfl
  · split <;> try rfl
    split <;> rfl
  · rfl
  · split <;> rfl
  · rfl
  · split <;> try rfl
    split <;> rfl
  · split <;> rfl
  · rfl

/-- The opcode fixes the instruction up to its operand. -/
theorem decode_eq_fill (opcode a b : Byte) :
    decode opcode a b = (decode opcode 0 0).fill a b := by
  unfold decode
  split
  · exact (fill_decodeData _ _ a b).symm
  · dsimp only
    split <;> rfl
  · rfl
  · exact (fill_decodeControl _ _ a b).symm

@[simp] theorem width_fill (i : Instruction) (a b : Byte) : (i.fill a b).width = i.width := by
  cases i <;> rfl

theorem bytes_fill (i : Instruction) (a b : Byte) :
    (i.fill a b).operand.bytes = [a, b].take i.width := by
  cases i <;> simp [fill, operand, width, Operand.length, Operand.bytes]

theorem width_decode (opcode a b : Byte) : (decode opcode a b).width = operandWidth opcode := by
  rw [decode_eq_fill, width_fill, operandWidth]

/-- The operand of a decoded instruction is made of all the bytes it was told, and no others. -/
theorem bytes_decode (opcode a b : Byte) :
    (decode opcode a b).operand.bytes = [a, b].take (operandWidth opcode) := by
  rw [decode_eq_fill, bytes_fill, operandWidth]

/-- What the fields of an opcode can select: no pair outside its own family, no subtraction with
borrow of an inline byte, and no move of the memory cell to itself. -/
def isWellFormed : Instruction → Bool
  | lxi p _ | inx p | dcx p | dad p => p != .psw
  | stax p | ldax p => p == .bc || p == .de
  | push p | pop p => p != .sp
  | mov dst src => dst != .m || src != .m
  | aluImmediate op _ => op != .sbb
  | _ => true

theorem isWellFormed_fill (i : Instruction) (a b : Byte) :
    (i.fill a b).isWellFormed = i.isWellFormed := by
  cases i <;> rfl

/-- Only instructions that the fields of an opcode can select are decoded. -/
theorem isWellFormed_decode (opcode a b : Byte) : (decode opcode a b).isWellFormed = true := by
  rw [decode_eq_fill, isWellFormed_fill]
  revert opcode
  decide +kernel

end Instruction

namespace Memory

theorem width_fetch (m : Memory) (a : Word) : (m.fetch a).width = operandWidth (m.read a) :=
  Instruction.width_decode ..

/-- The operand bytes are those that lie behind the opcode, as many as it has. -/
theorem operandBytes_fetch (m : Memory) (a : Word) :
    (m.fetch a).instruction.operand.bytes =
      (List.range (operandWidth (m.read a))).map fun i => m.read (a + 1 + BitVec.ofNat 16 i) := by
  have two : [m.read (a + 1), m.read (a + 2)] =
      (List.range 2).map fun i => m.read (a + 1 + BitVec.ofNat 16 i) := by
    simp [List.range_succ, BitVec.add_assoc]
  have short : operandWidth (m.read a) ≤ 2 := Operand.length_le_two _
  rw [fetch, decodeAt, Instruction.bytes_decode, two, ← List.map_take, List.take_range,
    Nat.min_eq_left short]

end Memory

/-- The number of operand bytes by the patterns of one byte and of two byte operands. -/
def patternWidth (opcode : Byte) : Nat :=
  if opcode &&& 0xC7 = 0x06 ∨ opcode ∈ [0xC6, 0xCE, 0xD6, 0xE6, 0xEE, 0xF6, 0xFE, 0xDB, 0xD3] then 1
  else if opcode &&& 0xCF = 0x01 ∨ opcode ∈ [0x22, 0x2A, 0x32, 0x3A, 0xC3, 0xCD] ∨
      opcode &&& 0xC7 = 0xC2 ∨ opcode &&& 0xC7 = 0xC4 then 2
  else 0

/-- The widths of the decoder are those of the patterns, for each of the 256 opcodes. -/
theorem operandWidth_eq_patternWidth (opcode : Byte) :
    operandWidth opcode = patternWidth opcode := by
  revert opcode
  decide +kernel

end Emu8085
