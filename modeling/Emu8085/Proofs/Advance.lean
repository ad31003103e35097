import Emu8085.Machine.Control
import Emu8085.Proofs.Encoding

/-!
# Fetching and advancing

What a step reads at the program counter and where it goes from there, both from the bits of the
opcode. Branches are four families of opcodes: three have a condition in bits 3 to 5 and one
opcode more without it, the fourth a vector there. All of it is judged on the state before the
step, so an instruction may overwrite itself.
-/
namespace Emu8085

def middleField (opcode : Byte) : Nat := opcode.toNat / 8 % 8

theorem middleField_lt (opcode : Byte) : middleField opcode < 8 := Nat.mod_lt _ (by decide)

/-- The tests that a three bit field selects, in the order of its values. -/
def fieldTests (f : Flags) : List Bool :=
  [!f.zero, f.zero, !f.carry, f.carry, !f.parity, f.parity, !f.sign, f.sign]

theorem holds_ofField (f : Flags) (n : Nat) (h : n < 8) :
    (Condition.ofField n).holds f = (fieldTests f).getD n false := by
  match n, h with
  | 0, _ | 1, _ | 2, _ | 3, _ | 4, _ | 5, _ | 6, _ | 7, _ => rfl

def wordOf (low high : Byte) : Word := BitVec.ofNat 16 (low.toNat + 256 * high.toNat)

theorem ofBytes_eq_wordOf (high low : Byte) : Word.ofBytes high low = wordOf low high := by
  apply BitVec.eq_of_toNat_eq
  have := (Word.ofBytes high low).isLt
  rw [Word.toNat_ofBytes] at this ⊢
  rw [wordOf, BitVec.toNat_ofNat, Nat.mod_eq_of_lt (by omega)]
  omega

namespace Instruction

def isBranch : Instruction → Bool
  | jump _ _ | call _ _ | ret _ | rst _ => true
  | _ => false

theorem isBranch_fill (i : Instruction) (a b : Byte) : (i.fill a b).isBranch = i.isBranch := by
  cases i <;> rfl

/-- Only branches go elsewhere than to the instruction behind. -/
theorem target_eq_next (i : Instruction) (next : Word) (s : Machine) (h : i.isBranch = false) :
    i.target next s = next := by
  cases i <;> simp_all [isBranch, target]

/-- The branch of an opcode, its operand left open; an instruction that goes nowhere stands for the
opcodes that do not branch. -/
def patternBranch (opcode : Byte) : Instruction :=
  let condition := some (Condition.ofField (middleField opcode))
  if opcode = 0xC3 then jump none 0
  else if opcode = 0xCD then call none 0
  else if opcode = 0xC9 then ret none
  else if opcode &&& 0xC7 = 0xC2 then jump condition 0
  else if opcode &&& 0xC7 = 0xC4 then call condition 0
  else if opcode &&& 0xC7 = 0xC0 then ret condition
  else if opcode &&& 0xC7 = 0xC7 then rst ⟨middleField opcode, middleField_lt opcode⟩
  else nop

/-- The patterns find every branch of the decoder, and nothing else. -/
theorem decode_eq_patternBranch (opcode : Byte) :
    decode opcode 0 0 = patternBranch opcode ∨
      patternBranch opcode = nop ∧ (decode opcode 0 0).isBranch = false := by
  revert opcode
  decide +kernel

/-- Where an instruction goes is known from the pattern of its opcode and its operand. -/
theorem target_decode (opcode a b : Byte) (next : Word) (s : Machine) :
    (decode opcode a b).target next s = ((patternBranch opcode).fill a b).target next s := by
  rw [decode_eq_fill]
  rcases decode_eq_patternBranch opcode with same | ⟨none, straight⟩
  · rw [same]
  · rw [none, target_eq_next _ _ _ (by rw [isBranch_fill, straight])]
    rfl

end Instruction

namespace Machine

def meets (s : Machine) (opcode : Byte) : Bool :=
  (fieldTests s.registers.flags).getD (middleField opcode) false

theorem takes_ofField (s : Machine) (opcode : Byte) :
    s.takes (some (.ofField (middleField opcode))) = s.meets opcode :=
  holds_ofField _ _ (middleField_lt opcode)

/-- The next program counter by the patterns of branch opcodes. -/
def nextPc (s : Machine) : Word :=
  let m := s.memory
  let pc := s.registers.pc
  let sp := s.registers.sp
  let opcode := m.read pc
  let inline := wordOf (m.read (pc + 1)) (m.read (pc + 2))
  let stacked := wordOf (m.read sp) (m.read (sp + 1))
  let following := pc + 1 + BitVec.ofNat 16 (operandWidth opcode)
  if opcode = 0xC3 then inline
  else if opcode = 0xCD then inline
  else if opcode = 0xC9 then stacked
  else if opcode &&& 0xC7 = 0xC2 then if s.meets opcode then inline else following
  else if opcode &&& 0xC7 = 0xC4 then if s.meets opcode then inline else following
  else if opcode &&& 0xC7 = 0xC0 then if s.meets opcode then stacked else following
  else if opcode &&& 0xC7 = 0xC7 then BitVec.ofNat 16 (8 * middleField opcode)
  else following

theorem next_fetched (s : Machine) :
    s.fetched.next = s.registers.pc + 1 +
      BitVec.ofNat 16 (operandWidth (s.memory.read s.registers.pc)) := by
  rw [Located.next, Located.width, fetched, Memory.fetch, Memory.decodeAt,
    Instruction.width_decode]

/-- The step lemma: the program counter moves as the bits of the opcode say. -/
theorem pc_step_eq_nextPc (s : Machine) : s.step.2.registers.pc = s.nextPc := by
  rw [pc_step, next_fetched, fetched, Memory.fetch, Memory.decodeAt, Instruction.target_decode]
  simp only [Instruction.patternBranch, nextPc, ← ofBytes_eq_wordOf]
  split
  · rfl
  split
  · rfl
  split
  · rfl
  split
  · simp only [Instruction.fill, Instruction.target, takes_ofField]
  split
  · simp only [Instruction.fill, Instruction.target, takes_ofField]
  split
  · simp only [Instruction.fill, Instruction.target, takes_ofField, top, wordAt]
  split <;> rfl

/-- The operand lies behind the opcode, as long as the opcode makes it. -/
theorem bytes_fetched (s : Machine) :
    s.fetched.instruction.operand.bytes =
      (List.range (operandWidth (s.memory.read s.registers.pc))).map fun i =>
        s.memory.read (s.registers.pc + 1 + BitVec.ofNat 16 i) :=
  s.memory.operandBytes_fetch s.registers.pc

theorem checkedAddress_toNat (a : Word) : checkedAddress a.toNat = .ok a := by
  simp [checkedAddress, address?, a.isLt]

theorem disassemble_one (s : Machine) : s.memory.disassemble 1 s.registers.pc = [s.fetched] := by
  rw [Memory.disassemble_succ]
  split <;> rfl

/-- A step reports the instruction that memory holds at the program counter before the step, which
is the one that a description and a listing show there, and goes on where the bits of its opcode
say. -/
theorem step_fetches_and_advances (s : Machine) :
    let m := s.memory
    let pc := s.registers.pc
    let opcode := m.read pc
    let i := s.step.1.fetched
    i.address = pc ∧ i.opcode = opcode ∧
      i.instruction.operand.bytes =
        (List.range (operandWidth opcode)).map (fun k => m.read (pc + 1 + BitVec.ofNat 16 k)) ∧
      operandWidth opcode = patternWidth opcode ∧
      i = m.decodeAt opcode pc ∧
      s.describe pc.toNat = .ok (i.instruction.mnemonic, i.instruction.operand.text) ∧
      m.disassemble 1 pc = [i] ∧
      s.step.2.registers.pc = s.nextPc := by
  refine ⟨rfl, rfl, bytes_fetched s, operandWidth_eq_patternWidth _, rfl, ?_, disassemble_one s,
    pc_step_eq_nextPc s⟩
  rw [describe, checkedAddress_toNat]
  rfl

end Machine

end Emu8085
