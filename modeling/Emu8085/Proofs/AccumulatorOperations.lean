import Emu8085.Memory.Range
import Emu8085.Proofs.Advance
import Emu8085.Proofs.FlagLaw
import Emu8085.Proofs.Trace

/-!
# Operations of the accumulator

The eight operations of the accumulator with a byte, in integers: what they leave in eight bits and
when the carry says that eight bits were not enough (`Alu.computes_apply`). The bits of an opcode
say which operation it is and where its operand lies (`operation?`); nothing else depends on the
form of the operand. After a comparison the tests of carry and zero order the two bytes.
-/
namespace Emu8085

theorem addWithCarry_computes (a v : Byte) (c : Bool) (f : Flags) :
    (addWithCarry a v c f).1.toNat = (a.toNat + v.toNat + c.toNat) % 256 ∧
      ((addWithCarry a v c f).2.carry = true ↔ 255 < a.toNat + v.toNat + c.toNat) := by
  simp [addWithCarry]

/-- An operand with its borrow may be 256, which takes nothing away and always borrows. -/
theorem subWithBorrow_computes (a v : Byte) (c : Bool) (f : Flags) :
    ((subWithBorrow a v c f).1.toNat : Int) = ((a.toNat : Int) - v.toNat - c.toNat) % 256 ∧
      ((subWithBorrow a v c f).2.carry = true ↔ a.toNat < v.toNat + c.toNat) := by
  have small := a.isLt
  simp only [subWithBorrow, BitVec.toNat_sub, BitVec.toNat_ofNat, decide_eq_true_eq, and_true]
  omega

/-- What an operation makes of the accumulator, its operand and the carry. A sum or a difference
keeps eight bits and its carry says that it has more or is negative, bitwise results clear the
carry, and a comparison keeps the accumulator. -/
def Alu.Computes (op : Alu) (a v : Byte) (c : Bool) (result : Byte) (carry : Bool) : Prop :=
  match op with
  | add => result.toNat = (a.toNat + v.toNat) % 256 ∧ (carry = true ↔ 255 < a.toNat + v.toNat)
  | adc => result.toNat = (a.toNat + v.toNat + c.toNat) % 256 ∧
      (carry = true ↔ 255 < a.toNat + v.toNat + c.toNat)
  | sub => (result.toNat : Int) = ((a.toNat : Int) - v.toNat) % 256 ∧
      (carry = true ↔ a.toNat < v.toNat)
  | sbb => (result.toNat : Int) = ((a.toNat : Int) - v.toNat - c.toNat) % 256 ∧
      (carry = true ↔ a.toNat < v.toNat + c.toNat)
  | ana => (∀ i, result.getLsbD i = (a.getLsbD i && v.getLsbD i)) ∧ carry = false
  | xra => (∀ i, result.getLsbD i = (a.getLsbD i ^^ v.getLsbD i)) ∧ carry = false
  | ora => (∀ i, result.getLsbD i = (a.getLsbD i || v.getLsbD i)) ∧ carry = false
  | cmp => result = a ∧ (carry = true ↔ a.toNat < v.toNat)

/-- By cases on the operation, from the laws of sum and difference. -/
theorem Alu.computes_apply (op : Alu) (a v : Byte) (f : Flags) :
    op.Computes a v f.carry (op.apply a v f).1 (op.apply a v f).2.carry := by
  cases op with
  | add => exact addWithCarry_computes a v false f
  | adc => exact addWithCarry_computes a v f.carry f
  | sub => simpa [Computes, apply] using subWithBorrow_computes a v false f
  | sbb => exact subWithBorrow_computes a v f.carry f
  | ana | xra | ora => simp [Computes, apply, bitwise]
  | cmp => exact ⟨rfl, (subWithBorrow_computes a v false f).2⟩

def fieldOperations : List Alu := [.add, .adc, .sub, .sbb, .ana, .xra, .ora, .cmp]

theorem Alu.ofField_eq {n : Nat} (h : n < 8) : ofField n = fieldOperations.getD n add := by
  match n, h with
  | 0, _ | 1, _ | 2, _ | 3, _ | 4, _ | 5, _ | 6, _ | 7, _ => rfl

namespace Instruction

def test? : Instruction → Option Condition
  | jump condition _ | call condition _ | ret condition => condition
  | _ => none

def taken : Instruction → Instruction
  | jump _ target => jump none target
  | call _ target => call none target
  | ret _ => ret none
  | i => i

/-- A branch with a test is the one without it, or goes on behind itself. -/
theorem execute_of_test {i : Instruction} {c : Condition} (h : i.test? = some c) (next : Word)
    (s : Machine) : i.execute next s =
      if c.holds s.registers.flags then i.taken.execute next s
      else { s with registers.pc := next } := by
  cases i with
  | jump condition _ | call condition _ | ret condition =>
    obtain rfl : condition = some c := h
    cases holds : c.holds s.registers.flags <;>
      simp [execute, effect, target, taken, Machine.takes, holds]
  | _ => cases h

theorem width_taken (i : Instruction) : i.taken.width = i.width := by
  cases i <;> rfl

/-- The register forms: the low field selects the operand. -/
theorem decode_alu (opcode : Byte) (h : opcode &&& 0xC0 = 0x80) : decode opcode 0 0 =
    alu (Alu.ofField (middleField opcode)) (Reg.ofField (opcode.toNat % 8)) := by
  revert opcode
  decide +kernel

/-- The inline forms; there is none of a subtraction with borrow. -/
theorem decode_aluImmediate (opcode : Byte) (h : opcode &&& 0xC7 = 0xC6 ∧ opcode ≠ 0xDE) :
    decode opcode 0 0 = aluImmediate (Alu.ofField (middleField opcode)) 0 := by
  revert opcode
  decide +kernel

end Instruction

/-- What a test says of two bytes after their comparison. Those of parity and sign do not tell the
order. -/
def Condition.ordering? (a v : Byte) : Condition → Option Bool
  | carry => some (decide (a.toNat < v.toNat))
  | noCarry => some (decide (v.toNat ≤ a.toNat))
  | zero => some (decide (a = v))
  | notZero => some (decide (a ≠ v))
  | _ => none

/-- After a comparison the carry says lesser and zero says equal. -/
theorem Condition.holds_of_ordering {a v : Byte} {c : Condition} {f : Flags} {b : Bool}
    (lesser : f.carry = true ↔ a.toNat < v.toNat) (judged : f.Judges (a - v))
    (h : c.ordering? a v = some b) : c.holds f = b := by
  have equal : f.zero = true ↔ a = v := by
    rw [judged.zero, ← BitVec.toNat_inj]
    have := a.isLt
    have := v.isLt
    simp only [BitVec.toNat_sub]
    omega
  cases c with
  | carry =>
    cases h
    rw [holds, Bool.eq_iff_iff, decide_eq_true_iff, lesser]
  | noCarry =>
    cases h
    rw [holds, Bool.eq_iff_iff, decide_eq_true_iff, Bool.not_eq_true', ← Bool.not_eq_true, lesser,
      Nat.not_lt]
  | zero =>
    cases h
    rw [holds, Bool.eq_iff_iff, decide_eq_true_iff, equal]
  | notZero =>
    cases h
    rw [holds, Bool.eq_iff_iff, decide_eq_true_iff, Bool.not_eq_true', ← Bool.not_eq_true, equal]
  | _ => cases h

namespace Machine

/-- The bytes that a three bit field selects, in the order of its values: registers, and the cell of
HL before the accumulator. -/
def fieldOperands (s : Machine) : List Byte :=
  let r := s.registers
  [r.b, r.c, r.d, r.e, r.h, r.l, s.memory.read (wordOf r.l r.h), r.a]

theorem reg_ofField (s : Machine) {n : Nat} (h : n < 8) :
    s.reg (Reg.ofField n) = s.fieldOperands.getD n 0 := by
  rw [fieldOperands, ← ofBytes_eq_wordOf]
  match n, h with
  | 0, _ | 1, _ | 2, _ | 3, _ | 4, _ | 5, _ | 6, _ | 7, _ => rfl

/-- The operation that the opcode at the program counter stands for and the byte that it operates
with: what the low field selects, or the byte behind the opcode. -/
def operation? (s : Machine) : Option (Alu × Byte) :=
  let opcode := s.memory.read s.registers.pc
  let op := fieldOperations.getD (middleField opcode) .add
  if opcode &&& 0xC0 = 0x80 then some (op, s.fieldOperands.getD (opcode.toNat % 8) 0)
  else if opcode &&& 0xC7 = 0xC6 ∧ opcode ≠ 0xDE then
    some (op, s.memory.read (s.registers.pc + 1))
  else none

variable {s : Machine} {op : Alu} {v : Byte}

theorem fetched_of_operation (h : s.operation? = some (op, v)) :
    (∃ src, s.fetched.instruction = .alu op src ∧ s.reg src = v) ∨
      s.fetched.instruction = .aluImmediate op v := by
  rw [fetched, Memory.fetch, Memory.decodeAt, Instruction.decode_eq_fill]
  rw [operation?] at h
  split at h
  · next register =>
    cases h
    rw [Instruction.decode_alu _ register, ← Alu.ofField_eq (middleField_lt _)]
    exact .inl ⟨_, rfl, reg_ofField s (Nat.mod_lt _ (by decide))⟩
  · split at h
    · next inline =>
      cases h
      rw [Instruction.decode_aluImmediate _ inline, ← Alu.ofField_eq (middleField_lt _)]
      exact .inr rfl
    · cases h

/-- Whatever the form of the operand, a step changes the accumulator and the flags and goes on. -/
theorem step_of_operation (h : s.operation? = some (op, v)) : s.step.2 =
    { s.accumulate (op.apply s.registers.a v s.registers.flags) with
      registers.pc := s.fetched.next } := by
  have step : s.step.2 = s.fetched.instruction.execute s.fetched.next s := rfl
  obtain ⟨src, register, rfl⟩ | inline := fetched_of_operation h
  · rw [step, register]
    rfl
  · rw [step, inline]
    rfl

/-- A step at a branch asks the flags once and then goes either way. -/
theorem step_of_test {c : Condition} (h : s.fetched.instruction.test? = some c) : s.step.2 =
    if c.holds s.registers.flags then s.perform s.fetched.instruction.taken
    else { s with registers.pc := s.fetched.next } := by
  rw [perform, Instruction.width_taken]
  exact Instruction.execute_of_test h _ s

/-- The operations of the accumulator compute in eight bits what they name, whatever the form of
their operand: of two machines with the same accumulator and flags, the same operation with the same
byte makes the same, and a comparison sets the flags as a subtraction does. After a comparison a
branch on the carry or on zero is taken just when the bytes are in that order. Nothing else changes
but the program counter, which moves behind the instruction. -/
theorem operation_computes (h : s.operation? = some (op, v)) :
    let a := s.registers.a
    let before := s.registers.flags
    let t := s.step.2
    let after := t.registers.flags
    op.Computes a v before.carry t.registers.a after.carry ∧
      after.Judges (if op = .cmp then a - v else t.registers.a) ∧
      (∀ s' : Machine, s'.registers.a = a → s'.registers.flags = before →
        (s'.operation? = some (op, v) →
          s'.step.2.registers.a = t.registers.a ∧ s'.step.2.registers.flags = after) ∧
        (op = .cmp → s'.operation? = some (.sub, v) → s'.step.2.registers.flags = after)) ∧
      (op = .cmp → ∀ c b, t.fetched.instruction.test? = some c → c.ordering? a v = some b →
        t.step.2 = if b then t.perform t.fetched.instruction.taken
          else { t with registers.pc := t.fetched.next }) ∧
      after.auxCarry = before.auxCarry ∧
      t = { s with registers := { s.registers with
        a := t.registers.a, flags := after, pc := s.fetched.next } } := by
  intro a before t after
  have result : t = { s.accumulate (op.apply a v before) with registers.pc := s.fetched.next } :=
    step_of_operation h
  have accumulator : t.registers.a = (op.apply a v before).1 := by rw [result]; rfl
  have flags : after = (op.apply a v before).2 := by
    show t.registers.flags = _
    rw [result]
    rfl
  have judged := op.judges_apply a v before
  rw [← accumulator, ← flags] at judged
  refine ⟨?_, judged, ?_, ?_, ?_, ?_⟩
  · rw [accumulator, flags]
    exact op.computes_apply a v before
  · intro s' sameA sameFlags
    constructor
    · intro same
      rw [step_of_operation same, sameA, sameFlags, accumulator, flags]
      exact ⟨rfl, rfl⟩
    · rintro rfl subtracts
      rw [step_of_operation subtracts, sameA, sameFlags, flags]
      rfl
  · rintro rfl c b test ordering
    have lesser : after.carry = true ↔ a.toNat < v.toNat := by
      rw [flags]
      exact (Alu.computes_apply .cmp a v before).2
    rw [step_of_test test, Condition.holds_of_ordering lesser judged ordering]
  · rw [flags]
    exact op.apply_auxCarry a v before
  · rw [flags, accumulator]
    exact result

/-- Compares with a byte in memory and returns, the word on top of the stack lying where the
memory wraps. -/
def comparing : Machine where
  registers := { Registers.initial 0x0100 with
    a := 0x7F, h := 0x20, sp := 0xFFFF, flags := { Flags.clear with auxCarry := true } }
  memory := ((Memory.zero.store 0x0100 [0xBE, 0xD8]).store 0x2000 [0x80]).store 0xFFFF [0x34, 0x12]

theorem operation_computes_comparing :
    comparing.operation? = some (.cmp, 0x80) ∧ comparing.step.2.registers.a = 0x7F ∧
      comparing.step.2.registers.flags.carry = true ∧
      comparing.step.2.step.2.registers.pc = 0x1234 := by
  have compares : comparing.operation? = some (.cmp, 0x80) := by decide +kernel
  obtain ⟨⟨kept, lesser⟩, -, -, branch, -, -⟩ := operation_computes compares
  have returns : comparing.step.2.fetched.instruction.test? = some .carry := by decide +kernel
  refine ⟨compares, kept, lesser.2 (by decide), ?_⟩
  rw [branch rfl .carry true returns (by decide)]
  decide +kernel

end Machine

end Emu8085
