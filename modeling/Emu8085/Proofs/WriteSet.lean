import Emu8085.Machine.Run
import Emu8085.Proofs.FlagLaw
import Emu8085.Proofs.Opcodes
import Emu8085.Proofs.Trace

/-!
# What a step leaves alone

Beside the cells that an instruction writes, its destinations: the byte registers that it may
change. All other cells and registers are as before, the stack pointer but for three instructions
moves by the words that go on the stack and come off it, and only one instruction halts.
-/
namespace Emu8085

/-- The byte registers of a pair; the status byte is none. -/
def Pair.halves : Pair → List Reg
  | bc => [.b, .c]
  | de => [.d, .e]
  | hl => [.h, .l]
  | sp => []
  | psw => [.a]

namespace Machine

variable (s : Machine) {q : Reg}

/-- Only one byte operand is in memory. -/
theorem reg_withMemory (m : Memory) (h : q ≠ .m) :
    ({ s with memory := m } : Machine).reg q = s.reg q := by
  cases q <;> simp_all [reg]

theorem reg_setReg_other {r : Reg} (v : Byte) (h : q ≠ .m) (other : q ∉ [r]) :
    (s.setReg r v).reg q = s.reg q := by
  cases r <;> cases q <;> simp_all [reg, setReg]

theorem reg_setPair_other {p : Pair} (w : Word) (h : q ≠ .m) (other : q ∉ p.halves) :
    (s.setPair p w).reg q = s.reg q := by
  cases p <;> cases q <;> simp_all [reg, setPair, Registers.setPair, Pair.halves]

theorem reg_accumulate_other (result : Byte × Flags) (h : q ≠ .m) (other : q ∉ [Reg.a]) :
    (s.accumulate result).reg q = s.reg q := by
  cases q <;> simp_all [reg, accumulate]

theorem reg_push (w : Word) (h : q ≠ .m) : (s.push w).reg q = s.reg q := by
  cases q <;> simp_all [reg, push]

theorem reg_drop : s.drop.reg q = s.reg q := by
  cases q <;> rfl

@[simp] theorem halted_setReg (r : Reg) (v : Byte) :
    (s.setReg r v).registers.halted = s.registers.halted := by
  cases r <;> rfl

@[simp] theorem halted_setPair (p : Pair) (w : Word) :
    (s.setPair p w).registers.halted = s.registers.halted := by
  cases p <;> rfl

end Machine

namespace Instruction

/-- The byte operands that an instruction may change. A comparison changes none. -/
def destinations : Instruction → List Reg
  | mov dst _ | mvi dst _ | inr dst | dcr dst => [dst]
  | lxi dst _ | inx dst | dcx dst | pop dst => dst.halves
  | dad _ | lhld _ => Pair.hl.halves
  | xchg => Pair.hl.halves ++ Pair.de.halves
  | alu op _ | aluImmediate op _ => if op = .cmp then [] else [.a]
  | rotate _ | daa | cma | lda _ | ldax _ | input _ | rim => [.a]
  | nop | hlt | sim | di | ei | output _ | unrecognized | stc | cmc => []
  | sta _ | shld _ | stax _ | push _ | jump _ _ | call _ _ | ret _ | rst _ => []

theorem reg_alu_other (op : Alu) (s : Machine) (v : Byte) (f : Flags) {q : Reg} (h : q ≠ .m)
    (other : q ∉ if op = .cmp then [] else [Reg.a]) :
    (s.accumulate (op.apply s.registers.a v f)).reg q = s.reg q := by
  by_cases keeps : op = .cmp
  · subst keeps
    cases q <;> rfl
  · rw [if_neg keeps] at other
    exact s.reg_accumulate_other _ h other

/-- By cases on the instruction: a byte register that is none of its destinations keeps its byte. -/
theorem reg_effect (i : Instruction) (next : Word) (s : Machine) {q : Reg} (h : q ≠ .m)
    (other : q ∉ i.destinations) : (i.effect next s).reg q = s.reg q := by
  cases i with
  | nop | sim | di | ei | output _ | jump _ _ | unrecognized => rfl
  | hlt => cases q <;> rfl
  | sta _ | shld _ | stax _ => exact s.reg_withMemory _ h
  | push _ | rst _ => exact s.reg_push _ h
  | call condition _ =>
    cases taken : s.takes condition <;> simp [effect, taken, Machine.reg_push, h]
  | ret condition => cases taken : s.takes condition <;> simp [effect, taken, Machine.reg_drop]
  | stc | cmc => exact s.reg_withFlags _ q
  | mov _ _ | mvi _ _ | rim | input _ | lda _ | ldax _ | cma => exact s.reg_setReg_other _ h other
  | inr _ | dcr _ => exact (Machine.reg_withFlags _ _ q).trans (s.reg_setReg_other _ h other)
  | alu op _ | aluImmediate op _ => exact reg_alu_other op s _ _ h other
  | rotate _ | daa => exact s.reg_accumulate_other _ h other
  | lxi _ _ | inx _ | dcx _ | lhld _ => exact s.reg_setPair_other _ h other
  | pop _ => exact (Machine.reg_setPair_other _ _ h other).trans s.reg_drop
  | dad _ => exact (Machine.reg_withFlags _ _ q).trans (s.reg_setPair_other _ h other)
  | xchg =>
    have apart := not_or.1 (mt List.mem_append.2 other)
    exact (Machine.reg_setPair_other _ _ h apart.1).trans (s.reg_setPair_other _ h apart.2)

/-- One instruction sets the latch, and none clears it. -/
theorem halted_effect (i : Instruction) (next : Word) (s : Machine) :
    (i.effect next s).registers.halted = (s.registers.halted || i == hlt) := by
  cases i with
  | call condition _ | ret condition =>
    cases taken : s.takes condition <;> simp [effect, taken, Machine.push, Machine.drop]
  | _ => simp [effect, Machine.push, Machine.drop, Machine.accumulate, Machine.storeWord]

end Instruction

namespace Machine

/-- What is not recognized takes one byte and does nothing. -/
theorem step_unrecognized (s : Machine) (h : s.fetched.instruction.isRecognized = false) :
    s.step.2 = { s with registers.pc := s.registers.pc + 1 } := by
  have unknown : s.fetched.instruction = .unrecognized := by
    cases i : s.fetched.instruction <;> simp_all [Instruction.isRecognized]
  have next : s.fetched.next = s.registers.pc + 1 := by
    rw [Located.next, Located.width, unknown]
    exact BitVec.add_zero _
  rw [step, Located.execute, unknown, next]
  rfl

/-- The latch is set by the opcode that halts, or was set before. -/
theorem halted_step (s : Machine) :
    s.step.2.registers.halted =
      (s.registers.halted || s.memory.read s.registers.pc == 0x76) := by
  have only : (s.fetched.instruction == Instruction.hlt) =
      (s.memory.read s.registers.pc == 0x76) := by
    rw [Bool.eq_iff_iff, beq_iff_eq, beq_iff_eq]
    exact Instruction.decode_eq_hlt_iff _ _ _
  rw [← only]
  exact Instruction.halted_effect _ _ s

/-- Once halted, always halted. -/
theorem isHalted_after_of_le {s : Machine} {k n : Nat} (h : k ≤ n)
    (halted : (s.after k).isHalted = true) : (s.after n).isHalted = true := by
  induction h with
  | refl => exact halted
  | step _ ih =>
    rw [after_succ, isHalted, halted_step, ← isHalted, ih, Bool.true_or]

/-- A step carries out the instruction that is written at the program counter. It changes no cells
but those that the instruction writes, no byte registers but its destinations, and the stack
pointer, unless that is loaded or counted, by the words pushed and popped. One opcode halts, and
one that is not recognized only moves the program counter. -/
theorem step_changes_by_class (s : Machine) :
    let i := s.fetched.instruction
    let t := s.step.2
    s.memory.Holds s.registers.pc i ∧
      (∀ a, a ∉ i.written s → t.memory.read a = s.memory.read a) ∧
      (∀ q : Reg, q ≠ .m → q ∉ i.destinations → t.reg q = s.reg q) ∧
      (i.movesPointer = false →
        t.registers.sp = s.registers.sp - BitVec.ofInt 16 (2 * i.stackChange s)) ∧
      t.registers.halted = (s.registers.halted || s.memory.read s.registers.pc == 0x76) ∧
      (i.isRecognized = false → t = { s with registers.pc := s.registers.pc + 1 }) := by
  intro i t
  refine ⟨s.holds_fetched, i.read_effect s.fetched.next s, ?_, ?_, s.halted_step,
    s.step_unrecognized⟩
  · intro q h other
    exact (reg_withPc _ _ q).trans (i.reg_effect s.fetched.next s h other)
  · exact i.sp_effect s.fetched.next s (Instruction.isWellFormed_decode _ _ _)

end Machine

end Emu8085
