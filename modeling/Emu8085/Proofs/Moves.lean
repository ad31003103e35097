import Emu8085.Proofs.WriteSet

/-!
# Moves there and back

A move reads its source before it writes, and finds the memory cell by the HL of that moment. A
source that the write does not disturb still has its byte afterwards, so moving the byte back puts
it where it already is (`perform_mov_back`). Only a move from the memory cell into a half of its own
address disturbs its source.
-/
namespace Emu8085

/-- The opcode of a move has a field for each of its operands; the memory cell for both is no
move. -/
theorem Instruction.decode_mov {dst src : Reg} (two : ¬ (dst = .m ∧ src = .m)) (a b : Byte) :
    decode (BitVec.ofNat 8 (0x40 + 8 * dst.code + src.code)) a b = mov dst src := by
  cases dst <;> cases src <;> first | rfl | exact absurd ⟨rfl, rfl⟩ two

namespace Machine

variable (s : Machine)

/-- The byte that an operand stands for while HL points at `hl`. -/
def byteAt (hl : Word) : Reg → Byte
  | .m => s.memory.read hl
  | r => s.reg r

theorem byteAt_hl (r : Reg) : s.byteAt (s.registers.pair .hl) r = s.reg r := by
  cases r <;> rfl

/-- The memory cell stays the same unless it or the pair that points at it is written. -/
theorem reg_m_setReg {dst : Reg} (v : Byte) (h : dst ∉ [Reg.m, .h, .l]) :
    (s.setReg dst v).reg .m = s.reg .m := by
  cases dst <;> simp_all [reg, setReg, Registers.pair]

/-- A move reads its source before it writes its destination, and goes on. -/
theorem perform_mov (dst src : Reg) : s.perform (.mov dst src) =
    { s.setReg dst (s.reg src) with registers.pc := s.registers.pc + 1 } := by
  rw [perform_of_next (show s.registers.pc + 1 + 0#16 = s.registers.pc + 1 from BitVec.add_zero _)]
  rfl

theorem reg_perform_mov (dst src q : Reg) :
    (s.perform (.mov dst src)).reg q = (s.setReg dst (s.reg src)).reg q := by
  rw [perform_mov, reg_withPc]

theorem reg_perform_mov_same (dst src : Reg) : (s.perform (.mov dst src)).reg dst = s.reg src := by
  rw [reg_perform_mov, reg_setReg_same]

/-- Other operands keep their byte; the memory cell has to be where it was. -/
theorem reg_perform_mov_other {dst q : Reg} (src : Reg) (other : q ≠ dst)
    (apart : q = .m → dst ∉ [Reg.m, .h, .l]) : (s.perform (.mov dst src)).reg q = s.reg q := by
  rw [reg_perform_mov]
  by_cases cell : q = .m
  · subst cell
    exact s.reg_m_setReg _ (apart rfl)
  · exact s.reg_setReg_other _ cell (by simpa using other)

theorem registers_perform_mov (dst src : Reg) :
    let t := s.perform (.mov dst src)
    t.registers.flags = s.registers.flags ∧ t.registers.sp = s.registers.sp ∧
      t.registers.pc = s.registers.pc + 1 ∧ t.registers.halted = s.registers.halted := by
  rw [perform_mov]
  exact ⟨s.flags_setReg dst _, s.sp_setReg dst _, rfl, s.halted_setReg dst _⟩

/-- A move writes a cell only where its destination is the cell, and then only that one. -/
theorem read_perform_mov {dst : Reg} (src : Reg) {a : Word}
    (h : dst = .m → a ≠ s.registers.pair .hl) :
    (s.perform (.mov dst src)).memory.read a = s.memory.read a := by
  rw [perform_mov]
  by_cases cell : dst = .m
  · subst cell
    exact Memory.read_write_other _ _ (h rfl)
  · exact congrArg (·.read a) (s.memory_setReg _ cell)

/-- The byte that comes back is in place already, as the cell is where it was. -/
theorem perform_mov_back {dst src : Reg} (apart : src = .m → dst ∉ [Reg.m, .h, .l]) :
    let t := s.perform (.mov dst src)
    t.perform (.mov src dst) = { t with registers.pc := t.registers.pc + 1 } := by
  intro t
  have kept : t.reg src = s.reg src := by
    by_cases same : src = dst
    · subst same
      exact s.reg_perform_mov_same src src
    · exact s.reg_perform_mov_other src same apart
  have moved : t.reg dst = t.reg src := (s.reg_perform_mov_same dst src).trans kept.symm
  rw [perform_mov, moved, setReg_reg]

theorem step_of_mov {dst src : Reg} (two : ¬ (dst = .m ∧ src = .m))
    (h : (s.memory.read s.registers.pc).toNat = 0x40 + 8 * dst.code + src.code) :
    s.step.2 = s.perform (.mov dst src) := by
  have opcode : s.memory.read s.registers.pc = BitVec.ofNat 8 (0x40 + 8 * dst.code + src.code) := by
    rw [← h, BitVec.ofNat_toNat, BitVec.setWidth_eq]
  have fetched : s.fetched.instruction = .mov dst src := by
    rw [fetched, Memory.fetch, Memory.decodeAt, opcode, Instruction.decode_mov two]
  rw [step_eq_perform, fetched]

/-- Writing an operand does not move the cell that it stands for. -/
theorem byteAt_perform_mov (dst src : Reg) :
    (s.perform (.mov dst src)).byteAt (s.registers.pair .hl) dst =
      (s.perform (.mov dst src)).reg dst := by
  cases dst <;> rfl

/-- A move gives its destination the byte that its source had before, the memory cell being the one
that HL pointed at before. A move and the move back leave the source as it was and the destination
equal to it, and everything else alone, unless the first one goes from the memory cell into a half
of its own address. Both are what steps do that meet the opcodes of these moves. -/
theorem mov_round_trip (s : Machine) (dst src : Reg) :
    let hl := s.registers.pair .hl
    let t := s.perform (.mov dst src)
    let u := t.perform (.mov src dst)
    let opcode (dst src : Reg) := 0x40 + 8 * dst.code + src.code
    (t.reg dst = s.reg src ∧ t.byteAt hl dst = s.byteAt hl src) ∧
    ((src = .m → dst ∉ [.m, .h, .l]) →
      (u.reg src = s.reg src ∧ u.reg dst = s.reg src) ∧
      (∀ q, q ≠ dst → q ≠ .m → u.reg q = s.reg q) ∧
      u.registers.flags = s.registers.flags ∧ u.registers.sp = s.registers.sp ∧
      u.registers.pc = s.registers.pc + 2 ∧ u.registers.halted = s.registers.halted ∧
      ∀ a, (dst = .m → a ≠ hl) → u.memory.read a = s.memory.read a) ∧
    (¬ (dst = .m ∧ src = .m) → (s.memory.read s.registers.pc).toNat = opcode dst src →
      s.step.2 = t ∧
        ((t.memory.read t.registers.pc).toNat = opcode src dst → s.after 2 = u)) := by
  intro hl t u opcode
  have moved : t.reg dst = s.reg src := s.reg_perform_mov_same dst src
  obtain ⟨flags, sp, pc, halted⟩ := s.registers_perform_mov dst src
  refine ⟨⟨moved, ?_⟩, ?_, ?_⟩
  · rw [s.byteAt_hl src, ← moved]
    exact s.byteAt_perform_mov dst src
  · intro apart
    have back : u = { t with registers.pc := t.registers.pc + 1 } := s.perform_mov_back apart
    have same (q : Reg) : u.reg q = t.reg q := by rw [back, reg_withPc]
    have source : u.reg src = s.reg src := (t.reg_perform_mov_same src dst).trans moved
    refine ⟨⟨source, (same dst).trans moved⟩, ?_, ?_, ?_, ?_, ?_, ?_⟩
    · intro q other register
      rw [same, s.reg_perform_mov_other src other fun cell => absurd cell register]
    · rw [back, flags]
    · rw [back, sp]
    · rw [back, pc]
      exact BitVec.add_assoc _ _ _
    · rw [back, halted]
    · intro a elsewhere
      rw [back]
      exact s.read_perform_mov src elsewhere
  · intro two here
    have first : s.step.2 = t := s.step_of_mov two here
    refine ⟨first, fun there => ?_⟩
    rw [after_succ, after_succ, after_zero, first]
    exact t.step_of_mov (fun both => two both.symm) there

end Machine

end Emu8085
