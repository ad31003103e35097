import Emu8085.Proofs.Frame

/-!
# Which flags an instruction changes

Three classes of instructions: those that set the carry, those that set the auxiliary carry, and
those that set sign, zero and parity together. But for the status word popped from the stack the
last three always judge one byte, the result of the instruction.
-/
namespace Emu8085

def ones (v : Byte) : Nat := (List.range 8).countP v.getLsbD

/-- Sign, zero and parity are those of `v`. -/
structure Flags.Judges (f : Flags) (v : Byte) : Prop where
  sign : f.sign = v.getLsbD 7
  zero : f.zero = true ↔ v.toNat = 0
  parity : f.parity = true ↔ 2 ∣ ones v

theorem Flags.judges_judge (f : Flags) (v : Byte) : (f.judge v).Judges v where
  sign := BitVec.msb_eq_getLsbD_last v
  zero := by simp [judge, ← BitVec.toNat_inj]
  parity := by simp [judge, evenParity, ones, Nat.dvd_iff_mod_eq_zero]

/-- Neither carry takes part. -/
theorem Flags.Judges.with_carries {f : Flags} {v : Byte} (h : f.Judges v) (aux carry : Bool) :
    ({ f with auxCarry := aux, carry := carry } : Flags).Judges v := ⟨h.sign, h.zero, h.parity⟩

def Alu.isBitwise : Alu → Bool
  | ana | xra | ora => true
  | _ => false

theorem judges_addWithCarry (a v : Byte) (c : Bool) (f : Flags) :
    (addWithCarry a v c f).2.Judges (addWithCarry a v c f).1 :=
  (f.judges_judge _).with_carries f.auxCarry _

theorem judges_subWithBorrow (a v : Byte) (c : Bool) (f : Flags) :
    (subWithBorrow a v c f).2.Judges (subWithBorrow a v c f).1 :=
  (f.judges_judge _).with_carries f.auxCarry _

theorem judges_bitwise (result : Byte) (f : Flags) : (bitwise result f).2.Judges result :=
  (f.judges_judge _).with_carries f.auxCarry _

theorem subWithBorrow_false (a v : Byte) (f : Flags) : (subWithBorrow a v false f).1 = a - v := by
  simp [subWithBorrow]

/-- A comparison judges the difference that it does not keep. -/
theorem Alu.judges_apply (op : Alu) (a v : Byte) (f : Flags) :
    (op.apply a v f).2.Judges (if op = cmp then a - v else (op.apply a v f).1) := by
  cases op with
  | add | adc => exact judges_addWithCarry _ _ _ _
  | sub | sbb => exact judges_subWithBorrow _ _ _ _
  | ana | xra | ora => exact judges_bitwise _ _
  | cmp =>
    have kept := judges_subWithBorrow a v false f
    rwa [subWithBorrow_false] at kept

theorem Alu.carry_bitwise (op : Alu) (a v : Byte) (f : Flags) (h : op.isBitwise = true) :
    (op.apply a v f).2.carry = false := by
  cases op <;> simp_all [isBitwise, apply, bitwise]

theorem Rotation.judges_apply (op : Rotation) (a : Byte) (f : Flags) :
    (op.apply a f).2.Judges (op.apply a f).1 := by
  cases op <;> exact (f.judges_judge _).with_carries f.auxCarry _

/-- The adjustment judges the byte that it leaves, though it decides the carries by the one it
finds. -/
theorem judges_decimalAdjust (a : Byte) (f : Flags) :
    (decimalAdjust a f).2.Judges (decimalAdjust a f).1 :=
  (f.judges_judge _).with_carries _ _

theorem Machine.reg_withFlags (s : Machine) (f : Flags) (r : Reg) :
    ({ s with registers.flags := f } : Machine).reg r = s.reg r := by
  cases r <;> rfl

theorem Machine.reg_withPc (s : Machine) (pc : Word) (r : Reg) :
    ({ s with registers.pc := pc } : Machine).reg r = s.reg r := by
  cases r <;> rfl

namespace Instruction

/-- The accumulator operations with a byte, the other users of the carry, and the status word. -/
def setsCarry : Instruction → Bool
  | alu _ _ | aluImmediate _ _ | dad _ | daa | rotate _ | stc | cmc => true
  | pop dst => dst == .psw
  | _ => false

def setsAuxCarry : Instruction → Bool
  | daa => true
  | pop dst => dst == .psw
  | _ => false

def setsJudgement : Instruction → Bool
  | alu _ _ | aluImmediate _ _ | inr _ | dcr _ | daa | rotate _ => true
  | pop dst => dst == .psw
  | _ => false

/-- The flags after the instruction, from the state before it. -/
def flagsAfter (i : Instruction) (s : Machine) : Flags :=
  let r := s.registers
  match i with
  | alu op src => (op.apply r.a (s.reg src) r.flags).2
  | aluImmediate op data => (op.apply r.a data r.flags).2
  | rotate op => (op.apply r.a r.flags).2
  | daa => (decimalAdjust r.a r.flags).2
  | inr dst => r.flags.judge (s.reg dst + 1)
  | dcr dst => r.flags.judge (s.reg dst - 1)
  | dad src =>
    { r.flags with carry := decide (0xFFFF < (r.pair .hl).toNat + (r.pair src).toNat) }
  | stc => { r.flags with carry := true }
  | cmc => { r.flags with carry := !r.flags.carry }
  | pop dst => if dst = .psw then .ofStatus s.top.low else r.flags
  | _ => r.flags

/-- The step lemma, by cases on the instruction: what becomes of the flags is said apart from what
becomes of the rest. -/
theorem flags_effect (i : Instruction) (next : Word) (s : Machine)
    (formed : i.isWellFormed = true) : (i.effect next s).registers.flags = i.flagsAfter s := by
  cases i with
  | call condition target | ret condition =>
    cases taken : s.takes condition <;> simp [effect, flagsAfter, taken, Machine.push, Machine.drop]
  | pop dst =>
    by_cases status : dst = .psw
    · subst status
      simp [effect, flagsAfter, Machine.setPair, Registers.setPair]
    · simp [effect, flagsAfter, status, Machine.flags_setPair, Machine.drop]
  | xchg => rfl
  | _ => simp_all [effect, flagsAfter, isWellFormed, Machine.flags_setPair, Machine.accumulate,
      Machine.push, Machine.storeWord]

/-- By cases on the instruction: one that is not in the class of the carry keeps it. -/
theorem carry_flagsAfter (i : Instruction) (s : Machine) (h : i.setsCarry = false) :
    (i.flagsAfter s).carry = s.registers.flags.carry := by
  cases i <;> simp_all [flagsAfter, setsCarry]

theorem auxCarry_flagsAfter (i : Instruction) (s : Machine) (h : i.setsAuxCarry = false) :
    (i.flagsAfter s).auxCarry = s.registers.flags.auxCarry := by
  cases i <;>
    simp_all [flagsAfter, setsAuxCarry, Alu.apply_auxCarry, Rotation.apply_auxCarry]

theorem judgement_flagsAfter (i : Instruction) (s : Machine) (h : i.setsJudgement = false) :
    (i.flagsAfter s).sign = s.registers.flags.sign ∧
      (i.flagsAfter s).zero = s.registers.flags.zero ∧
      (i.flagsAfter s).parity = s.registers.flags.parity := by
  cases i <;> simp_all [flagsAfter, setsJudgement]

def isBitwise : Instruction → Bool
  | alu op _ | aluImmediate op _ => op.isBitwise
  | _ => false

theorem carry_flagsAfter_bitwise (i : Instruction) (s : Machine) (h : i.isBitwise = true) :
    (i.flagsAfter s).carry = false := by
  cases i with
  | alu op _ | aluImmediate op _ => exact op.carry_bitwise _ _ _ h
  | _ => exact absurd h Bool.false_ne_true

/-- The operand that is counted up or down, and the count. -/
def counted? (i : Instruction) (s : Machine) : Option (Reg × Byte) :=
  match i with
  | inr dst => some (dst, s.reg dst + 1)
  | dcr dst => some (dst, s.reg dst - 1)
  | _ => none

/-- The byte that is judged: a difference that is not kept, a count, or the accumulator of the
state `t` after the instruction. -/
def judged? (i : Instruction) (s t : Machine) : Option Byte :=
  match i with
  | alu op src => some (if op = .cmp then s.registers.a - s.reg src else t.registers.a)
  | aluImmediate op data => some (if op = .cmp then s.registers.a - data else t.registers.a)
  | rotate _ | daa => some t.registers.a
  | inr _ | dcr _ => (i.counted? s).map Prod.snd
  | _ => none

/-- An instruction that judges leaves sign, zero and parity of the byte it is said to judge. -/
theorem judges_flagsAfter (i : Instruction) (next : Word) (s t : Machine)
    (same : t.registers.a = (i.effect next s).registers.a) (h : i.setsJudgement = true)
    (status : i ≠ pop .psw) : ∃ v, i.judged? s t = some v ∧ (i.flagsAfter s).Judges v := by
  cases i with
  | alu op _ | aluImmediate op _ => exact ⟨_, rfl, same ▸ op.judges_apply _ _ _⟩
  | rotate op => exact ⟨_, rfl, same ▸ op.judges_apply _ _⟩
  | daa => exact ⟨_, rfl, same ▸ judges_decimalAdjust _ _⟩
  | inr dst | dcr dst => exact ⟨_, rfl, Flags.judges_judge _ _⟩
  | pop dst => simp_all [setsJudgement]
  | _ => exact absurd h Bool.false_ne_true

/-- A count goes back to where it came from, the memory cell included. -/
theorem reg_effect_counted (i : Instruction) (next : Word) (s : Machine) {dst : Reg} {v : Byte}
    (h : i.counted? s = some (dst, v)) : (i.effect next s).reg dst = v ∧
      (dst = .m → (i.effect next s).memory.read (s.registers.pair .hl) = v) := by
  have stored (f : Flags) : ({ s.setReg dst v with registers.flags := f } : Machine).reg dst = v ∧
      (dst = .m → (s.setReg dst v).memory.read (s.registers.pair .hl) = v) := by
    refine ⟨by rw [Machine.reg_withFlags, Machine.reg_setReg_same], ?_⟩
    rintro rfl
    exact Memory.read_write_same _ _ _
  cases i with
  | inr dst' | dcr dst' =>
    obtain ⟨rfl, rfl⟩ : dst' = dst ∧ _ = v := by simpa [counted?] using h
    exact stored _
  | _ => cases h

end Instruction

namespace Machine

theorem flags_step (s : Machine) :
    s.step.2.registers.flags = s.fetched.instruction.flagsAfter s :=
  Instruction.flags_effect _ _ s (Instruction.isWellFormed_decode _ _ _)

/-- Every flag is changed by the instructions of its class only; sign, zero and parity are those of
the judged byte, which a count also leaves in its register or cell; bitwise operations clear the
carry. -/
theorem flags_step_by_class (s : Machine) :
    let i := s.fetched.instruction
    let t := s.step.2
    let before := s.registers.flags
    let flags := t.registers.flags
    (i.setsCarry = false → flags.carry = before.carry) ∧
      (i.setsAuxCarry = false → flags.auxCarry = before.auxCarry) ∧
      (i.setsJudgement = false →
        flags.sign = before.sign ∧ flags.zero = before.zero ∧ flags.parity = before.parity) ∧
      (i.setsJudgement = true → i ≠ .pop .psw → ∃ v, i.judged? s t = some v ∧ flags.Judges v) ∧
      (∀ dst v, i.counted? s = some (dst, v) →
        t.reg dst = v ∧ (dst = .m → t.memory.read (s.registers.pair .hl) = v)) ∧
      (i.isBitwise = true → flags.carry = false) := by
  intro i t before flags
  have after : flags = i.flagsAfter s := flags_step s
  simp only [after]
  refine ⟨i.carry_flagsAfter s, i.auxCarry_flagsAfter s, i.judgement_flagsAfter s,
    i.judges_flagsAfter s.fetched.next s t rfl, ?_, i.carry_flagsAfter_bitwise s⟩
  intro dst v counted
  have stored := i.reg_effect_counted s.fetched.next s counted
  exact ⟨(reg_withPc _ _ _).trans stored.1, stored.2⟩

end Machine

end Emu8085
