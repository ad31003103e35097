import Emu8085.Proofs.DigitChains
import Emu8085.Proofs.WriteSet

/-!
# Sums of pairs

A pair is added to HL in one instruction, or byte by byte through the accumulator. Either way the
word in HL and the carry on top of it make up the whole sum, which determines both. When HL is added
to itself the additions overwrite their own operand, but each byte only after its last use.
-/
namespace Emu8085

/-- A word and the carry out of it are determined by their total. -/
theorem Word.of_total {w : Word} {c : Bool} {sum : Nat} (h : w.toNat + 65536 * c.toNat = sum) :
    w = BitVec.ofNat 16 sum ∧ c = decide (65535 < sum) := by
  have small := w.isLt
  rw [← BitVec.toNat_inj, BitVec.toNat_ofNat, Bool.eq_iff_iff, decide_eq_true_iff]
  cases c <;> simp only [Bool.toNat_false, Bool.toNat_true, Bool.false_eq_true, false_iff,
    true_iff] at h ⊢ <;> omega

/-- Adds a pair to HL byte by byte. -/
def bytewiseSum (high low : Reg) : List Instruction :=
  [.mov .a .l, .alu .add low, .mov .l .a, .mov .a .h, .alu .adc high, .mov .h .a]

namespace Machine

variable {s : Machine} {p : Pair}

/-- The ninth bit of a sum of words is the carry; nothing else is judged. -/
theorem step_of_dad (h : s.fetched.instruction = .dad p) :
    let t := s.step.2
    let sum := (s.registers.pair .hl).toNat + (s.registers.pair p).toNat
    t.registers.pair .hl = BitVec.ofNat 16 sum ∧
      t.registers.flags.carry = decide (65535 < sum) ∧
      t = { s with registers := { s.registers with
        h := t.registers.h, l := t.registers.l, flags.carry := t.registers.flags.carry,
        pc := s.fetched.next } } := by
  have step : s.step.2 = Instruction.execute (.dad p) s.fetched.next s := by
    rw [← h]
    rfl
  rw [step]
  exact ⟨s.registers.pair_setPair_same .hl _ (by decide), rfl, rfl⟩

variable {high low : Reg}

theorem toNat_halves (s : Machine) (halves : p.halves = [high, low]) :
    (s.registers.pair p).toNat = 256 * (s.reg high).toNat + (s.reg low).toNat := by
  cases p with
  | bc | de | hl =>
    cases halves
    exact Word.toNat_ofBytes _ _
  | sp | psw => cases halves

/-- Both additions find the bytes of the pair as they were at first. -/
theorem performAll_bytewiseSum (s : Machine) (halves : p.halves = [high, low]) :
    let t := s.performAll (bytewiseSum high low)
    ∃ f, f = (addWithCarry s.registers.l (s.reg low) false s.registers.flags).2 ∧
      t.registers.l = (addWithCarry s.registers.l (s.reg low) false s.registers.flags).1 ∧
      t.registers.h = (addWithCarry s.registers.h (s.reg high) f.carry f).1 ∧
      t.registers.flags = (addWithCarry s.registers.h (s.reg high) f.carry f).2 := by
  cases p with
  | bc | de | hl =>
    cases halves
    exact ⟨_, rfl, rfl, rfl, rfl⟩
  | sp | psw => cases halves

/-- The carry of the low bytes goes into the high ones, so the two sums make up one. -/
theorem bytewiseSum_total {s t : Machine} (halves : p.halves = [high, low])
    (ends : s.performAll (bytewiseSum high low) = t) :
    (t.registers.pair .hl).toNat + 65536 * t.registers.flags.carry.toNat =
      (s.registers.pair .hl).toNat + (s.registers.pair p).toNat := by
  obtain ⟨f, middle, l, h, flags⟩ := performAll_bytewiseSum s halves
  have lower := addWithCarry_total s.registers.l (s.reg low) false s.registers.flags
  have upper := addWithCarry_total s.registers.h (s.reg high) f.carry f
  rw [← l, ← middle, Bool.toNat_false, ends] at lower
  rw [← h, ← flags, ends] at upper
  have result : (t.registers.pair .hl).toNat = 256 * t.registers.h.toNat + t.registers.l.toNat :=
    Word.toNat_ofBytes _ _
  have start : (s.registers.pair .hl).toNat = 256 * s.registers.h.toNat + s.registers.l.toNat :=
    Word.toNat_ofBytes _ _
  have source := toNat_halves s halves
  omega

/-- Adding a pair to HL leaves sixteen bits of the sum and sets the carry when it has more; nothing
else changes but the program counter. Adding the two bytes of the pair one after the other, from the
same words, makes the same of HL and the carry. -/
theorem pair_sum_agrees_bytewise (h : s.fetched.instruction = .dad p) :
    let t := s.step.2
    let sum := (s.registers.pair .hl).toNat + (s.registers.pair p).toNat
    (t.registers.pair .hl).toNat = sum % 65536 ∧
      (t.registers.flags.carry = true ↔ 65535 < sum) ∧
      t = { s with registers := { s.registers with
        h := t.registers.h, l := t.registers.l, flags.carry := t.registers.flags.carry,
        pc := s.fetched.next } } ∧
      ∀ high low, p.halves = [high, low] → ∀ u : Machine,
        u.registers.pair .hl = s.registers.pair .hl → u.registers.pair p = s.registers.pair p →
        let v := u.performAll (bytewiseSum high low)
        v.registers.pair .hl = t.registers.pair .hl ∧
          v.registers.flags.carry = t.registers.flags.carry ∧
          ∀ n, (u.history n).map (fun e => e.fetched.instruction) = bytewiseSum high low →
            u.after n = v := by
  intro t sum
  obtain ⟨word, carry, frame⟩ := step_of_dad h
  refine ⟨?_, ?_, frame, ?_⟩
  · rw [word, BitVec.toNat_ofNat]
  · rw [carry, decide_eq_true_iff]
  · intro high low halves u same sameSource v
    have total := bytewiseSum_total (s := u) halves rfl
    rw [same, sameSource] at total
    obtain ⟨words, carries⟩ := Word.of_total total
    refine ⟨words.trans word.symm, carries.trans carry.symm, ?_⟩
    intro n fetches
    rw [after_eq_performAll, fetches]

/-- Adds HL to itself, the low bytes with a carry. -/
def doubling : Machine where
  registers := { Registers.initial 0x0100 with h := 0x80, l := 0x81 }
  memory := Memory.zero.store 0x0100 [0x29]

def doublingBytewise : Machine :=
  { doubling with memory := Memory.zero.store 0x0100 [0x7D, 0x85, 0x6F, 0x7C, 0x8C, 0x67] }

theorem pair_sum_agrees_bytewise_doubling :
    doubling.fetched.instruction = .dad .hl ∧
      (doubling.step.2.registers.pair .hl).toNat = 0x0102 ∧
      doubling.step.2.registers.flags.carry = true ∧
      (doublingBytewise.after 6).registers.pair .hl = doubling.step.2.registers.pair .hl ∧
      (doublingBytewise.after 6).registers.flags.carry = true := by
  have adds : doubling.fetched.instruction = .dad .hl := by decide +kernel
  obtain ⟨word, carry, -, bytewise⟩ := pair_sum_agrees_bytewise adds
  obtain ⟨words, carries, steps⟩ := bytewise .h .l rfl doublingBytewise rfl rfl
  have tooBig : doubling.step.2.registers.flags.carry = true := carry.2 (by decide)
  rw [steps 6 (by decide +kernel), carries]
  exact ⟨adds, word.trans (by decide), tooBig, words, tooBig⟩

end Machine

end Emu8085
