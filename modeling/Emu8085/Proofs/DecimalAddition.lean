import Emu8085.Memory.Range
import Emu8085.Proofs.Trace

/-!
# Decimal addition

An addition of two bytes of packed decimal digits followed by the decimal adjustment. The
adjustment corrects the low digit first, and the sums that its correction takes past eight bits
lose the carry: those whose tens make fifteen and whose units make ten or more. All other sums
come out right.
-/
namespace Emu8085

/-- Two decimal digits, the tens in the high half. -/
def IsPacked (b : Byte) : Prop := b.toNat / 16 ≤ 9 ∧ b.toNat % 16 ≤ 9

instance : DecidablePred IsPacked := fun b =>
  inferInstanceAs (Decidable (b.toNat / 16 ≤ 9 ∧ b.toNat % 16 ≤ 9))

def packedValue (b : Byte) : Nat := 10 * (b.toNat / 16) + b.toNat % 16

/-- The carry that an addition takes in; the other operations do not add. -/
def Alu.carryIn? (op : Alu) (carry : Bool) : Option Bool :=
  match op with
  | add => some false
  | adc => some carry
  | _ => none

theorem Alu.apply_of_carryIn (op : Alu) (a v : Byte) (f : Flags) {c : Bool}
    (h : op.carryIn? f.carry = some c) : op.apply a v f = addWithCarry a v c f := by
  cases op <;> cases h <;> rfl

/-- The byte that an addition adds to the accumulator, from whatever operand, and its carry. -/
def Instruction.addend? (i : Instruction) (s : Machine) : Option (Byte × Bool) :=
  match i with
  | alu op src => (op.carryIn? s.registers.flags.carry).map (s.reg src, ·)
  | aluImmediate op data => (op.carryIn? s.registers.flags.carry).map (data, ·)
  | _ => none

theorem Instruction.effect_of_addend (i : Instruction) (next : Word) (s : Machine) {y : Byte}
    {c : Bool} (h : i.addend? s = some (y, c)) :
    i.effect next s = s.accumulate (addWithCarry s.registers.a y c s.registers.flags) := by
  cases i with
  | alu op _ | aluImmediate op _ =>
    obtain ⟨carry, hc, he⟩ := Option.map_eq_some_iff.1 h
    cases he
    rw [effect, op.apply_of_carryIn _ _ _ hc]
  | _ => cases h

theorem toNat_corrected (b k : Byte) (p : Bool) :
    (if p then b + k else b).toNat = (b.toNat + if p then k.toNat else 0) % 256 := by
  cases p with
  | false => exact (Nat.mod_eq_of_lt b.isLt).symm
  | true => exact BitVec.toNat_add b k

/-- An adjustment without an auxiliary carry, in numbers. -/
theorem decimalAdjust_eq (a : Byte) (f : Flags) (aux : f.auxCarry = false) :
    let low := decide (9 < a.toNat % 16)
    let half := (a.toNat + if low then 6 else 0) % 256
    let high := decide (9 < half / 16) || f.carry
    (decimalAdjust a f).1.toNat = (half + if high then 0x60 else 0) % 256 ∧
      (decimalAdjust a f).2.carry = high := by
  simp only [decimalAdjust, aux, Bool.or_false, toNat_corrected]
  exact ⟨rfl, rfl⟩

/-- The sum of two packed bytes and a carry in, with no carry between its digits. -/
structure IsUnadjusted (a : Byte) (carry : Bool) (tens units : Nat) : Prop where
  byte : a.toNat = (16 * tens + units) % 256
  out : carry = decide (256 ≤ 16 * tens + units)
  tens : tens ≤ 18
  units : units ≤ 15

/-- Without a half carry the two digits of a sum are the sums of the digits, not yet decimal. -/
theorem unadjusted_addWithCarry {x y : Byte} (c : Bool) (f : Flags) (left : IsPacked x)
    (right : IsPacked y) (half : x.toNat % 16 + y.toNat % 16 + c.toNat ≤ 15) :
    IsUnadjusted (addWithCarry x y c f).1 (addWithCarry x y c f).2.carry
      (x.toNat / 16 + y.toNat / 16) (x.toNat % 16 + y.toNat % 16 + c.toNat) where
  byte := by
    simp only [addWithCarry, BitVec.toNat_ofNat]
    omega
  out := by
    simp only [addWithCarry, decide_eq_decide]
    omega
  tens := by
    have := left.1
    have := right.1
    omega
  units := half

/-- The tens make fifteen, and the units carry into them. -/
def LosesCarry (tens units : Nat) : Prop := tens = 15 ∧ 10 ≤ units

/-- The low correction leaves decimal units and carries into the tens. -/
theorem IsUnadjusted.low_correction {a : Byte} {carry : Bool} {tens units : Nat}
    (h : IsUnadjusted a carry tens units) : ∃ t u, u ≤ 9 ∧ tens ≤ t ∧ t ≤ 19 ∧
      10 * t + u = 10 * tens + units ∧ (t = tens ↔ units ≤ 9) ∧
      (a.toNat + if decide (9 < a.toNat % 16) then 6 else 0) % 256 = (16 * t + u) % 256 := by
  obtain ⟨byte, -, few, small⟩ := h
  have digit : a.toNat % 16 = units := by omega
  rw [digit]
  by_cases carried : 9 < units
  · refine ⟨tens + 1, units - 10, by omega, by omega, by omega, by omega, by omega, ?_⟩
    rw [if_pos (decide_eq_true carried)]
    omega
  · refine ⟨tens, units, by omega, Nat.le_refl _, by omega, rfl, by omega, ?_⟩
    rw [if_neg (by simpa using carried)]
    omega

/-- Adding six to the tens drops a hundred from them, where there is one. -/
theorem high_correction {t u : Nat} (few : t ≤ 19) (digit : u ≤ 9) :
    ((16 * t + u) % 256 + if decide (10 ≤ t) then 0x60 else 0) % 256 = 16 * (t % 10) + u := by
  by_cases high : 10 ≤ t
  · rw [if_pos (decide_eq_true high)]
    omega
  · rw [if_neg (by simpa using high)]
    omega

/-- Both corrections together make a packed sum of an unadjusted one, unless the carry is lost. -/
theorem adjusted {a : Byte} {f : Flags} {tens units : Nat}
    (h : IsUnadjusted a f.carry tens units) (aux : f.auxCarry = false)
    (kept : ¬ LosesCarry tens units) :
    IsPacked (decimalAdjust a f).1 ∧
      packedValue (decimalAdjust a f).1 = (10 * tens + units) % 100 ∧
      (decimalAdjust a f).2.carry = decide (100 ≤ 10 * tens + units) := by
  obtain ⟨result, carry⟩ := decimalAdjust_eq a f aux
  obtain ⟨t, u, digit, le, few, sum, same, half⟩ := h.low_correction
  have small := h.units
  have below : t < 16 ∨ 16 ≤ tens := by
    unfold LosesCarry at kept
    omega
  have carries : (decide (9 < (16 * t + u) % 256 / 16) || f.carry) = decide (10 ≤ t) := by
    rw [h.out, ← Bool.decide_or, decide_eq_decide]
    omega
  rw [half, carries] at result carry
  rw [high_correction few digit] at result
  refine ⟨?_, ?_, ?_⟩
  · unfold IsPacked
    omega
  · unfold packedValue
    omega
  · rw [carry, decide_eq_decide]
    omega

/-- The correction of the units leaves no tens to correct. -/
theorem adjusted_lost {a : Byte} {f : Flags} {tens units : Nat}
    (h : IsUnadjusted a f.carry tens units) (aux : f.auxCarry = false)
    (lost : LosesCarry tens units) :
    (decimalAdjust a f).1.toNat = units - 10 ∧ (decimalAdjust a f).2.carry = false := by
  obtain ⟨result, carry⟩ := decimalAdjust_eq a f aux
  obtain ⟨t, u, digit, le, few, sum, same, half⟩ := h.low_correction
  obtain ⟨fifteen, ten⟩ := lost
  have := h.units
  have carries : (decide (9 < (16 * t + u) % 256 / 16) || f.carry) = false := by
    rw [h.out, ← Bool.decide_or, decide_eq_false_iff_not]
    omega
  rw [half, carries] at result carry
  refine ⟨?_, carry⟩
  rw [result, if_neg Bool.false_ne_true]
  omega

namespace Machine

/-- An addition of packed digits is next, with no half carry to come, and then the adjustment. -/
structure AddsDecimals (s : Machine) (y : Byte) (c : Bool) : Prop where
  addition : s.fetched.instruction.addend? s = some (y, c)
  adjustment : (s.after 1).fetched.instruction = .daa
  aux : s.registers.flags.auxCarry = false
  left : IsPacked s.registers.a
  right : IsPacked y
  half : s.registers.a.toNat % 16 + y.toNat % 16 + c.toNat ≤ 15

/-- The accumulator holds the last two digits of a sum and the carry its hundred. -/
def HoldsDecimal (s : Machine) (sum : Nat) : Prop :=
  IsPacked s.registers.a ∧ packedValue s.registers.a = sum % 100 ∧
    s.registers.flags.carry = decide (100 ≤ sum)

instance (s : Machine) (sum : Nat) : Decidable (s.HoldsDecimal sum) :=
  inferInstanceAs (Decidable (_ ∧ _ ∧ _))

/-- The addition and the adjustment are two steps, of which the second finds what the first one
left. -/
theorem registers_after_two {s : Machine} {y : Byte} {c : Bool} (h : s.AddsDecimals y c) :
    let sum := addWithCarry s.registers.a y c s.registers.flags
    (s.after 2).registers.a = (decimalAdjust sum.1 sum.2).1 ∧
      (s.after 2).registers.flags = (decimalAdjust sum.1 sum.2).2 := by
  have first : (s.after 1).registers.a = (addWithCarry s.registers.a y c s.registers.flags).1 ∧
      (s.after 1).registers.flags = (addWithCarry s.registers.a y c s.registers.flags).2 := by
    have added := Instruction.effect_of_addend _ s.fetched.next s h.addition
    exact ⟨congrArg (·.registers.a) added, congrArg (·.registers.flags) added⟩
  have second : (s.after 1).fetched.instruction.effect (s.after 1).fetched.next (s.after 1) =
      (s.after 1).accumulate (decimalAdjust (s.after 1).registers.a (s.after 1).registers.flags) := by
    rw [h.adjustment, Instruction.effect]
  rw [first.1, first.2] at second
  exact ⟨congrArg (·.registers.a) second, congrArg (·.registers.flags) second⟩

theorem packedValue_sum (x y : Byte) (c : Nat) : packedValue x + packedValue y + c =
    10 * (x.toNat / 16 + y.toNat / 16) + (x.toNat % 16 + y.toNat % 16 + c) := by
  unfold packedValue
  omega

/-- An addition and an adjustment make the decimal sum unless the carry is lost, and then only the
units of the sum are left, without a carry. -/
theorem decimal_sum_iff (s : Machine) (y : Byte) (c : Bool) (h : s.AddsDecimals y c) :
    let tens := s.registers.a.toNat / 16 + y.toNat / 16
    let units := s.registers.a.toNat % 16 + y.toNat % 16 + c.toNat
    ((s.after 2).HoldsDecimal (packedValue s.registers.a + packedValue y + c.toNat) ↔
        ¬ LosesCarry tens units) ∧
      (LosesCarry tens units → (s.after 2).registers.a.toNat = units - 10 ∧
        (s.after 2).registers.flags.carry = false) := by
  intro tens units
  obtain ⟨result, flags⟩ := registers_after_two h
  have unadjusted := unadjusted_addWithCarry c s.registers.flags h.left h.right h.half
  have lost (lose : LosesCarry tens units) := adjusted_lost unadjusted h.aux lose
  unfold HoldsDecimal
  rw [packedValue_sum, result, flags]
  refine ⟨⟨?_, adjusted unadjusted h.aux⟩, lost⟩
  rintro ⟨-, -, carry⟩ lose
  rw [(lost lose).2, eq_comm, decide_eq_false_iff_not] at carry
  obtain ⟨fifteen, ten⟩ := lose
  omega

def decimalCarry : Machine where
  registers := { Registers.initial 0x0100 with
    a := 0x97, b := 0x52, flags := { Flags.clear with carry := true } }
  memory := Memory.zero.store 0x0100 [0x88, 0x27]

theorem decimal_sum_decimalCarry :
    decimalCarry.AddsDecimals 0x52 true ∧ (decimalCarry.after 2).HoldsDecimal 150 := by
  have adds : decimalCarry.AddsDecimals 0x52 true := by
    constructor <;> decide +kernel
  exact ⟨adds, (decimal_sum_iff decimalCarry 0x52 true adds).1.2 (by unfold LosesCarry; decide)⟩

/-- Seventy-two and an inline eighty-eight. -/
def lostCarry : Machine where
  registers := { Registers.initial 0x0100 with a := 0x72 }
  memory := Memory.zero.store 0x0100 [0xC6, 0x88, 0x27]

/-- Not every decimal sum comes out: of seventy-two and eighty-eight nothing is left. -/
theorem decimal_sum_lostCarry :
    ¬ ∀ (s : Machine) (y : Byte) (c : Bool), s.AddsDecimals y c →
      (s.after 2).HoldsDecimal (packedValue s.registers.a + packedValue y + c.toNat) := by
  intro all
  have adds : lostCarry.AddsDecimals 0x88 false := by
    constructor <;> decide +kernel
  exact absurd (all lostCarry 0x88 false adds) (by decide +kernel)

end Machine

end Emu8085
