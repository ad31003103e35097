import Emu8085.Proofs.AccumulatorOperations
import Mathlib.Data.Nat.Digits.Defs
import Mathlib.Tactic.Ring

/-!
# Long addition and subtraction

Numbers of any number of bytes, added or subtracted byte by byte from the lowest one on. A byte of
the first number is loaded, the one of the second number added or subtracted with the carry, and
nothing else touches the carry, so each byte consumes just what the byte before it left over
(`Chain.sum`, `Chain.difference`, by induction on the chain).
-/
namespace Emu8085

/-- The number that bytes denote, the lowest first. -/
def number (bytes : List Byte) : Nat := Nat.ofDigits 256 (bytes.map BitVec.toNat)

@[simp] theorem number_nil : number [] = 0 := rfl

theorem number_cons (b : Byte) (bytes : List Byte) :
    number (b :: bytes) = b.toNat + 256 * number bytes := by
  simp [number, Nat.ofDigits_cons]

/-- So many bytes denote a number below that power of 256. -/
theorem number_lt (bytes : List Byte) : number bytes < 256 ^ bytes.length := by
  have digits : ∀ d ∈ bytes.map BitVec.toNat, d < 256 := by
    intro d member
    obtain ⟨b, -, rfl⟩ := List.mem_map.1 member
    exact b.isLt
  simpa [number] using Nat.ofDigits_lt_base_pow_length (by decide) digits

/-- A sum and its carry are the whole sum. -/
theorem addWithCarry_total (a v : Byte) (c : Bool) (f : Flags) :
    (addWithCarry a v c f).1.toNat + 256 * (addWithCarry a v c f).2.carry.toNat =
      a.toNat + v.toNat + c.toNat := by
  obtain ⟨result, carry⟩ := addWithCarry_computes a v c f
  have := c.toNat_le
  cases out : (addWithCarry a v c f).2.carry <;>
    simp only [out, Bool.toNat_false, Bool.toNat_true, Bool.false_eq_true, false_iff,
      true_iff] at carry ⊢ <;>
    omega

/-- What was taken away and the difference make up what there was and what was borrowed. -/
theorem subWithBorrow_total (a v : Byte) (c : Bool) (f : Flags) :
    (subWithBorrow a v c f).1.toNat + v.toNat + c.toNat =
      a.toNat + 256 * (subWithBorrow a v c f).2.carry.toNat := by
  obtain ⟨result, borrow⟩ := subWithBorrow_computes a v c f
  have := c.toNat_le
  cases out : (subWithBorrow a v c f).2.carry <;>
    simp only [out, Bool.toNat_false, Bool.toNat_true, Bool.false_eq_true, false_iff,
      true_iff] at borrow ⊢ <;>
    omega

def Instruction.loaded? (i : Instruction) (s : Machine) : Option Byte :=
  match i with
  | mov .a src => some (s.reg src)
  | mvi .a data => some data
  | lda address => some (s.memory.read address)
  | ldax pointer => some (s.memory.read (s.registers.pair pointer))
  | _ => none

namespace Machine

/-- A load brings in a byte and leaves the flags to the operation. -/
theorem step_of_loaded {s : Machine} {x : Byte}
    (h : s.fetched.instruction.loaded? s = some x) :
    s.step.2.registers.a = x ∧ s.step.2.registers.flags = s.registers.flags := by
  have accumulator : s.step.2.registers.a =
      (s.fetched.instruction.effect s.fetched.next s).registers.a := rfl
  rw [accumulator, flags_step]
  cases fetched : s.fetched.instruction with
  | mov dst src | mvi dst src =>
    rw [fetched] at h
    cases dst <;> cases h
    exact ⟨rfl, rfl⟩
  | lda address | ldax address =>
    rw [fetched] at h
    cases h
    exact ⟨rfl, rfl⟩
  | _ =>
    rw [fetched] at h
    cases h

theorem carry_step (s : Machine) (h : s.fetched.instruction.setsCarry = false) :
    s.step.2.registers.flags.carry = s.registers.flags.carry := by
  rw [flags_step, Instruction.carry_flagsAfter _ _ h]

/-- The machine goes through two numbers byte by byte: it loads a byte of the first number, carries
out an operation on it with a byte of the second, in any form of the operand, and leaves the result
in the accumulator. In between it does what leaves the carry alone. -/
inductive Chain (op : Alu) : Machine → List Byte → List Byte → List Byte → Machine → Prop
  | done {s : Machine} : Chain op s [] [] [] s
  | digit {s t : Machine} {x y : Byte} {xs ys zs : List Byte} :
      s.fetched.instruction.loaded? s = some x → s.step.2.operation? = some (op, y) →
      Chain op s.step.2.step.2 xs ys zs t →
      Chain op s (x :: xs) (y :: ys) (s.step.2.step.2.registers.a :: zs) t
  | between {s t : Machine} {xs ys zs : List Byte} : s.fetched.instruction.setsCarry = false →
      Chain op s.step.2 xs ys zs t → Chain op s xs ys zs t

section

variable {op : Alu} {s t : Machine} {x y : Byte} {xs ys zs : List Byte}

/-- The step lemma: a load and an operation work out one digit, with the carry that the digit before
left. -/
theorem registers_of_digit (load : s.fetched.instruction.loaded? s = some x)
    (operation : s.step.2.operation? = some (op, y)) :
    s.step.2.step.2.registers.a = (op.apply x y s.registers.flags).1 ∧
      s.step.2.step.2.registers.flags = (op.apply x y s.registers.flags).2 := by
  obtain ⟨accumulator, flags⟩ := step_of_loaded load
  rw [step_of_operation operation, accumulator, flags]
  exact ⟨rfl, rfl⟩

theorem Chain.length_eq (h : Chain op s xs ys zs t) :
    ys.length = xs.length ∧ zs.length = xs.length := by
  induction h with
  | done => exact ⟨rfl, rfl⟩
  | digit _ _ _ ih => simpa using ih
  | between _ _ ih => exact ih

/-- A chain is a stretch of the run of its machine; by induction on its digits. -/
theorem Chain.reaches (h : Chain op s xs ys zs t) : ∃ n, t = s.after n := by
  induction h with
  | done => exact ⟨0, rfl⟩
  | @digit s _ _ _ _ _ _ _ _ _ ih =>
    obtain ⟨n, rfl⟩ := ih
    exact ⟨n + 2, by rw [after_step, after_step]⟩
  | @between s _ _ _ _ _ _ ih =>
    obtain ⟨n, rfl⟩ := ih
    exact ⟨n + 1, after_step s n⟩

/-- The run lemma for additions: the digits so far and the carry make up the sum so far. -/
theorem Chain.sum (h : Chain .adc s xs ys zs t) :
    number zs + 256 ^ xs.length * t.registers.flags.carry.toNat =
      number xs + number ys + s.registers.flags.carry.toNat := by
  induction h with
  | done => simp
  | @digit s t x y xs ys zs load operation _ ih =>
    obtain ⟨result, flags⟩ := registers_of_digit load operation
    have total := addWithCarry_total x y s.registers.flags.carry s.registers.flags
    rw [flags, Alu.apply] at ih
    rw [result, Alu.apply, number_cons, number_cons, number_cons, List.length_cons]
    calc _ = (addWithCarry x y s.registers.flags.carry s.registers.flags).1.toNat +
          256 * (number zs + 256 ^ xs.length * t.registers.flags.carry.toNat) := by ring
      _ = _ := by
        rw [ih]
        omega
  | between quiet _ ih => rwa [carry_step _ quiet] at ih

/-- The run lemma for subtractions, where the borrow is what is missing. -/
theorem Chain.difference (h : Chain .sbb s xs ys zs t) :
    number zs + number ys + s.registers.flags.carry.toNat =
      number xs + 256 ^ xs.length * t.registers.flags.carry.toNat := by
  induction h with
  | done => simp
  | @digit s t x y xs ys zs load operation _ ih =>
    obtain ⟨result, flags⟩ := registers_of_digit load operation
    have total := subWithBorrow_total x y s.registers.flags.carry s.registers.flags
    rw [flags, Alu.apply] at ih
    rw [result, Alu.apply, number_cons, number_cons, number_cons, List.length_cons]
    calc _ = x.toNat + 256 * (number zs + number ys +
          (subWithBorrow x y s.registers.flags.carry s.registers.flags).2.carry.toNat) := by omega
      _ = _ := by
        rw [ih]
        ring
  | between quiet _ ih => rwa [carry_step _ quiet] at ih

/-- A chain is part of a run. One of additions with carry collects the bytes of the sum and leaves
the carry set when the sum has more of them; one of subtractions with borrow collects those of the
difference and leaves the carry set when it is negative. -/
theorem chain_collects (h : Chain op s xs ys zs t) :
    let n := xs.length
    let c := s.registers.flags.carry.toNat
    (∃ k, t = s.after k) ∧ ys.length = n ∧ zs.length = n ∧
      (op = .adc → number zs = (number xs + number ys + c) % 256 ^ n ∧
        (t.registers.flags.carry = true ↔ 256 ^ n ≤ number xs + number ys + c)) ∧
      (op = .sbb → (number zs : Int) = ((number xs : Int) - number ys - c) % 256 ^ n ∧
        (t.registers.flags.carry = true ↔ number xs < number ys + c)) := by
  intro n c
  obtain ⟨second, results⟩ := h.length_eq
  have small : number zs < 256 ^ n := by
    have bound := number_lt zs
    rwa [results] at bound
  refine ⟨h.reaches, second, results, ?_, ?_⟩
  · rintro rfl
    have sum : number zs + 256 ^ n * t.registers.flags.carry.toNat = number xs + number ys + c :=
      h.sum
    constructor
    · rw [← sum, Nat.add_mul_mod_self_left, Nat.mod_eq_of_lt small]
    · cases out : t.registers.flags.carry <;> simp [out] at sum ⊢ <;> omega
  · rintro rfl
    have difference : number zs + number ys + c =
        number xs + 256 ^ n * t.registers.flags.carry.toNat := h.difference
    constructor
    · have wrapped : (number xs : Int) - number ys - c =
          number zs - 256 ^ n * (t.registers.flags.carry.toNat : Int) := by
        have := congrArg (Nat.cast : Nat → Int) difference
        push_cast at this
        omega
      rw [wrapped, Int.sub_mul_emod_self_left, Int.emod_eq_of_lt (by omega) (by exact_mod_cast small)]
    · cases out : t.registers.flags.carry <;> simp [out] at difference ⊢ <;> omega

end

/-- Adds three bytes from memory, from the program text and from a register to as many from
memory, a register and the program text, and stores the first sum on its way. -/
def adding : Machine where
  registers := { Registers.initial 0x0100 with
    b := 0x12, c := 0xED, h := 0x30, flags := { Flags.clear with carry := true } }
  memory := (Memory.zero.store 0x0100
    [0x3A, 0x00, 0x20, 0x8E, 0x32, 0x00, 0x21, 0x3E, 0x80, 0xCE, 0x7F, 0x78, 0x89]).store 0x2000
      [0xFF]

theorem chain_collects_adding :
    Chain .adc adding [0xFF, 0x80, 0x12] [0x00, 0x7F, 0xED] [0x00, 0x00, 0x00] (adding.after 7) ∧
      (adding.after 7).registers.flags.carry = true := by
  have chain :
      Chain .adc adding [0xFF, 0x80, 0x12] [0x00, 0x7F, 0xED] [0x00, 0x00, 0x00]
        (adding.after 7) :=
    .digit (by decide +kernel) (by decide +kernel) <|
    .between (by decide +kernel) <|
    .digit (by decide +kernel) (by decide +kernel) <|
    .digit (by decide +kernel) (by decide +kernel) .done
  obtain ⟨-, -, -, sum, -⟩ := chain_collects chain
  exact ⟨chain, (sum rfl).2.2 (by decide)⟩

end Machine

end Emu8085
