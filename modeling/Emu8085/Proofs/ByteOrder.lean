import Emu8085.Proofs.Encoding
import Emu8085.Proofs.StackOrder

/-!
# The order of bytes in memory

Every word in memory has its low byte in front, whoever puts it there and whoever takes it from
there: the direct store and load of HL, pushes and pops, calls and returns, and the operands of
instructions. So a word that was left at an address by any of them is the word that all of them
find there, also where the second cell is at address zero.
-/
namespace Emu8085

open Text

/-- A word lies in two cells, the low byte in the first one. -/
structure Memory.HasWord (m : Memory) (a w : Word) : Prop where
  low : m.read a = w.low
  high : m.read (a + 1) = w.high

/-- A word stays where it is as long as its two cells are kept. -/
theorem Memory.HasWord.congr {m m' : Memory} {a w : Word} (h : m.HasWord a w)
    (same : ∀ c ∈ [a, a + 1], m'.read c = m.read c) : m'.HasWord a w where
  low := (same a (by simp)).trans h.low
  high := (same (a + 1) (by simp)).trans h.high

def upperDigits : List Char :=
  ['0', '1', '2', '3', '4', '5', '6', '7', '8', '9', 'A', 'B', 'C', 'D', 'E', 'F']

theorem hexDigit_upper {n : Nat} (h : n < 16) : hexDigit .upper n = upperDigits.getD n '0' := by
  revert n
  decide

def Word.digits (w : Word) : List Char :=
  [w.toNat / 4096, w.toNat / 256, w.toNat / 16, w.toNat].map fun n => upperDigits.getD (n % 16) '0'

theorem Word.toList_upperHex (w : Word) : (upperHex 4 w.toNat).toList = w.digits := by
  have short : hexLength w.toNat ≤ 4 := hexLength_le_iff.2 w.isLt
  rw [upperHex, hex, String.toList_ofList, Nat.max_eq_left short]
  simp only [lowDigits, hexDigit_upper (Nat.mod_lt _ (by decide : 0 < 16)), Nat.div_div_eq_div_mul]
  rfl

theorem Operand.eq_word {o : Operand} {w : Word} (h : o.bytes = [w.low, w.high]) : o = .word w := by
  cases o with
  | word v =>
    obtain ⟨low, high⟩ : v.low = w.low ∧ v.high = w.high := by simpa [Operand.bytes] using h
    rw [← v.ofBytes_high_low, low, high, w.ofBytes_high_low]
  | none | byte => simp [Operand.bytes] at h

namespace Machine

variable {s : Machine} {a w : Word}

/-- The instruction at the program counter leaves a word at an address. -/
inductive Leaves (s : Machine) (a w : Word) : Prop where
  | stored : s.fetched.instruction = .shld a → s.registers.pair .hl = w → Leaves s a w
  | pushed {p : Pair} : s.fetched.instruction = .push p → s.registers.pair p = w →
      s.registers.sp = a + 2 → Leaves s a w
  | called : s.Calls w → s.registers.sp = a + 2 → Leaves s a w

theorem hasWord_of_wordAt (h : s.wordAt a = w) : s.memory.HasWord a w where
  low := by rw [← h, wordAt, Word.low_ofBytes]
  high := by rw [← h, wordAt, Word.high_ofBytes]

/-- The step lemma for the writers: a direct store, a push and a call put the low byte first. -/
theorem Leaves.hasWord (h : s.Leaves a w) : s.step.2.memory.HasWord a w := by
  have under (pointer : s.registers.sp = a + 2) (inside : Inside s.registers.sp w 1 s.step.2) :
      s.step.2.memory.HasWord a w := by
    have place : s.registers.sp - 2 = a := by
      rw [pointer]
      exact BitVec.add_sub_cancel a 2
    have kept := inside.kept
    rw [place] at kept
    exact hasWord_of_wordAt kept
  cases h with
  | stored instruction word =>
    have memory : s.step.2.memory = (s.storeWord a w).memory := by
      subst word
      change (s.fetched.instruction.effect s.fetched.next s).memory = _
      rw [instruction]
      rfl
    rw [memory]
    exact ⟨by simp [storeWord, Memory.read_write], Memory.read_write_same _ _ _⟩
  | pushed instruction word pointer =>
    refine under pointer (inside_push ?_)
    rw [instruction, ← word]
    rfl
  | called entry pointer => exact under pointer (inside_call entry).2

section

variable {u : Machine} (word : u.memory.HasWord a w)
include word

theorem wordAt_of_hasWord : u.wordAt a = w := by
  rw [wordAt, word.low, word.high, Word.ofBytes_high_low]

theorem pair_step_lhld (h : u.fetched.instruction = .lhld a) :
    u.step.2.registers.pair .hl = w := by
  rw [step_eq_perform, h, ← wordAt_of_hasWord word]
  exact u.registers.pair_setPair_same .hl (u.wordAt a) (by decide)

theorem inside_of_hasWord (pointer : u.registers.sp = a) : Inside (a + 2) w 1 u where
  pointer := by
    rw [pointer]
    exact (BitVec.add_sub_cancel a 2).symm
  kept := by
    have place : a + 2 - 2 = a := BitVec.add_sub_cancel a 2
    rw [place, wordAt_of_hasWord word]

theorem registers_step_pop {p : Pair} (other : p ≠ .psw) (pointer : u.registers.sp = a)
    (h : u.fetched.instruction = .pop p) :
    u.step.2.registers.pair p = w ∧ u.step.2.registers.sp = a + 2 := by
  constructor
  · rw [step_eq_perform, h, pair_perform_pop, top, pointer, wordAt_of_hasWord word]
    cases p with
    | psw => exact absurd rfl other
    | _ => rfl
  · rw [sp_step u (by rw [h]; rfl), change, h, Instruction.stackChange, pointer]
    bv_omega

/-- An opcode in front of a word has that word for its operand. -/
theorem operand_of_hasWord (long : operandWidth (u.memory.read (a - 1)) = 2) :
    (u.memory.fetch (a - 1)).instruction.operand = .word w := by
  have bytes := u.memory.operandBytes_fetch (a - 1)
  have first : a - 1 + 1 + BitVec.ofNat 16 0 = a := by bv_omega
  have second : a - 1 + 1 + BitVec.ofNat 16 1 = a + 1 := by bv_omega
  have two : List.range 2 = [0, 1] := rfl
  rw [long, two, List.map_cons, List.map_singleton, first, second, word.low, word.high] at bytes
  exact Operand.eq_word bytes

end

/-- The word that a direct store of HL, a push or a call leaves at an address is the one that,
as long as its two cells are kept, a direct load of HL, a pop and a return find there, and that
an instruction with a word operand has for its operand when its opcode is in front of the word. -/
theorem words_lie_low_byte_first {s u : Machine} {a w : Word} (left : s.Leaves a w)
    (kept : ∀ c ∈ [a, a + 1], u.memory.read c = s.step.2.memory.read c) :
    (u.fetched.instruction = .lhld a → u.step.2.registers.pair .hl = w) ∧
    (u.registers.sp = a →
      (∀ p, p ≠ .psw → u.fetched.instruction = .pop p →
        u.step.2.registers.pair p = w ∧ u.step.2.registers.sp = a + 2) ∧
      (u.Returns → u.step.2.registers.pc = w ∧ u.step.2.registers.sp = a + 2)) ∧
    (operandWidth (u.memory.read (a - 1)) = 2 →
      let i := (u.memory.fetch (a - 1)).instruction
      i.operand = .word w ∧ i.operand.text.toList = '#' :: w.digits) := by
  have word := left.hasWord.congr kept
  refine ⟨pair_step_lhld word, fun pointer => ⟨?_, ?_⟩, fun long => ?_⟩
  · exact fun p other => registers_step_pop word other pointer
  · exact return_inside (inside_of_hasWord word pointer)
  · have operand := operand_of_hasWord word long
    refine ⟨operand, ?_⟩
    rw [operand, Operand.text, String.toList_append, w.toList_upperHex]
    rfl

/-- Stores a word across the end of memory, where the stack pointer is, and pops it. -/
def crossing : Machine where
  registers := { Registers.initial 0x0100 with h := 0x12, l := 0xAF }
  memory := (Memory.zero.store 0x0100 [0x22, 0xFF, 0xFF, 0xC1]).store 0xFFFE [0xC3]

theorem words_lie_low_byte_first_crossing :
    crossing.Leaves 0xFFFF 0x12AF ∧
      (crossing.after 2).registers.pair .bc = 0x12AF ∧ (crossing.after 2).registers.sp = 0x0001 ∧
      ((crossing.after 1).memory.fetch 0xFFFE).instruction.operand = .word 0x12AF := by
  have left : crossing.Leaves 0xFFFF 0x12AF := .stored (by decide +kernel) (by decide)
  obtain ⟨-, stack, inline⟩ := words_lie_low_byte_first (u := crossing.after 1) left fun _ _ => rfl
  have popped := (stack (by decide +kernel)).1 .bc (by decide) (by decide +kernel)
  exact ⟨left, popped.1, popped.2, (inline (by decide +kernel)).1⟩

end Machine

end Emu8085
