import Emu8085.Memory.Range
import Emu8085.Proofs.Frame
import Emu8085.Proofs.Trace

/-!
# Calls and their returns

A call leaves its return address in the two cells below the stack pointer that it found. While
more than nothing is on the stack since then, and no store hits the two cells, every instruction
keeps them and the distance of the stack pointer from them (`Inside`). The return that brings the
depth back to zero then finds the address on top. All addresses wrap, and so may the stack.
-/
namespace Emu8085

theorem Instruction.stackChange_le_one (i : Instruction) (s : Machine) : i.stackChange s ≤ 1 := by
  cases i with
  | call condition target | ret condition =>
    simp only [stackChange]
    split <;> decide
  | _ => simp [stackChange]

namespace Machine

/-- The instruction at the program counter calls, and the one after it is at `back`. -/
inductive Calls (s : Machine) : Word → Prop where
  | call {condition : Option Condition} {target : Word} :
      s.fetched.instruction = .call condition target → s.takes condition = true →
        Calls s (s.registers.pc + 3)
  | restart {vector : Fin 8} : s.fetched.instruction = .rst vector → Calls s (s.registers.pc + 1)

def Returns (s : Machine) : Prop :=
  ∃ condition, s.fetched.instruction = .ret condition ∧ s.takes condition = true

def change (s : Machine) : Int := s.fetched.instruction.stackChange s

/-- The number of words that `n` steps add to the stack. -/
def depth (s : Machine) : Nat → Int
  | 0 => 0
  | n + 1 => s.depth n + (s.after n).change

/-- A step moves the stack pointer by the stack only, and stores nothing in the two cells below
`base`. -/
structure Spares (s : Machine) (base : Word) : Prop where
  still : s.fetched.instruction.movesPointer = false
  high : base - 1 ∉ s.fetched.instruction.stores s.registers
  low : base - 2 ∉ s.fetched.instruction.stores s.registers

instance (s : Machine) (base : Word) : Decidable (s.Spares base) :=
  decidable_of_iff (s.fetched.instruction.movesPointer = false ∧
      base - 1 ∉ s.fetched.instruction.stores s.registers ∧
      base - 2 ∉ s.fetched.instruction.stores s.registers)
    ⟨fun h => ⟨h.1, h.2.1, h.2.2⟩, fun h => ⟨h.still, h.high, h.low⟩⟩

/-- The stack is `depth` words below `base`, and the highest of them is `back`. -/
structure Inside (base back : Word) (depth : Int) (s : Machine) : Prop where
  pointer : s.registers.sp = base - BitVec.ofInt 16 (2 * depth)
  kept : s.wordAt (base - 2) = back

/-- The stack pointer moves by the words of the step, two cells each. -/
theorem sp_step (s : Machine) (still : s.fetched.instruction.movesPointer = false) :
    s.step.2.registers.sp = s.registers.sp - BitVec.ofInt 16 (2 * s.change) :=
  Instruction.sp_effect _ _ s (Instruction.isWellFormed_decode _ _ _) still

theorem read_step (s : Machine) (a : Word) (h : a ∉ s.fetched.instruction.written s) :
    s.step.2.memory.read a = s.memory.read a :=
  Instruction.read_effect _ _ s a h

theorem sub_two_words (base : Word) (d c : Int) :
    base - BitVec.ofInt 16 (2 * d) - BitVec.ofInt 16 (2 * c) =
      base - BitVec.ofInt 16 (2 * (d + c)) := by
  rw [Int.mul_add, BitVec.ofInt_add]
  bv_omega

theorem ofInt_words (n : Nat) : BitVec.ofInt 16 (2 * (n : Int)) = BitVec.ofNat 16 (2 * n) := by
  rw [← BitVec.ofInt_natCast]
  rfl

/-- A push at a depth of one word or more, in a stack that has room for it, stays clear of the
first word. -/
theorem push_clear (base sp : Word) (d : Int) (deep : 1 ≤ d) (room : d + 1 ≤ 32768)
    (pointer : sp = base - BitVec.ofInt 16 (2 * d)) :
    base - 1 ∉ [sp - 1, sp - 2] ∧ base - 2 ∉ [sp - 1, sp - 2] := by
  obtain ⟨n, rfl⟩ := Int.eq_ofNat_of_zero_le (show 0 ≤ d by omega)
  rw [ofInt_words] at pointer
  simp only [List.mem_cons, List.not_mem_nil, or_false, not_or]
  refine ⟨⟨?_, ?_⟩, ?_, ?_⟩ <;> bv_omega

/-- What a step inside a call writes is clear of the return address. -/
theorem spared_not_written {base back : Word} {d : Int} {s : Machine} (h : Inside base back d s)
    (deep : 1 ≤ d) (room : d + s.change ≤ 32768) (spares : s.Spares base) :
    base - 1 ∉ s.fetched.instruction.written s ∧ base - 2 ∉ s.fetched.instruction.written s := by
  simp only [Instruction.written, List.mem_append, not_or]
  by_cases pushes : 0 < s.fetched.instruction.stackChange s
  · have one : s.change = 1 := by
      have := s.fetched.instruction.stackChange_le_one s
      unfold change
      omega
    obtain ⟨high, low⟩ := push_clear base s.registers.sp d deep (by omega) h.pointer
    rw [if_pos pushes]
    exact ⟨⟨spares.high, high⟩, spares.low, low⟩
  · rw [if_neg pushes]
    exact ⟨⟨spares.high, List.not_mem_nil⟩, spares.low, List.not_mem_nil⟩

/-- The step lemma: inside a call the return address is kept and the depth changes with the stack
pointer. -/
theorem inside_step {base back : Word} {d : Int} {s : Machine} (h : Inside base back d s)
    (deep : 1 ≤ d) (room : d + s.change ≤ 32768) (spares : s.Spares base) :
    Inside base back (d + s.change) s.step.2 where
  pointer := by rw [sp_step s spares.still, h.pointer, sub_two_words]
  kept := by
    obtain ⟨high, low⟩ := spared_not_written h deep room spares
    have next : base - 2 + 1 = base - 1 := by bv_omega
    have kept := h.kept
    rw [wordAt, next] at kept ⊢
    rw [read_step s _ high, read_step s _ low, kept]

/-- A step whose effect is to push a word puts it below the stack pointer it found. -/
theorem inside_push {s : Machine} {back : Word}
    (h : s.fetched.instruction.effect s.fetched.next s = s.push back) :
    Inside s.registers.sp back 1 s.step.2 where
  pointer := by
    change (s.fetched.instruction.effect s.fetched.next s).registers.sp = _
    rw [h]
    rfl
  kept := by
    change (s.fetched.instruction.effect s.fetched.next s).wordAt _ = _
    rw [h]
    exact top_push s back

/-- A call puts the first word of its own stack and so sets the invariant up. -/
theorem inside_call {s : Machine} {back : Word} (h : s.Calls back) :
    s.change = 1 ∧ Inside s.registers.sp back 1 s.step.2 := by
  cases h with
  | @call condition target instruction taken =>
    have next : s.fetched.next = s.registers.pc + 3 := by
      rw [Located.next, Located.width, instruction, BitVec.add_assoc]
      rfl
    have effect : s.fetched.instruction.effect s.fetched.next s = s.push (s.registers.pc + 3) := by
      rw [next, instruction, Instruction.effect, if_pos taken]
    exact ⟨by rw [change, instruction, Instruction.stackChange, if_pos taken], inside_push effect⟩
  | @restart vector instruction =>
    have next : s.fetched.next = s.registers.pc + 1 := by
      rw [Located.next, Located.width, instruction]
      exact BitVec.add_zero _
    have effect : s.fetched.instruction.effect s.fetched.next s = s.push (s.registers.pc + 1) := by
      rw [next, instruction, Instruction.effect]
    exact ⟨by rw [change, instruction, Instruction.stackChange], inside_push effect⟩

/-- At a depth of one word a return leaves the call. -/
theorem return_inside {base back : Word} {s : Machine} (h : Inside base back 1 s)
    (exit : s.Returns) : s.step.2.registers.pc = back ∧ s.step.2.registers.sp = base := by
  obtain ⟨condition, instruction, taken⟩ := exit
  have pointer : s.registers.sp = base - 2 := h.pointer
  constructor
  · rw [pc_step, instruction, Instruction.target, if_pos taken, top, pointer]
    exact h.kept
  · rw [sp_step s (by rw [instruction]; rfl), change, instruction, Instruction.stackChange,
      if_pos taken, pointer]
    bv_omega

/-- The run lemma: up to the return the stack stays inside the call. By induction on the steps since
the call, which itself sets the invariant up. -/
theorem inside_after {s : Machine} {back : Word} (entry : s.Calls back) (n : Nat)
    (level : ∀ k, 1 ≤ k → k ≤ n + 1 → 1 ≤ s.depth k ∧ s.depth k ≤ 32768)
    (spares : ∀ k, 1 ≤ k → k ≤ n → (s.after k).Spares s.registers.sp) :
    Inside s.registers.sp back (s.depth (n + 1)) (s.after (n + 1)) := by
  induction n with
  | zero =>
    obtain ⟨one, inside⟩ := inside_call entry
    simpa [depth, one] using inside
  | succ n ih =>
    have before := ih (fun k hk hn => level k hk (by omega)) (fun k hk hn => spares k hk (by omega))
    exact inside_step before (level (n + 1) (by omega) (by omega)).1
      (level (n + 2) (by omega) (by omega)).2 (spares (n + 1) (by omega) (by omega))

/-- Whatever is called, pushed and popped in between, the return that takes the last word since a
call off the stack goes on after the call, with the stack pointer from before it. -/
theorem matched_return (s : Machine) (back : Word) (n : Nat) (entry : s.Calls back)
    (level : ∀ k, 1 ≤ k → k ≤ n → 1 ≤ s.depth k ∧ s.depth k ≤ 32768)
    (spares : ∀ k, 1 ≤ k → k < n → (s.after k).Spares s.registers.sp)
    (exit : (s.after n).Returns) (empty : s.depth (n + 1) = 0) :
    (s.after (n + 1)).registers.pc = back ∧
      (s.after (n + 1)).registers.sp = s.registers.sp := by
  obtain ⟨condition, instruction, taken⟩ := exit
  have change : (s.after n).change = -1 := by
    rw [change, instruction, Instruction.stackChange, if_pos taken]
  have one : s.depth n = 1 := by
    rw [depth, change] at empty
    omega
  cases n with
  | zero => exact absurd one (by simp [depth])
  | succ n =>
    have inside := inside_after entry n level fun k hk hn => spares k hk (by omega)
    rw [one] at inside
    exact return_inside inside ⟨condition, instruction, taken⟩

/-- A subroutine that saves the status word, restarts and comes back, passes by a conditional
return and returns, on a stack that wraps past address zero. -/
def nestedCall : Machine where
  registers := { Registers.initial 0x0100 with sp := 0x0001 }
  memory := ((Memory.zero.store 0x0100 [0xCD, 0x00, 0x02]).store 0x0008 [0xC9]).store 0x0200
    [0xF5, 0xCF, 0xF1, 0xC8, 0xC9]

theorem matched_return_nestedCall :
    nestedCall.Calls 0x0103 ∧ (nestedCall.after 6).Returns ∧ nestedCall.depth 7 = 0 ∧
      (nestedCall.after 7).registers.pc = 0x0103 ∧ (nestedCall.after 7).registers.sp = 0x0001 := by
  have entry : nestedCall.Calls 0x0103 :=
    @Calls.call nestedCall none 0x0200 rfl rfl
  have level : ∀ k < 7, 1 ≤ k → 1 ≤ nestedCall.depth k ∧ nestedCall.depth k ≤ 32768 := by
    decide +kernel
  have spares : ∀ k < 6, 1 ≤ k → (nestedCall.after k).Spares 0x0001 := by decide +kernel
  have exit : (nestedCall.after 6).Returns := ⟨none, by decide +kernel, rfl⟩
  have empty : nestedCall.depth 7 = 0 := by decide +kernel
  exact ⟨entry, exit, empty, matched_return nestedCall 0x0103 6 entry
    (fun k hk hn => level k (by omega) hk) (fun k hk hn => spares k hn hk) exit empty⟩

end Machine

end Emu8085
