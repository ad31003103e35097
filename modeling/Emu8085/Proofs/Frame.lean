import Emu8085.History
import Emu8085.Proofs.Encoding

/-!
# What an instruction changes

The cells that an instruction writes are those of its store and those of its push, all named on
the state before it. The stack pointer moves with the number of words on the stack, three
instructions that load or count it apart.
-/
namespace Emu8085

namespace Machine

@[simp] theorem sp_setReg (s : Machine) (r : Reg) (v : Byte) :
    (s.setReg r v).registers.sp = s.registers.sp := by
  cases r <;> rfl

@[simp] theorem flags_setReg (s : Machine) (r : Reg) (v : Byte) :
    (s.setReg r v).registers.flags = s.registers.flags := by
  cases r <;> rfl

theorem memory_setReg (s : Machine) {r : Reg} (v : Byte) (h : r ≠ .m) :
    (s.setReg r v).memory = s.memory := by
  cases r <;> simp_all [setReg]

@[simp] theorem memory_setPair (s : Machine) (p : Pair) (w : Word) :
    (s.setPair p w).memory = s.memory := rfl

theorem sp_setPair (s : Machine) {p : Pair} (w : Word) (h : p ≠ .sp) :
    (s.setPair p w).registers.sp = s.registers.sp := by
  cases p <;> simp_all [setPair, Registers.setPair]

theorem flags_setPair (s : Machine) {p : Pair} (w : Word) (h : p ≠ .psw) :
    (s.setPair p w).registers.flags = s.registers.flags := by
  cases p <;> simp_all [setPair, Registers.setPair]

@[simp] theorem memory_accumulate (s : Machine) (result : Byte × Flags) :
    (s.accumulate result).memory = s.memory := rfl

@[simp] theorem sp_accumulate (s : Machine) (result : Byte × Flags) :
    (s.accumulate result).registers.sp = s.registers.sp := rfl

@[simp] theorem memory_drop (s : Machine) : s.drop.memory = s.memory := rfl

/-- A push writes the two cells below the stack pointer. -/
theorem read_push (s : Machine) (w a : Word)
    (high : a ≠ s.registers.sp - 1) (low : a ≠ s.registers.sp - 2) :
    (s.push w).memory.read a = s.memory.read a := by
  rw [push, Memory.read_write_other _ _ low, Memory.read_write_other _ _ high]

end Machine

namespace Instruction

/-- The cells that a store instruction writes. -/
def stores (i : Instruction) (r : Registers) : List Word :=
  match i with
  | sta address => [address]
  | shld address => [address, address + 1]
  | stax pointer => [r.pair pointer]
  | mov dst _ | mvi dst _ | inr dst | dcr dst => if dst = .m then [r.pair .hl] else []
  | _ => []

/-- The number of words that it adds to the stack, fewer than none when it takes one off. -/
def stackChange (i : Instruction) (s : Machine) : Int :=
  match i with
  | push _ | rst _ => 1
  | call condition _ => if s.takes condition then 1 else 0
  | pop _ => -1
  | ret condition => if s.takes condition then -1 else 0
  | _ => 0

/-- Loading the stack pointer and counting it up or down, which move it without the stack. -/
def movesPointer : Instruction → Bool
  | lxi dst _ | inx dst | dcx dst => dst == .sp
  | _ => false

/-- All cells that it writes: those of its store, and two below the stack pointer when it pushes. -/
def written (i : Instruction) (s : Machine) : List Word :=
  i.stores s.registers ++
    if 0 < i.stackChange s then [s.registers.sp - 1, s.registers.sp - 2] else []

/-- By cases on the instruction: what it stores and pushes is all that it writes. Only the
destination tells whether a move or a count stores at all. -/
theorem read_effect (i : Instruction) (next : Word) (s : Machine) (a : Word)
    (h : a ∉ i.written s) : (i.effect next s).memory.read a = s.memory.read a := by
  cases i with
  | mov dst src | mvi dst src | inr dst | dcr dst =>
    cases dst <;> simp_all [effect, written, stores, stackChange, Machine.setReg, Memory.read_write]
  | call condition target =>
    cases taken : s.takes condition <;>
      simp_all [effect, written, stores, stackChange, Machine.read_push]
  | ret condition =>
    cases taken : s.takes condition <;> simp [effect, taken]
  | _ => simp_all [effect, written, stores, stackChange, Memory.read_write, Machine.storeWord,
      Machine.read_push, Machine.memory_setReg]

/-- By cases on the instruction: unless it is loaded or counted, the stack pointer moves by the
words pushed and popped. -/
theorem sp_effect (i : Instruction) (next : Word) (s : Machine) (formed : i.isWellFormed = true)
    (still : i.movesPointer = false) :
    (i.effect next s).registers.sp = s.registers.sp - BitVec.ofInt 16 (2 * i.stackChange s) := by
  cases i with
  | lxi dst data | inx dst | dcx dst =>
    cases dst <;> simp_all [effect, stackChange, movesPointer, Machine.sp_setPair]
  | call condition target | ret condition =>
    cases taken : s.takes condition <;>
      simp [effect, stackChange, taken, Machine.push, Machine.drop, BitVec.sub_eq_add_neg]
  | _ => simp_all [effect, stackChange, isWellFormed, Machine.sp_setPair, Machine.storeWord,
      Machine.push, Machine.drop, BitVec.sub_eq_add_neg]

end Instruction

end Emu8085
