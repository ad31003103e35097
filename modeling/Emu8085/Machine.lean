import Emu8085.Registers

/-!
# Machine states

Registers and memory. A byte operand is a register or the cell that HL points at; the stack grows
downward and keeps the high byte of a word at the higher address.
-/
namespace Emu8085

structure Machine where
  registers : Registers
  memory : Memory
  deriving DecidableEq

namespace Machine

/-- After a reset: initial registers at address zero, every cell zero. -/
def initial : Machine := ⟨.initial 0, .zero⟩

def reg (s : Machine) : Reg → Byte
  | .b => s.registers.b
  | .c => s.registers.c
  | .d => s.registers.d
  | .e => s.registers.e
  | .h => s.registers.h
  | .l => s.registers.l
  | .m => s.memory.read (s.registers.pair .hl)
  | .a => s.registers.a

def setReg (s : Machine) (r : Reg) (v : Byte) : Machine :=
  match r with
  | .b => { s with registers.b := v }
  | .c => { s with registers.c := v }
  | .d => { s with registers.d := v }
  | .e => { s with registers.e := v }
  | .h => { s with registers.h := v }
  | .l => { s with registers.l := v }
  | .m => { s with memory := s.memory.write (s.registers.pair .hl) v }
  | .a => { s with registers.a := v }

def setPair (s : Machine) (p : Pair) (w : Word) : Machine :=
  { s with registers := s.registers.setPair p w }

def accumulate (s : Machine) (result : Byte × Flags) : Machine :=
  { s with registers.a := result.1, registers.flags := result.2 }

/-- The word whose low byte is at an address and whose high byte is at the next one. -/
def wordAt (s : Machine) (address : Word) : Word :=
  .ofBytes (s.memory.read (address + 1)) (s.memory.read address)

def storeWord (s : Machine) (address : Word) (w : Word) : Machine :=
  { s with memory := (s.memory.write address w.low).write (address + 1) w.high }

def top (s : Machine) : Word := s.wordAt s.registers.sp

/-- The high byte goes first, to the cell just below the stack pointer. -/
def push (s : Machine) (w : Word) : Machine :=
  let sp := s.registers.sp
  { registers := { s.registers with sp := sp - 2 }
    memory := (s.memory.write (sp - 1) w.high).write (sp - 2) w.low }

def drop (s : Machine) : Machine := { s with registers.sp := s.registers.sp + 2 }

theorem reg_setReg_same (s : Machine) {r : Reg} (v : Byte) : (s.setReg r v).reg r = v := by
  cases r <;> simp [reg, setReg, Registers.pair]

@[simp] theorem setReg_reg (s : Machine) (r : Reg) : s.setReg r (s.reg r) = s := by
  cases r <;> simp [reg, setReg]

/-- The two cells of the pushed word are different, also where the stack wraps. -/
theorem top_push (s : Machine) (w : Word) : (s.push w).top = w := by
  have next : s.registers.sp - 2#16 + 1#16 = s.registers.sp - 1#16 := by bv_omega
  have apart : s.registers.sp - 1#16 ≠ s.registers.sp - 2#16 := by bv_omega
  simp [top, wordAt, push, next, Memory.read_write, apart]

end Machine

end Emu8085
