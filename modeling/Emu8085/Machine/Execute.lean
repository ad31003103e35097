import Emu8085.Arithmetic
import Emu8085.Machine

/-!
# Executing an instruction

An instruction changes registers and memory (`effect`) and says where execution goes on
(`target`), which is judged on the state before it. Nothing else moves the program counter.
-/
namespace Emu8085

namespace Machine

def takes (s : Machine) : Option Condition → Bool
  | none => true
  | some c => c.holds s.registers.flags

end Machine

namespace Instruction

/-- The value that input ports read, no device being attached. -/
def emptyPort : Byte := 0xFF

/-- The interrupt mask, nothing ever being masked or pending. -/
def interruptMask : Byte := 0

/-- The change of registers and memory; `next` is the address after the instruction. -/
def effect (i : Instruction) (next : Word) (s : Machine) : Machine :=
  let r := s.registers
  match i with
  | nop | sim | di | ei | output _ | jump _ _ | unrecognized => s
  | hlt => { s with registers.halted := true }
  | rim => s.setReg .a interruptMask
  | input _ => s.setReg .a emptyPort
  | mov dst src => s.setReg dst (s.reg src)
  | mvi dst data => s.setReg dst data
  | lxi dst data => s.setPair dst data
  | sta address => { s with memory := s.memory.write address r.a }
  | lda address => s.setReg .a (s.memory.read address)
  | shld address => s.storeWord address (r.pair .hl)
  | lhld address => s.setPair .hl (s.wordAt address)
  | stax pointer => { s with memory := s.memory.write (r.pair pointer) r.a }
  | ldax pointer => s.setReg .a (s.memory.read (r.pair pointer))
  | xchg => (s.setPair .de (r.pair .hl)).setPair .hl (r.pair .de)
  | alu op src => s.accumulate (op.apply r.a (s.reg src) r.flags)
  | aluImmediate op data => s.accumulate (op.apply r.a data r.flags)
  | inr dst =>
    let result := s.reg dst + 1
    { s.setReg dst result with registers.flags := r.flags.judge result }
  | dcr dst =>
    let result := s.reg dst - 1
    { s.setReg dst result with registers.flags := r.flags.judge result }
  | inx dst => s.setPair dst (r.pair dst + 1)
  | dcx dst => s.setPair dst (r.pair dst - 1)
  | dad src =>
    let sum := (r.pair .hl).toNat + (r.pair src).toNat
    { s.setPair .hl (BitVec.ofNat 16 sum) with registers.flags.carry := decide (0xFFFF < sum) }
  | daa => s.accumulate (decimalAdjust r.a r.flags)
  | cma => s.setReg .a (~~~ r.a)
  | stc => { s with registers.flags.carry := true }
  | cmc => { s with registers.flags.carry := !r.flags.carry }
  | rotate op => s.accumulate (op.apply r.a r.flags)
  | call condition _ => if s.takes condition then s.push next else s
  | ret condition => if s.takes condition then s.drop else s
  | rst _ => s.push next
  | push src => s.push (r.pair src)
  | pop dst => s.drop.setPair dst s.top

/-- Where execution goes on: `next`, except for a branch that is taken. -/
def target (i : Instruction) (next : Word) (s : Machine) : Word :=
  match i with
  | jump condition address | call condition address => if s.takes condition then address else next
  | ret condition => if s.takes condition then s.top else next
  | rst vector => BitVec.ofNat 16 (8 * vector.val)
  | _ => next

def execute (i : Instruction) (next : Word) (s : Machine) : Machine :=
  let pc := i.target next s
  { i.effect next s with registers.pc := pc }

end Instruction

end Emu8085
