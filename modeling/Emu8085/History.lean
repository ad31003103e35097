import Emu8085.Listing
import Emu8085.Machine.Execute

/-!
# Steps and their history

A step executes the instruction at the program counter, whether or not the machine is halted, and
leaves an entry: the instruction as it was fetched and the registers after it.
-/
namespace Emu8085

open Text

structure Entry where
  fetched : Located
  after : Registers
  deriving DecidableEq, Repr

namespace Entry

def outcome (e : Entry) : String :=
  let r := e.after
  let word (name : String) (v : Word) := "[" ++ name ++ "=0x" ++ lowerHex 4 v.toNat ++ "]"
  "[A=0x" ++ lowerHex 2 r.a.toNat ++ "]" ++ word "BC" (r.pair .bc) ++ word "DE" (r.pair .de) ++
    word "HL" (r.pair .hl) ++ word "SP" r.sp ++ "[S=" ++ r.flags.text ++ "]"

def text (e : Entry) : String := e.fetched.text ++ " " ++ e.outcome

end Entry

/-- Carries out an instruction as if it had been fetched at its address. -/
def Located.execute (i : Located) (s : Machine) : Entry × Machine :=
  let after := i.instruction.execute i.next s
  (⟨i, after.registers⟩, after)

namespace Machine

def fetched (s : Machine) : Located := s.memory.fetch s.registers.pc

def step (s : Machine) : Entry × Machine := s.fetched.execute s

theorem step_entry (s : Machine) : s.step.1 = ⟨s.fetched, s.step.2.registers⟩ := rfl

/-- The effect of an instruction does not decide where execution goes on, its target does. -/
theorem pc_step (s : Machine) :
    s.step.2.registers.pc = s.fetched.instruction.target s.fetched.next s := rfl

end Machine

end Emu8085
