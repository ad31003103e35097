import Emu8085.Script.Command

/-!
# Operations on a machine

Everything that can be asked of a machine from outside: the operations of its control, writes to
its registers, the status byte and the flags, and the commands of scripts. An operation that is
refused leaves the machine alone and records nothing; what the others record is what they did, in
order. A command is a sequence of operations (`operateAll_operations`), so what operations keep,
scripts keep.
-/
namespace Emu8085

open Script

/-- The flags with one of them set or cleared. -/
def Flags.put (f : Flags) (on : Bool) : Flag → Flags
  | .sign => { f with sign := on }
  | .zero => { f with zero := on }
  | .auxCarry => { f with auxCarry := on }
  | .parity => { f with parity := on }
  | .carry => { f with carry := on }

inductive Operation where
  | reset
  | load (program : List Byte) (start : Nat)
  | goto (address : Nat)
  | poke (address value : Nat)
  | step
  | run (budget : Nat)
  | runUntil (stop : Machine → Bool) (budget : Nat)
  | runFrom (address budget : Nat)
  /-- Taking a snapshot or describing an instruction. -/
  | look
  | assign (register : Register) (value : Nat)
  | writeFlag (flag : Flag) (on : Bool)
  /-- Sign, zero and parity as a result has them. -/
  | judge (result : Byte)
  | writePair (p : Pair) (w : Word)
  | writeStatus (b : Byte)

namespace Machine

/-- The machine after an operation, and the records of what was done. -/
def operate (s : Machine) : Operation → Machine × List Record
  | .reset => (.initial, [.reset])
  | .load program start =>
    match s.load program start with
    | .ok t => (t, [.loaded program.length t.registers.pc])
    | .error _ => (s, [])
  | .goto address =>
    match s.goto address with
    | .ok t => (t, [.moved t.registers.pc])
    | .error _ => (s, [])
  | .poke address value =>
    match s.poke address value with
    | .ok t => (t, [.wrote (BitVec.ofNat 8 value) (BitVec.ofNat 16 address)])
    | .error _ => (s, [])
  | .step =>
    match s.advance with
    | .ok (_, entry, t) => (t, entry.records)
    | .error _ => (s, [])
  | .run budget =>
    let (report, t) := s.run budget
    (t, report.records t.registers.pc)
  | .runUntil stop budget =>
    let (report, t) := s.runUntil stop budget
    (t, report.records t.registers.pc)
  | .runFrom address budget =>
    match s.runFrom address budget with
    | .ok (report, t) =>
      (t, .moved (BitVec.ofNat 16 address) :: report.records t.registers.pc)
    | .error _ => (s, [])
  | .look => (s, [])
  | .assign register value =>
    if value < register.limit then
      ({ s with registers := register.assign s.registers value }, [])
    else (s, [])
  | .writeFlag flag on => ({ s with registers.flags := s.registers.flags.put on flag }, [])
  | .judge result => ({ s with registers.flags := s.registers.flags.judge result }, [])
  | .writePair p w => (s.setPair p w, [])
  | .writeStatus b => ({ s with registers.flags := .ofStatus b }, [])

def operateAll (s : Machine) : List Operation → Machine × List Record
  | [] => (s, [])
  | op :: ops =>
    let (t, records) := s.operate op
    let (u, later) := t.operateAll ops
    (u, records ++ later)

@[simp] theorem operateAll_nil (s : Machine) : s.operateAll [] = (s, []) := rfl

theorem operateAll_cons (s : Machine) (op : Operation) (ops : List Operation) :
    s.operateAll (op :: ops) = (((s.operate op).1.operateAll ops).1,
      (s.operate op).2 ++ ((s.operate op).1.operateAll ops).2) := rfl

theorem operateAll_singleton (s : Machine) (op : Operation) :
    s.operateAll [op] = s.operate op := by
  rw [operateAll_cons, operateAll_nil, List.append_nil]

/-- Operations in two parts are all of them in turn; by induction on the first part. -/
theorem operateAll_append (s : Machine) (ops later : List Operation) :
    s.operateAll (ops ++ later) = (((s.operateAll ops).1.operateAll later).1,
      (s.operateAll ops).2 ++ ((s.operateAll ops).1.operateAll later).2) := by
  induction ops generalizing s with
  | nil => rfl
  | cons op ops ih => rw [List.cons_append, operateAll_cons, ih, operateAll_cons, List.append_assoc]

end Machine

/-- The writes of bytes to successive cells. -/
def Operation.pokes (address : Nat) : List Byte → List Operation
  | [] => []
  | b :: bytes => .poke address b.toNat :: pokes (address + 1) bytes

/-- What a command asks of the machine; a view or an assertion asks nothing. -/
def Script.Command.operations : Command → List Operation
  | goto address => [.goto address]
  | load address program => [.load program address]
  | memoryWrite address bytes =>
    if Memory.size < address + bytes.length then [] else Operation.pokes address bytes
  | registersSet register value => [.assign register value]
  | reset => [.reset]
  | run stop none maxSteps => [.runUntil (fun t => stop.any (·.holds t)) maxSteps]
  | run stop (some address) maxSteps =>
    if address < 0x10000 then
      [.goto address, .runUntil (fun t => stop.any (·.holds t)) maxSteps]
    else []
  | step => [.step]
  | assert _ _ | disassemble _ _ | marker _ | memoryShow _ _ | nothing | registersShow => []

namespace Machine

/-- By induction on the bytes, each written past the one before. -/
theorem operateAll_pokes (s : Machine) {address : Nat} {bytes : List Byte}
    (fits : address + bytes.length ≤ Memory.size) :
    s.operateAll (Operation.pokes address bytes) =
      ({ s with memory := s.memory.store (BitVec.ofNat 16 address) bytes },
        bytes.mapIdx fun i b => .wrote b (BitVec.ofNat 16 address + BitVec.ofNat 16 i)) := by
  induction bytes generalizing s address with
  | nil => rfl
  | cons b bytes ih =>
    rw [List.length_cons, Memory.size] at fits
    have place : address < 0x10000 := by omega
    rw [Operation.pokes, operateAll_cons, operate, s.poke_of_lt place]
    dsimp only
    have further (i : Nat) : BitVec.ofNat 16 address + 1#16 + BitVec.ofNat 16 i =
        BitVec.ofNat 16 address + BitVec.ofNat 16 (i + 1) := by
      rw [BitVec.add_assoc, ← BitVec.ofNat_add, Nat.add_comm]
    rw [ih _ (by rw [Memory.size]; omega), List.mapIdx_cons, BitVec.ofNat_add address 1]
    simp [further]

/-- A command does what its operations do, and records the same. -/
theorem operateAll_operations (s : Machine) (c : Command) :
    s.operateAll c.operations = ((c.execute s).machine, (c.execute s).records) := by
  cases c with
  | assert | marker | nothing | registersShow | reset => rfl
  | disassemble start count | memoryShow start count =>
    rw [Command.execute]
    split <;> rfl
  | goto address =>
    rw [Command.operations, operateAll_singleton, operate, Command.execute]
    cases s.goto address <;> rfl
  | load address program =>
    rw [Command.operations, operateAll_singleton, operate, Command.execute]
    cases s.load program address <;> rfl
  | memoryWrite address bytes =>
    rw [Command.operations, Command.execute, Command.executeWrite]
    split
    · rfl
    next fits => exact s.operateAll_pokes (Nat.not_lt.1 fits)
  | registersSet register value =>
    rw [Command.operations, operateAll_singleton, operate, Command.execute, Command.executeSet]
    by_cases fits : value < register.limit
    · rw [if_pos fits, if_pos fits]
      rfl
    · rw [if_neg fits, if_neg fits]
      rfl
  | run stop start maxSteps =>
    cases start with
    | none => exact s.operateAll_singleton _
    | some address =>
      rw [Command.operations, Command.execute]
      by_cases place : address < 0x10000
      · rw [if_pos place, s.goto_of_lt place, operateAll_cons, operateAll_singleton, operate,
          s.goto_of_lt place]
        rfl
      · rw [if_neg place, s.goto_of_le (Nat.not_lt.1 place)]
        rfl
  | step =>
    rw [Command.operations, operateAll_singleton, operate, Command.execute]
    cases s.advance <;> rfl

end Machine

inductive Request where
  | operation (op : Operation)
  | command (c : Command)

def Request.operations : Request → List Operation
  | operation op => [op]
  | command c => c.operations

namespace Machine

def serve (s : Machine) : Request → Machine × List Record
  | .operation op => s.operate op
  | .command c => ((c.execute s).machine, (c.execute s).records)

def serveAll (s : Machine) : List Request → Machine × List Record
  | [] => (s, [])
  | r :: requests =>
    let (t, records) := s.serve r
    let (u, later) := t.serveAll requests
    (u, records ++ later)

theorem serve_eq (s : Machine) (r : Request) : s.serve r = s.operateAll r.operations := by
  cases r with
  | operation op => exact (s.operateAll_singleton op).symm
  | command c => exact (s.operateAll_operations c).symm

/-- Requests in turn are their operations in turn. -/
theorem serveAll_eq (s : Machine) (requests : List Request) :
    s.serveAll requests = s.operateAll (requests.flatMap Request.operations) := by
  induction requests generalizing s with
  | nil => rfl
  | cons r requests ih =>
    rw [List.flatMap_cons, operateAll_append, ← serve_eq, ← ih]
    rfl

end Machine

end Emu8085
