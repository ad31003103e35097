import Emu8085.Machine.Control
import Emu8085.Proofs.ReadLocality
import Emu8085.Proofs.RunLength
import Emu8085.Proofs.WriteSet
import Emu8085.Script.Command

/-!
# A program that adds up a table

The program sums the bytes of a table, stores the sum and calls a subroutine that copies it to
another register. Its count is the byte at 0x0807, and zero means 256. Nothing is written before
the loop has ended, so the loop has one invariant (`Summed`), kept by a round of four steps
(`Summed.round`); the steps after it write three cells, none of which holds code.
-/
namespace Emu8085

namespace TableSum

def program (count : Byte) : List Byte :=
  [0x31, 0x00, 0x30, 0x21, 0x00, 0x20, 0x0E, count, 0xAF, 0x86, 0x23, 0x0D, 0xC2, 0x09, 0x08,
    0x32, 0x10, 0x20, 0xCD, 0x00, 0x09, 0x76]

def subroutine : List Byte := [0x47, 0xC9]

/-- A memory with the program and its subroutine, whatever else it holds. -/
def loaded (count : Byte) (m : Memory) : Memory :=
  (m.store 0x0800 (program count)).store 0x0900 subroutine

/-- The number of bytes that a count stands for. -/
def length (count : Byte) : Nat := if count = 0 then 256 else count.toNat

/-- The sum of the first bytes of the table. -/
def total (m : Memory) (n : Nat) : Nat := (m.cells 0x2000 n).foldl (· + ·.toNat) 0

/-- The cells that the program writes: the result and two on the stack. -/
def results : List Word := [0x2010, 0x2FFE, 0x2FFF]

def lines (count : Byte) : List (Word × Instruction) :=
  [(0x0800, .lxi .sp 0x3000), (0x0803, .lxi .hl 0x2000), (0x0806, .mvi .c count),
    (0x0808, .alu .xra .a), (0x0809, .alu .add .m), (0x080A, .inx .hl), (0x080B, .dcr .c),
    (0x080C, .jump (some .notZero) 0x0809), (0x080F, .sta 0x2010), (0x0812, .call none 0x0900),
    (0x0815, .hlt), (0x0900, .mov .b .a), (0x0901, .ret none)]

section

variable {count : Byte} {m : Memory}

theorem total_succ (m : Memory) (n : Nat) :
    total m (n + 1) = total m n + (m.read (BitVec.ofNat 16 (0x2000 + n))).toNat := by
  simp [total, Memory.cells, List.range_succ]

/-- What is left of the bytes of a program when only results are written. -/
def Keeps (count : Byte) (m now : Memory) : Prop :=
  ∀ a, a ∉ results → now.read a = (loaded count m).read a

/-- Results are written outside the code, so the code is there. -/
theorem read_program {now : Memory} (kept : Keeps count m now) {k : Nat} (h : k < 22) :
    now.read (0x0800 + BitVec.ofNat 16 k) = (program count).getD k 0 := by
  have code : (0x0800 + BitVec.ofNat 16 k : Word) ∉ results := by
    simp only [results, List.mem_cons, List.not_mem_nil, or_false]
    bv_omega
  have before : subroutine.length ≤ (0x0800 + BitVec.ofNat 16 k - 0x0900 : Word).toNat := by
    simp only [subroutine, List.length_cons, List.length_nil]
    bv_omega
  have inside : k < (program count).length := h
  rw [kept _ code, loaded, Memory.read_store_outside _ (by decide) before,
    Memory.read_store_inside _ _ (by simp [program, Memory.size]) inside,
    List.getD_eq_getElem?_getD, List.getElem?_eq_getElem inside, Option.getD_some]

theorem read_subroutine {now : Memory} (kept : Keeps count m now) {k : Nat} (h : k < 2) :
    now.read (0x0900 + BitVec.ofNat 16 k) = subroutine.getD k 0 := by
  have code : (0x0900 + BitVec.ofNat 16 k : Word) ∉ results := by
    simp only [results, List.mem_cons, List.not_mem_nil, or_false]
    bv_omega
  have inside : k < subroutine.length := h
  rw [kept _ code, loaded, Memory.read_store_inside _ _ (by decide) inside,
    List.getD_eq_getElem?_getD, List.getElem?_eq_getElem inside, Option.getD_some]

end

end TableSum

/-- Code that lies in memory from an address on is decoded from its own bytes. -/
theorem Memory.fetch_of_code {m : Memory} {address : Word} {code : List Byte}
    (held : ∀ k < code.length, m.read (address + BitVec.ofNat 16 k) = code.getD k 0)
    {k : Nat} {opcode : Byte} (first : code.getD k 0 = opcode)
    (inside : k + operandWidth opcode < code.length) :
    (m.fetch (address + BitVec.ofNat 16 k)).instruction =
      .decode opcode (code.getD (k + 1) 0) (code.getD (k + 2) 0) := by
  have there : m.read (address + BitVec.ofNat 16 k) = opcode := by
    rw [held k (by omega), first]
  have behind (j : Nat) (h : j ≤ operandWidth opcode) :
      m.read (address + BitVec.ofNat 16 k + BitVec.ofNat 16 j) = code.getD (k + j) 0 := by
    rw [BitVec.add_assoc, ← BitVec.ofNat_add]
    exact held (k + j) (by omega)
  rw [fetch, decodeAt, there, Instruction.decode_eq_fill]
  rw [Instruction.decode_eq_fill opcode (code.getD (k + 1) 0)]
  exact Instruction.fill_congr _ (fun h => behind 1 h) fun h => behind 2 h

namespace TableSum

variable {count : Byte} {m : Memory}

/-- The instruction of each line is there as long as only results are written. -/
theorem fetch_line {now : Memory} (kept : Keeps count m now) {address : Word} {i : Instruction}
    (line : (address, i) ∈ lines count) : (now.fetch address).instruction = i := by
  have main (k : Nat) (opcode : Byte) (first : (program count).getD k 0 = opcode)
      (inside : k + operandWidth opcode < 22) :=
    Memory.fetch_of_code (fun _ h => read_program kept h) first inside
  have sub (k : Nat) (opcode : Byte) (first : subroutine.getD k 0 = opcode)
      (inside : k + operandWidth opcode < 2) :=
    Memory.fetch_of_code (fun _ h => read_subroutine kept h) first inside
  simp only [lines, List.mem_cons, Prod.mk.injEq, List.not_mem_nil, or_false] at line
  rcases line with ⟨rfl, rfl⟩ | ⟨rfl, rfl⟩ | ⟨rfl, rfl⟩ | ⟨rfl, rfl⟩ | ⟨rfl, rfl⟩ | ⟨rfl, rfl⟩ |
    ⟨rfl, rfl⟩ | ⟨rfl, rfl⟩ | ⟨rfl, rfl⟩ | ⟨rfl, rfl⟩ | ⟨rfl, rfl⟩ | ⟨rfl, rfl⟩ | ⟨rfl, rfl⟩
  · have word : Word.ofBytes 0x30 0x00 = 0x3000 := by decide
    exact (main 0 0x31 rfl (by decide)).trans (congrArg (Instruction.lxi .sp) word)
  · have word : Word.ofBytes 0x20 0x00 = 0x2000 := by decide
    exact (main 3 0x21 rfl (by decide)).trans (congrArg (Instruction.lxi .hl) word)
  · exact main 6 0x0E rfl (by decide)
  · exact main 8 0xAF rfl (by decide)
  · exact main 9 0x86 rfl (by decide)
  · exact main 10 0x23 rfl (by decide)
  · exact main 11 0x0D rfl (by decide)
  · have word : Word.ofBytes 0x08 0x09 = 0x0809 := by decide
    exact (main 12 0xC2 rfl (by decide)).trans (congrArg (Instruction.jump _) word)
  · have word : Word.ofBytes 0x20 0x10 = 0x2010 := by decide
    exact (main 15 0x32 rfl (by decide)).trans (congrArg Instruction.sta word)
  · have word : Word.ofBytes 0x09 0x00 = 0x0900 := by decide
    exact (main 18 0xCD rfl (by decide)).trans (congrArg (Instruction.call _) word)
  · exact main 21 0x76 rfl (by decide)
  · exact sub 0 0x47 rfl (by decide)
  · exact sub 1 0xC9 rfl (by decide)

/-- From a state on, instructions of the program follow one another. -/
def Runs (count : Byte) (m : Memory) (s : Machine) : List Instruction → Prop
  | [] => True
  | i :: rest => Keeps count m s.memory ∧ (s.registers.pc, i) ∈ lines count ∧
      Runs count m (s.perform i) rest

/-- Instructions that follow one another are what the steps carry out. -/
theorem after_of_runs {s : Machine} {block : List Instruction} (h : Runs count m s block) :
    s.after block.length = s.performAll block := by
  induction block generalizing s with
  | nil => rfl
  | cons i block ih =>
    obtain ⟨kept, line, rest⟩ := h
    have fetched : s.fetched.instruction = i := fetch_line kept line
    have step : s.step.2 = s.perform i := by rw [Machine.step_eq_perform, fetched]
    rw [List.length_cons, ← Machine.after_step, step, ih rest, Machine.performAll_cons]

/-- Where the machine stands after some rounds of the loop: what is summed, what is left to count,
and whether the loop has ended. -/
structure Summed (count : Byte) (m : Memory) (n : Nat) (s : Machine) : Prop where
  memory : s.memory = loaded count m
  running : s.registers.halted = false
  sp : s.registers.sp = 0x3000
  a : s.registers.a = BitVec.ofNat 8 (total (loaded count m) n)
  c : s.registers.c = BitVec.ofNat 8 (length count - n)
  hl : s.registers.pair .hl = BitVec.ofNat 16 (0x2000 + n)
  pc : s.registers.pc = if n = length count then 0x080F else 0x0809
  zero : n = length count → s.registers.flags.zero = true

theorem length_pos (count : Byte) : 0 < length count := by
  rw [length]
  split
  · decide
  next positive => bv_omega

theorem length_le (count : Byte) : length count ≤ 256 := by
  rw [length]
  split <;> omega

def round : List Instruction := [.alu .add .m, .inx .hl, .dcr .c, .jump (some .notZero) 0x0809]

/-- The step lemma for a round of the loop: one byte more is summed, one less is left to count. -/
theorem Summed.round {n : Nat} {s : Machine} (h : Summed count m n s) (more : n < length count) :
    Summed count m (n + 1) (s.after 4) := by
  have pc : s.registers.pc = 0x0809 := by rw [h.pc, if_neg (by omega)]
  have kept : Keeps count m s.memory := fun _ _ => by rw [h.memory]
  have runs : Runs count m s TableSum.round := by
    simp [TableSum.round, Runs, lines, Machine.perform, Instruction.execute, Instruction.effect,
      Instruction.target, Instruction.width, Instruction.operand, Operand.length, Operand.bytes,
      Machine.setReg, Machine.accumulate, kept, pc]
  have state : s.after 4 = s.performAll TableSum.round := after_of_runs runs
  have left : s.registers.c - 1 = BitVec.ofNat 8 (length count - (n + 1)) := by
    rw [h.c]
    bv_omega
  have ends : (s.registers.c - 1 == 0) = decide (n + 1 = length count) := by
    have bound := length_le count
    rw [left, beq_eq_decide, decide_eq_decide]
    bv_omega
  rw [state]
  constructor
  · exact h.memory
  · exact h.running
  · exact h.sp
  · change BitVec.ofNat 8 (s.registers.a.toNat +
      (s.memory.read (s.registers.pair .hl)).toNat + 0) = _
    rw [h.a, h.hl, h.memory, total_succ]
    apply BitVec.eq_of_toNat_eq
    simp only [BitVec.toNat_ofNat]
    omega
  · exact left
  · change Word.ofBytes (s.registers.pair .hl + 1).high (s.registers.pair .hl + 1).low = _
    rw [Word.ofBytes_high_low, h.hl, ← Nat.add_assoc]
    exact (BitVec.ofNat_add ..).symm
  · change (if (!(s.registers.c - 1 == 0)) = true then 0x0809 else
      s.registers.pc + 1 + 0 + 1 + 0 + 1 + 0 + 1 + 2) = _
    rw [ends, pc]
    by_cases last : n + 1 = length count
    · simp [last]
    · simp [last]
  · intro last
    exact ends.trans (decide_eq_true last)

def opening (count : Byte) : List Instruction :=
  [.lxi .sp 0x3000, .lxi .hl 0x2000, .mvi .c count, .alu .xra .a]

/-- The instructions before the loop set its invariant up, with nothing summed. -/
theorem summed_opening {s : Machine} (memory : s.memory = loaded count m)
    (running : s.registers.halted = false) (pc : s.registers.pc = 0x0800) :
    Summed count m 0 (s.after 4) := by
  have kept : Keeps count m s.memory := fun _ _ => by rw [memory]
  have runs : Runs count m s (opening count) := by
    simp [opening, Runs, lines, Machine.perform, Instruction.execute, Instruction.effect,
      Instruction.target, Instruction.width, Instruction.operand, Operand.length, Operand.bytes,
      Machine.setReg, kept, pc]
  have state : s.after 4 = ⟨{ s.registers with
      a := 0
      c := count
      h := Word.high 0x2000
      l := Word.low 0x2000
      flags := (bitwise 0 s.registers.flags).2
      sp := 0x3000
      pc := 0x0809 }, s.memory⟩ := by
    rw [show s.after 4 = s.performAll (opening count) from after_of_runs runs]
    simp [opening, Machine.perform, Instruction.execute, Instruction.effect, Instruction.target,
      Instruction.width, Instruction.operand, Operand.length, Operand.bytes, Machine.setPair,
      Registers.setPair, Machine.setReg, Machine.accumulate, Machine.reg, Alu.apply, pc]
    rfl
  have positive := length_pos count
  rw [state]
  constructor
  · exact memory
  · exact running
  · rfl
  · rfl
  · change count = _
    rw [length]
    split
    next none => exact none
    next => simp
  · exact Word.ofBytes_high_low _
  · rw [if_neg (by omega)]
  · intro ended
    omega

/-- The run lemma, by induction on the rounds. -/
theorem summed_loop {s : Machine} (start : Summed count m 0 s) {n : Nat} (h : n ≤ length count) :
    Summed count m n (s.after (4 * n)) := by
  induction n with
  | zero => exact start
  | succ n ih =>
    rw [Nat.mul_succ, Machine.after_add]
    exact (ih (by omega)).round h

/-- What the program has done when it halts. -/
structure Finished (count : Byte) (m : Memory) (s : Machine) : Prop where
  halted : s.isHalted = true
  a : s.registers.a = BitVec.ofNat 8 (total (loaded count m) (length count))
  b : s.registers.b = s.registers.a
  stored : s.memory.read 0x2010 = s.registers.a
  c : s.registers.c = 0
  hl : s.registers.pair .hl = BitVec.ofNat 16 (0x2000 + length count)
  sp : s.registers.sp = 0x3000
  pc : s.registers.pc = 0x0816
  zero : s.registers.flags.zero = true
  kept : Keeps count m s.memory

/-- Writing a result leaves the code alone. -/
theorem Keeps.write {now : Memory} (kept : Keeps count m now) {a : Word} (h : a ∈ results)
    (v : Byte) : Keeps count m (now.write a v) := by
  intro b other
  have apart : b ≠ a := by
    rintro rfl
    exact other h
  rw [Memory.read_write_other _ _ apart]
  exact kept b other

def closing : List Instruction := [.sta 0x2010, .call none 0x0900, .mov .b .a, .ret none]

/-- The stack of the program with the address of the halt on it. -/
def withReturn (m : Memory) : Memory :=
  (m.write 0x2FFF (Word.high 0x0815)).write 0x2FFE (Word.low 0x0815)

theorem top_withReturn {r : Registers} (sp : r.sp = 0x2FFE) (m : Memory) :
    (Machine.mk r (withReturn m)).top = 0x0815 := by
  simp [Machine.top, Machine.wordAt, withReturn, Memory.read_write, sp]

/-- The state in which the program meets its halt. -/
theorem after_closing {s : Machine} (h : Summed count m (length count) s) :
    s.after 4 = ⟨{ s.registers with b := s.registers.a, pc := 0x0815 },
      withReturn (s.memory.write 0x2010 s.registers.a)⟩ := by
  have pc : s.registers.pc = 0x080F := by rw [h.pc, if_pos rfl]
  have kept : Keeps count m s.memory := fun _ _ => by rw [h.memory]
  have stored : Keeps count m (s.memory.write 0x2010 s.registers.a) := kept.write (by decide) _
  have called : Keeps count m (withReturn (s.memory.write 0x2010 s.registers.a)) :=
    (stored.write (by decide) _).write (by decide) _
  have store : s.perform (.sta 0x2010) =
      ⟨{ s.registers with pc := 0x0812 }, s.memory.write 0x2010 s.registers.a⟩ := by
    rw [Machine.perform_of_next (show _ = 0x0812 by rw [pc]; rfl)]
    rfl
  have call : Machine.perform ⟨{ s.registers with pc := 0x0812 },
        s.memory.write 0x2010 s.registers.a⟩ (.call none 0x0900) =
      ⟨{ s.registers with sp := 0x2FFE, pc := 0x0900 },
        withReturn (s.memory.write 0x2010 s.registers.a)⟩ := by
    rw [Machine.perform_of_next (show _ = 0x0815 by rfl)]
    simp [Instruction.execute, Instruction.effect, Instruction.target, Machine.takes, Machine.push,
      withReturn, h.sp]
  have copy : Machine.perform ⟨{ s.registers with sp := 0x2FFE, pc := 0x0900 },
        withReturn (s.memory.write 0x2010 s.registers.a)⟩ (.mov .b .a) =
      ⟨{ s.registers with b := s.registers.a, sp := 0x2FFE, pc := 0x0901 },
        withReturn (s.memory.write 0x2010 s.registers.a)⟩ := by
    rw [Machine.perform_of_next (show _ = 0x0901 by rfl)]
    rfl
  have back : Machine.perform ⟨{ s.registers with b := s.registers.a, sp := 0x2FFE, pc := 0x0901 },
        withReturn (s.memory.write 0x2010 s.registers.a)⟩ (.ret none) =
      ⟨{ s.registers with b := s.registers.a, pc := 0x0815 },
        withReturn (s.memory.write 0x2010 s.registers.a)⟩ := by
    simp [Machine.perform, Instruction.execute, Instruction.effect, Instruction.target,
      Machine.takes, Machine.drop, top_withReturn, h.sp]
  have runs : Runs count m s closing := by
    refine ⟨kept, by simp [lines, pc], ?_⟩
    rw [store]
    refine ⟨stored, by simp [lines], ?_⟩
    rw [call]
    refine ⟨called, by simp [lines], ?_⟩
    rw [copy]
    exact ⟨called, by simp [lines], trivial⟩
  rw [show s.after 4 = s.performAll closing from after_of_runs runs, closing,
    Machine.performAll_cons, store, Machine.performAll_cons, call, Machine.performAll_cons, copy,
    Machine.performAll_cons, back, Machine.performAll_nil]

/-- From the end of the loop the program goes to its halt, with the result stored. -/
theorem finished_closing {s : Machine} (h : Summed count m (length count) s) :
    (s.after 4).isHalted = false ∧ Finished count m (s.after 5) := by
  have kept : Keeps count m s.memory := fun _ _ => by rw [h.memory]
  have written : Keeps count m (withReturn (s.memory.write 0x2010 s.registers.a)) :=
    ((kept.write (by decide) _).write (by decide) _).write (by decide) _
  have halts : (s.after 4).fetched.instruction = .hlt := by
    rw [after_closing h]
    exact fetch_line written (by simp [lines])
  have final : s.after 5 =
      ⟨{ s.registers with b := s.registers.a, pc := 0x0816, halted := true },
        withReturn (s.memory.write 0x2010 s.registers.a)⟩ := by
    rw [Machine.after_succ, Machine.step_eq_perform, halts, after_closing h,
      Machine.perform_of_next (show _ = 0x0816 by rfl)]
    rfl
  constructor
  · rw [after_closing h]
    exact h.running
  · rw [final]
    constructor
    · rfl
    · exact h.a
    · rfl
    · dsimp only [withReturn]
      rw [Memory.read_write_other _ _ (by decide), Memory.read_write_other _ _ (by decide),
        Memory.read_write_same]
    · dsimp only
      rw [h.c, Nat.sub_self]
      rfl
    · exact h.hl
    · exact h.sp
    · rfl
    · exact h.zero rfl
    · exact written

/-- From its first address the program takes four steps for each byte of the table and nine more,
whatever the registers, the table and the rest of memory hold, and has then finished; with a smaller
budget it does not halt. A script that runs it is told the same. -/
theorem table_sum_finishes (count : Byte) (m : Memory) (r : Registers) (budget : Nat) :
    let s : Machine := ⟨r, loaded count m⟩
    let steps := 4 * length count + 9
    ∃ report t, s.runFrom 0x0800 budget = .ok (report, t) ∧
      ((Script.Command.run none (some 0x0800) budget).execute s).machine = t ∧
      ((Script.Command.run none (some 0x0800) budget).execute s).result =
        .ok (.run (report.entries.map Entry.text) report.status) ∧
      if steps ≤ budget then
        report.status = .halted ∧ report.steps = steps ∧ Finished count m t
      else report.status = .outOfSteps ∧ report.steps = budget := by
  intro s steps
  let start := s.resumeAt 0x0800
  refine ⟨(start.run budget).1, (start.run budget).2, rfl, rfl, rfl, ?_⟩
  have memory : start.memory = loaded count m := by simp [start, Machine.resumeAt, s]
  have first : Summed count m 0 (start.after 4) := by
    apply summed_opening memory
    · simp [start, Machine.resumeAt]
    · simp [start, Machine.resumeAt]
  have last : Summed count m (length count) (start.after (4 + 4 * length count)) := by
    rw [Machine.after_add]
    exact summed_loop first (Nat.le_refl _)
  obtain ⟨running, finished⟩ := finished_closing last
  rw [← Machine.after_add] at running finished
  have before : ∀ k < steps, (start.after k).isHalted = false := by
    intro k hk
    by_contra halted
    have within : k ≤ 4 + 4 * length count + 4 := by omega
    have later := Machine.isHalted_after_of_le within (by simpa using halted)
    rw [running] at later
    cases later
  have total : 4 + 4 * length count + 5 = steps := by omega
  rw [total] at finished
  split
  next enough =>
    rw [Machine.run_eq_of_running enough before (.inl finished.halted)]
    refine ⟨if_pos finished.halted, ?_, finished⟩
    exact Machine.length_history ..
  next short =>
    rw [Machine.run_eq_of_running (Nat.le_refl _) (fun k hk => before k (by omega)) (.inr rfl)]
    have on := before budget (by omega)
    refine ⟨if_neg (by simp [on]), ?_⟩
    exact Machine.length_history ..

end TableSum

end Emu8085
