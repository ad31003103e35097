import Emu8085.Memory.Range
import Emu8085.Proofs.Frame
import Emu8085.Proofs.Trace
import Mathlib.Data.Set.Basic

/-!
# What a step depends on

The footprint of a state: the bytes of its instruction and the data cells that the instruction
reads. Two machines with the same registers whose memories agree on the footprint take the same
step, and then agree besides on all that it wrote (`AgreeOn.step`). So memories that differ only
where a run does not look, or has written before it looks, run alike.
-/
namespace Emu8085

/-- A write makes a cell alike in both memories and leaves the others as alike as they were. -/
theorem Memory.read_write_congr {m m' : Memory} {a c : Word} (v : Byte)
    (h : a ≠ c → m'.read a = m.read a) : (m'.write c v).read a = (m.write c v).read a := by
  by_cases hit : a = c
  · rw [hit, read_write_same, read_write_same]
  · rw [read_write_other _ _ hit, read_write_other _ _ hit, h hit]

theorem Memory.read_write_two_congr {m m' : Memory} {a c d : Word} (v w : Byte)
    (h : a ∉ [c, d] → m'.read a = m.read a) :
    ((m'.write c v).write d w).read a = ((m.write c v).write d w).read a :=
  read_write_congr w fun second => read_write_congr v fun first => h (by simp [first, second])

/-- The cell that a byte operand is, unless it is a register. -/
def Registers.cellOf (r : Registers) (q : Reg) : List Word := if q = .m then [r.pair .hl] else []

namespace Instruction

/-- Bytes behind the operand do not matter. -/
theorem fill_congr (i : Instruction) {a a' b b' : Byte} (first : 1 ≤ i.width → a = a')
    (second : 2 ≤ i.width → b = b') : i.fill a b = i.fill a' b' := by
  cases i <;> simp_all [fill, width, operand, Operand.length, Operand.bytes]

/-- The data cells that an instruction reads. -/
def loads (i : Instruction) (s : Machine) : List Word :=
  let r := s.registers
  match i with
  | mov _ src | alu _ src => r.cellOf src
  | inr dst | dcr dst => r.cellOf dst
  | lda address => [address]
  | lhld address => [address, address + 1]
  | ldax pointer => [r.pair pointer]
  | pop _ => [r.sp, r.sp + 1]
  | ret condition => if s.takes condition then [r.sp, r.sp + 1] else []
  | _ => []

end Instruction

def Memory.codeCells (m : Memory) (address : Word) : List Word :=
  (List.range (1 + operandWidth (m.read address))).map fun k => address + BitVec.ofNat 16 k

theorem Memory.mem_codeCells (m : Memory) (address : Word) {k : Nat}
    (h : k ≤ operandWidth (m.read address)) :
    address + BitVec.ofNat 16 k ∈ m.codeCells address :=
  List.mem_map_of_mem (List.mem_range.2 (by omega))

/-- An instruction is known by its own cells. -/
theorem Memory.fetch_congr {m m' : Memory} {address : Word}
    (same : ∀ a ∈ m.codeCells address, m'.read a = m.read a) :
    m'.fetch address = m.fetch address := by
  have opcode : m'.read address = m.read address := by
    simpa using same _ (m.mem_codeCells address (Nat.zero_le _))
  have operand : Instruction.decode (m.read address) (m'.read (address + 1))
        (m'.read (address + 2)) =
      Instruction.decode (m.read address) (m.read (address + 1)) (m.read (address + 2)) := by
    rw [Instruction.decode_eq_fill, Instruction.decode_eq_fill (m.read address) (m.read _)]
    exact Instruction.fill_congr _ (fun h => same _ (m.mem_codeCells address h))
      fun h => same _ (m.mem_codeCells address h)
  rw [fetch, fetch, decodeAt, decodeAt, opcode, operand]

namespace Machine

variable {s : Machine} {m : Memory}

theorem reg_congr {q : Reg} (seen : ∀ a ∈ s.registers.cellOf q, m.read a = s.memory.read a) :
    ({ s with memory := m } : Machine).reg q = s.reg q := by
  cases q with
  | m => exact seen _ (List.mem_singleton_self _)
  | _ => rfl

theorem wordAt_congr {a : Word} (seen : ∀ b ∈ [a, a + 1], m.read b = s.memory.read b) :
    ({ s with memory := m } : Machine).wordAt a = s.wordAt a := by
  have low := seen a (List.mem_cons_self ..)
  have high := seen (a + 1) (List.mem_cons_of_mem _ (List.mem_singleton_self _))
  rw [wordAt, wordAt, low, high]

theorem registers_setReg_congr (q : Reg) (v : Byte) :
    (({ s with memory := m } : Machine).setReg q v).registers = (s.setReg q v).registers := by
  cases q <;> rfl

theorem read_setReg_congr {a : Word} {q : Reg} (v : Byte)
    (kept : a ∉ s.registers.cellOf q → m.read a = s.memory.read a) :
    (({ s with memory := m } : Machine).setReg q v).memory.read a =
      (s.setReg q v).memory.read a := by
  cases q with
  | m => exact Memory.read_write_congr v fun other => kept (by simpa [Registers.cellOf] using other)
  | _ => exact kept List.not_mem_nil

theorem takes_congr (condition : Option Condition) :
    ({ s with memory := m } : Machine).takes condition = s.takes condition := by
  cases condition <;> rfl

end Machine

namespace Instruction

variable {i : Instruction} {s : Machine} {m : Memory}

/-- By cases on the instruction: what it does to the registers depends on the data cells that it
reads. -/
theorem registers_effect_congr (next : Word) (seen : ∀ a ∈ i.loads s, m.read a = s.memory.read a) :
    (i.effect next { s with memory := m }).registers = (i.effect next s).registers := by
  cases i with
  | mov dst src =>
    rw [effect, effect, Machine.reg_congr seen, Machine.registers_setReg_congr]
  | mvi dst data => exact Machine.registers_setReg_congr dst data
  | inr dst | dcr dst =>
    simp only [effect, Machine.reg_congr seen, Machine.registers_setReg_congr]
  | alu op src =>
    rw [effect, effect, Machine.reg_congr seen]
    rfl
  | lda address | ldax pointer =>
    have same := seen _ (List.mem_singleton_self _)
    simp only [effect, same, Machine.registers_setReg_congr]
  | lhld address =>
    rw [effect, effect, Machine.wordAt_congr seen]
    rfl
  | pop dst =>
    have top : ({ s with memory := m } : Machine).top = s.top := Machine.wordAt_congr seen
    rw [effect, effect, top]
    rfl
  | call condition target | ret condition =>
    rw [effect, effect, Machine.takes_congr]
    split <;> rfl
  | _ => rfl

/-- A return finds its target on the stack; other branches have it in the instruction. -/
theorem target_congr (next : Word) (seen : ∀ a ∈ i.loads s, m.read a = s.memory.read a) :
    i.target next { s with memory := m } = i.target next s := by
  cases i with
  | jump condition address | call condition address =>
    rw [target, target, Machine.takes_congr]
  | ret condition =>
    rw [target, target, Machine.takes_congr]
    by_cases taken : s.takes condition = true
    · rw [loads, if_pos taken] at seen
      rw [if_pos taken, if_pos taken]
      exact Machine.wordAt_congr seen
    · rw [if_neg taken, if_neg taken]
  | _ => rfl

/-- The cells of a store, where nothing is pushed, are all that is written. -/
theorem written_eq_stores (i : Instruction) (s : Machine) (h : i.stackChange s = 0) :
    i.written s = i.stores s.registers := by
  rw [written, if_neg (by omega), List.append_nil]

/-- What an instruction writes depends on what it reads, so only cells that it does not write stay
as they were. -/
theorem read_effect_congr (next : Word) {a : Word}
    (seen : ∀ b ∈ i.loads s, m.read b = s.memory.read b)
    (kept : a ∉ i.written s → m.read a = s.memory.read a) :
    (i.effect next { s with memory := m }).memory.read a =
      (i.effect next s).memory.read a := by
  cases i with
  | mov dst src =>
    rw [written_eq_stores _ _ rfl] at kept
    rw [effect, effect, Machine.reg_congr seen]
    exact Machine.read_setReg_congr _ kept
  | mvi dst data =>
    rw [written_eq_stores _ _ rfl] at kept
    exact Machine.read_setReg_congr _ kept
  | inr dst | dcr dst =>
    rw [written_eq_stores _ _ rfl] at kept
    simp only [effect, Machine.reg_congr seen]
    exact Machine.read_setReg_congr _ kept
  | sta address | stax pointer =>
    exact Memory.read_write_congr _ fun other => kept (mt List.mem_singleton.1 other)
  | shld address => exact Memory.read_write_two_congr _ _ kept
  | push src | rst vector => exact Memory.read_write_two_congr _ _ kept
  | call condition target =>
    rw [effect, effect, Machine.takes_congr]
    by_cases taken : s.takes condition = true
    · rw [written, stackChange, if_pos taken] at kept
      rw [if_pos taken, if_pos taken]
      exact Memory.read_write_two_congr _ _ kept
    · rw [written, stackChange, if_neg taken] at kept
      rw [if_neg taken, if_neg taken]
      exact kept List.not_mem_nil
  | ret condition =>
    have quiet : (ret condition).written s = [] := by
      cases taken : s.takes condition <;> simp [written, stores, stackChange, taken]
    rw [effect, effect, Machine.takes_congr]
    split <;> exact kept (by simp [quiet])
  | _ => exact kept List.not_mem_nil

end Instruction

namespace Machine

def footprint (s : Machine) : List Word :=
  s.memory.codeCells s.registers.pc ++ s.fetched.instruction.loads s

def writtenBefore (s : Machine) (n : Nat) : Set Word :=
  {a | ∃ k < n, a ∈ (s.after k).fetched.instruction.written (s.after k)}

/-- Two machines differ at most in other cells of memory than those named. -/
structure AgreeOn (cells : Set Word) (s t : Machine) : Prop where
  registers : t.registers = s.registers
  memory : ∀ a ∈ cells, t.memory.read a = s.memory.read a

theorem AgreeOn.eq_withMemory {cells : Set Word} {s t : Machine} (h : AgreeOn cells s t) :
    t = { s with memory := t.memory } := by
  rw [← h.registers]

/-- The step lemma: what is read is alike, so all that is written is alike too. -/
theorem AgreeOn.step {cells : Set Word} {s t : Machine} (h : AgreeOn cells s t)
    (inside : ∀ a ∈ s.footprint, a ∈ cells) :
    t.step.1 = s.step.1 ∧
      AgreeOn (cells ∪ {a | a ∈ s.fetched.instruction.written s}) s.step.2 t.step.2 := by
  have code : ∀ a ∈ s.memory.codeCells s.registers.pc, t.memory.read a = s.memory.read a :=
    fun a ha => h.memory a (inside a (List.mem_append_left _ ha))
  have seen : ∀ a ∈ s.fetched.instruction.loads s, t.memory.read a = s.memory.read a :=
    fun a ha => h.memory a (inside a (List.mem_append_right _ ha))
  rw [h.eq_withMemory]
  have fetched : ({ s with memory := t.memory } : Machine).fetched = s.fetched :=
    Memory.fetch_congr code
  have registers : ({ s with memory := t.memory } : Machine).step.2.registers =
      s.step.2.registers := by
    rw [Machine.step, Located.execute, fetched]
    simp only [Instruction.execute, Instruction.registers_effect_congr _ seen,
      Instruction.target_congr _ seen]
    rfl
  refine ⟨?_, registers, ?_⟩
  · rw [step_entry, step_entry, fetched, registers]
  · intro a ha
    rw [Machine.step, Located.execute, fetched]
    refine Instruction.read_effect_congr _ seen fun outside => ?_
    exact h.memory a (ha.resolve_right outside)

/-- A further step adds the cells that its own instruction writes. -/
theorem writtenBefore_succ (s : Machine) (n : Nat) :
    s.writtenBefore (n + 1) =
      s.writtenBefore n ∪ {a | a ∈ (s.after n).fetched.instruction.written (s.after n)} := by
  ext a
  constructor
  · rintro ⟨k, hk, ha⟩
    rcases Nat.lt_succ_iff_lt_or_eq.1 hk with before | rfl
    · exact .inl ⟨k, before, ha⟩
    · exact .inr ha
  · rintro (⟨k, hk, ha⟩ | ha)
    · exact ⟨k, Nat.lt_succ_of_lt hk, ha⟩
    · exact ⟨n, n.lt_succ_self, ha⟩

/-- The run lemma, by induction on the steps: the cells that agree grow by those written. -/
theorem AgreeOn.after {cells : Set Word} {s t : Machine} (h : AgreeOn cells s t) (n : Nat)
    (inside : ∀ k < n, ∀ a ∈ (s.after k).footprint, a ∈ cells ∪ s.writtenBefore k) :
    t.history n = s.history n ∧
      AgreeOn (cells ∪ s.writtenBefore n) (s.after n) (t.after n) := by
  induction n with
  | zero =>
    refine ⟨rfl, h.registers, ?_⟩
    rintro a (ha | ⟨k, hk, -⟩)
    · exact h.memory a ha
    · exact absurd hk k.not_lt_zero
  | succ n ih =>
    obtain ⟨same, agree⟩ := ih fun k hk => inside k (Nat.lt_succ_of_lt hk)
    obtain ⟨entry, further⟩ := agree.step (inside n n.lt_succ_self)
    rw [history_succ, history_succ, same, entry, writtenBefore_succ, ← Set.union_assoc]
    exact ⟨rfl, further⟩

/-- Memories that differ only in cells which a run does not read before it has written them run
alike: the same entries and the same registers, and memories that still differ, if at all, in such
of those cells as the run did not write. -/
theorem unread_cells_do_not_matter (s t : Machine) (differing : Set Word) (n : Nat)
    (registers : t.registers = s.registers)
    (memory : ∀ a, t.memory.read a ≠ s.memory.read a → a ∈ differing)
    (unread : ∀ k < n, ∀ a ∈ (s.after k).footprint, a ∈ differing → a ∈ s.writtenBefore k) :
    t.history n = s.history n ∧ (t.after n).registers = (s.after n).registers ∧
      ∀ a, (t.after n).memory.read a ≠ (s.after n).memory.read a →
        a ∈ differing ∧ a ∉ s.writtenBefore n := by
  have start : AgreeOn {a | a ∉ differing} s t :=
    ⟨registers, fun a ha => by_contra fun differs => ha (memory a differs)⟩
  have inside : ∀ k < n, ∀ a ∈ (s.after k).footprint,
      a ∈ {a | a ∉ differing} ∪ s.writtenBefore k := by
    intro k hk a ha
    by_cases hd : a ∈ differing
    · exact .inr (unread k hk a ha hd)
    · exact .inl hd
  obtain ⟨same, agree⟩ := start.after n inside
  refine ⟨same, agree.registers, fun a differs => ⟨?_, ?_⟩⟩
  · by_contra hd
    exact differs (agree.memory a (.inl hd))
  · intro hw
    exact differs (agree.memory a (.inr hw))

/-- Writes its third instruction and a byte, carries the instruction out and reads the byte. -/
def selfWriting : Machine where
  registers := { Registers.initial 0x0100 with a := 0x3C }
  memory := Memory.zero.store 0x0100
    [0x32, 0x06, 0x01, 0x32, 0x00, 0x20, 0x00, 0x3A, 0x00, 0x20]

/-- The two cells that it writes and one that it has nothing to do with. -/
def clutteredCells : List Word := [0x0106, 0x2000, 0x3000]

/-- The same with other bytes in those cells. -/
def selfWritingCluttered : Machine where
  registers := selfWriting.registers
  memory := clutteredCells.foldl (fun m a => m.write a 0x76) selfWriting.memory

theorem unread_cells_selfWriting :
    selfWritingCluttered.history 4 = selfWriting.history 4 ∧
      (selfWritingCluttered.after 4).registers = (selfWriting.after 4).registers ∧
      ∀ a, (selfWritingCluttered.after 4).memory.read a ≠ (selfWriting.after 4).memory.read a →
        a = 0x3000 := by
  have memory : ∀ a, selfWritingCluttered.memory.read a ≠ selfWriting.memory.read a →
      a ∈ clutteredCells := by
    intro a differs
    by_contra outside
    simp only [clutteredCells, List.mem_cons, List.not_mem_nil, or_false, not_or] at outside
    apply differs
    simp only [selfWritingCluttered, clutteredCells, List.foldl_cons, List.foldl_nil]
    rw [Memory.read_write_other _ _ outside.2.2, Memory.read_write_other _ _ outside.2.1,
      Memory.read_write_other _ _ outside.1]
  have unread : ∀ k < 4, ((selfWriting.after k).footprint.all fun a =>
      decide (a ∈ clutteredCells →
        ∃ j < k, a ∈ (selfWriting.after j).fetched.instruction.written (selfWriting.after j))) := by
    decide +kernel
  obtain ⟨same, registers, left⟩ := unread_cells_do_not_matter selfWriting selfWritingCluttered
    {a | a ∈ clutteredCells} 4 rfl memory fun k hk a ha cluttered =>
      of_decide_eq_true (List.all_eq_true.1 (unread k hk) a ha) cluttered
  refine ⟨same, registers, fun a differs => ?_⟩
  obtain ⟨cluttered, kept⟩ := left a differs
  have first : 0x0106 ∈ selfWriting.writtenBefore 4 := ⟨0, by decide, by decide +kernel⟩
  have second : 0x2000 ∈ selfWriting.writtenBefore 4 := ⟨1, by decide, by decide +kernel⟩
  rcases List.mem_cons.1 cluttered with rfl | rest
  · exact absurd first kept
  rcases List.mem_cons.1 rest with rfl | rest
  · exact absurd second kept
  · exact List.mem_singleton.1 rest

end Machine

end Emu8085
