import Emu8085.Proofs.StraightLine
import Mathlib.Data.List.Basic

/-!
# Listings tile memory

A listing goes on from the end of each instruction, so its instructions lie one behind the other
and show every byte of memory from the first one on. Its addresses grow, and it ends where memory
does, so no count is needed to say where it is after some instructions (`place`); a count only
cuts the listing off.
-/
namespace Emu8085

namespace Memory

variable {m : Memory} {start a b : Word} {n : Nat}

/-- The instruction behind starts where the bytes of this one end, within memory. -/
theorem successor?_eq_some_iff : (m.fetch a).successor? = some b ↔
    b.toNat = a.toNat + 1 + operandWidth (m.read a) := by
  rw [Located.successor?, width_fetch, address?_eq_some_iff]
  rfl

/-- Nothing is behind an instruction that reaches the end of memory. -/
theorem successor?_eq_none_iff : (m.fetch a).successor? = none ↔
    size ≤ a.toNat + 1 + operandWidth (m.read a) := by
  rw [Located.successor?, width_fetch, address?_eq_none_iff]
  rfl

/-- Where a walk through memory is after so many instructions, unless it has ended. -/
def place (m : Memory) (start : Word) : Nat → Option Word
  | 0 => some start
  | n + 1 => (m.place start n).bind fun a => (m.fetch a).successor?

/-- A walk may be taken up where it has come to. -/
theorem place_add (m : Memory) (start : Word) (n k : Nat) :
    m.place start (n + k) = (m.place start n).bind fun a => m.place a k := by
  induction k with
  | zero => simp [place]
  | succ k ih => rw [← Nat.add_assoc, place, ih, Option.bind_assoc]; rfl

theorem place_succ (m : Memory) (start : Word) (n : Nat) :
    m.place start (n + 1) = (m.fetch start).successor?.bind fun a => m.place a n := by
  rw [Nat.add_comm, place_add]
  rfl

/-- Every instruction has a byte at least, so the walk comes as far as it has instructions. -/
theorem le_of_place (h : m.place start n = some a) : start.toNat + n ≤ a.toNat := by
  induction n generalizing a with
  | zero =>
    cases h
    exact Nat.le_refl _
  | succ n ih =>
    obtain ⟨b, before, next⟩ := Option.bind_eq_some_iff.1 h
    have := ih before
    rw [successor?_eq_some_iff] at next
    omega

/-- Memory has an end, and so has the walk; a listing of as many instructions as there are cells
shows all of it. -/
theorem place_eq_none (h : size ≤ n) : m.place start n = none := by
  cases found : m.place start n with
  | none => rfl
  | some a =>
    have bound := le_of_place found
    have := a.isLt
    rw [size] at h
    omega

theorem getElem?_disassemble (m : Memory) (count : Nat) (start : Word) (n : Nat) :
    (m.disassemble count start)[n]? =
      if n < count then (m.place start n).map m.fetch else none := by
  induction count generalizing start n with
  | zero => simp
  | succ count ih =>
    rw [disassemble_succ]
    cases n with
    | zero => simp [place]
    | succ n =>
      rw [List.getElem?_cons_succ, place_succ]
      cases (m.fetch start).successor? with
      | none => simp
      | some next => simp [ih]

/-- The instructions of a walk are fetched at its places. -/
theorem getElem?_walk (m : Memory) (start : Word) (n : Nat) :
    (m.walk start)[n]? = (m.place start n).map m.fetch := by
  rw [walk, getElem?_disassemble]
  split
  · rfl
  · next large => rw [place_eq_none (Nat.not_lt.1 large), Option.map_none]

/-- What a walk shows is fetched at a place that it comes to. -/
theorem exists_place {i : Located} (h : (m.walk start)[n]? = some i) :
    ∃ a, m.place start n = some a ∧ m.fetch a = i := by
  rw [getElem?_walk] at h
  exact Option.map_eq_some_iff.1 h

/-- A walk only goes on, never back. -/
theorem pairwise_walk (m : Memory) (start : Word) :
    (m.walk start).Pairwise fun i j => i.address < j.address := by
  rw [List.pairwise_iff_getElem]
  intro n k short long less
  obtain ⟨a, first, here⟩ := exists_place (List.getElem?_eq_getElem short)
  obtain ⟨b, last, there⟩ := exists_place (List.getElem?_eq_getElem long)
  rw [← Nat.add_sub_of_le less.le, place_add, first, Option.bind_some] at last
  have grown := le_of_place last
  rw [← here, ← there]
  show a.toNat < b.toNat
  omega

theorem walk_succ (h : m.place start n = some a) :
    (m.walk start)[n + 1]? = (m.fetch a).successor?.map m.fetch := by
  rw [getElem?_walk, place, h, Option.bind_some]

theorem length_walk_iff (h : m.place start n = some a) : (m.walk start).length = n + 1 ↔
    size ≤ a.toNat + 1 + operandWidth (m.read a) := by
  have shown : (m.walk start)[n]? = some (m.fetch a) := by
    rw [getElem?_walk, h, Option.map_some]
  have inside : n < (m.walk start).length := (List.getElem?_eq_some_iff.1 shown).1
  rw [← successor?_eq_none_iff, ← Option.map_eq_none_iff, ← walk_succ h, List.getElem?_eq_none_iff]
  omega

/-- A listing of some length is the front of the walk. -/
theorem disassemble_eq_take (m : Memory) (count : Nat) (start : Word) :
    m.disassemble count start = (m.walk start).take count := by
  refine List.ext_getElem? fun n => ?_
  rw [getElem?_disassemble, List.getElem?_take, getElem?_walk]

theorem disassemble_add (m : Memory) (n k : Nat) (start : Word) :
    m.disassemble (n + k) start = m.disassemble n start ++
      ((m.place start n).map fun a => m.disassemble k a).getD [] := by
  induction n generalizing start with
  | zero => simp [place]
  | succ n ih =>
    rw [Nat.add_right_comm, disassemble_succ, disassemble_succ, place_succ]
    cases (m.fetch start).successor? with
    | none => simp
    | some next => simp [ih]

theorem walk_eq (m : Memory) (start : Word) : m.walk start =
    m.fetch start :: (match (m.fetch start).successor? with
      | none => []
      | some next => m.walk next) := by
  refine List.ext_getElem? fun n => ?_
  rw [getElem?_walk]
  cases n with
  | zero => rfl
  | succ n =>
    rw [place_succ, List.getElem?_cons_succ]
    cases (m.fetch start).successor? with
    | none => rfl
    | some next => exact (m.getElem?_walk next n).symm

/-- So many cells in a row, where the first cell follows the last one of memory. -/
def row (first length : Nat) : List Word := (List.range' first length).map (BitVec.ofNat 16)

theorem row_add (first length more : Nat) :
    row first (length + more) = row first length ++ row (first + length) more := by
  rw [row, row, row, ← List.map_append, List.range'_append_1]

/-- Past the last cell a row goes on with the first one. -/
theorem row_size (length : Nat) : row size length = row 0 length := by
  rw [row, row, List.range'_eq_map_range, List.range'_eq_map_range, List.map_map, List.map_map]
  refine List.map_congr_left fun k _ => ?_
  simp [size, BitVec.ofNat_add]

/-- Inside memory no cell comes twice. -/
theorem count_row {first length : Nat} (inside : first + length ≤ size) (a : Word) :
    (row first length).count a =
      if first ≤ a.toNat ∧ a.toNat < first + length then 1 else 0 := by
  induction length generalizing first with
  | zero =>
    rw [if_neg (by omega)]
    rfl
  | succ length ih =>
    have cons : row first (length + 1) = BitVec.ofNat 16 first :: row (first + 1) length := rfl
    have same : BitVec.ofNat 16 first = a ↔ a.toNat = first := by
      rw [size] at inside
      rw [← BitVec.toNat_inj, BitVec.toNat_ofNat]
      omega
    rw [cons, List.count_cons, ih (by omega)]
    simp only [beq_iff_eq, same]
    split <;> split <;> split <;> omega

theorem map_read_row (m : Memory) (first length : Nat) :
    (row first length).map m.read = m.cells first length := by
  rw [row, cells, List.range'_eq_map_range, List.map_map, List.map_map]
  rfl

/-- An instruction takes its opcode and its operand in a row. -/
theorem cells_fetch_eq_row (m : Memory) (a : Word) :
    (m.fetch a).cells = row a.toNat (1 + operandWidth (m.read a)) := by
  rw [Located.cells, width_fetch, row, List.range'_eq_map_range, List.map_map]
  refine List.map_congr_left fun k _ => ?_
  simp [fetch, decodeAt, BitVec.ofNat_add]

theorem bytes_fetch (m : Memory) (a : Word) :
    (m.fetch a).bytes = (m.fetch a).cells.map m.read := by
  rw [Located.bytes, operandBytes_fetch, Located.cells, width_fetch, Nat.add_comm,
    List.range_succ_eq_map, List.map_cons, List.map_cons, List.map_map, List.map_map]
  refine congrArg₂ List.cons ?_ (List.map_congr_left fun k _ => ?_)
  · simp [fetch, decodeAt]
  · rw [Function.comp_apply, Function.comp_apply, Nat.succ_eq_one_add, BitVec.ofNat_add,
      ← BitVec.add_assoc]
    rfl

/-- What a walk shows is what its cells hold. -/
theorem bytes_walk (m : Memory) (start : Word) :
    (m.walk start).flatMap Located.bytes =
      ((m.walk start).flatMap Located.cells).map m.read := by
  rw [List.map_flatMap]
  refine List.flatMap_congr fun i listed => ?_
  obtain ⟨n, shown⟩ := List.mem_iff_getElem?.1 listed
  obtain ⟨a, -, rfl⟩ := exists_place shown
  exact m.bytes_fetch a

/-- The cells of a walk are those from its start on. By induction on what is left of memory. -/
theorem exists_cells_walk (m : Memory) (start : Word) : ∃ wrapped ≤ 2,
    (m.walk start).flatMap Located.cells = row start.toNat (size - start.toNat + wrapped) := by
  induction left : size - start.toNat using Nat.strongRecOn generalizing start with
  | _ left ih =>
    subst left
    have inside : start.toNat < size := start.isLt
    have width : operandWidth (m.read start) ≤ 2 := Operand.length_le_two _
    rw [walk_eq, List.flatMap_cons, cells_fetch_eq_row]
    cases found : (m.fetch start).successor? with
    | none =>
      rw [successor?_eq_none_iff] at found
      refine ⟨start.toNat + 1 + operandWidth (m.read start) - size, by omega, ?_⟩
      have all : size - start.toNat + (start.toNat + 1 + operandWidth (m.read start) - size) =
          1 + operandWidth (m.read start) := by omega
      rw [List.flatMap_nil, List.append_nil, all]
    | some next =>
      rw [successor?_eq_some_iff] at found
      have : next.toNat < size := next.isLt
      obtain ⟨wrapped, few, rest⟩ := ih (size - next.toNat) (by omega) next rfl
      have here : start.toNat + (1 + operandWidth (m.read start)) = next.toNat := by omega
      have all : size - start.toNat + wrapped =
          1 + operandWidth (m.read start) + (size - next.toNat + wrapped) := by omega
      refine ⟨wrapped, few, ?_⟩
      calc row start.toNat (1 + operandWidth (m.read start)) ++ (m.walk next).flatMap Located.cells
        _ = row start.toNat (1 + operandWidth (m.read start)) ++
              row (start.toNat + (1 + operandWidth (m.read start)))
                (size - next.toNat + wrapped) := by rw [rest, here]
        _ = row start.toNat (size - start.toNat + wrapped) := by rw [← row_add, all]

/-- A listing to the end of memory starts where it is told to and goes from each instruction to the
cell behind it, and its last instruction is the one that reaches the end. So it shows each byte
from its start on once and in order, and then the one or two bytes from address zero on that an
operand across the end takes. A listing of some length is the front of it, and can be taken up
where it left off. -/
theorem walk_tiles_memory (m : Memory) (start : Word) :
    let w := m.walk start
    let behind (i : Located) := i.address.toNat + 1 + operandWidth (m.read i.address)
    (∀ n, w[n]? = (m.place start n).map m.fetch) ∧
      w.head? = some (m.fetch start) ∧
      w.Pairwise (fun i j => i.address < j.address) ∧
      (∀ n i, w[n]? = some i →
        (∀ j, w[n + 1]? = some j → j.address.toNat = behind i) ∧
          (w.length = n + 1 ↔ size ≤ behind i)) ∧
      (∃ wrapped ≤ 2,
        w.flatMap Located.bytes = m.cells start.toNat (size - start.toNat) ++ m.cells 0 wrapped ∧
        w.flatMap Located.cells = row start.toNat (size - start.toNat) ++ row 0 wrapped ∧
        ∀ a, (w.flatMap Located.cells).count a =
          (if start ≤ a then 1 else 0) + if a.toNat < wrapped then 1 else 0) ∧
      (∀ count, m.disassemble count start = w.take count) ∧
      ∀ n k, m.disassemble (n + k) start =
        m.disassemble n start ++ (match w[n]? with
          | none => []
          | some i => m.disassemble k i.address) := by
  intro w behind
  refine ⟨m.getElem?_walk start, ?_, m.pairwise_walk start, ?_, ?_,
    fun count => m.disassemble_eq_take count start, ?_⟩
  · rw [List.head?_eq_getElem?]
    exact m.getElem?_walk start 0
  · intro n i shown
    obtain ⟨a, here, rfl⟩ := exists_place shown
    refine ⟨fun j follows => ?_, length_walk_iff here⟩
    rw [walk_succ here] at follows
    obtain ⟨b, next, rfl⟩ := Option.map_eq_some_iff.1 follows
    exact successor?_eq_some_iff.1 next
  · obtain ⟨wrapped, few, cells⟩ := m.exists_cells_walk start
    have whole : start.toNat + (size - start.toNat) = size := Nat.add_sub_of_le start.isLt.le
    rw [row_add, whole, row_size] at cells
    refine ⟨wrapped, few, ?_, cells, fun a => ?_⟩
    · rw [bytes_walk, cells, List.map_append, map_read_row, map_read_row]
    · have inside : a.toNat < size := a.isLt
      have start_le : start ≤ a ↔ start.toNat ≤ a.toNat := Iff.rfl
      rw [cells, List.count_append, count_row whole.le, count_row (by rw [size]; omega), whole]
      simp [start_le, inside]
  · intro n k
    rw [disassemble_add, getElem?_walk]
    cases m.place start n <;> rfl

end Memory

end Emu8085
