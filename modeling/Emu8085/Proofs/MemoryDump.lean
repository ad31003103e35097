import Emu8085.Proofs.BulkWrites
import Emu8085.Proofs.ByteOrder
import Emu8085.Proofs.Reading
import Emu8085.Proofs.Tiling

/-!
# Dumps of memory

A dump cuts a range of memory into pieces of sixteen cells, the last of which may be shorter, and
gives each a line. The pieces follow one another without a gap (`Pieces`), so what the lines tell
is the range as a whole, and writing each of them back to where it is from copies the range.
-/
namespace Emu8085

open Text

def lowerDigits : List Char :=
  ['0', '1', '2', '3', '4', '5', '6', '7', '8', '9', 'a', 'b', 'c', 'd', 'e', 'f']

theorem hexDigit_lower {n : Nat} (h : n < 16) : hexDigit .lower n = lowerDigits.getD n '0' := by
  revert n
  decide

def byteDigits (b : Byte) : List Char :=
  [b.toNat / 16, b.toNat].map fun n => lowerDigits.getD (n % 16) '0'

theorem toList_lowerHex (b : Byte) : (lowerHex 2 b.toNat).toList = byteDigits b := by
  have short : hexLength b.toNat ≤ 2 := hexLength_le_iff.2 b.isLt
  rw [lowerHex, hex, String.toList_ofList, Nat.max_eq_left short]
  simp only [lowDigits, hexDigit_lower (Nat.mod_lt _ (by decide : 0 < 16))]
  rfl

namespace Memory

theorem cells_add (m : Memory) (address length more : Nat) :
    m.cells address (length + more) =
      m.cells address length ++ m.cells (address + length) more := by
  rw [← map_read_row, row_add, List.map_append, map_read_row, map_read_row]

theorem overwrites_nil (m : Memory) (address : Nat) : m.Overwrites address [] m where
  inside _ h := absurd h (Nat.not_lt_zero _)
  outside _ _ := rfl

/-- One range is written behind the other. -/
theorem Overwrites.append {m m' m'' : Memory} {address : Nat} {bytes more : List Byte}
    (fits : address + (bytes.length + more.length) ≤ size) (first : m.Overwrites address bytes m')
    (later : m'.Overwrites (address + bytes.length) more m'') :
    m.Overwrites address (bytes ++ more) m'' := by
  rw [size] at fits
  constructor
  · intro i h
    rw [List.length_append] at h
    by_cases front : i < bytes.length
    · have before : (BitVec.ofNat 16 (address + i)).toNat < address + bytes.length := by
        rw [BitVec.toNat_ofNat]
        omega
      rw [later.outside _ (.inl before), first.inside i front, List.getElem_append_left front]
    · obtain ⟨j, rfl⟩ := Nat.exists_eq_add_of_le (Nat.not_lt.1 front)
      rw [← Nat.add_assoc, later.inside j (by omega), List.getElem_append_right (by omega)]
      simp
  · intro a apart
    rw [List.length_append] at apart
    rw [later.outside a (by omega), first.outside a (by omega)]

/-- Cells of another memory that are written where they are from. -/
theorem Overwrites.read_eq {m source after : Memory} {address length : Nat}
    (h : m.Overwrites address (source.cells address length) after) (a : Word) :
    after.read a =
      if address ≤ a.toNat ∧ a.toNat < address + length then source.read a else m.read a := by
  split
  · next within =>
    have place : address + (a.toNat - address) = a.toNat := by omega
    have read := h.inside (a.toNat - address) (by rw [length_cells]; omega)
    simpa [cells, place] using read
  · next without =>
    refine h.outside a ?_
    rw [length_cells]
    omega

end Memory

namespace Script

/-- The line of a dump that shows some bytes. -/
def dumpLine (piece : Nat × List Byte) : String :=
  "#0x" ++ upperHex 4 piece.1 ++ ": " ++
    " ".intercalate (piece.2.map fun b => lowerHex 2 b.toNat)

theorem toList_label {first : Nat} (small : first < Memory.size) :
    (upperHex 4 first).toList = Word.digits (BitVec.ofNat 16 first) := by
  have value : (BitVec.ofNat 16 first).toNat = first := Nat.mod_eq_of_lt small
  rw [← Word.toList_upperHex, value]

theorem toList_dumpLine {first : Nat} (small : first < Memory.size) (bytes : List Byte) :
    (dumpLine (first, bytes)).toList = '#' :: '0' :: 'x' ::
      (Word.digits (BitVec.ofNat 16 first) ++ ':' :: ' ' ::
        [' '].intercalate (bytes.map byteDigits)) := by
  have digits : ∀ b : Byte, (lowerHex 2 b.toNat).toList = byteDigits b := toList_lowerHex
  rw [dumpLine]
  simp [String.toList_append, toList_label small, String.toList_intercalate, Function.comp_def,
    digits]

def byteOfDigits? (cs : List Char) : Option Byte :=
  if cs.length = 2 then (number? 16 cs).map (BitVec.ofNat 8) else none

/-- What a line of a dump tells: the number of four digits that labels it, and behind a colon its
bytes with a blank between them. -/
def readDumpLine (line : List Char) : Option (Nat × List Byte) :=
  match line with
  | '#' :: '0' :: 'x' :: a :: b :: c :: d :: ':' :: ' ' :: bytes => do
    return (← number? 16 [a, b, c, d], ← (bytes.splitOn ' ').mapM byteOfDigits?)
  | _ => none

theorem mapM_eq_some_self {α : Type} {f : α → Option α} {l : List α} (h : ∀ a ∈ l, f a = some a) :
    l.mapM f = some l := by
  induction l with
  | nil => rfl
  | cons a l ih =>
    rw [List.forall_mem_cons] at h
    simp [h.1, ih h.2]

/-- A byte is read back from its two digits, for each of the 256. -/
theorem byteOfDigits?_byteDigits (b : Byte) : byteOfDigits? (byteDigits b) = some b := by
  have numeral : Numeral 16 b.toNat (lowerHex 2 b.toNat).toList := numeral_hex .lower 2 b.toNat
  rw [toList_lowerHex] at numeral
  have two : (byteDigits b).length = 2 := rfl
  have number := (number?_eq_some_iff (by rw [two]; decide)).2 numeral
  rw [byteOfDigits?, if_pos two, number, Option.map_some, BitVec.ofNat_toNat, BitVec.setWidth_eq]

theorem blank_not_mem_byteDigits (b : Byte) : ' ' ∉ byteDigits b := by
  revert b
  decide +kernel

/-- Bytes with a blank between them are told apart and read one by one. -/
theorem mapM_splitOn {bytes : List Byte} (nonempty : bytes ≠ []) :
    (([' '].intercalate (bytes.map byteDigits)).splitOn ' ').mapM byteOfDigits? = some bytes := by
  have parts : ([' '].intercalate (bytes.map byteDigits)).splitOn ' ' = bytes.map byteDigits := by
    apply List.splitOn_intercalate
    · simp [blank_not_mem_byteDigits]
    · simpa using nonempty
  rw [parts, List.mapM_map]
  exact mapM_eq_some_self fun b _ => byteOfDigits?_byteDigits b

/-- A line is read back as what it shows, if it shows a byte at all. -/
theorem readDumpLine_dumpLine {first : Nat} (small : first < Memory.size) {bytes : List Byte}
    (nonempty : bytes ≠ []) :
    readDumpLine (dumpLine (first, bytes)).toList = some (first, bytes) := by
  have numeral : Numeral 16 first (upperHex 4 first).toList := numeral_hex .upper 4 first
  rw [toList_label small] at numeral
  obtain ⟨a, b, c, d, four⟩ : ∃ a b c d, Word.digits (BitVec.ofNat 16 first) = [a, b, c, d] :=
    ⟨_, _, _, _, rfl⟩
  rw [four] at numeral
  have label : number? 16 [a, b, c, d] = some first :=
    (number?_eq_some_iff (show 0 < [a, b, c, d].length from Nat.zero_lt_succ 3)).2 numeral
  rw [toList_dumpLine small, four]
  simp [readDumpLine, label, mapM_splitOn nonempty]

/-- Pieces of memory one behind the other up to an end, each with the address of its first cell. -/
inductive Pieces (m : Memory) (stop : Nat) : Nat → List (Nat × List Byte) → Prop
  | done : Pieces m stop stop []
  | more {address length : Nat} {pieces : List (Nat × List Byte)} :
      0 < length → address + length ≤ stop → Pieces m stop (address + length) pieces →
        Pieces m stop address ((address, m.cells address length) :: pieces)

def dumpPieces (m : Memory) (address stop : Nat) : List (Nat × List Byte) :=
  (List.range ((stop - address + 15) / 16)).map fun i =>
    (address + 16 * i, m.cells (address + 16 * i) (min 16 (stop - (address + 16 * i))))

/-- A dump shows the pieces of its range, line by line. -/
theorem dump_eq (m : Memory) (address stop : Nat) :
    dump m address stop = (dumpPieces m address stop).map dumpLine := by
  rw [dumpPieces, List.map_map]
  rfl

/-- There are further lines only behind a full one. -/
theorem dumpPieces_cons (m : Memory) {address stop : Nat} (h : address < stop) :
    let length := min 16 (stop - address)
    dumpPieces m address stop =
      (address, m.cells address length) :: dumpPieces m (address + length) stop := by
  intro length
  have count : (stop - address + 15) / 16 = (stop - (address + length) + 15) / 16 + 1 := by
    omega
  rw [dumpPieces, count, List.range_succ_eq_map, List.map_cons, List.map_map]
  congr 1
  rw [dumpPieces]
  apply List.map_congr_left
  intro i inside
  have full : length = 16 := by
    rw [List.mem_range] at inside
    omega
  have place : address + 16 * (i + 1) = address + length + 16 * i := by omega
  rw [Function.comp_apply, Nat.succ_eq_add_one, place]

/-- By induction on the number of cells that are left. -/
theorem pieces_dumpPieces (m : Memory) {address stop : Nat} (h : address ≤ stop) :
    Pieces m stop address (dumpPieces m address stop) := by
  induction left : stop - address using Nat.strongRecOn generalizing address with
  | _ left ih =>
    subst left
    by_cases more : address < stop
    · rw [dumpPieces_cons m more]
      have inside : address + min 16 (stop - address) ≤ stop := by omega
      exact .more (by omega) inside (ih _ (by omega) inside rfl)
    · obtain rfl : address = stop := by omega
      rw [dumpPieces, Nat.sub_self]
      exact .done

section

variable {m : Memory} {address stop : Nat} {pieces : List (Nat × List Byte)}
  (h : Pieces m stop address pieces)
include h

theorem Pieces.le : address ≤ stop := by
  induction h with
  | done => exact Nat.le_refl _
  | more _ inside => omega

theorem Pieces.inside : ∀ piece ∈ pieces,
    piece.1 + piece.2.length ≤ stop ∧ piece.2 ≠ [] := by
  induction h with
  | done => exact List.forall_mem_nil _
  | more positive inside _ ih =>
    rw [List.forall_mem_cons, ← List.length_pos_iff, Memory.length_cells]
    exact ⟨⟨inside, positive⟩, ih⟩

/-- By induction on the pieces: together they hold the cells of the range, in order. -/
theorem Pieces.flatMap_eq : pieces.flatMap (·.2) = m.cells address (stop - address) := by
  induction h with
  | done =>
    rw [Nat.sub_self]
    rfl
  | @more address length _ _ _ rest ih =>
    have whole : stop - address = length + (stop - (address + length)) := by
      have := rest.le
      omega
    rw [List.flatMap_cons, ih, whole, Memory.cells_add]

end

/-- The machine after pieces of memory are written one by one. -/
def writeBack (s : Machine) (pieces : List (Nat × List Byte)) : Machine :=
  pieces.foldl (fun t piece => (Command.execute t (.memoryWrite piece.1 piece.2)).machine) s

/-- The run lemma, by induction on the pieces: each is written behind those before it. -/
theorem Pieces.writeBack {m : Memory} {address stop : Nat} {pieces : List (Nat × List Byte)}
    (h : Pieces m stop address pieces) (fits : stop ≤ Memory.size) (s : Machine) :
    (writeBack s pieces).registers = s.registers ∧
      s.memory.Overwrites address (m.cells address (stop - address))
        (writeBack s pieces).memory := by
  induction h generalizing s with
  | done =>
    rw [Nat.sub_self]
    exact ⟨rfl, s.memory.overwrites_nil _⟩
  | @more address length pieces _ inside rest ih =>
    have here : address + (m.cells address length).length ≤ Memory.size := by
      rw [Memory.length_cells]
      omega
    have whole : stop - address = length + (stop - (address + length)) := by
      have := rest.le
      omega
    let t : Machine :=
      { s with memory := s.memory.store (BitVec.ofNat 16 address) (m.cells address length) }
    have written :
        (Command.execute s (.memoryWrite address (m.cells address length))).machine = t :=
      Command.machine_memoryWrite s here
    have cons : Script.writeBack s ((address, m.cells address length) :: pieces) =
        Script.writeBack t pieces := by
      rw [← written]
      rfl
    obtain ⟨registers, later⟩ := ih t
    rw [cons, whole, Memory.cells_add]
    refine ⟨registers, (s.memory.overwrites_store here).append ?_ ?_⟩
    · rw [Memory.length_cells, Memory.length_cells, ← whole]
      omega
    · rw [Memory.length_cells]
      exact later

theorem length_dump (m : Memory) (address stop : Nat) :
    (dump m address stop).length = (stop - address + 15) / 16 := by
  rw [dump, List.length_map, List.length_range]
  rfl

/-- The line of a number starts so many times sixteen cells further on and ends with the range, if
it is the last. -/
theorem getElem?_dump {m : Memory} {address stop i : Nat} {line : String}
    (h : (dump m address stop)[i]? = some line) :
    let first := address + 16 * i
    first < stop ∧ line = dumpLine (first, m.cells first (min stop (first + 16) - first)) := by
  intro first
  have inside : i < (stop - address + 15) / 16 := by
    rw [← length_dump m]
    exact (List.getElem?_eq_some_iff.1 h).1
  have length : min 16 (stop - first) = min stop (first + 16) - first := by omega
  rw [dump_eq, dumpPieces, List.getElem?_map, List.getElem?_map, List.getElem?_range inside] at h
  refine ⟨by omega, ?_⟩
  rw [← length]
  exact (Option.some.inj h).symm

/-- A dump is refused just where its address is no cell. Otherwise it has a line for every sixteen
cells up to the end that was asked for or that of memory, the last line being shorter where they do
not go out even; a line is the address of its first cell in four digits and its cells in two each,
and reads back as these. All lines together tell the cells of the range in order, and each can be
written back on any machine, after which, and after all of them, the cells are those that were
shown and the others as they were. -/
theorem memory_dump_is_faithful (s : Machine) (address lines : Nat) :
    let shown := (Command.execute s (.memoryShow address lines)).result
    let stop := min 0x10000 (address + 16 * lines)
    ((∃ e, shown = .error e) ↔ 0xFFFF < address) ∧
    (address ≤ 0xFFFF → ∃ view : List String,
      shown = .ok (.view view) ∧
      view.length = (stop - address + 15) / 16 ∧
      (∀ i line, view[i]? = some line →
        let first := address + 16 * i
        let bytes := s.memory.cells first (min stop (first + 16) - first)
        line.toList = '#' :: '0' :: 'x' :: (Word.digits (BitVec.ofNat 16 first) ++
          ':' :: ' ' :: [' '].intercalate (bytes.map byteDigits)) ∧
        readDumpLine line.toList = some (first, bytes)) ∧
      ∃ pieces, view.mapM (fun line => readDumpLine line.toList) = some pieces ∧
        pieces.flatMap (·.2) = s.memory.cells address (stop - address) ∧
        ∀ t : Machine,
          (∀ piece ∈ pieces,
            let write := Command.execute t (.memoryWrite piece.1 piece.2)
            (∃ token, write.result = .ok token) ∧
              t.memory.Overwrites piece.1 piece.2 write.machine.memory) ∧
          (writeBack t pieces).registers = t.registers ∧
          ∀ a : Word, (writeBack t pieces).memory.read a =
            if address ≤ a.toNat ∧ a.toNat < stop then s.memory.read a else t.memory.read a) := by
  intro shown stop
  constructor
  · rw [Command.error_iff, Command.isAllowed, decide_eq_false_iff_not, Nat.not_lt]
    exact Nat.lt_iff_add_one_le.symm
  intro place
  have inside : stop ≤ Memory.size := Nat.min_le_left _ _
  have le : address ≤ stop := by omega
  have pieces := pieces_dumpPieces s.memory le
  refine ⟨dump s.memory address stop, ?_, length_dump _ _ _, ?_,
    dumpPieces s.memory address stop, ?_, pieces.flatMap_eq, ?_⟩
  · exact congrArg Execution.result (if_pos (Nat.lt_succ_of_le place))
  · intro i line has
    obtain ⟨before, rfl⟩ := getElem?_dump has
    have small : address + 16 * i < Memory.size := by omega
    refine ⟨toList_dumpLine small _, readDumpLine_dumpLine small ?_⟩
    rw [← List.length_pos_iff, Memory.length_cells]
    omega
  · rw [dump_eq, List.mapM_map]
    refine mapM_eq_some_self fun piece shows => ?_
    obtain ⟨fits, nonempty⟩ := pieces.inside piece shows
    have positive := List.length_pos_iff.2 nonempty
    exact readDumpLine_dumpLine (by omega) nonempty
  · intro t
    obtain ⟨registers, memory⟩ := pieces.writeBack inside t
    refine ⟨?_, registers, ?_⟩
    · intro piece shows write
      have fits := Nat.le_trans (pieces.inside piece shows).1 inside
      refine ⟨(Command.exists_memoryWrite_iff t _ _).2 fits, ?_⟩
      rw [Command.machine_memoryWrite t fits]
      exact t.memory.overwrites_store fits
    · intro a
      rw [memory.read_eq, Nat.add_sub_of_le le]

end Script

end Emu8085
