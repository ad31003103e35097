import Emu8085.Proofs.Refusal

/-!
# Writing many bytes

A program is loaded, a range of memory is written, and a script writes cell after cell: three range
checks and two ways to write. They accept the same ranges, but that a program needs a first address
even if it is empty, and what they do to memory is the same. It is told by what the cells read
afterwards (`Overwrites`).
-/
namespace Emu8085

namespace Memory

/-- The memory `after` has the bytes in successive cells from an address on; it is as it was
elsewhere. -/
structure Overwrites (m : Memory) (address : Nat) (bytes : List Byte) (after : Memory) : Prop where
  inside : ∀ i (h : i < bytes.length), after.read (BitVec.ofNat 16 (address + i)) = bytes[i]
  outside : ∀ a : Word, a.toNat < address ∨ address + bytes.length ≤ a.toNat →
    after.read a = m.read a

/-- A range that fits does not wrap, so its cells are those of the numbers from the address on. -/
theorem overwrites_store (m : Memory) {address : Nat} {bytes : List Byte}
    (fits : address + bytes.length ≤ size) :
    m.Overwrites address bytes (m.store (BitVec.ofNat 16 address) bytes) := by
  have short : bytes.length ≤ size := Nat.le_trans (Nat.le_add_left _ _) fits
  constructor
  · intro i h
    rw [BitVec.ofNat_add]
    exact m.read_store_inside _ short h
  · intro a apart
    by_cases empty : bytes = []
    · rw [empty, store_nil]
    · have positive : 0 < bytes.length := List.length_pos_iff.2 empty
      rw [size] at fits
      exact m.read_store_outside short (by bv_omega)

theorem Overwrites.cells_eq {m after : Memory} {address : Nat} {bytes : List Byte}
    (h : m.Overwrites address bytes after) : after.cells address bytes.length = bytes := by
  apply List.ext_getElem
  · rw [length_cells]
  · intro i _ inside
    simp [cells, h.inside i inside]

/-- The end of a range within memory is a 64 bit number. -/
theorem addressable_of_fits {address length : Nat} (fits : address + length ≤ size) :
    ¬ countLimit ≤ address + length := by
  rw [size] at fits
  rw [countLimit]
  omega

/-- A range is written whole or not at all. -/
theorem writeRange_eq_ok_iff {m after : Memory} {address : Nat} {bytes : List Byte} :
    m.writeRange address bytes = .ok after ↔
      address + bytes.length ≤ size ∧ after = m.store (BitVec.ofNat 16 address) bytes := by
  by_cases fits : address + bytes.length ≤ size
  · rw [writeRange, if_neg (addressable_of_fits fits), if_pos fits, Except.ok.injEq, eq_comm]
    exact (and_iff_right fits).symm
  · rw [writeRange, if_neg fits]
    split <;> simp [fits]

theorem error_of_writeRange {m : Memory} {address : Nat} {bytes : List Byte} {e : MemoryError}
    (addressable : address + bytes.length < countLimit)
    (h : m.writeRange address bytes = .error e) : e = .writeOverflow bytes.length address := by
  rw [writeRange, if_neg (Nat.not_le.2 addressable)] at h
  split at h
  · cases h
  · exact (Except.error.inj h).symm

/-- What was written to a range is what reading the range gives. -/
theorem Overwrites.readRange_eq {m after : Memory} {address : Nat} {bytes : List Byte}
    (h : m.Overwrites address bytes after) (fits : address + bytes.length ≤ size) :
    after.readRange address bytes.length = .ok bytes := by
  rw [readRange, if_neg (addressable_of_fits fits), if_pos fits, h.cells_eq]

end Memory

variable (s : Machine) {address : Nat} {bytes : List Byte}

namespace Machine

/-- Loading asks for an address that exists, even where nothing is to be loaded. -/
theorem exists_load_iff (address : Nat) (bytes : List Byte) :
    (∃ t, s.load bytes address = .ok t) ↔
      address < 0x10000 ∧ address + bytes.length ≤ Memory.size := by
  simp only [load_eq_ok_iff, exists_and_left, exists_eq, and_true]

/-- The first two checks leave nothing for the check of the range itself. -/
theorem cause?_of_load {e : ControlError} (h : s.load bytes address = .error e) :
    e.cause? = none := by
  by_cases place : address < 0x10000
  · by_cases fits : address + bytes.length ≤ Memory.size
    · rw [s.load_of_fits place fits] at h
      cases h
    · rw [s.load_of_lt_length place (Nat.not_le.1 fits)] at h
      cases h
      rfl
  · rw [s.load_of_le bytes (Nat.not_lt.1 place)] at h
    cases h
    rfl

theorem machine_of_load_error {e : ControlError} (h : s.load bytes address = .error e) :
    (Script.Command.execute s (.load address bytes)).machine = s := by
  apply Script.Command.machine_of_error (e := .control e)
  simp only [Script.Command.execute, h]
  rfl

end Machine

namespace Script.Command

theorem exists_memoryWrite_iff (address : Nat) (bytes : List Byte) :
    (∃ token, (execute s (.memoryWrite address bytes)).result = .ok token) ↔
      address + bytes.length ≤ Memory.size := by
  cases settled s (.memoryWrite address bytes) with
  | done allowed run =>
    rw [run]
    exact ⟨fun _ => of_decide_eq_true allowed, fun _ => ⟨_, rfl⟩⟩
  | refused forbidden run =>
    rw [run]
    exact ⟨by rintro ⟨_, ⟨⟩⟩, fun fits => absurd fits (of_decide_eq_false forbidden)⟩

theorem machine_memoryWrite (fits : address + bytes.length ≤ Memory.size) :
    (execute s (.memoryWrite address bytes)).machine =
      { s with memory := s.memory.store (BitVec.ofNat 16 address) bytes } := by
  rw [execute, executeWrite, if_neg (Nat.not_lt.2 fits)]
  rfl

end Script.Command

open Machine Script in
/-- Loading a program, writing from a script and writing a range are carried out for the same
ranges, those that end within memory, an empty program past the last cell apart. All three leave
the same memory, the bytes in their cells and the others as they were, which pokes of single cells
leave as well and from which the bytes can be read again. Loading also moves the program counter
and wakes the machine; there is no other change, and none at all where the range is refused. -/
theorem bulk_writes_agree (address : Nat) (bytes : List Byte) :
    let load := s.load bytes address
    let write := Command.execute s (.memoryWrite address bytes)
    let range := s.memory.writeRange address bytes
    (bytes ≠ [] →
      ((∃ t, load = .ok t) ↔ address + bytes.length ≤ 0x10000) ∧
      ((∃ token, write.result = .ok token) ↔ address + bytes.length ≤ 0x10000)) ∧
    (bytes = [] →
      ((∃ t, load = .ok t) ↔ address ≤ 0xFFFF) ∧
      ((∃ token, write.result = .ok token) ↔ address ≤ 0x10000) ∧
      (∀ t, load = .ok t → t.memory = s.memory) ∧ write.machine.memory = s.memory) ∧
    (address + bytes.length < countLimit →
      ((∃ m, range = .ok m) ↔ address + bytes.length ≤ 0x10000) ∧
      ∀ e, range = .error e → e = .writeOverflow bytes.length address) ∧
    (∀ t, load = .ok t → s.memory.Overwrites address bytes t.memory ∧
      t.registers = { s.registers with pc := BitVec.ofNat 16 address, halted := false } ∧
      t.registers.pc.toNat = address) ∧
    (∀ token, write.result = .ok token →
      s.memory.Overwrites address bytes write.machine.memory ∧
      write.machine.registers = s.registers ∧ s.pokeEach address bytes = (write.machine, none)) ∧
    (∀ m, range = .ok m → s.memory.Overwrites address bytes m ∧ m = write.machine.memory ∧
      (∀ t, load = .ok t → m = t.memory) ∧ m.readRange address bytes.length = .ok bytes) ∧
    (∀ e, load = .error e → e.cause? = none ∧
      (Command.execute s (.load address bytes)).machine = s) ∧
    (∀ e, write.result = .error e → write.machine = s) := by
  have loads := exists_load_iff s address bytes
  have writes := Command.exists_memoryWrite_iff s address bytes
  have memory (fits : address + bytes.length ≤ Memory.size) := Command.machine_memoryWrite s fits
  refine ⟨?_, ?_, ?_, ?_, ?_, ?_, ?_, fun e => Command.machine_of_error⟩
  · intro nonempty
    have positive := List.length_pos_iff.2 nonempty
    refine ⟨loads.trans ⟨And.right, fun fits => ⟨?_, fits⟩⟩, writes⟩
    omega
  · rintro rfl
    refine ⟨loads.trans ?_, writes, ?_, ?_⟩
    · simp only [List.length_nil, Memory.size]
      omega
    · intro t loaded
      rw [(load_eq_ok_iff.1 loaded).2]
      rfl
    · cases outcome : (Command.execute s (.memoryWrite address [])).result with
      | error e => rw [Command.machine_of_error outcome]
      | ok token => rw [memory (writes.1 ⟨token, outcome⟩), Memory.store_nil]
  · intro addressable
    refine ⟨?_, fun e => Memory.error_of_writeRange addressable⟩
    simp only [Memory.writeRange_eq_ok_iff, exists_and_left, exists_eq, and_true]
    rfl
  · intro t loaded
    obtain ⟨⟨place, fits⟩, rfl⟩ := load_eq_ok_iff.1 loaded
    refine ⟨s.memory.overwrites_store fits, rfl, ?_⟩
    exact (BitVec.toNat_ofNat ..).trans (Nat.mod_eq_of_lt place)
  · intro token written
    have fits := writes.1 ⟨token, written⟩
    rw [memory fits]
    exact ⟨s.memory.overwrites_store fits, rfl, s.pokeEach_of_fits fits⟩
  · intro m accepted
    obtain ⟨fits, rfl⟩ := Memory.writeRange_eq_ok_iff.1 accepted
    have overwrites := s.memory.overwrites_store fits
    refine ⟨overwrites, by rw [memory fits], ?_, overwrites.readRange_eq fits⟩
    intro t loaded
    rw [(load_eq_ok_iff.1 loaded).2]
    rfl
  · intro e refused
    exact ⟨s.cause?_of_load refused, s.machine_of_load_error refused⟩

end Emu8085
