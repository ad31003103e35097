import Emu8085.Word

/-!
# Memory

The 64 KiB address space: one byte for each word. Addresses are looked up bit by bit in a binary
tree of full depth, so a memory is determined by what its cells read, and a write costs sixteen
steps. `read_write` is the one law under which writes are used.
-/
namespace Emu8085

/-- A full binary tree over the addresses of `n` bits, the highest bit nearest the root. -/
inductive Cells : Nat → Type where
  | cell (value : Byte) : Cells 0
  | split {n : Nat} (zeros ones : Cells n) : Cells (n + 1)
  deriving DecidableEq

namespace Cells

def zero : (n : Nat) → Cells n
  | 0 => .cell 0
  | n + 1 => let half := zero n; .split half half

def read (address : Word) : {n : Nat} → Cells n → Byte
  | _, .cell value => value
  | n + 1, .split zeros ones => if address.getLsbD n then ones.read address else zeros.read address

def write (address : Word) (value : Byte) : {n : Nat} → Cells n → Cells n
  | _, .cell _ => .cell value
  | n + 1, .split zeros ones =>
    if address.getLsbD n then .split zeros (ones.write address value)
    else .split (zeros.write address value) ones

/-- The bytes in address order, in front of `rest`. -/
def bytes : {n : Nat} → Cells n → List Byte → List Byte
  | _, .cell value, rest => value :: rest
  | _ + 1, .split zeros ones, rest => zeros.bytes (ones.bytes rest)

/-- Two addresses name the same cell of a subtree when their low bits agree. -/
theorem read_write (a b : Word) (v : Byte) {n : Nat} (c : Cells n) :
    (c.write a v).read b = if ∀ i < n, b.getLsbD i = a.getLsbD i then v else c.read b := by
  induction c with
  | cell => simp [write, read]
  | @split n zeros ones ihz iho =>
    have lowest : (∀ i < n + 1, b.getLsbD i = a.getLsbD i) ↔
        (∀ i < n, b.getLsbD i = a.getLsbD i) ∧ b.getLsbD n = a.getLsbD n :=
      ⟨fun all => ⟨fun i hi => all i (Nat.lt_succ_of_lt hi), all n n.lt_succ_self⟩,
        fun both i hi => (Nat.lt_succ_iff_lt_or_eq.1 hi).elim (both.1 i) (· ▸ both.2)⟩
    by_cases low : ∀ i < n, b.getLsbD i = a.getLsbD i
    · rw [if_pos low] at ihz iho
      by_cases top : b.getLsbD n = a.getLsbD n
      · rw [if_pos (lowest.2 ⟨low, top⟩)]
        cases h : a.getLsbD n <;> simp [write, read, h, top, ihz, iho]
      · rw [if_neg fun all => top (lowest.1 all).2]
        cases h : a.getLsbD n <;> cases h' : b.getLsbD n <;> simp_all [write, read]
    · rw [if_neg low] at ihz iho
      rw [if_neg fun all => low (lowest.1 all).1]
      cases h : a.getLsbD n <;> cases h' : b.getLsbD n <;> simp [write, read, h, h', ihz, iho]

/-- A cell that is given what it holds does not change. -/
theorem write_read (a : Word) {n : Nat} (c : Cells n) : c.write a (c.read a) = c := by
  induction c with
  | cell => rfl
  | @split n zeros ones ihz iho => cases h : a.getLsbD n <;> simp [write, read, h, ihz, iho]

end Cells

abbrev Memory := Cells 16

namespace Memory

def zero : Memory := Cells.zero 16

def read (m : Memory) (address : Word) : Byte := Cells.read address m

def write (m : Memory) (address : Word) (value : Byte) : Memory := Cells.write address value m

def size : Nat := 0x10000

def toList (m : Memory) : List Byte := Cells.bytes m []

theorem read_write (m : Memory) (a b : Word) (v : Byte) :
    (m.write a v).read b = if b = a then v else m.read b := by
  rw [read, write, Cells.read_write]
  have : (∀ i < 16, b.getLsbD i = a.getLsbD i) ↔ b = a :=
    ⟨BitVec.eq_of_getLsbD_eq, fun h => h ▸ fun _ _ => rfl⟩
  simp [this, read]

@[simp] theorem read_write_same (m : Memory) (a : Word) (v : Byte) : (m.write a v).read a = v := by
  simp [read_write]

@[simp] theorem write_read (m : Memory) (a : Word) : m.write a (m.read a) = m :=
  Cells.write_read a m

theorem read_write_other (m : Memory) {a b : Word} (v : Byte) (h : b ≠ a) :
    (m.write a v).read b = m.read b := by
  simp [read_write, h]

end Memory

end Emu8085
