import Emu8085.Memory
import Emu8085.Text.Hex

/-!
# Ranges of memory

Bulk access names its range by a first address and a length, any two numbers, and is refused as a
whole when the range runs past the last cell. A write that is refused changes nothing.
-/
namespace Emu8085

open Text

inductive MemoryError where
  | readOverflow (length address : Nat)
  | writeOverflow (length address : Nat)
  /-- The end of the range is no 64 bit number. -/
  | unaddressable
  deriving DecidableEq, Repr

namespace MemoryError

def overflowText (access : String) (length address : Nat) : String :=
  "Could not " ++ access ++ " " ++ toString length ++ " bytes at address 0x" ++
    upperHex 4 address ++ ", address max is 0xFFFF."

def message : MemoryError → String
  | readOverflow length address => overflowText "READ" length address
  | writeOverflow length address => overflowText "WRITE" length address
  | unaddressable => "The end of the range does not fit in 64 bits."

end MemoryError

namespace Memory

/-- The bytes of `length` cells from `address` on. -/
def cells (m : Memory) (address length : Nat) : List Byte :=
  (List.range length).map fun i => m.read (BitVec.ofNat 16 (address + i))

def store (m : Memory) (address : Word) : List Byte → Memory
  | [] => m
  | b :: bytes => (m.write address b).store (address + 1) bytes

def readRange (m : Memory) (address length : Nat) : Except MemoryError (List Byte) :=
  if countLimit ≤ address + length then .error .unaddressable
  else if address + length ≤ size then .ok (m.cells address length)
  else .error (.readOverflow length address)

def writeRange (m : Memory) (address : Nat) (bytes : List Byte) : Except MemoryError Memory :=
  if countLimit ≤ address + bytes.length then .error .unaddressable
  else if address + bytes.length ≤ size then .ok (m.store (BitVec.ofNat 16 address) bytes)
  else .error (.writeOverflow bytes.length address)

@[simp] theorem store_nil (m : Memory) (address : Word) : m.store address [] = m := rfl

@[simp] theorem store_cons (m : Memory) (address : Word) (b : Byte) (bytes : List Byte) :
    m.store address (b :: bytes) = (m.write address b).store (address + 1) bytes := rfl

/-- Bytes that fit in memory do not overwrite one another. -/
theorem read_store (m : Memory) (address a : Word) (bytes : List Byte)
    (fits : bytes.length ≤ size) :
    (m.store address bytes).read a = bytes[(a - address).toNat]?.getD (m.read a) := by
  induction bytes generalizing m address with
  | nil => simp
  | cons b bytes ih =>
    rw [List.length_cons, size] at fits
    rw [store_cons, ih _ _ (by rw [size]; omega), read_write]
    by_cases first : a = address
    · subst first
      have behind : bytes.length ≤ (a - (a + 1)).toNat := by bv_omega
      rw [if_pos rfl, List.getElem?_eq_none behind, Option.getD_none, BitVec.sub_self]
      rfl
    · have later : (a - address).toNat = (a - (address + 1)).toNat + 1 := by bv_omega
      rw [if_neg first, later, List.getElem?_cons_succ]

/-- No byte of a range that fits in memory is overwritten by a later one. -/
theorem read_store_inside (m : Memory) (address : Word) {bytes : List Byte} {i : Nat}
    (fits : bytes.length ≤ size) (h : i < bytes.length) :
    (m.store address bytes).read (address + BitVec.ofNat 16 i) = bytes[i] := by
  have place : (address + BitVec.ofNat 16 i - address).toNat = i := by
    rw [size] at fits
    bv_omega
  rw [read_store _ _ _ _ fits, place, List.getElem?_eq_getElem h, Option.getD_some]

theorem read_store_outside (m : Memory) {address a : Word} {bytes : List Byte}
    (fits : bytes.length ≤ size) (h : bytes.length ≤ (a - address).toNat) :
    (m.store address bytes).read a = m.read a := by
  rw [read_store _ _ _ _ fits, List.getElem?_eq_none h, Option.getD_none]

@[simp] theorem length_cells (m : Memory) (address length : Nat) :
    (m.cells address length).length = length := by
  simp [cells]

end Memory

end Emu8085
