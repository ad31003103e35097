/-!
# Bytes and words

A byte is eight bits, a word sixteen. A word is a high byte over a low byte, and the two
halves determine it.
-/
namespace Emu8085

abbrev Byte := BitVec 8

abbrev Word := BitVec 16

namespace Word

def ofBytes (high low : Byte) : Word := high ++ low

def high (w : Word) : Byte := w.extractLsb' 8 8

def low (w : Word) : Byte := w.setWidth 8

theorem toNat_ofBytes (h l : Byte) : (ofBytes h l).toNat = 256 * h.toNat + l.toNat := by
  rw [ofBytes, BitVec.toNat_append, Nat.shiftLeft_eq, Nat.mul_comm,
    ← Nat.two_pow_add_eq_or_of_lt l.isLt]

theorem toNat_high (w : Word) : w.high.toNat = w.toNat / 256 := by
  have := w.isLt
  simp only [high, BitVec.extractLsb'_toNat, Nat.shiftRight_eq_div_pow]
  omega

theorem toNat_low (w : Word) : w.low.toNat = w.toNat % 256 := by
  simp [low]

@[simp] theorem high_ofBytes (h l : Byte) : (ofBytes h l).high = h := by
  apply BitVec.eq_of_toNat_eq
  have := l.isLt
  rw [toNat_high, toNat_ofBytes]
  omega

@[simp] theorem low_ofBytes (h l : Byte) : (ofBytes h l).low = l := by
  apply BitVec.eq_of_toNat_eq
  have := l.isLt
  rw [toNat_low, toNat_ofBytes]
  omega

@[simp] theorem ofBytes_high_low (w : Word) : ofBytes w.high w.low = w := by
  apply BitVec.eq_of_toNat_eq
  rw [toNat_ofBytes, toNat_high, toNat_low]
  omega

end Word

/-- An address as a word; a number past the last address names none. -/
def address? (n : Nat) : Option Word :=
  if n < 0x10000 then some (BitVec.ofNat 16 n) else none

theorem address?_eq_some_iff {n : Nat} {a : Word} : address? n = some a ↔ a.toNat = n := by
  have := a.isLt
  rw [address?]
  split
  · rw [Option.some_inj, ← BitVec.toNat_inj, BitVec.toNat_ofNat]
    omega
  · simp only [reduceCtorEq, false_iff]
    omega

theorem address?_eq_none_iff {n : Nat} : address? n = none ↔ 0x10000 ≤ n := by
  rw [address?]
  split <;> simp <;> omega

/-- The number of values of 64 bits, the width of counts and of numbers that users give. -/
def countLimit : Nat := 0x10000000000000000

/-- The base-256 value of a byte string, lowest digit first, in 64 bits. -/
def littleEndian (bytes : List Byte) : Nat :=
  bytes.foldr (fun b rest => (b.toNat + 256 * rest) % countLimit) 0

theorem littleEndian_cons (b : Byte) (bytes : List Byte) :
    littleEndian (b :: bytes) = (b.toNat + 256 * littleEndian bytes) % countLimit := rfl

end Emu8085
