import Emu8085.Word

/-!
# Flags

Sign, zero, auxiliary carry, parity and carry. Packed into the status byte they take bits 7, 6, 4,
2 and 0; the other three bits are always clear.
-/
namespace Emu8085

structure Flags where
  sign : Bool
  zero : Bool
  auxCarry : Bool
  parity : Bool
  carry : Bool
  deriving DecidableEq, Repr

def evenParity (b : Byte) : Bool := ((List.range 8).countP b.getLsbD) % 2 == 0

namespace Flags

def clear : Flags := ⟨false, false, false, false, false⟩

def status (f : Flags) : Byte :=
  BitVec.ofNat 8 (128 * f.sign.toNat + 64 * f.zero.toNat + 16 * f.auxCarry.toNat +
    4 * f.parity.toNat + f.carry.toNat)

/-- The unused bits of the status byte are dropped. -/
def ofStatus (b : Byte) : Flags :=
  ⟨b.getLsbD 7, b.getLsbD 6, b.getLsbD 4, b.getLsbD 2, b.getLsbD 0⟩

/-- Sign, zero and parity as a result has them; both carries stay. -/
def judge (f : Flags) (result : Byte) : Flags :=
  { f with sign := result.msb, zero := result == 0, parity := evenParity result }

/-- A set flag is an upper case letter, a clear one lower case. -/
def text (f : Flags) : String :=
  let letter (set : Bool) (on off : String) := if set then on else off
  letter f.sign "S" "s" ++ letter f.zero "Z" "z" ++ "-" ++ letter f.auxCarry "A" "a" ++ "-" ++
    letter f.parity "P" "p" ++ "-" ++ letter f.carry "C" "c"

@[simp] theorem ofStatus_status (f : Flags) : ofStatus f.status = f := by
  obtain ⟨s, z, a, p, c⟩ := f
  revert s z a p c
  decide

/-- The byte comes back without the three bits that stand for no flag. -/
theorem status_ofStatus (b : Byte) : (ofStatus b).status = b &&& 0xD5 := by
  revert b
  decide

/-- The flags have bits 7, 6, 4, 2 and 0 of the status byte. -/
theorem toNat_status (f : Flags) :
    f.status.toNat = 128 * f.sign.toNat + 64 * f.zero.toNat + 16 * f.auxCarry.toNat +
      4 * f.parity.toNat + f.carry.toNat := by
  obtain ⟨s, z, a, p, c⟩ := f
  revert s z a p c
  decide

@[simp] theorem judge_carry (f : Flags) (r : Byte) : (f.judge r).carry = f.carry := rfl

@[simp] theorem judge_auxCarry (f : Flags) (r : Byte) : (f.judge r).auxCarry = f.auxCarry := rfl

end Flags

end Emu8085
