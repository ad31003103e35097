import Emu8085.Instruction

/-!
# Accumulator arithmetic

Each operation takes the accumulator and the flags to their new values. Only sign, zero, parity
and the carry ever follow a result; the decimal adjustment alone sets the auxiliary carry.
-/
namespace Emu8085

/-- Sum with a carry in; the carry out is the ninth bit. -/
def addWithCarry (a v : Byte) (carry : Bool) (f : Flags) : Byte × Flags :=
  let sum := a.toNat + v.toNat + carry.toNat
  let result : Byte := BitVec.ofNat 8 sum
  (result, { f.judge result with carry := decide (255 < sum) })

def subWithBorrow (a v : Byte) (borrow : Bool) (f : Flags) : Byte × Flags :=
  let taken := v.toNat + borrow.toNat
  let result := a - BitVec.ofNat 8 taken
  (result, { f.judge result with carry := decide (a.toNat < taken) })

/-- A bitwise result leaves the carry clear. -/
def bitwise (result : Byte) (f : Flags) : Byte × Flags :=
  (result, { f.judge result with carry := false })

/-- A comparison is a subtraction that keeps the accumulator. -/
def Alu.apply (op : Alu) (a v : Byte) (f : Flags) : Byte × Flags :=
  match op with
  | add => addWithCarry a v false f
  | adc => addWithCarry a v f.carry f
  | sub => subWithBorrow a v false f
  | sbb => subWithBorrow a v f.carry f
  | ana => bitwise (a &&& v) f
  | xra => bitwise (a ^^^ v) f
  | ora => bitwise (a ||| v) f
  | cmp => (a, (subWithBorrow a v false f).2)

def Rotation.apply (op : Rotation) (a : Byte) (f : Flags) : Byte × Flags :=
  let turned (result : Byte) (out : Bool) := (result, { f.judge result with carry := out })
  match op with
  | rlc => turned (a.rotateLeft 1) a.msb
  | rrc => turned (a.rotateRight 1) (a.getLsbD 0)
  | ral => turned (a <<< 1 ||| if f.carry then 1 else 0) a.msb
  | rar => turned (a >>> 1 ||| if f.carry then 0x80 else 0) (a.getLsbD 0)

/-- Corrects a binary sum of decimal digits, six for each digit past nine. The low correction
decides the auxiliary carry, the high one, which looks at the corrected low digit, the carry. -/
def decimalAdjust (a : Byte) (f : Flags) : Byte × Flags :=
  let low := decide (9 < a.toNat % 16) || f.auxCarry
  let half := if low then a + 0x06 else a
  let high := decide (9 < half.toNat / 16) || f.carry
  let result := if high then half + 0x60 else half
  (result, { f.judge result with auxCarry := low, carry := high })

theorem Alu.apply_auxCarry (op : Alu) (a v : Byte) (f : Flags) :
    (op.apply a v f).2.auxCarry = f.auxCarry := by
  cases op <;> rfl

theorem Rotation.apply_auxCarry (op : Rotation) (a : Byte) (f : Flags) :
    (op.apply a f).2.auxCarry = f.auxCarry := by
  cases op <;> rfl

end Emu8085
