import Emu8085.Flags
import Emu8085.Memory
import Emu8085.Text.Hex

/-!
# Registers

Seven byte registers, the flags, the stack pointer, the program counter and the halt latch.
Instructions select a byte by a three bit field, where `m` is the memory cell that HL points at,
and sixteen bits by a pair, where `psw` is A over the status byte.
-/
namespace Emu8085

open Text

inductive Reg where
  | b | c | d | e | h | l | m | a
  deriving DecidableEq, Repr

namespace Reg

def ofField : Nat → Reg
  | 0 => b
  | 1 => c
  | 2 => d
  | 3 => e
  | 4 => h
  | 5 => l
  | 6 => m
  | _ => a

def name : Reg → String
  | b => "B"
  | c => "C"
  | d => "D"
  | e => "E"
  | h => "H"
  | l => "L"
  | m => "M"
  | a => "A"

end Reg

inductive Pair where
  | bc | de | hl | sp | psw
  deriving DecidableEq, Repr

namespace Pair

def ofField : Nat → Pair
  | 0 => bc
  | 1 => de
  | 2 => hl
  | _ => sp

/-- The same field in stack instructions, whose fourth pair is the status word. -/
def ofStackField : Nat → Pair
  | 0 => bc
  | 1 => de
  | 2 => hl
  | _ => psw

/-- The name in mnemonics, that of the high register. -/
def name : Pair → String
  | bc => "B"
  | de => "D"
  | hl => "H"
  | sp => "SP"
  | psw => "PSW"

end Pair

structure Registers where
  a : Byte
  b : Byte
  c : Byte
  d : Byte
  e : Byte
  h : Byte
  l : Byte
  flags : Flags
  sp : Word
  pc : Word
  halted : Bool
  deriving DecidableEq, Repr

namespace Registers

/-- After a reset: everything clear, the stack pointer at the last address. -/
def initial (pc : Word) : Registers :=
  ⟨0, 0, 0, 0, 0, 0, 0, .clear, 0xFFFF, pc, false⟩

def pair (r : Registers) : Pair → Word
  | .bc => .ofBytes r.b r.c
  | .de => .ofBytes r.d r.e
  | .hl => .ofBytes r.h r.l
  | .sp => r.sp
  | .psw => .ofBytes r.a r.flags.status

def setPair (r : Registers) (p : Pair) (w : Word) : Registers :=
  match p with
  | .bc => { r with b := w.high, c := w.low }
  | .de => { r with d := w.high, e := w.low }
  | .hl => { r with h := w.high, l := w.low }
  | .sp => { r with sp := w }
  | .psw => { r with a := w.high, flags := .ofStatus w.low }

/-- All registers on one line. -/
def text (r : Registers) : String :=
  let byte (name : String) (v : Byte) := name ++ ":0x" ++ lowerHex 2 v.toNat
  let bytes := [byte "A" r.a, byte "B" r.b, byte "C" r.c, byte "D" r.d, byte "E" r.e,
    byte "H" r.h, byte "L" r.l]
  "Registers [" ++ ", ".intercalate bytes ++ " | SP:0x" ++ lowerHex 4 r.sp.toNat ++
    " PC:0x" ++ lowerHex 4 r.pc.toNat ++ " | " ++ r.flags.text ++ "]" ++
    (if r.halted then " HALTED" else "")

@[simp] theorem pair_setPair_same (r : Registers) (p : Pair) (w : Word) (h : p ≠ .psw) :
    (r.setPair p w).pair p = w := by
  cases p <;> simp_all [pair, setPair]

/-- The status word loses the unused bits of its low byte. -/
theorem pair_setPair_psw (r : Registers) (w : Word) :
    (r.setPair .psw w).pair .psw = .ofBytes w.high (w.low &&& 0xD5) := by
  simp [pair, setPair, Flags.status_ofStatus]

@[simp] theorem setPair_pair (r : Registers) (p : Pair) : r.setPair p (r.pair p) = r := by
  cases p <;> simp [pair, setPair]

end Registers

end Emu8085
