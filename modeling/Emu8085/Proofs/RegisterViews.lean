import Emu8085.Proofs.Refusal
import Emu8085.Proofs.StopConditions

/-!
# Setting registers

The thirteen registers of scripts are views of twelve bytes, where a pair is a view of the same
bytes as its two halves. A register reads as the number of its bytes, so setting one is told by the
bytes that it writes (`bytes_assign`), and what has none of these bytes reads as before
(`read_assign_other`).
-/
namespace Emu8085.Script

/-- The bytes that registers are made of; the flags are one of them. -/
inductive RegisterByte where
  | a | b | c | d | e | h | l | f | spHigh | spLow | pcHigh | pcLow
  deriving DecidableEq, Repr

def RegisterByte.read (r : Registers) : RegisterByte → Byte
  | a => r.a
  | b => r.b
  | c => r.c
  | d => r.d
  | e => r.e
  | h => r.h
  | l => r.l
  | f => r.flags.status
  | spHigh => r.sp.high
  | spLow => r.sp.low
  | pcHigh => r.pc.high
  | pcLow => r.pc.low

namespace Register

def bytes : Register → List RegisterByte
  | a => [.a]
  | b => [.b]
  | c => [.c]
  | d => [.d]
  | e => [.e]
  | h => [.h]
  | l => [.l]
  | f => [.f]
  | bc => [.b, .c]
  | de => [.d, .e]
  | hl => [.h, .l]
  | sp => [.spHigh, .spLow]
  | pc => [.pcHigh, .pcLow]

def halves? : Register → Option (Register × Register)
  | bc => some (b, c)
  | de => some (d, e)
  | hl => some (h, l)
  | _ => none

/-- The bytes that a value has in a register. The status byte keeps five bits of its own. -/
def digits (v : Nat) : Register → List Byte
  | bc | de | hl | sp | pc => [BitVec.ofNat 8 (v / 256), BitVec.ofNat 8 v]
  | f => [BitVec.ofNat 8 v &&& 0xD5]
  | _ => [BitVec.ofNat 8 v]

/-- The number of some bytes, the highest first. -/
def valueOf (bytes : List Byte) : Nat := bytes.foldl (fun n x => 256 * n + x.toNat) 0

variable (r : Registers) (q : Register) (v : Nat)

/-- A register reads as the number that its bytes make. -/
theorem value_eq_valueOf : q.value r = valueOf (q.bytes.map fun x => x.read r) := by
  cases q with
  | bc | de | hl =>
    simp [value, bytes, valueOf, RegisterByte.read, Registers.pair, Word.toNat_ofBytes]
  | sp | pc =>
    simp [value, bytes, valueOf, RegisterByte.read, Word.toNat_high, Word.toNat_low,
      Nat.div_add_mod]
  | _ => simp [value, bytes, valueOf, RegisterByte.read]

theorem value_lt_limit : q.value r < q.limit := by
  cases q <;> exact BitVec.isLt _

theorem high_ofNat : Word.high (BitVec.ofNat 16 v) = BitVec.ofNat 8 (v / 256) := by
  apply BitVec.eq_of_toNat_eq
  rw [Word.toNat_high, BitVec.toNat_ofNat, BitVec.toNat_ofNat]
  omega

theorem low_ofNat : Word.low (BitVec.ofNat 16 v) = BitVec.ofNat 8 v := by
  apply BitVec.eq_of_toNat_eq
  rw [Word.toNat_low, BitVec.toNat_ofNat, BitVec.toNat_ofNat]
  omega

/-- A value goes into the bytes of its register in order. -/
theorem bytes_assign : (q.bytes.map fun x => x.read (q.assign r v)) = q.digits v := by
  cases q with
  | f => simp [bytes, digits, assign, RegisterByte.read, Flags.status_ofStatus]
  | _ => simp [bytes, digits, assign, RegisterByte.read, Registers.setPair, high_ofNat, low_ofNat]

/-- Bytes that are not of the register keep what they hold. -/
theorem read_assign_other {x : RegisterByte} (other : x ∉ q.bytes) :
    x.read (q.assign r v) = x.read r := by
  cases q <;> cases x <;> simp_all [bytes, assign, RegisterByte.read, Registers.setPair]

/-- A register that has none of the bytes is not touched. -/
theorem value_assign_other {p : Register} (apart : ∀ x ∈ p.bytes, x ∉ q.bytes) :
    p.value (q.assign r v) = p.value r := by
  have same : (p.bytes.map fun x => x.read (q.assign r v)) = p.bytes.map fun x => x.read r :=
    List.map_congr_left fun x its => q.read_assign_other r v (apart x its)
  rw [value_eq_valueOf, value_eq_valueOf, same]

variable {v} in
/-- A register reads as what it was given, all but the unused bits of the status byte. -/
theorem value_assign_same (fits : v < q.limit) :
    q.value (q.assign r v) = if q = f then v &&& 0xD5 else v := by
  rw [value_eq_valueOf, bytes_assign]
  cases q with
  | bc | de | hl | sp | pc =>
    have small : v < 0x10000 := fits
    simp only [digits, valueOf, List.foldl_cons, List.foldl_nil, BitVec.toNat_ofNat, reduceCtorEq,
      if_false]
    omega
  | f =>
    have small : v < 0x100 := fits
    simp [digits, valueOf, Nat.mod_eq_of_lt small]
  | _ =>
    have small : v < 0x100 := fits
    simp [digits, valueOf, Nat.mod_eq_of_lt small]

section

variable {p high low : Register} (parts : p.halves? = some (high, low))
include parts

theorem value_eq_halves : p.value r = 256 * high.value r + low.value r := by
  cases p <;> cases parts <;> exact Word.toNat_ofBytes _ _

/-- The halves of a pair are single bytes, and not the same one. -/
theorem halves_apart : high.limit = 0x100 ∧ low.limit = 0x100 ∧ high ≠ f ∧ low ≠ f ∧
    (∀ x ∈ low.bytes, x ∉ high.bytes) ∧ ∀ x ∈ high.bytes, x ∉ low.bytes := by
  cases p <;> cases parts <;> decide

variable {v}

/-- The halves are the quotient and the remainder, since the low one is below 256. -/
theorem value_halves_assign (fits : v < p.limit) :
    high.value (p.assign r v) = v / 256 ∧ low.value (p.assign r v) = v % 256 := by
  have small : low.value (p.assign r v) < low.limit := low.value_lt_limit _
  obtain ⟨-, limit, -⟩ := halves_apart parts
  have whole : 256 * high.value (p.assign r v) + low.value (p.assign r v) = v := by
    rw [← value_eq_halves _ parts, p.value_assign_same r fits, if_neg (by rintro rfl; cases parts)]
  omega

/-- Giving the high half a value moves the pair by so many times 256. -/
theorem value_assign_high (fits : v < high.limit) :
    p.value (high.assign r v) = 256 * v + low.value r := by
  obtain ⟨-, -, notFlags, -, apart, -⟩ := halves_apart parts
  rw [value_eq_halves _ parts, high.value_assign_same r fits, if_neg notFlags,
    high.value_assign_other r v apart]

theorem value_assign_low (fits : v < low.limit) :
    p.value (low.assign r v) = 256 * high.value r + v := by
  obtain ⟨-, -, -, notFlags, -, apart⟩ := halves_apart parts
  rw [value_eq_halves _ parts, low.value_assign_same r fits, if_neg notFlags,
    low.value_assign_other r v apart]

end

/-- The flags, the stack pointer and the program counter have a register each. -/
theorem frame_assign :
    (q ≠ f → (q.assign r v).flags = r.flags) ∧ (q ≠ sp → (q.assign r v).sp = r.sp) ∧
      (q ≠ pc → (q.assign r v).pc = r.pc) ∧ (q.assign r v).halted = r.halted := by
  cases q <;> simp [assign, Registers.setPair]

end Register

theorem execute_registersSet (s : Machine) {q : Register} {v : Nat} (fits : v < q.limit) :
    (∃ token, (Command.execute s (.registersSet q v)).result = .ok token) ∧
      (Command.execute s (.registersSet q v)).machine =
        { s with registers := q.assign s.registers v } := by
  rw [Command.execute, Command.executeSet, if_pos fits]
  exact ⟨⟨_, rfl⟩, rfl⟩

theorem execute_registersSet_refused (s : Machine) {q : Register} {v : Nat}
    (large : ¬ v < q.limit) : (∃ e, (Command.execute s (.registersSet q v)).result = .error e) ∧
      (Command.execute s (.registersSet q v)).machine = s := by
  rw [Command.execute, Command.executeSet, if_neg large]
  exact ⟨⟨_, rfl⟩, rfl⟩

/-- A register takes any value of as many bytes as it has, and reads as that value, the unused bits
of the status byte apart. A pair and its halves follow one another. What shares no byte with it
reads as before, and there is no other change, nor any at all where the value is too large. -/
theorem registers_set_writes_its_bytes (s : Machine) (q : Register) (v : Nat) :
    let run := Command.execute s (.registersSet q v)
    let t := run.machine
    let reads (u : Machine) (p : Register) := Source.value u (.register p)
    let fits := v ≤ if q.bytes.length = 1 then 0xFF else 0xFFFF
    (fits →
      (∃ token, run.result = .ok token) ∧
      reads t q = (if q = .f then v &&& 0xD5 else v) ∧
      (∀ high low, q.halves? = some (high, low) →
        reads t high = v / 256 ∧ reads t low = v % 256) ∧
      (∀ p high low, p.halves? = some (high, low) →
        (q = high → reads t p = 256 * v + reads s low) ∧
          (q = low → reads t p = 256 * reads s high + v)) ∧
      (∀ p : Register, (∀ x ∈ p.bytes, x ∉ q.bytes) → reads t p = reads s p) ∧
      (q ≠ .f → t.registers.flags = s.registers.flags ∧
        ∀ k, Source.value t (.flag k) = Source.value s (.flag k)) ∧
      (q ≠ .sp → t.registers.sp = s.registers.sp) ∧
      (q ≠ .pc → t.registers.pc = s.registers.pc) ∧
      t.registers.halted = s.registers.halted ∧ t.memory = s.memory) ∧
    (¬ fits → (∃ e, run.result = .error e) ∧ t = s) := by
  intro run t reads fits
  have fits_iff : fits ↔ v < q.limit := by
    cases q <;> exact Nat.lt_succ_iff.symm
  rw [fits_iff]
  constructor
  · intro fits
    obtain ⟨accepted, machine⟩ := execute_registersSet s fits
    have final : t = { s with registers := q.assign s.registers v } := machine
    obtain ⟨flags, sp, pc, halted⟩ := q.frame_assign s.registers v
    refine ⟨accepted, ?_, ?_, ?_, ?_, ?_, ?_, ?_, ?_, ?_⟩
    · rw [final]
      exact q.value_assign_same s.registers fits
    · intro high low parts
      rw [final]
      exact Register.value_halves_assign s.registers parts fits
    · intro p high low parts
      rw [final]
      constructor
      · rintro rfl
        exact Register.value_assign_high s.registers parts fits
      · rintro rfl
        exact Register.value_assign_low s.registers parts fits
    · intro p apart
      rw [final]
      exact q.value_assign_other s.registers v apart
    · intro notFlags
      have kept : t.registers.flags = s.registers.flags := by rw [final, flags notFlags]
      refine ⟨kept, fun k => ?_⟩
      show (k.isSet t.registers.flags).toNat = (k.isSet s.registers.flags).toNat
      rw [kept]
    · intro notPointer
      rw [final, sp notPointer]
    · intro notCounter
      rw [final, pc notCounter]
    · rw [final, halted]
    · rw [final]
  · exact fun large => execute_registersSet_refused s large

end Emu8085.Script
