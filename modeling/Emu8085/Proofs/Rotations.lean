import Emu8085.Proofs.FlagLaw
import Emu8085.Proofs.Trace
import Mathlib.Tactic.Ring

/-!
# Rotations in turn

A rotation through the carry turns nine bits, the accumulator with the carry on top of it, and one
past the carry turns the eight bits of the accumulator, of which the carry gets a copy. A turn to
the right is as many turns to the left as there are bits but one, so turns in any order add up, and
only the last one is seen in the flags.
-/
namespace Emu8085

theorem rotateLeft_zero {n : Nat} (x : BitVec n) : x.rotateLeft 0 = x := by
  refine BitVec.eq_of_getMsbD_eq fun i small => ?_
  simp only [BitVec.getMsbD_rotateLeft, small, decide_true, Bool.true_and, Nat.zero_add,
    Nat.mod_eq_of_lt small]

theorem rotateLeft_rotateLeft {n : Nat} (x : BitVec n) (j k : Nat) :
    (x.rotateLeft j).rotateLeft k = x.rotateLeft (j + k) := by
  refine BitVec.eq_of_getMsbD_eq fun i small => ?_
  have inside : (k + i) % n < n := Nat.mod_lt _ (Nat.zero_lt_of_lt small)
  simp only [BitVec.getMsbD_rotateLeft, small, inside, decide_true, Bool.true_and, Nat.add_mod_mod,
    Nat.add_assoc]

/-- A turn to the right, as all turns to the left but one, takes a turn to the left back. -/
theorem rotateLeft_net {n : Nat} (x : BitVec (n + 1)) (lefts rights : Nat) :
    x.rotateLeft (lefts + n * rights) =
      x.rotateLeft (((lefts : Int) - rights) % (n + 1 : Nat)).toNat := by
  have whole : ((lefts : Int) - rights) + (n + 1 : Nat) * rights = (lefts + n * rights : Nat) := by
    push_cast
    ring
  rw [← Int.add_mul_emod_self_left _ _ (rights : Int), whole, ← Int.natCast_emod, Int.toNat_natCast,
    BitVec.rotateLeft_mod_eq_rotateLeft]

/-- Shifting a byte up with the carry behind it is one turn of nine bits. -/
theorem cons_left (c : Bool) (a : Byte) :
    BitVec.cons a.msb (a <<< 1 ||| if c then 1 else 0) = (BitVec.cons c a).rotateLeft 1 := by
  revert c a
  decide +kernel

/-- A turn of nine bits to the right is eight turns to the left. -/
theorem cons_right (c : Bool) (a : Byte) :
    BitVec.cons (a.getLsbD 0) (a >>> 1 ||| if c then 0x80 else 0) =
      (BitVec.cons c a).rotateLeft 8 := by
  revert c a
  decide +kernel

theorem rotateRight_one (a : Byte) : a.rotateRight 1 = a.rotateLeft 7 := by
  revert a
  decide +kernel

/-- The carry gets the bit that comes back at the other end. -/
theorem carry_rlc (a : Byte) (f : Flags) :
    (Rotation.rlc.apply a f).2.carry = (Rotation.rlc.apply a f).1.getLsbD 0 := by
  show a.msb = (a.rotateLeft 1).getLsbD 0
  revert a
  decide +kernel

theorem carry_rrc (a : Byte) (f : Flags) :
    (Rotation.rrc.apply a f).2.carry = (Rotation.rrc.apply a f).1.getLsbD 7 := by
  show a.getLsbD 0 = (a.rotateRight 1).getLsbD 7
  revert a
  decide +kernel

namespace Machine

variable (s : Machine)

/-- The accumulator with the carry on top of it. -/
def carried : BitVec 9 := BitVec.cons s.registers.flags.carry s.registers.a

theorem perform_rotate (op : Rotation) : s.perform (.rotate op) =
    { s.accumulate (op.apply s.registers.a s.registers.flags) with
      registers.pc := s.registers.pc + 1 } := by
  rw [perform_of_next (show s.registers.pc + 1 + 0#16 = s.registers.pc + 1 from BitVec.add_zero _)]
  rfl

def rotateAll (run : List Rotation) : Machine := s.performAll (run.map .rotate)

theorem rotateAll_cons (op : Rotation) (run : List Rotation) :
    s.rotateAll (op :: run) = (s.perform (.rotate op)).rotateAll run := rfl

/-- The last rotation finds what the others left. -/
theorem rotateAll_concat (run : List Rotation) (op : Rotation) :
    s.rotateAll (run ++ [op]) = (s.rotateAll run).perform (.rotate op) := by
  rw [rotateAll, List.map_append, performAll_append]
  rfl

/-- By induction on the rotations; each one carries on the auxiliary carry that it found. -/
theorem rotateAll_frame (run : List Rotation) :
    let t := s.rotateAll run
    t = { s with registers := { s.registers with
      a := t.registers.a
      flags := { t.registers.flags with auxCarry := s.registers.flags.auxCarry }
      pc := s.registers.pc + BitVec.ofNat 16 run.length } } := by
  induction run generalizing s with
  | nil =>
    show s = { s with registers.pc := s.registers.pc + 0#16 }
    rw [BitVec.add_zero]
  | cons op run ih =>
    have auxCarry : (s.perform (.rotate op)).registers.flags.auxCarry =
        s.registers.flags.auxCarry := by
      rw [perform_rotate]
      exact op.apply_auxCarry _ _
    have pc : (s.perform (.rotate op)).registers.pc + BitVec.ofNat 16 run.length =
        s.registers.pc + BitVec.ofNat 16 (run.length + 1) := by
      rw [perform_rotate]
      show s.registers.pc + 1#16 + _ = _
      rw [BitVec.add_assoc, ← BitVec.ofNat_add, Nat.add_comm]
    have later := ih (s.perform (.rotate op))
    rw [auxCarry, pc, ← rotateAll_cons] at later
    rw [later, perform_rotate]
    rfl

/-- The run lemma, by induction on the rotations, for whichever bits it is that the two turn. -/
theorem rotateAll_turns {n : Nat} (view : Machine → BitVec (n + 1)) {left right : Rotation}
    (other : left ≠ right) (lefts : ∀ s, view (s.perform (.rotate left)) = (view s).rotateLeft 1)
    (rights : ∀ s, view (s.perform (.rotate right)) = (view s).rotateLeft n)
    {run : List Rotation} (ops : ∀ op ∈ run, op = left ∨ op = right) :
    view (s.rotateAll run) = (view s).rotateLeft
      (((run.count left : Int) - run.count right) % (n + 1 : Nat)).toNat := by
  rw [← rotateLeft_net]
  induction run generalizing s with
  | nil =>
    rw [List.count_nil, List.count_nil, Nat.mul_zero]
    exact (rotateLeft_zero _).symm
  | cons op run ih =>
    have later := ih (s.perform (.rotate op)) fun q hq => ops q (List.mem_cons_of_mem op hq)
    rw [rotateAll_cons, later]
    rcases ops op List.mem_cons_self with rfl | rfl
    · rw [lefts, rotateLeft_rotateLeft, List.count_cons_self, List.count_cons_of_ne other]
      congr 1
      ring
    · rw [rights, rotateLeft_rotateLeft, List.count_cons_self, List.count_cons_of_ne other.symm]
      congr 1
      ring

/-- The step lemma for the rotation to the left through the carry. -/
theorem carried_ral : (s.perform (.rotate .ral)).carried = s.carried.rotateLeft 1 := by
  rw [perform_rotate]
  exact cons_left _ _

theorem carried_rar : (s.perform (.rotate .rar)).carried = s.carried.rotateLeft 8 := by
  rw [perform_rotate]
  exact cons_right _ _

theorem a_rlc : (s.perform (.rotate .rlc)).registers.a = s.registers.a.rotateLeft 1 := by
  rw [perform_rotate]
  rfl

theorem a_rrc : (s.perform (.rotate .rrc)).registers.a = s.registers.a.rotateLeft 7 := by
  rw [perform_rotate]
  exact rotateRight_one _

/-- Rotations through the carry turn the accumulator with the carry on top of it, and rotations past
the carry the accumulator, each by as many places as there are more to the left than to the right.
The last rotation is what the flags tell of. Nothing else changes but the program counter. -/
theorem rotations_compose (run : List Rotation) :
    let t := s.rotateAll run
    ((∀ op ∈ run, op = .ral ∨ op = .rar) → t.carried =
        s.carried.rotateLeft (((run.count .ral : Int) - run.count .rar) % 9).toNat) ∧
      ((∀ op ∈ run, op = .rlc ∨ op = .rrc) → t.registers.a =
        s.registers.a.rotateLeft (((run.count .rlc : Int) - run.count .rrc) % 8).toNat) ∧
      (∀ last, run.getLast? = some last →
        t.registers.flags.Judges t.registers.a ∧
          (last = .rlc → t.registers.flags.carry = t.registers.a.getLsbD 0) ∧
          (last = .rrc → t.registers.flags.carry = t.registers.a.getLsbD 7)) ∧
      t = { s with registers := { s.registers with
        a := t.registers.a
        flags := { t.registers.flags with auxCarry := s.registers.flags.auxCarry }
        pc := s.registers.pc + BitVec.ofNat 16 run.length } } ∧
      ∀ n, (s.history n).map (fun e => e.fetched.instruction) = run.map .rotate →
        s.after n = t := by
  intro t
  refine ⟨?through, ?past, ?flags, s.rotateAll_frame run, ?steps⟩
  case through => exact s.rotateAll_turns carried (by decide) carried_ral carried_rar
  case past => exact s.rotateAll_turns (fun u => u.registers.a) (by decide) a_rlc a_rrc
  case flags =>
    intro last ends
    obtain ⟨earlier, rfl⟩ := List.getLast?_eq_some_iff.1 ends
    have final : t = (s.rotateAll earlier).perform (.rotate last) := s.rotateAll_concat earlier last
    rw [final, perform_rotate]
    refine ⟨last.judges_apply _ _, ?_, ?_⟩
    · rintro rfl
      exact carry_rlc _ _
    · rintro rfl
      exact carry_rrc _ _
  case steps =>
    intro n fetches
    rw [after_eq_performAll, fetches]
    rfl

end Machine

end Emu8085
