import Emu8085.Proofs.MatchedReturn
import Mathlib.Data.List.Infix

/-!
# Last in, first out

Sequences of pushes and pops, whatever pairs they name and wherever the stack wraps. Such a
sequence moves the stack pointer by its depth and, as long as it takes off no more than it put on,
writes nothing outside the words that it had on the stack at once (`read_performAll`). What happens
between a push and the pop that matches it therefore leaves the pushed word alone.
-/
namespace Emu8085

namespace Instruction

def isStackOp : Instruction → Bool
  | push p | pop p => p != .sp
  | _ => false

/-- The number of words put on the stack, fewer than none when one is taken off. -/
def words : Instruction → Int
  | push _ => 1
  | pop _ => -1
  | _ => 0

/-- The words that a sequence pushes less those that it pops. -/
def height : List Instruction → Int
  | [] => 0
  | i :: run => i.words + height run

@[simp] theorem height_nil : height [] = 0 := rfl

@[simp] theorem height_cons (i : Instruction) (run : List Instruction) :
    height (i :: run) = i.words + height run := rfl

@[simp] theorem height_append (first later : List Instruction) :
    height (first ++ later) = height first + height later := by
  induction first with
  | nil => simp
  | cons i first ih => rw [List.cons_append, height_cons, height_cons, ih, Int.add_assoc]

theorem words_eq_one {i : Instruction} (h : 0 < i.words) : ∃ p, i = push p := by
  cases i <;> simp_all [words]

theorem words_le_one (i : Instruction) : i.words ≤ 1 := by
  cases i <;> simp [words]

/-- Pushes and pops put on the stack what they are said to, whatever the state. -/
theorem stackChange_eq_words {i : Instruction} (s : Machine) (op : i.isStackOp = true) :
    i.stackChange s = i.words := by
  cases i <;> simp_all [isStackOp, stackChange, words]

/-- Only a push writes, and then the two cells below the stack pointer. -/
theorem written_stackOp {i : Instruction} (s : Machine) (op : i.isStackOp = true) :
    i.written s =
      if 0 < i.words then [s.registers.sp - 1, s.registers.sp - 2] else [] := by
  rw [written, stackChange_eq_words s op]
  cases i <;> simp_all [isStackOp, stores]

/-- As many pops as pushes, and none of them of a word from before. -/
structure Balanced (run : List Instruction) : Prop where
  settled : height run = 0
  level : ∀ part, part <+: run → 0 ≤ height part

/-- The last push that leaves a given depth behind for good; by induction from the end, where the
last instruction is that push or comes after it. -/
theorem exists_push (run : List Instruction) (floor : Int) (start : 0 ≤ floor)
    (above : floor < height run) :
    ∃ earlier p inner, run = earlier ++ push p :: inner ∧ height earlier = floor ∧
      ∀ part, part <+: inner → 0 ≤ height part := by
  induction run using List.reverseRecOn with
  | nil => exact absurd start (by simpa using above)
  | append_singleton run i ih =>
    have total : height (run ++ [i]) = height run + i.words := by simp
    by_cases already : floor < height run
    · obtain ⟨earlier, p, inner, rfl, level, inside⟩ := ih already
      have rest : height (earlier ++ push p :: inner) = floor + 1 + height inner := by
        rw [height_append, height_cons, level, words, Int.add_assoc]
      refine ⟨earlier, p, inner ++ [i], by simp, level, fun part h => ?_⟩
      rcases List.prefix_concat_iff.1 h with rfl | h
      · rw [height_append, height_cons, height_nil]
        omega
      · exact inside part h
    · have most := i.words_le_one
      have pushes : 0 < i.words := by omega
      obtain ⟨p, rfl⟩ := words_eq_one pushes
      refine ⟨run, p, [], rfl, by omega, fun part h => ?_⟩
      rw [List.prefix_nil.1 h]
      exact Int.le_refl 0

end Instruction

/-- What a pair keeps of a word: the unused bits of the status byte are lost. -/
def Pair.kept : Pair → Word → Word
  | psw, w => .ofBytes w.high (w.low &&& 0xD5)
  | _, w => w

namespace Registers

/-- The status word drops three bits of what it is given; no other pair drops any. -/
theorem pair_setPair (r : Registers) (p : Pair) (w : Word) : (r.setPair p w).pair p = p.kept w := by
  cases p with
  | psw => exact pair_setPair_psw r w
  | _ => exact pair_setPair_same r _ w (by decide)

/-- A pair takes the word that it gave without a loss. -/
theorem kept_pair (r : Registers) (p : Pair) : p.kept (r.pair p) = r.pair p := by
  rw [← pair_setPair r, setPair_pair]

end Registers

namespace Machine

open Instruction

variable (s : Machine)

theorem sp_perform {i : Instruction} (op : i.isStackOp = true) :
    (s.perform i).registers.sp = s.registers.sp - BitVec.ofInt 16 (2 * i.words) := by
  have formed : i.isWellFormed = true := by
    cases i <;> simp_all [isStackOp, isWellFormed]
  have still : i.movesPointer = false := by
    cases i <;> simp_all [isStackOp, movesPointer]
  rw [← stackChange_eq_words s op]
  exact sp_effect i _ s formed still

theorem read_perform {i : Instruction} {a : Word} (h : a ∉ i.written s) :
    (s.perform i).memory.read a = s.memory.read a :=
  read_effect i _ s a h

/-- The run lemma for the stack pointer, by induction on the sequence. -/
theorem sp_performAll {run : List Instruction} (ops : ∀ i ∈ run, i.isStackOp = true) :
    (s.performAll run).registers.sp = s.registers.sp - BitVec.ofInt 16 (2 * height run) := by
  induction run generalizing s with
  | nil => simp
  | cons i run ih =>
    have first := sp_perform s (ops i (List.mem_cons_self ..))
    have later := ih (s.perform i) fun j hj => ops j (List.mem_cons_of_mem i hj)
    rw [performAll_cons, later, first, sub_two_words, height_cons]

/-- A cell is none of the `count` cells below an address. -/
def Outside (base : Word) (count : Nat) (a : Word) : Prop :=
  ∀ x, 1 ≤ x → x ≤ count → a ≠ base - BitVec.ofNat 16 x

/-- The two cells that a push writes are among those of the words that it makes. -/
theorem outside_push {base a : Word} {most : Nat} (outside : Outside base (2 * most) a) {d : Int}
    (start : 0 ≤ d) (room : d + 1 ≤ most) {sp : Word}
    (pointer : sp = base - BitVec.ofInt 16 (2 * d)) : a ∉ [sp - 1, sp - 2] := by
  obtain ⟨n, rfl⟩ := Int.eq_ofNat_of_zero_le start
  rw [ofInt_words] at pointer
  have high : sp - 1 = base - BitVec.ofNat 16 (2 * n + 1) := by
    rw [pointer]
    bv_omega
  have low : sp - 2 = base - BitVec.ofNat 16 (2 * n + 2) := by
    rw [pointer]
    bv_omega
  rw [high, low]
  simp only [List.mem_cons, List.not_mem_nil, or_false, not_or]
  exact ⟨outside _ (by omega) (by omega), outside _ (by omega) (by omega)⟩

/-- The run lemma, by induction on the sequence from its end, so that the depth before each
instruction is that of the part in front of it. -/
theorem read_performAll {run : List Instruction} (ops : ∀ i ∈ run, i.isStackOp = true)
    {most : Nat} (level : ∀ part, part <+: run → 0 ≤ height part ∧ height part ≤ most) {a : Word}
    (outside : Outside s.registers.sp (2 * most) a) :
    (s.performAll run).memory.read a = s.memory.read a := by
  induction run using List.reverseRecOn with
  | nil => rfl
  | append_singleton run i ih =>
    have earlier : ∀ j ∈ run, j.isStackOp = true := fun j hj => ops j (List.mem_append_left _ hj)
    have op := ops i (List.mem_append_right _ (List.mem_singleton_self i))
    have before := ih earlier fun part h => level part (h.trans (List.prefix_append run [i]))
    have pointer := sp_performAll s earlier
    have free : a ∉ i.written (s.performAll run) := by
      rw [written_stackOp _ op]
      split
      next pushes =>
        obtain ⟨p, rfl⟩ := words_eq_one pushes
        have start := (level run (List.prefix_append run _)).1
        have room := (level _ (List.prefix_refl _)).2
        rw [height_append, height_cons, height_nil, words, Int.add_zero] at room
        exact outside_push outside start room pointer
      next => exact List.not_mem_nil
    rw [performAll_append, performAll_cons, performAll_nil, read_perform _ free, before]

/-- A balanced sequence with room for it leaves the word on top of the stack. -/
theorem top_performAll {run : List Instruction} (ops : ∀ i ∈ run, i.isStackOp = true)
    (balanced : Balanced run) (room : ∀ part, part <+: run → height part ≤ 32767) :
    (s.performAll run).top = s.top := by
  have pointer : (s.performAll run).registers.sp = s.registers.sp := by
    rw [sp_performAll s ops, balanced.settled]
    exact BitVec.sub_zero _
  have level : ∀ part, part <+: run → 0 ≤ height part ∧ height part ≤ (32767 : Nat) :=
    fun part h => ⟨balanced.level part h, room part h⟩
  have low : Outside s.registers.sp (2 * 32767) s.registers.sp := by
    intro x some most
    bv_omega
  have high : Outside s.registers.sp (2 * 32767) (s.registers.sp + 1) := by
    intro x some most
    bv_omega
  rw [top, top, wordAt, wordAt, pointer, read_performAll s ops level low,
    read_performAll s ops level high]

theorem top_perform_push (p : Pair) : (s.perform (.push p)).top = s.registers.pair p :=
  s.top_push _

theorem pair_perform_pop (p : Pair) :
    (s.perform (.pop p)).registers.pair p = p.kept s.top := by
  rw [← Registers.pair_setPair s.drop.registers]
  cases p <;> rfl

/-- A pop has a matching push, after which as much was pushed as popped. -/
theorem exists_matching_push {earlier : List Instruction} {q : Pair}
    (level : 0 ≤ height (earlier ++ [.pop q])) :
    ∃ before p inner, earlier = before ++ .push p :: inner ∧ Balanced inner := by
  rw [height_append, height_cons, height_nil, words] at level
  obtain ⟨before, p, inner, rfl, floor, inside⟩ :=
    exists_push earlier (height earlier - 1) (by omega) (by omega)
  refine ⟨before, p, inner, rfl, ?_, inside⟩
  rw [height_append, height_cons, words] at floor
  omega

/-- What a pop finds is what the push that matches it had put there. -/
theorem pair_matching_pop {before inner : List Instruction} {p : Pair} (q : Pair)
    (ops : ∀ i ∈ inner, i.isStackOp = true) (start : 0 ≤ height before) (balanced : Balanced inner)
    (room : ∀ part, part <+: inner → height (before ++ .push p :: part) ≤ 32768) :
    (s.performAll (before ++ .push p :: (inner ++ [.pop q]))).registers.pair q =
      q.kept ((s.performAll before).registers.pair p) := by
  have inside : ∀ part, part <+: inner → height part ≤ 32767 := by
    intro part h
    have := room part h
    rw [height_append, height_cons, words] at this
    omega
  have top := top_performAll ((s.performAll before).perform (.push p)) ops balanced inside
  simp only [performAll_append, performAll_cons, performAll_nil]
  rw [pair_perform_pop, top, top_perform_push]

/-- Pushes and pops in any order that stays between an empty stack and a full memory. Each pop
matches a push and takes the word that it pushed, the pair of that push getting back just what it
held; the stack pointer moves by the words left; and no cell is written but those of as many words
as were on the stack at once. Steps that fetch such a sequence carry it out. -/
theorem stack_is_lifo (s : Machine) (run : List Instruction)
    (ops : ∀ i ∈ run, i.isStackOp = true)
    (level : ∀ part, part <+: run → 0 ≤ height part ∧ height part ≤ 32768) :
    (∀ earlier q later, run = earlier ++ .pop q :: later →
      ∃ before p inner, earlier = before ++ .push p :: inner ∧ Balanced inner) ∧
    (∀ before p inner q later, run = before ++ .push p :: (inner ++ .pop q :: later) →
      Balanced inner →
      let pushed := (s.performAll before).registers.pair p
      let t := s.performAll (before ++ .push p :: (inner ++ [.pop q]))
      t.registers.pair q = q.kept pushed ∧ (p = q → t.registers.pair p = pushed)) ∧
    (s.performAll run).registers.sp = s.registers.sp - BitVec.ofInt 16 (2 * height run) ∧
    (∀ most : Nat, (∀ part, part <+: run → height part ≤ most) →
      ∀ a, Outside s.registers.sp (2 * most) a →
        (s.performAll run).memory.read a = s.memory.read a) ∧
    ∀ n, (s.history n).map (fun e => e.fetched.instruction) = run →
      s.after n = s.performAll run := by
  refine ⟨?_, ?_, sp_performAll s ops, ?_, ?_⟩
  · rintro earlier q later rfl
    have taken : earlier ++ [.pop q] <+: earlier ++ .pop q :: later := by simp
    exact exists_matching_push (level _ taken).1
  · rintro before p inner q later rfl balanced
    have inside : ∀ i ∈ inner, i.isStackOp = true := fun i hi => ops i (by simp [hi])
    have room (part : List Instruction) (h : part <+: inner) :
        height (before ++ .push p :: part) ≤ 32768 := by
      refine (level _ ?_).2
      obtain ⟨rest, rfl⟩ := h
      simp
    have found := pair_matching_pop s q inside (level _ (List.prefix_append _ _)).1 balanced room
    refine ⟨found, ?_⟩
    rintro rfl
    exact found.trans (Registers.kept_pair _ p)
  · intro most bound a outside
    exact read_performAll s ops (fun part h => ⟨(level part h).1, bound part h⟩) outside
  · rintro n rfl
    exact after_eq_performAll s n

/-- Pushes the status word and then a pair that it pops as one, on a stack that wraps past address
zero. -/
def savedStatus : Machine where
  registers := { Registers.initial 0x0100 with
    a := 0x12, b := 0x34, c := 0x7E, flags := ⟨true, false, true, false, true⟩, sp := 0x0001 }
  memory := Memory.zero.store 0x0100 [0xF5, 0xC5, 0xF1, 0xF1]

theorem stack_is_lifo_savedStatus :
    (savedStatus.after 3).registers.pair .psw = 0x3454 ∧
      (savedStatus.after 4).registers.pair .psw = savedStatus.registers.pair .psw ∧
      (savedStatus.after 4).registers.sp = 0x0001 ∧
      ∀ a, Outside 0x0001 4 a →
        (savedStatus.after 4).memory.read a = savedStatus.memory.read a := by
  let run : List Instruction := [.push .psw, .push .bc, .pop .psw, .pop .psw]
  have three : savedStatus.after 3 = savedStatus.performAll [.push .psw, .push .bc, .pop .psw] := by
    rw [after_eq_performAll]
    congr 1
  have bounds : ∀ part ∈ run.inits, 0 ≤ height part ∧ height part ≤ 2 := by decide
  have balanced : Balanced [.push .bc, .pop .psw] := by
    refine ⟨rfl, fun part h => ?_⟩
    have all : ∀ part ∈ List.inits [.push .bc, .pop .psw], 0 ≤ height part := by decide
    exact all part ((List.mem_inits ..).2 h)
  have level (part : List Instruction) (h : part <+: run) : 0 ≤ height part ∧ height part ≤ 2 :=
    bounds part ((List.mem_inits ..).2 h)
  obtain ⟨-, matched, pointer, frame, steps⟩ :=
    stack_is_lifo savedStatus run (by decide) fun part h => by
      have := level part h
      omega
  have masked := (matched [.push .psw] .bc [] .psw [.pop .psw] rfl ⟨rfl, by simp⟩).1
  have restored := (matched [] .psw [.push .bc, .pop .psw] .psw [] rfl balanced).2 rfl
  rw [three, steps 4 (by decide +kernel)]
  refine ⟨masked.trans (by decide), restored, pointer.trans (by decide), fun a outside => ?_⟩
  exact frame 2 (fun part h => (level part h).2) a outside

end Machine

end Emu8085
