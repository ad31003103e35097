import Emu8085.Proofs.FlagLaw
import Emu8085.Proofs.Operations
import Emu8085.Proofs.RunLength
import Emu8085.Proofs.StackOrder

/-!
# The status byte

The flags as the bits of one byte. Every operation edits that byte by masks: it sets or clears the
bit of one flag, or stores a byte without its unused bits (`StatusEdit`). Each edit does to the byte
what it does to the flags, so the byte is at every time the one that the flags pack into, and
whoever reads it, pushes it or takes it apart finds the same five flags.
-/
namespace Emu8085

open Script

namespace Script.Flag

def mask : Flag → Byte
  | sign => 0x80
  | zero => 0x40
  | auxCarry => 0x10
  | parity => 0x04
  | carry => 0x01

def isIn (k : Flag) (b : Byte) : Bool := b &&& k.mask == k.mask

def putIn (k : Flag) (on : Bool) (b : Byte) : Byte := if on then b ||| k.mask else b &&& ~~~ k.mask

theorem isSet_put (f : Flags) (on : Bool) (k q : Flag) :
    q.isSet (f.put on k) = if q = k then on else q.isSet f := by
  cases k <;> cases q <;> rfl

end Script.Flag

namespace Flags

/-- Flags are known by the five questions that can be asked of them. -/
theorem ext_isSet {f g : Flags} (h : ∀ k : Flag, k.isSet f = k.isSet g) : f = g := by
  cases f
  cases g
  rw [Flags.mk.injEq]
  exact ⟨h .sign, h .zero, h .auxCarry, h .parity, h .carry⟩

/-- Setting or clearing a flag is setting or clearing its bit of the packed byte. -/
theorem status_put (f : Flags) (on : Bool) (k : Flag) :
    (f.put on k).status = k.putIn on f.status := by
  obtain ⟨s, z, a, p, c⟩ := f
  revert on s z a p c
  cases k <;> decide

theorem isIn_status (f : Flags) (k : Flag) : k.isIn f.status = k.isSet f := by
  obtain ⟨s, z, a, p, c⟩ := f
  revert s z a p c
  cases k <;> decide

/-- The unused bits of a packed byte are clear. -/
theorem unused_status (f : Flags) :
    f.status.getLsbD 5 = false ∧ f.status.getLsbD 3 = false ∧ f.status.getLsbD 1 = false := by
  obtain ⟨s, z, a, p, c⟩ := f
  revert s z a p c
  decide

end Flags

inductive StatusEdit where
  | put (k : Flag) (on : Bool)
  | store (b : Byte)
  deriving DecidableEq, Repr

namespace StatusEdit

def onByte (b : Byte) : StatusEdit → Byte
  | put k on => k.putIn on b
  | store v => v &&& 0xD5

def onFlags (f : Flags) : StatusEdit → Flags
  | put k on => f.put on k
  | store v => .ofStatus v

/-- The step lemma of the simulation: an edit of the byte is the same edit of the flags. -/
theorem status_onFlags (f : Flags) (e : StatusEdit) : (e.onFlags f).status = e.onByte f.status := by
  cases e with
  | put k on => exact f.status_put on k
  | store v => exact Flags.status_ofStatus v

/-- The run lemma of the simulation, by induction on the edits. -/
theorem status_foldl (edits : List StatusEdit) (f : Flags) :
    (edits.foldl onFlags f).status = edits.foldl onByte f.status := by
  induction edits generalizing f with
  | nil => rfl
  | cons e edits ih => rw [List.foldl_cons, List.foldl_cons, ih, status_onFlags]

/-- Puts the flags of a list as `g` has them. -/
def puts (g : Flags) (ks : List Flag) : List StatusEdit := ks.map fun k => put k (k.isSet g)

/-- Putting the flags of a list one by one leaves the others alone. -/
theorem isSet_foldl_puts (f g : Flags) (ks : List Flag) (q : Flag) :
    q.isSet ((puts g ks).foldl onFlags f) = if q ∈ ks then q.isSet g else q.isSet f := by
  induction ks generalizing f with
  | nil => rfl
  | cons k ks ih =>
    have step : (puts g (k :: ks)).foldl onFlags f =
        (puts g ks).foldl onFlags (f.put (k.isSet g) k) := rfl
    rw [step, ih, Flag.isSet_put]
    by_cases same : q = k <;> simp [same]

/-- Flags that differ in nothing else are changed into `g`. -/
theorem foldl_puts {f g : Flags} {ks : List Flag}
    (h : ∀ k : Flag, k ∉ ks → k.isSet g = k.isSet f) : (puts g ks).foldl onFlags f = g := by
  refine Flags.ext_isSet fun k => ?_
  rw [isSet_foldl_puts]
  split
  · rfl
  next other => exact (h k other).symm

end StatusEdit

namespace Instruction

/-- The flags that an instruction sets or clears one by one, in that order. -/
def editedFlags (i : Instruction) : List Flag :=
  (if i.setsAuxCarry then [.auxCarry] else []) ++ (if i.setsCarry then [.carry] else []) ++
    (if i.setsJudgement then [.sign, .zero, .parity] else [])

/-- What an instruction does to the status byte, from the state before it. -/
def statusEdits (i : Instruction) (s : Machine) : List StatusEdit :=
  match i with
  | pop .psw => [.store s.top.low]
  | _ => StatusEdit.puts (i.flagsAfter s) i.editedFlags

/-- An instruction keeps the flags that are not in its list. -/
theorem isSet_flagsAfter {i : Instruction} (s : Machine) {k : Flag} (h : k ∉ i.editedFlags) :
    k.isSet (i.flagsAfter s) = k.isSet s.registers.flags := by
  cases k with
  | carry => exact i.carry_flagsAfter s (by simpa [editedFlags] using h)
  | auxCarry => exact i.auxCarry_flagsAfter s (by simpa [editedFlags] using h)
  | sign => exact (i.judgement_flagsAfter s (by simpa [editedFlags] using h)).1
  | zero => exact (i.judgement_flagsAfter s (by simpa [editedFlags] using h)).2.1
  | parity => exact (i.judgement_flagsAfter s (by simpa [editedFlags] using h)).2.2

/-- What an instruction does to the flags is what its edits do, in their order. -/
theorem foldl_statusEdits (i : Instruction) (s : Machine) :
    (i.statusEdits s).foldl StatusEdit.onFlags s.registers.flags = i.flagsAfter s := by
  unfold statusEdits
  split
  · rfl
  · exact StatusEdit.foldl_puts fun k => isSet_flagsAfter s

end Instruction

namespace Machine

/-- What `n` steps do to the status byte. -/
def statusEdits (s : Machine) (n : Nat) : List StatusEdit :=
  (List.range n).flatMap fun k => (s.after k).fetched.instruction.statusEdits (s.after k)

/-- By induction on the steps, each of which makes its own edits. -/
theorem flags_after (s : Machine) (n : Nat) : (s.after n).registers.flags =
    (s.statusEdits n).foldl StatusEdit.onFlags s.registers.flags := by
  induction n with
  | zero => rfl
  | succ n ih =>
    rw [after_succ, flags_step, ← Instruction.foldl_statusEdits, ih, ← List.foldl_append]
    simp [statusEdits, List.range_succ]

/-- A halted machine takes no step. -/
def stepEdits (s : Machine) : List StatusEdit := if s.isHalted then [] else s.statusEdits 1

def runEdits (s : Machine) (stop : Machine → Bool) (budget : Nat) : List StatusEdit :=
  s.statusEdits (s.runUntil stop budget).1.steps

/-- What a run from an address does, if there is such an address. -/
def runFromEdits (s : Machine) (address : Nat) (stop : Machine → Bool) (budget : Nat) :
    List StatusEdit :=
  match s.goto address with
  | .ok t => t.runEdits stop budget
  | .error _ => []

end Machine

def Operation.statusEdits (s : Machine) : Operation → List StatusEdit
  | reset => [.store 0]
  | step => s.stepEdits
  | run budget => s.runEdits (fun _ => false) budget
  | runUntil stop budget => s.runEdits stop budget
  | runFrom address budget => s.runFromEdits address (fun _ => false) budget
  | assign .f value => if value < Register.f.limit then [.store (BitVec.ofNat 8 value)] else []
  | writeFlag k on => [.put k on]
  | judge result =>
    [.put .sign result.msb, .put .zero (result == 0), .put .parity (evenParity result)]
  | writePair p w => if p = .psw then [.store w.low] else []
  | writeStatus b => [.store b]
  | load _ _ | goto _ | poke _ _ | look | assign _ _ => []

namespace Machine

variable {s t : Machine}

theorem flags_advance {kind : StepKind} {entry : Entry} (h : s.advance = .ok (kind, entry, t)) :
    t.registers.flags = s.stepEdits.foldl StatusEdit.onFlags s.registers.flags := by
  rw [advance] at h
  split at h
  · cases h
  next running =>
    cases h
    rw [stepEdits, if_neg running]
    exact s.flags_after 1

theorem stepEdits_of_refused {e : ControlError} (h : s.advance = .error e) : s.stepEdits = [] := by
  rw [advance] at h
  split at h
  next halted => exact if_pos halted
  next => cases h

/-- A run edits the byte as its steps do, as many as it takes. -/
theorem flags_runUntil (s : Machine) (stop : Machine → Bool) (budget : Nat) :
    (s.runUntil stop budget).2.registers.flags =
      (s.runEdits stop budget).foldl StatusEdit.onFlags s.registers.flags := by
  obtain ⟨n, -, run⟩ := exists_runUntil_eq stop budget s
  rw [runEdits, run, Report.steps, length_history, flags_after]

theorem flags_of_goto {address : Nat} (h : s.goto address = .ok t) :
    t.registers.flags = s.registers.flags := by
  rw [(goto_eq_ok_iff.1 h).2, resumeAt]

theorem flags_of_load {program : List Byte} {start : Nat} (h : s.load program start = .ok t) :
    t.registers.flags = s.registers.flags := by
  rw [(load_eq_ok_iff.1 h).2, resumeAt]

theorem flags_moved {address : Nat} (h : s.goto address = .ok t) (stop : Machine → Bool)
    (budget : Nat) : (t.runUntil stop budget).2.registers.flags =
      (s.runFromEdits address stop budget).foldl StatusEdit.onFlags s.registers.flags := by
  rw [runFromEdits, h, flags_runUntil, flags_of_goto h]

theorem runFromEdits_of_refused {address : Nat} {e : ControlError} (h : s.goto address = .error e)
    (stop : Machine → Bool) (budget : Nat) : s.runFromEdits address stop budget = [] := by
  rw [runFromEdits, h]

variable (s)

/-- The status register is the only one that edits the byte. -/
theorem flags_assign (register : Register) (value : Nat) :
    (s.operate (.assign register value)).1.registers.flags =
      ((Operation.assign register value).statusEdits s).foldl StatusEdit.onFlags
        s.registers.flags := by
  by_cases fits : value < register.limit
  · rw [operate, if_pos fits]
    cases register with
    | f =>
      rw [Operation.statusEdits, if_pos fits]
      rfl
    | _ => rfl
  · rw [operate, if_neg fits]
    cases register with
    | f =>
      rw [Operation.statusEdits, if_neg fits]
      rfl
    | _ => rfl

/-- The step lemma: an operation does to the flags what its edits do. -/
theorem flags_operate (op : Operation) : (s.operate op).1.registers.flags =
    (op.statusEdits s).foldl StatusEdit.onFlags s.registers.flags := by
  cases op with
  | reset | look | writeFlag | judge | writeStatus => rfl
  | load program start =>
    rw [operate]
    split
    next loaded => exact flags_of_load loaded
    next => rfl
  | goto address =>
    rw [operate]
    split
    next moved => exact flags_of_goto moved
    next => rfl
  | poke address value =>
    rw [operate]
    split
    next poked => exact congrArg Registers.flags (registers_of_poke poked)
    next => rfl
  | step =>
    rw [operate, Operation.statusEdits]
    split
    next advanced => exact flags_advance advanced
    next refused =>
      rw [stepEdits_of_refused refused]
      rfl
  | run budget => exact flags_runUntil s _ budget
  | runUntil stop budget => exact flags_runUntil s stop budget
  | runFrom address budget =>
    rw [operate, Operation.statusEdits, runFrom]
    cases moved : s.goto address with
    | ok t => exact flags_moved moved _ budget
    | error e =>
      rw [runFromEdits_of_refused moved]
      rfl
  | assign register value => exact flags_assign s register value
  | writePair p w => cases p <;> rfl

def allEdits (s : Machine) : List Operation → List StatusEdit
  | [] => []
  | op :: ops => op.statusEdits s ++ (s.operate op).1.allEdits ops

/-- The run lemma, by induction on the operations. -/
theorem flags_operateAll (ops : List Operation) : (s.operateAll ops).1.registers.flags =
    (s.allEdits ops).foldl StatusEdit.onFlags s.registers.flags := by
  induction ops generalizing s with
  | nil => rfl
  | cons op ops ih => rw [operateAll_cons, ih, flags_operate, allEdits, List.foldl_append]

/-- The word that `PUSH PSW` leaves on the stack has the status byte as its low byte. -/
theorem read_push_status : (s.perform (.push .psw)).memory.read (s.registers.sp - 2) =
    s.registers.flags.status := by
  have stored : (s.perform (.push .psw)).memory.read (s.registers.sp - 2) =
      (s.registers.pair .psw).low := Memory.read_write_same _ _ _
  rw [stored, Registers.pair, Word.low_ofBytes]

/-- What a pop takes off after a push is the accumulator and the flags that were there. -/
theorem status_word_restored : let t := s.performAll [.push .psw, .pop .psw]
    t.registers.a = s.registers.a ∧ t.registers.flags = s.registers.flags := by
  have popped (u : Machine) : (u.perform (.pop .psw)).registers.a = u.top.high ∧
      (u.perform (.pop .psw)).registers.flags = .ofStatus u.top.low := ⟨rfl, rfl⟩
  simp only [performAll_cons, performAll_nil, popped, top_perform_push, Registers.pair,
    Word.high_ofBytes, Word.low_ofBytes, Flags.ofStatus_status, and_self]

/-- The status byte, whatever operations and commands edit it, keeps its unused bits clear and is
the one that the five flags pack into: every accessor reads its flag, conditions see that number,
and a pushed status word holds it and gives the accumulator and the flags back. -/
theorem status_byte_packs_flags (requests : List Request) :
    let s := (initial.serveAll requests).1
    let edits := initial.allEdits (requests.flatMap Request.operations)
    let b := edits.foldl StatusEdit.onByte 0
    (b.getLsbD 5 = false ∧ b.getLsbD 3 = false ∧ b.getLsbD 1 = false) ∧
      (∀ k : Flag, k.isIn b = k.isSet s.registers.flags) ∧
      b.toNat = 128 * (Flag.sign.isIn b).toNat + 64 * (Flag.zero.isIn b).toNat +
        16 * (Flag.auxCarry.isIn b).toNat + 4 * (Flag.parity.isIn b).toNat +
        (Flag.carry.isIn b).toNat ∧
      (Source.register .f).value s = b.toNat ∧
      (s.perform (.push .psw)).memory.read (s.registers.sp - 2) = b ∧
      let t := s.performAll [.push .psw, .pop .psw]
      t.registers.a = s.registers.a ∧ t.registers.flags = s.registers.flags := by
  intro s edits b
  have packed : b = s.registers.flags.status := by
    have flags : s.registers.flags = edits.foldl StatusEdit.onFlags initial.registers.flags := by
      rw [← flags_operateAll, ← serveAll_eq]
    rw [flags, StatusEdit.status_foldl]
    rfl
  rw [packed]
  refine ⟨Flags.unused_status _, Flags.isIn_status _, ?_, rfl, s.read_push_status,
    s.status_word_restored⟩
  simp only [Flags.isIn_status]
  exact Flags.toNat_status _

end Machine

end Emu8085
