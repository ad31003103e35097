import Emu8085.Proofs.LineRoundTrip
import Emu8085.Proofs.Recognition
import Emu8085.Proofs.Refusal

/-!
# What a line can ask for

A line that is read as a command is one of its spellings, so the command has all that a spelling
gives it: addresses and values of sixteen bits, counts that are the numbers written, descriptions
that stand between marks. What is left of the errors of commands is then short (`Refusal`): ranges
that run past the end of memory, values too wide for their register and steps after a halt.
-/
namespace Emu8085.Script

open Text Script.Parser Grammar

/-- What a gap leaves nothing behind of, and what was trimmed off, is white space and a comment. -/
theorem laid_of_before {ts : List (List Char)} {line rest : List Char}
    (before : Before ts (trim line) rest) (ended : Over rest) : Laid ts line := by
  obtain ⟨lead, trail, blankLead, blankTrail, whole⟩ := exists_trim line
  obtain ⟨body, spread, split⟩ := before
  rw [split] at whole
  cases afterGap_eq_iff.1 ended with
  | @blanks gap gaps =>
    exact ⟨lead, body, gap, [], trail, blankLead, spread, gaps, .inl rfl, blankTrail, by
      simpa using whole⟩
  | @comment gap note gaps comment =>
    exact ⟨lead, body, gap, note, trail, blankLead, spread, gaps, .inr comment, blankTrail, by
      simpa using whole⟩

/-- Lines are read as just what they spell, unless they spell nothing. -/
theorem ofLine_eq_iff {r : Except LineError Command} (formed : r ≠ .error .malformed)
    (line : List Char) : Command.ofLine line = r ↔ ∃ ts, Spelled r ts ∧ Laid ts line := by
  constructor
  · intro h
    rw [Command.ofLine] at h
    split at h
    · next result rest run =>
      obtain ⟨found, mid, first, run⟩ := bind_eq_some_iff.1 run
      obtain ⟨_, _, finished, ⟨⟩⟩ := bind_eq_some_iff.1 run
      have reads : Reads (optional command) fun found => Spelled (found.getD (.ok .nothing)) :=
        .optional .nothing reads_command
      obtain ⟨ts, spelled, before⟩ := reads (trim line) found mid first
      have ended : Over mid := by
        rw [finish] at finished
        split at finished
        · next nothing => exact nothing
        · cases finished
      exact ⟨ts, h ▸ spelled, laid_of_before before ended⟩
    · exact absurd h.symm formed
  · rintro ⟨ts, spelled, laid⟩
    exact ofLine_of_laid spelled laid

def Source.addresses : Source → List Nat
  | memory address => [address]
  | _ => []

def Predicate.addresses : Predicate → List Nat
  | constant _ => []
  | compare left _ right => left.addresses ++ right.addresses

def Command.comparedAddresses : Command → List Nat
  | assert condition _ | run (some condition) _ _ => condition.addresses
  | _ => []

/-- The errors that a command from a script can give. -/
inductive Refusal (s : Machine) : Command → CommandError → Prop
  | load {address : Nat} {program : List Byte} : Memory.size < address + program.length →
      Refusal s (.load address program) (.control (.programTooLarge address program.length))
  | memoryWrite {address : Nat} {bytes : List Byte} : Memory.size < address + bytes.length →
      Refusal s (.memoryWrite address bytes) (.pastTheEnd bytes.length address)
  | registersSet {register : Register} {value : Nat} : register.isWide = false → 0xFF < value →
      Refusal s (.registersSet register value) (.tooWide value 8)
  | step : s.isHalted = true → Refusal s .step (.control (.halted s.registers.pc))

namespace Command

/-- An address that a condition compares was spelled in four digits. -/
theorem lt_of_mem_comparedAddresses {c : Command} (h : c.IsScriptable) {a : Nat}
    (member : a ∈ c.comparedAddresses) : a < 0x10000 := by
  have source : ∀ s : Source, s.IsScriptable → a ∈ s.addresses → a < 0x10000 := by
    intro s scriptable member
    cases s with
    | memory b =>
      obtain rfl := List.mem_singleton.1 member
      exact scriptable
    | register r | flag f | literal v => exact absurd member List.not_mem_nil
  have predicate : ∀ p : Predicate, p.IsScriptable → a ∈ p.addresses → a < 0x10000 := by
    intro p scriptable member
    cases p with
    | constant v => exact absurd member List.not_mem_nil
    | compare left _ right =>
      rcases List.mem_append.1 member with member | member
      · exact source left scriptable.1 member
      · exact source right scriptable.2 member
  cases c with
  | assert condition description => exact predicate condition h.1 member
  | run stop start maxSteps =>
    cases stop with
    | none => exact absurd member List.not_mem_nil
    | some condition => exact predicate condition (h.1 condition rfl) member
  | _ => exact absurd member List.not_mem_nil

/-- The cell that a condition compares is the one that it names: no address is cut. -/
theorem value_of_mem_comparedAddresses {c : Command} (h : c.IsScriptable) (s : Machine) {a : Nat}
    (member : a ∈ c.comparedAddresses) : ∃ address : Word, address.toNat = a ∧
      (Source.memory a).value s = (s.memory.read address).toNat := by
  refine ⟨BitVec.ofNat 16 a, ?_, rfl⟩
  rw [BitVec.toNat_ofNat, Nat.mod_eq_of_lt (lt_of_mem_comparedAddresses h member)]

section

variable {s : Machine} {c : Command}

theorem result_of_refusal {e : CommandError} (h : c.IsScriptable) (refusal : Refusal s c e) :
    (c.execute s).result = .error e := by
  cases refusal with
  | load long =>
    simp only [execute, s.load_of_lt_length h.1 long]
    rfl
  | memoryWrite long =>
    rw [execute, executeWrite, if_pos long]
    rfl
  | @registersSet register value narrow wide =>
    have limit : register.limit = 0x100 := by simp [Register.limit, narrow]
    have bits : register.bits = 8 := by simp [Register.bits, narrow]
    rw [execute, executeSet, limit, bits, if_neg (by omega)]
    rfl
  | step halted =>
    simp only [execute, Machine.advance, if_pos halted]
    rfl

/-- The numbers of a script leave few reasons to refuse a command. -/
theorem exists_refusal (h : c.IsScriptable) (forbidden : c.isAllowed s = false) :
    ∃ e, Refusal s c e := by
  cases c with
  | load address program =>
    refine ⟨_, .load (Nat.lt_of_not_le fun fits => ?_)⟩
    exact of_decide_eq_false forbidden ⟨h.1, fits⟩
  | memoryWrite address bytes =>
    exact ⟨_, .memoryWrite (Nat.lt_of_not_le (of_decide_eq_false forbidden))⟩
  | registersSet register value =>
    have exceeds : ¬ value < register.limit := of_decide_eq_false forbidden
    have word : value < 0x10000 := h
    rw [Register.limit] at exceeds
    split at exceeds
    · exact absurd word exceeds
    · next narrow => exact ⟨_, .registersSet (Bool.eq_false_iff.2 narrow) (by omega)⟩
  | step => exact ⟨_, .step (by simpa [isAllowed] using forbidden)⟩
  | goto address =>
    have place : address < 0x10000 := h
    exact absurd place (of_decide_eq_false forbidden)
  | disassemble start count | memoryShow start count =>
    exact absurd h.1 (of_decide_eq_false forbidden)
  | run stop start maxSteps =>
    cases start with
    | none => cases forbidden
    | some address => exact absurd (h.2.1 address rfl) (of_decide_eq_false forbidden)
  | assert | marker | nothing | registersShow | reset => cases forbidden

/-- The errors of a command from a script are those of `Refusal`, each of which can arise. -/
theorem error_iff_refusal (h : c.IsScriptable) (s : Machine) (e : CommandError) :
    (c.execute s).result = .error e ↔ Refusal s c e := by
  constructor
  · intro failed
    obtain ⟨e', refusal⟩ := exists_refusal h ((error_iff s c).1 ⟨e, failed⟩)
    rw [result_of_refusal h refusal] at failed
    cases failed
    exact refusal
  · exact result_of_refusal h

end

end Command

/-- A line that is read as a command spells it, so its addresses and values have sixteen bits, its
byte list is not empty, its count is the number written, its description can stand between marks. A
condition then reads the cells that it names, and the command can fail only as `Refusal` says. A
count that does not fit is an error that quotes its digits. -/
theorem lines_ask_within_limits (line : List Char) :
    (∀ c, Command.ofLine line = .ok c → c.WrittenOn line ∧ c.IsScriptable ∧
      (∀ s, ∀ a ∈ c.comparedAddresses, ∃ address : Word, address.toNat = a ∧
        (Source.memory a).value s = (s.memory.read address).toNat) ∧
      ∀ s e, (c.execute s).result = .error e ↔ Refusal s c e) ∧
    ∀ digits, Command.ofLine line = .error (.countTooLarge digits) ↔
      ∃ ts, Spelled (.error (.countTooLarge digits)) ts ∧ Laid ts line := by
  constructor
  · intro c h
    obtain ⟨ts, spelled, laid⟩ := (ofLine_eq_iff (by simp) line).1 h
    have scriptable := isScriptable_of_spelled spelled
    exact ⟨⟨ts, spelled, laid⟩, scriptable,
      fun s a member => Command.value_of_mem_comparedAddresses scriptable s member,
      fun s e => Command.error_iff_refusal scriptable s e⟩
  · intro digits
    exact ofLine_eq_iff (by simp) line

/-- A value that is one too large for its register. -/
def wideSetLine : List Char := "registers set A=0x0100".toList

theorem lines_ask_within_limits_tooWide :
    Command.ofLine wideSetLine = .ok (.registersSet .a 0x100) ∧
      ∀ s, ((Command.registersSet .a 0x100).execute s).result = .error (.tooWide 0x100 8) := by
  have literal : ValueText 0x100 "0x0100".toList :=
    ⟨"0100".toList, (numberAfter_eq_some_iff (by decide)).1 rfl, .inl rfl, rfl⟩
  have none : ∀ c ∈ ([] : List Char), isGap c = true := List.forall_mem_nil _
  have space : ∀ c ∈ " ".toList, isGap c = true := List.all_eq_true.1 rfl
  have spread := Spread.cons (t := "registers".toList) none <| .cons (t := "set".toList) space <|
    .cons (t := "A".toList) space <| .cons (t := "=".toList) none <|
    .cons (t := "0x0100".toList) none .nil
  have laid : Laid _ wideSetLine :=
    ⟨[], _, [], [], [], List.forall_mem_nil _, spread, none, .inl rfl, List.forall_mem_nil _, rfl⟩
  have read : Command.ofLine wideSetLine = .ok (.registersSet .a 0x100) :=
    ofLine_of_laid (.registersSet .a literal) laid
  obtain ⟨-, -, -, errors⟩ := (lines_ask_within_limits wideSetLine).1 _ read
  exact ⟨read, fun s => (errors s _).2 (.registersSet rfl (by decide))⟩

end Emu8085.Script
