import Emu8085.Proofs.Acceptance

/-!
# Spelled lines are read back

Every spelling of a command, laid out on a line in any way, is read as that command. White space
around the line is cut off before it is read; what is left begins with the first token and ends
with the last one or with a comment.
-/
namespace Emu8085.Script

open Text Script.Parser Grammar

def Closes (t : List Char) : Prop := ∃ c ∈ t.getLast?, isBlank c = false

instance (t : List Char) : Decidable (Closes t) :=
  decidable_of_iff (t.getLast?.any (!isBlank ·) = true) (by
    rw [Closes]
    cases t.getLast? <;> simp)

section

variable {t u : List Char} {ts : List (List Char)}

theorem Closes.prepend (h : Closes t) (u : List Char) : Closes (u ++ t) := by
  obtain ⟨c, last, ink⟩ := h
  exact ⟨c, List.mem_getLast?_append_of_mem_getLast? last, ink⟩

/-- A numeral ends with a digit, which is no white space. -/
theorem Numeral.closes {base n : Nat} (h : Numeral base n t) (small : base ≤ 16)
    (nonempty : t ≠ []) : Closes t := by
  cases h with
  | nil => exact absurd rfl nonempty
  | @digit n d ds letters _ digit =>
    obtain ⟨ink, -, -⟩ := hexDigit_ink letters (Nat.lt_of_lt_of_le digit small)
    exact ⟨_, List.getLast?_concat, ink⟩

theorem AddressText.closes {a : Nat} (h : AddressText a t) : Closes t := by
  obtain ⟨ds, numeral, length, rfl⟩ := h
  refine Closes.prepend (numeral.closes (Nat.le_refl 16) ?_) _
  exact List.ne_nil_of_length_pos (by omega)

theorem ValueText.closes {v : Nat} (h : ValueText v t) : Closes t := by
  obtain ⟨ds, numeral, length, rfl⟩ := h
  refine Closes.prepend (numeral.closes (Nat.le_refl 16) ?_) _
  exact List.ne_nil_of_length_pos (by omega)

theorem CountText.closes {n : Nat} (h : CountText n t) : Closes t :=
  h.1.closes (by decide) h.2

theorem ByteListText.closes {bs : List Byte} (h : ByteListText bs t) : Closes t := by
  induction h with
  | @one b t text =>
    refine text.1.closes (Nat.le_refl 16) (List.ne_nil_of_length_pos ?_)
    rw [text.2]
    decide
  | @more b bs t u blanks _ _ ih =>
    have front : t ++ ',' :: (List.replicate blanks ' ' ++ u) =
        (t ++ ',' :: List.replicate blanks ' ') ++ u := by simp
    rw [front]
    exact ih.prepend _

theorem Source.Text.closes {s : Source} (h : s.Text t) : Closes t := by
  cases s with
  | register r =>
    obtain rfl : t = r.name.toList := h
    cases r <;> decide
  | flag f =>
    obtain rfl : t = f.name.toList := h
    cases f <;> decide
  | memory a => exact AddressText.closes h
  | literal v => exact ValueText.closes h

theorem DescriptionText.closes (h : DescriptionText u t) : Closes t := by
  have mark : Closes "$$".toList := by decide
  cases h with
  | plain => exact mark.prepend u
  | noted => exact (mark.prepend u).prepend _

theorem PredicateTokens.closes {p : Predicate} (h : PredicateTokens p ts) : ∀ t ∈ ts, Closes t := by
  cases h with
  | yes => simpa using (by decide : Closes "true".toList)
  | no => simpa using (by decide : Closes "false".toList)
  | compare rel left right =>
    have symbol : Closes rel.symbol.toList := by cases rel <;> decide
    simp only [List.forall_mem_cons]
    exact ⟨left.closes, symbol, right.closes, List.forall_mem_nil _⟩

theorem StartTokens.closes {start : Option Nat} (h : StartTokens start ts) :
    ∀ t ∈ ts, Closes t := by
  cases h with
  | absent => exact List.forall_mem_nil _
  | present place => simpa using place.closes

theorem StopTokens.closes {stop : Option Predicate} (h : StopTokens stop ts) :
    ∀ t ∈ ts, Closes t := by
  cases h with
  | absent => exact List.forall_mem_nil _
  | present tokens => exact List.forall_mem_cons.2 ⟨by decide, tokens.closes⟩

theorem Spelled.closes {r : Except LineError Command} (h : Spelled r ts) :
    ∀ t ∈ ts, Closes t := by
  cases h with
  | nothing => exact List.forall_mem_nil _
  | run starts stops =>
    rw [List.forall_mem_cons, List.forall_mem_append]
    exact ⟨by decide, starts.closes, stops.closes⟩
  | assert tokens _ text =>
    simp only [List.forall_mem_cons, List.forall_mem_append]
    exact ⟨by decide, tokens.closes, by decide, text.closes, List.forall_mem_nil _⟩
  | reset | step =>
    simp only [List.forall_mem_cons]
    exact ⟨by decide, List.forall_mem_nil _⟩
  | registersShow =>
    simp only [List.forall_mem_cons]
    exact ⟨by decide, by decide, List.forall_mem_nil _⟩
  | marker _ text =>
    simp only [List.forall_mem_cons]
    exact ⟨by decide, by decide, text.closes, List.forall_mem_nil _⟩
  | load place list =>
    simp only [List.forall_mem_cons]
    exact ⟨by decide, place.closes, by decide, list.closes, by decide, List.forall_mem_nil _⟩
  | memoryWrite place list =>
    simp only [List.forall_mem_cons]
    exact ⟨by decide, by decide, place.closes, by decide, list.closes, by decide,
      List.forall_mem_nil _⟩
  | memoryShow place count | memoryShowTooMuch place count =>
    simp only [List.forall_mem_cons]
    exact ⟨by decide, by decide, place.closes, count.closes, List.forall_mem_nil _⟩
  | registersSet r literal =>
    have name : Closes r.name.toList := Source.Text.closes (s := .register r) rfl
    simp only [List.forall_mem_cons]
    exact ⟨by decide, by decide, name, by decide, literal.closes, List.forall_mem_nil _⟩
  | goto place =>
    simp only [List.forall_mem_cons]
    exact ⟨by decide, place.closes, List.forall_mem_nil _⟩
  | disassemble place count | disassembleTooMuch place count =>
    simp only [List.forall_mem_cons]
    exact ⟨by decide, place.closes, count.closes, List.forall_mem_nil _⟩

/-- Every command begins with its keyword. -/
theorem Spelled.opens {r : Except LineError Command} (h : Spelled r (t :: ts)) : Opens t := by
  cases h <;> decide

end

/-- White space at the end of a line, and in a comment before it, leaves nothing to be read. -/
theorem over_trimEnd {gap note trail : List Char} (gaps : ∀ c ∈ gap, isGap c = true)
    (comment : note = [] ∨ IsComment note) (blank : ∀ c ∈ trail, isBlank c = true) :
    Over (trimEnd (gap ++ (note ++ trail))) := by
  obtain rfl | ⟨text, inside, rfl⟩ := comment
  · have blanks : ∀ c ∈ gap ++ ([] ++ trail), isBlank c = true := by
      rw [List.nil_append, List.forall_mem_append]
      exact ⟨fun c h => isBlank_of_isGap (gaps c h), blank⟩
    rw [trimEnd_of_blank blanks]
    rfl
  · have slashes : Closes (gap ++ "//".toList) := Closes.prepend (by decide) gap
    have left : ∀ c ∈ trimEnd (text ++ trail), endsLine c = false := by
      intro c member
      rw [trimEnd, List.reverse_append, trimStart_append (by simpa using blank),
        List.mem_reverse] at member
      exact inside c (List.mem_reverse.1 ((List.dropWhile_suffix _).subset member))
    have whole : gap ++ ("//".toList ++ text ++ trail) =
        gap ++ "//".toList ++ (text ++ trail) := by simp only [List.append_assoc]
    have skipped : Skipped [] (gap ++ ("//".toList ++ trimEnd (text ++ trail) ++ [])) :=
      .comment gaps ⟨_, left, rfl⟩ (by rintro _ ⟨⟩)
    rw [List.append_nil, ← List.append_assoc] at skipped
    rw [whole, trimEnd_append slashes]
    exact afterGap_of_skipped skipped

theorem Spread.closes {ts : List (List Char)} {body : List Char} (h : Spread ts body)
    (closes : ∀ t ∈ ts, Closes t) (nonempty : ts ≠ []) : Closes body := by
  induction h with
  | nil => exact absurd rfl nonempty
  | @cons g t rest ts blanks spread ih =>
    obtain ⟨first, others⟩ := List.forall_mem_cons.1 closes
    refine Closes.prepend ?_ g
    cases ts with
    | nil =>
      cases spread
      rwa [List.append_nil]
    | cons u us => exact (ih others (List.cons_ne_nil _ _)).prepend t

/-- Trimming a line takes off nothing that belongs to its tokens. -/
theorem exists_before_trim {ts : List (List Char)} {line : List Char} (laid : Laid ts line)
    (opens : ∀ t ∈ ts.head?, Opens t) (closes : ∀ t ∈ ts, Closes t) :
    ∃ rest, Before ts (trim line) rest ∧ Over rest := by
  obtain ⟨lead, body, gap, note, trail, blankLead, spread, gaps, comment, blankTrail, rfl⟩ := laid
  rw [trim, trimStart_append blankLead]
  cases spread with
  | nil =>
    refine ⟨_, Before.nil_iff.2 rfl, ?_⟩
    rw [List.nil_append, trimStart_append fun c h => isBlank_of_isGap (gaps c h)]
    obtain rfl | comment := comment
    · have nothing : trimStart ([] ++ trail) = [] := List.dropWhile_eq_nil_iff.2 blankTrail
      rw [nothing]
      rfl
    · have front : trimStart (note ++ trail) = note ++ trail := by
        obtain ⟨text, -, rfl⟩ := comment
        exact trimStart_of_head (by rintro _ ⟨⟩; decide)
      rw [front]
      exact over_trimEnd (List.forall_mem_nil _) (.inr comment) blankTrail
  | @cons g t more ts blanks spread =>
    have packed : Spread (t :: ts) (t ++ more) := .cons (List.forall_mem_nil _) spread
    have front : trimStart (g ++ (t ++ more) ++ (gap ++ (note ++ trail))) =
        t ++ more ++ (gap ++ (note ++ trail)) := by
      obtain ⟨c, first, ink, -⟩ := ((opens t rfl).append more).append (gap ++ (note ++ trail))
      rw [List.append_assoc, trimStart_append fun c h => isBlank_of_isGap (blanks c h)]
      exact trimStart_of_head fun d head => Option.mem_unique first head ▸ ink
    rw [front, trimEnd_append (packed.closes closes (List.cons_ne_nil _ _))]
    exact ⟨_, ⟨_, packed, rfl⟩, over_trimEnd gaps comment blankTrail⟩

/-- A line may hold nothing, which asks for nothing. -/
theorem accepts_optional_command {r : Except LineError Command} {ts : List (List Char)}
    (h : Spelled r ts) : ∃ found, Accepts (optional command) found ts Over ∧
      found.getD (.ok .nothing) = r := by
  cases ts with
  | nil =>
    cases h
    exact ⟨none, .optional_none rejects_command_over, rfl⟩
  | cons t ts => exact ⟨some r, (accepts_command h (List.cons_ne_nil _ _)).optional_some, rfl⟩

/-- A spelled line is read as what it spells, a count that is too large included. -/
theorem ofLine_of_laid {r : Except LineError Command} {ts : List (List Char)} {line : List Char}
    (h : Spelled r ts) (laid : Laid ts line) : Command.ofLine line = r := by
  have opens : ∀ t ∈ ts.head?, Opens t := by
    cases ts with
    | nil => rintro _ ⟨⟩
    | cons t ts =>
      rintro _ ⟨⟩
      exact h.opens
  obtain ⟨rest, before, ended⟩ := exists_before_trim laid opens h.closes
  obtain ⟨found, accepted, rfl⟩ := accepts_optional_command h
  have finished : finish rest = some ((), []) := by
    rw [finish, ended]
  have all : Grammar.line (trim line) = some (found.getD (.ok .nothing), []) := by
    rw [Grammar.line, bind_of_eq_some (accepted _ rest before ended), bind_of_eq_some finished]
    rfl
  rw [Command.ofLine, all]

/-- The commands that have a spelling are those whose numbers fit in their digits and whose
description can stand between marks. Whatever spelling is chosen, and however it is laid out, the
line asks for that command and no other. -/
theorem written_line_reads_back (c : Command) : ((∃ line, c.WrittenOn line) ↔ c.IsScriptable) ∧
    ∀ line, c.WrittenOn line → Command.ofLine line = .ok c := by
  refine ⟨exists_writtenOn_iff c, ?_⟩
  rintro line ⟨ts, spelled, laid⟩
  exact ofLine_of_laid spelled laid

def guardedRun : Command :=
  .run (some (.compare (.register .bc) .different (.literal 0x0A))) (some 0x1F0A) defaultMaxSteps

/-- The same with touching tokens, digits in both cases, a comment and a carriage return. -/
def guardedRunLine : List Char := "\t run#0x1F0auntil\tBC!=0x0a // slow \r\n".toList

theorem written_line_reads_back_squeezed :
    guardedRun.WrittenOn guardedRunLine ∧ Command.ofLine guardedRunLine = .ok guardedRun := by
  have start : AddressText 0x1F0A "#0x1F0a".toList :=
    ⟨"1F0a".toList, (numberAfter_eq_some_iff (by decide)).1 rfl, rfl, rfl⟩
  have literal : ValueText 0x0A "0x0a".toList :=
    ⟨"0a".toList, (numberAfter_eq_some_iff (by decide)).1 rfl, .inr rfl, rfl⟩
  have stop : PredicateTokens (.compare (.register .bc) .different (.literal 0x0A))
      ["BC".toList, "!=".toList, "0x0a".toList] := .compare .different rfl literal
  have none : ∀ c ∈ ([] : List Char), isGap c = true := List.forall_mem_nil _
  have tab : ∀ c ∈ "\t".toList, isGap c = true := List.all_eq_true.1 rfl
  have note : ∀ c ∈ " slow".toList, endsLine c = false := by simp [endsLine]
  have spread := Spread.cons (t := "run".toList) none <| .cons (t := "#0x1F0a".toList) none <|
    .cons (t := "until".toList) none <| .cons (t := "BC".toList) tab <|
    .cons (t := "!=".toList) none <| .cons (t := "0x0a".toList) none .nil
  have written : guardedRun.WrittenOn guardedRunLine :=
    ⟨_, .run (.present start) (.present stop), "\t ".toList, _, " ".toList, "// slow".toList,
      " \r\n".toList, List.all_eq_true.1 rfl, spread, List.all_eq_true.1 rfl,
      .inr ⟨" slow".toList, note, rfl⟩, List.all_eq_true.1 rfl, rfl⟩
  exact ⟨written, (written_line_reads_back guardedRun).2 guardedRunLine written⟩

end Emu8085.Script
