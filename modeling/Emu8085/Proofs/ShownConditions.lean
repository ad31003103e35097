import Emu8085.Proofs.LineContent

/-!
# Conditions as they are shown

A condition is shown in the words of a script, and they are read back as the condition, but for a
literal of three digits: literals have two digits or four, so its last digit is left over and ends
the line as malformed (`Spare`).
-/
namespace Emu8085.Script

open Text Script.Parser Grammar

/-- A literal of three digits, which is what neither fits in two nor fills four. -/
def Source.hasThreeDigits : Source → Bool
  | literal v => decide (0x100 ≤ v ∧ v < 0x1000)
  | _ => false

def Predicate.hasThreeDigits : Predicate → Bool
  | constant _ => false
  | compare left _ right => left.hasThreeDigits || right.hasThreeDigits

def Predicate.words : Predicate → List (List Char)
  | constant value => [(constant value).text.toList]
  | compare left relation right =>
    [left.text.toList, relation.symbol.toList, right.text.toList]

def Command.condition? : Command → Option Predicate
  | assert condition _ => some condition
  | run stop _ _ => stop
  | _ => none

section

variable {s : Source} {ds t : List Char} {n : Nat}

/-- Two digits or four are what a literal is spelled with, and it is shown with at least two. -/
theorem Source.text_of_isScriptable (h : s.IsScriptable) (fits : s.hasThreeDigits = false) :
    s.Text s.text.toList := by
  cases s with
  | register r | flag f => rfl
  | memory a =>
    have length : hexLength a ≤ 4 := hexLength_le_iff.2 h
    refine ⟨_, numeral_hex .upper 4 a, ?_, String.toList_append⟩
    rw [length_hex]
    omega
  | literal v =>
    have width : v < 0x100 ∨ 0x1000 ≤ v := by
      simp only [hasThreeDigits, decide_eq_false_iff_not] at fits
      omega
    refine ⟨_, numeral_hex .upper 2 v, ?_, String.toList_append⟩
    rw [length_hex]
    cases width with
    | inl short =>
      have two : hexLength v ≤ 2 := hexLength_le_iff.2 short
      omega
    | inr long =>
      have four : hexLength v ≤ 4 := hexLength_le_iff.2 h
      have more : ¬ hexLength v ≤ 3 := mt hexLength_le_iff.1 (Nat.not_lt.2 long)
      omega

theorem Source.closes_text (s : Source) : Closes s.text.toList := by
  have digits (width n : Nat) (sign : String) : Closes (sign ++ upperHex width n).toList := by
    rw [String.toList_append]
    refine ((numeral_hex .upper width n).closes (Nat.le_refl 16) ?_).prepend _
    refine List.ne_nil_of_length_pos ?_
    rw [length_hex, hexLength]
    omega
  cases s with
  | register r => cases r <;> decide
  | flag f => cases f <;> decide
  | memory a => exact digits 4 a "#0x"
  | literal v => exact digits 2 v "0x"

/-- The words of a literal of three digits are a literal of two and a digit. -/
theorem Source.exists_of_hasThreeDigits (h : s.hasThreeDigits = true) :
    ∃ n ds d, Numeral 16 n ds ∧ ds.length = 2 ∧ d < 16 ∧
      s.text.toList = "0x".toList ++ ds ++ [hexDigit .upper d] := by
  cases s with
  | literal v =>
    obtain ⟨low, high⟩ : 0x100 ≤ v ∧ v < 0x1000 := by simpa [hasThreeDigits] using h
    have three : max 2 (hexLength v) = 3 := by
      have most : hexLength v ≤ 3 := hexLength_le_iff.2 high
      have more : ¬ hexLength v ≤ 2 := mt hexLength_le_iff.1 (Nat.not_lt.2 low)
      omega
    have digits : (upperHex 2 v).toList = lowDigits .upper 3 v [] := by
      rw [upperHex, hex, String.toList_ofList, three]
    refine ⟨v / 16, lowDigits .upper 2 (v / 16) [], v % 16, ?_, ?_, ?_, ?_⟩
    · exact numeral_lowDigits .upper (by omega)
    · rw [length_lowDigits]
      rfl
    · exact Nat.mod_lt v (by decide)
    · rw [text, String.toList_append, digits, lowDigits_succ, List.append_assoc]
  | _ => cases h

def Spare (rest : List Char) : Prop :=
  ∃ d more, d < 16 ∧ rest = hexDigit .upper d :: more ∧ Clear Char.isAlphanum more

/-- Two digits are read of three, since four are not there. -/
theorem accepts_value_spare (numeral : Numeral 16 n ds) (length : ds.length = 2) :
    Accepts value n ["0x".toList ++ ds] Spare := by
  have text : ValueText n ("0x".toList ++ ds) := ⟨ds, numeral, .inr length, rfl⟩
  refine accepts_token text.opens ?_
  rintro _ ⟨d, more, small, rfl, clear⟩
  have three : (ds ++ [hexDigit .upper d]).length < 4 := by simp [length]
  have four := hexNumber_four_eq_none three clear
  have two : hexNumber 2 (ds ++ hexDigit .upper d :: more) = some (n, hexDigit .upper d :: more) :=
    (hexNumber_eq_some_iff (by decide)).2 ⟨ds, numeral, length, rfl⟩
  rw [List.append_assoc, List.singleton_append] at four
  rw [List.append_assoc, bind_of_eq_some (exactly_append ..), orElse, four]
  exact two

theorem accepts_source_spare (numeral : Numeral 16 n ds) (length : ds.length = 2) :
    Accepts source (.literal n) ["0x".toList ++ ds] Spare := by
  have text : ValueText n ("0x".toList ++ ds) := ⟨ds, numeral, .inr length, rfl⟩
  have other : Rejects address ["0x".toList ++ ds] (Clear fun _ => false) :=
    rejects_sign text.opens rfl _
  refine accepts_choice_tail (other.mono fun _ _ _ _ => rfl).bind ?_
  exact accepts_choice_head ((accepts_value_spare numeral length).map Source.literal)

theorem opens_hexDigit {d : Nat} (small : d < 16) : Opens [hexDigit .upper d] := by
  obtain ⟨ink, slash, -⟩ := hexDigit_ink .upper small
  exact ⟨_, rfl, ink, slash⟩

/-- No relation begins with a digit. -/
theorem relation_eq_none {rest : List Char} (h : Spare rest) : relation rest = none := by
  obtain ⟨d, more, small, rfl, -⟩ := h
  have parts : ∀ d : Fin 16, ([.different, .equal, .greaterOrEqual, .greater, .lesserOrEqual,
      .lesser].map fun r => (Relation.symbol r, r)).all (fun n =>
        !canMatch (fun _ => false) n.1.toList [hexDigit .upper d]) = true := by decide
  have before : Before [[hexDigit .upper d]] (hexDigit .upper d :: more) more :=
    ⟨_, .cons (List.forall_mem_nil _) .nil, rfl⟩
  exact rejects_named (opens_hexDigit small) (parts ⟨d, small⟩) _ more before fun _ _ => rfl

/-- After a left side that is cut short there is no relation. -/
theorem rejects_predicate_spare (numeral : Numeral 16 n ds) (length : ds.length = 2) :
    Rejects predicate ["0x".toList ++ ds] Spare := by
  have text : ValueText n ("0x".toList ++ ds) := ⟨ds, numeral, .inr length, rfl⟩
  have other : Rejects constant ["0x".toList ++ ds] (Clear fun _ => false) :=
    rejects_named text.opens rfl
  refine (other.mono fun _ _ _ _ => rfl).orElse ?_
  intro cs rest before spare
  rw [comparison, bind_of_eq_some (accepts_source_spare numeral length cs rest before spare)]
  exact bind_of_eq_none (relation_eq_none spare)

/-- A right side that is cut short ends the comparison. -/
theorem accepts_predicate_spare {l : Source} (rel : Relation) (left : l.Text t)
    (numeral : Numeral 16 n ds) (length : ds.length = 2) :
    Accepts predicate (.compare l rel (.literal n))
      [t, rel.symbol.toList, "0x".toList ++ ds] Spare := by
  have first : ∃ c ∈ ("0x".toList ++ ds).head?, c ≠ '=' := ⟨'0', rfl, by decide⟩
  have right := accepts_source_spare numeral length
  refine (accepts_comparison_of_source rel left right first).orElse_right ?_
  show Rejects constant ([t] ++ [rel.symbol.toList, "0x".toList ++ ds]) _
  exact (rejects_constant left).append fun cs rest before _ => clear_of_symbol before

end

section

variable {stop : Option Predicate} {us : List (List Char)} {F : List Char → Prop}

/-- A run from where the machine is, whatever may follow its condition. -/
theorem accepts_command_run (h : Accepts (optional stopClause) stop us F)
    (noStart : Rejects address us F) :
    Accepts command (.ok (.run stop none defaultMaxSteps)) ("run".toList :: us) F := by
  iterate 7 refine accepts_choice_tail (rejects_keyword (by decide) rfl _) ?_
  refine accepts_choice_head (accepts_after_word (by decide) ?_)
  have absent : Accepts (optional address) none [] fun cs => address cs = none := by
    refine .optional_none fun cs rest before fails => ?_
    rwa [Before.nil_iff.1 before]
  exact absent.bind (accepts_asked h (.run · none defaultMaxSteps)) noStart

theorem rejects_address_until : Rejects address ("until".toList :: us) F := by
  have other : Rejects address ["until".toList] (Clear fun _ => false) :=
    rejects_sign (by decide) rfl _
  exact other.append fun _ _ _ _ _ _ => rfl

/-- The text is a stop clause whose left side is cut short. -/
def CutShort (cs : List Char) : Prop :=
  ∃ n ds rest, Numeral 16 n ds ∧ ds.length = 2 ∧
    Before ["until".toList, "0x".toList ++ ds] cs rest ∧ Spare rest

/-- Where the stop clause cannot be read the run is taken without it. -/
theorem accepts_run_cutShort :
    Accepts command (.ok (.run none none defaultMaxSteps)) ["run".toList] CutShort := by
  refine accepts_command_run (.optional_none ?_) ?_
  · rintro cs rest before ⟨n, ds, last, numeral, length, clause, spare⟩
    obtain rfl := Before.nil_iff.1 before
    have cut := rejects_predicate_spare numeral length
    exact rejects_after_word (by decide) cut cs last clause spare
  · rintro cs rest before ⟨n, ds, last, -, -, clause, spare⟩
    obtain rfl := Before.nil_iff.1 before
    exact rejects_address_until cs last clause spare

end

section

variable {ts : List (List Char)} {t cs rest : List Char} {F : List Char → Prop}

theorem spread_spaced (ts : List (List Char)) : Spread ts (ts.flatMap (' ' :: ·)) := by
  induction ts with
  | nil => exact .nil
  | cons t ts ih =>
    have blank : ∀ c ∈ [' '], isGap c = true := List.all_eq_true.1 rfl
    exact .cons blank ih

theorem trim_eq_self (opens : Opens cs) (closes : Closes cs) : trim cs = cs := by
  obtain ⟨c, first, ink, -⟩ := opens
  have start : trimStart cs = cs := trimStart_of_head fun d head =>
    Option.mem_unique first head ▸ ink
  have stop := trimEnd_append (b := []) closes
  rw [List.append_nil] at stop
  rw [trim, start, stop, trimEnd_of_blank (List.forall_mem_nil _), List.append_nil]

theorem not_over_of_before (before : Before (t :: ts) cs rest) (opens : Opens t) : ¬ Over cs := by
  obtain ⟨g, mid, blanks, rfl, -⟩ := Before.cons_iff.1 before
  rw [Over, afterGap_append blanks opens]
  exact List.append_ne_nil_of_left_ne_nil opens.ne_nil mid

/-- A line is malformed if anything is left over behind its command. -/
theorem ofLine_eq_malformed {r : Except LineError Command} (ink : trim cs = cs)
    (accepted : Accepts command r ts F) (before : Before ts cs rest) (allowed : F rest)
    (more : ¬ Over rest) : Command.ofLine cs = .error .malformed := by
  have read := accepted.optional_some cs rest before allowed
  have unfinished : finish rest = none := by
    rw [finish]
    split
    · next nothing => exact absurd nothing more
    · rfl
  rw [Command.ofLine, ink, Grammar.line, bind_of_eq_some read, bind_of_eq_none unfinished]

end

namespace Predicate

variable {p : Predicate}

/-- A line that runs to the condition as it is shown. -/
def shownLine (p : Predicate) : List Char := ("run until " ++ p.text).toList

theorem shownLine_eq (p : Predicate) :
    p.shownLine = "run".toList ++ ("until".toList :: p.words).flatMap (' ' :: ·) := by
  cases p with
  | constant value => simp [shownLine, words]
  | compare left relation right => simp [shownLine, words, text]

theorem trim_shownLine (p : Predicate) : trim p.shownLine = p.shownLine := by
  rw [shownLine, String.toList_append]
  refine trim_eq_self (Opens.append (by decide) _) (Closes.prepend ?_ _)
  cases p with
  | constant value => cases value <;> decide
  | compare left relation right =>
    rw [text, String.toList_append]
    exact right.closes_text.prepend _

/-- The words that a condition is shown in spell it, where its literals fit. -/
theorem tokens_words (h : p.IsScriptable) (fits : p.hasThreeDigits = false) :
    PredicateTokens p p.words := by
  cases p with
  | constant value =>
    cases value with
    | true => exact .yes
    | false => exact .no
  | compare left relation right =>
    rw [hasThreeDigits, Bool.or_eq_false_iff] at fits
    exact .compare relation (Source.text_of_isScriptable h.1 fits.1)
      (Source.text_of_isScriptable h.2 fits.2)

/-- A run to a condition is read back from the words of the condition. -/
theorem ofLine_shownLine (h : p.IsScriptable) (fits : p.hasThreeDigits = false) :
    Command.ofLine p.shownLine = .ok (.run (some p) none defaultMaxSteps) := by
  have spelled : Spelled (.ok (.run (some p) none defaultMaxSteps))
      ("run".toList :: ([] ++ "until".toList :: p.words)) :=
    .run .absent (.present (tokens_words h fits))
  refine ofLine_of_laid spelled ⟨[], _, [], [], [], List.forall_mem_nil _,
    .cons (List.forall_mem_nil _) (spread_spaced _), List.forall_mem_nil _, .inl rfl,
    List.forall_mem_nil _, ?_⟩
  rw [shownLine_eq]
  simp

section

variable {left right : Source} {relation : Relation}

/-- A left side that is cut short leaves the whole stop clause behind the command. -/
theorem ofLine_shownLine_left (long : left.hasThreeDigits = true) :
    Command.ofLine (compare left relation right).shownLine = .error .malformed := by
  obtain ⟨n, ds, d, numeral, length, small, shown⟩ := Source.exists_of_hasThreeDigits long
  obtain ⟨last, split, spare⟩ : ∃ last, (compare left relation right).shownLine = "run".toList ++
      (["until".toList, "0x".toList ++ ds].flatMap (' ' :: ·) ++ last) ∧ Spare last := by
    refine ⟨hexDigit .upper d :: [relation.symbol.toList, right.text.toList].flatMap (' ' :: ·),
      ?_, d, _, small, rfl, by rintro _ ⟨⟩; rfl⟩
    rw [shownLine_eq, words, shown]
    simp
  have clause : Before ["until".toList, "0x".toList ++ ds]
      (["until".toList, "0x".toList ++ ds].flatMap (' ' :: ·) ++ last) last :=
    ⟨_, spread_spaced _, rfl⟩
  exact ofLine_eq_malformed (trim_shownLine _) accepts_run_cutShort
    ⟨"run".toList, .cons (List.forall_mem_nil _) .nil, split⟩
    ⟨n, ds, last, numeral, length, clause, spare⟩ (not_over_of_before clause (by decide))

/-- A right side that is cut short leaves its last digit behind the command. -/
theorem ofLine_shownLine_right (scriptable : left.IsScriptable)
    (short : left.hasThreeDigits = false) (long : right.hasThreeDigits = true) :
    Command.ofLine (compare left relation right).shownLine = .error .malformed := by
  obtain ⟨n, ds, d, numeral, length, small, shown⟩ := Source.exists_of_hasThreeDigits long
  have spare : Spare [hexDigit .upper d] := ⟨d, [], small, rfl, by rintro _ ⟨⟩⟩
  have predicate := accepts_predicate_spare relation
    (Source.text_of_isScriptable scriptable short) numeral length
  have accepted := accepts_command_run
    (accepts_after_word (w := "until") (by decide) predicate).optional_some
    rejects_address_until
  refine ofLine_eq_malformed (trim_shownLine _) accepted
    ⟨_, .cons (List.forall_mem_nil _) (spread_spaced _), ?_⟩ spare ?_
  · rw [shownLine_eq, words, shown]
    simp
  · have before : Before [[hexDigit .upper d]] [hexDigit .upper d] [] :=
      ⟨_, .cons (List.forall_mem_nil _) .nil, rfl⟩
    exact not_over_of_before before (opens_hexDigit small)

end

end Predicate

/-- The condition of a line that was read has what its spelling gives it. -/
theorem Command.isScriptable_of_condition? {line : List Char} {c : Command} {p : Predicate}
    (h : Command.ofLine line = .ok c) (condition : c.condition? = some p) : p.IsScriptable := by
  obtain ⟨ts, spelled, -⟩ := (ofLine_eq_iff (by simp) line).1 h
  have scriptable := isScriptable_of_spelled spelled
  cases c with
  | assert q description =>
    cases condition
    exact scriptable.1
  | run stop start maxSteps => exact scriptable.1 p condition
  | _ => cases condition

/-- A condition that a script asserts or runs to is read back from the words it is shown in, as the
same condition, unless it has a literal of three digits. Then the words are no condition at all. -/
theorem shown_condition_reads_back {line : List Char} {c : Command} {p : Predicate}
    (h : Command.ofLine line = .ok c) (condition : c.condition? = some p) :
    Command.ofLine ("run until " ++ p.text).toList =
      if p.hasThreeDigits then .error .malformed
      else .ok (.run (some p) none defaultMaxSteps) := by
  have scriptable := Command.isScriptable_of_condition? h condition
  cases long : p.hasThreeDigits with
  | false => exact p.ofLine_shownLine scriptable long
  | true =>
    cases p with
    | constant value => cases long
    | compare left relation right =>
      cases first : left.hasThreeDigits with
      | true => exact Predicate.ofLine_shownLine_left first
      | false =>
        rw [Predicate.hasThreeDigits, first] at long
        exact Predicate.ofLine_shownLine_right scriptable.1 first long

/-- Compares a literal of four digits with a memory cell. -/
def wideComparison : Predicate := .compare (.literal 0x1ABC) .greaterOrEqual (.memory 0xFF)

theorem shown_condition_reads_back_wideComparison :
    Command.ofLine "assert 0x1abc>=#0x00ff $$top$$".toList = .ok (.assert wideComparison "top") ∧
      Command.ofLine "run until 0x1ABC >= #0x00FF".toList =
        .ok (.run (some wideComparison) none defaultMaxSteps) := by
  have asserted : Command.ofLine "assert 0x1abc>=#0x00ff $$top$$".toList =
      .ok (.assert wideComparison "top") := by decide +kernel
  have shown : wideComparison.text = "0x1ABC >= #0x00FF" := by decide +kernel
  have short : wideComparison.hasThreeDigits = false := by decide
  have back := shown_condition_reads_back asserted rfl
  rw [shown, short] at back
  exact ⟨asserted, back⟩

/-- Compares a register with a literal of four digits that is shown with three. -/
def narrowedComparison : Predicate := .compare (.register .a) .equal (.literal 0x123)

theorem shown_condition_not_read_back :
    ¬ ∀ line c p, Command.ofLine line = .ok c → c.condition? = some p →
      Command.ofLine ("run until " ++ p.text).toList =
        .ok (.run (some p) none defaultMaxSteps) := by
  intro h
  have read : Command.ofLine "run until A = 0x0123".toList =
      .ok (.run (some narrowedComparison) none defaultMaxSteps) := by decide +kernel
  have back := h _ _ _ read rfl
  have lost : Command.ofLine ("run until " ++ narrowedComparison.text).toList =
      .error .malformed := by decide +kernel
  rw [lost] at back
  cases back

end Emu8085.Script
