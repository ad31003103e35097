import Emu8085.Proofs.Reading
import Emu8085.Script.Display

/-!
# What a display says

The lines of a display are told apart by their first characters: a digit for an assertion, a sign
for everything else. A token says the same whatever stands around it but for the number of an
assertion (`Token.display_eq`), so a display says what its tokens say, one after the other
(`display_eq`), and the short form is the long one without the lines that have one of two signs.
-/
namespace Emu8085.Script

open Text

/-- Lines as they are written, each with its end. -/
def unlines (lines : List String) : String := String.join (lines.map (· ++ "\n"))

/-- The lines of a text that ends with the end of a line. -/
def linesOf (text : String) : List String := (text.toList.splitOn '\n').dropLast.map String.ofList

@[simp] theorem unlines_nil : unlines [] = "" := rfl

@[simp] theorem unlines_cons (line : String) (lines : List String) :
    unlines (line :: lines) = line ++ "\n" ++ unlines lines := String.join_cons

@[simp] theorem unlines_append (lines more : List String) :
    unlines (lines ++ more) = unlines lines ++ unlines more := by
  rw [unlines, List.map_append, String.join_append, unlines, unlines]

theorem signed_eq (sign : String) (lines : List String) :
    signed sign lines = unlines (lines.map fun line => sign ++ " " ++ line) := by
  rw [signed, unlines, List.map_map]
  rfl

/-- What stands behind the last end of a line is empty. -/
theorem toList_unlines (lines : List String) :
    (unlines lines).toList = ['\n'].intercalate (lines.map String.toList ++ [[]]) := by
  induction lines with
  | nil => rfl
  | cons line lines ih =>
    rw [unlines_cons, String.toList_append, String.toList_append, ih, List.map_cons,
      List.cons_append, List.intercalate_cons_of_ne_nil (by simp)]
    rfl

/-- Lines without a line feed in them are told apart by their ends. -/
theorem linesOf_unlines {lines : List String} (h : ∀ line ∈ lines, '\n' ∉ line.toList) :
    linesOf (unlines lines) = lines := by
  have whole : ∀ part ∈ lines.map String.toList ++ [[]], '\n' ∉ part := by
    rw [List.forall_mem_append, List.forall_mem_map, List.forall_mem_singleton]
    exact ⟨h, List.not_mem_nil⟩
  rw [linesOf, toList_unlines, List.splitOn_intercalate _ whole (by simp), List.dropLast_concat,
    List.map_map]
  simp [Function.comp_def]

def begins (p : Char → Bool) (line : String) : Bool := line.toList.head?.any p

/-- What a line of a display says. -/
inductive Remark where
  | verdict (number : Nat) (failure : Option String) (description : String)
  | heading (description : String)
  | executed (line : String)
  | unfinished (count : Nat)
  | prepared (line : String)
  | viewed (line : String)

namespace Remark

def outcome : Option String → String
  | none => " ✅"
  | some failure => " ❌ " ++ failure

/-- What is said of a run that used up its steps, of which there are that many. -/
def ceiling (count : Nat) : String :=
  "program " ++ RunStatus.outOfSteps.text ++ " after " ++ toString count ++ " instructions"

def text : Remark → String
  | verdict number failure description =>
    ordinal number ++ " → " ++ description ++ outcome failure
  | heading description => "♯ " ++ description
  | executed line => "⚡ " ++ line
  | unfinished count => "⚠ " ++ ceiling count
  | prepared line => "⚙ " ++ line
  | viewed line => "📄 " ++ line

def isVerdict : Remark → Bool
  | verdict _ _ _ => true
  | _ => false

def isDetail : Remark → Bool
  | executed _ | prepared _ => true
  | _ => false

end Remark

/-- What a token says, `number` being that of the next assertion. -/
def Token.remarks (number : Nat) : Token → List Remark
  | assertion failure description => [.verdict number failure description]
  | marker description => [.heading description]
  | run lines status =>
    lines.map .executed ++ if status = .outOfSteps then [.unfinished lines.length] else []
  | setup lines => lines.map .prepared
  | view lines => lines.map .viewed

/-- What tokens say, in their order. An assertion's number is that of the assertions before it, on
top of a first number. -/
def remarks (number : Nat) (tokens : List Token) : List Remark :=
  (tokens.mapIdx fun i token =>
    token.remarks (number + (tokens.take i).countP Token.isAssertion)).flatten

def Token.texts : Token → List String
  | assertion failure description => description :: failure.toList
  | marker description => [description]
  | run lines _ | setup lines | view lines => lines

def Token.asserted? : Token → Option (Option String × String)
  | assertion failure description => some (failure, description)
  | _ => none

/-- Only an assertion moves the number on. -/
theorem remarks_cons (number : Nat) (token : Token) (tokens : List Token) :
    remarks number (token :: tokens) = token.remarks number ++
      remarks (if token.isAssertion then number + 1 else number) tokens := by
  rw [remarks, List.mapIdx_cons, List.flatten_cons, remarks]
  congr 2
  simp only [List.take_succ_cons, List.countP_cons]
  congr 1
  funext i later
  cases token.isAssertion with
  | false => rfl
  | true => exact congrArg later.remarks (by simp; omega)

/-- The lines of remarks, with the details or without them. -/
def shown (verbose : Bool) (remarks : List Remark) : List String :=
  (remarks.filter fun r => verbose || !r.isDetail).map Remark.text

section

variable (verbose : Bool)

@[simp] theorem shown_nil : shown verbose [] = [] := rfl

theorem shown_append (rs more : List Remark) :
    shown verbose (rs ++ more) = shown verbose rs ++ shown verbose more := by
  rw [shown, List.filter_append, List.map_append, shown, shown]

theorem shown_cons {r : Remark} (h : r.isDetail = false) (more : List Remark) :
    shown verbose (r :: more) = r.text :: shown verbose more := by
  rw [shown, List.filter_cons_of_pos (by simp [h]), List.map_cons, shown]

theorem shown_map (remark : String → Remark) {detail : Bool}
    (h : ∀ line, (remark line).isDetail = detail) (lines : List String) :
    shown verbose (lines.map remark) =
      if verbose || !detail then lines.map fun line => (remark line).text else [] := by
  rw [shown, List.filter_map, List.map_map]
  simp only [Function.comp_def, h]
  cases verbose || !detail <;> simp

end

theorem ceiling_line (count : Nat) :
    "⚠ program " ++ RunStatus.outOfSteps.text ++ " after " ++ toString count ++
      " instructions\n" = unlines [(Remark.unfinished count).text] := by
  rw [← String.toList_inj]
  simp [Remark.text, Remark.ceiling, RunStatus.text]

/-- The step lemma, by cases on the token. -/
theorem Token.display_eq (verbose : Bool) (number : Nat) (token : Token) :
    token.display verbose number = unlines (shown verbose (token.remarks number)) := by
  have newline_after_last (front last : String) :
      unlines [front ++ last] = front ++ (last ++ "\n") := by
    simp [String.append_assoc]
  cases token with
  | assertion failure description =>
    rw [remarks, shown_cons verbose rfl, shown_nil]
    cases failure with
    | none => exact (newline_after_last _ " ✅").symm
    | some failure =>
      rw [Remark.text, Remark.outcome, ← String.append_assoc]
      rfl
  | marker description =>
    rw [remarks, shown_cons verbose rfl, shown_nil]
    rfl
  | run lines status =>
    rw [remarks, shown_append, unlines_append, shown_map verbose .executed fun _ => rfl,
      display, signed_eq]
    congr 1
    · cases verbose <;> rfl
    · split
      · next late =>
        subst late
        rw [shown_cons verbose rfl, shown_nil]
        exact ceiling_line lines.length
      · rfl
  | setup lines =>
    rw [remarks, shown_map verbose .prepared fun _ => rfl, display, signed_eq]
    cases verbose <;> rfl
  | view lines =>
    rw [remarks, shown_map verbose .viewed fun _ => rfl, display, signed_eq]
    cases verbose <;> rfl

/-- The run lemma, by induction on the tokens. -/
theorem join_displayFrom (verbose : Bool) (number : Nat) (tokens : List Token) :
    String.join (displayFrom verbose number tokens) =
      unlines (shown verbose (remarks number tokens)) := by
  induction tokens generalizing number with
  | nil => rfl
  | cons token tokens ih =>
    rw [displayFrom, String.join_cons, ih, Token.display_eq, remarks_cons, shown_append,
      unlines_append]

theorem display_eq (verbose : Bool) (tokens : List Token) :
    display verbose tokens = unlines (shown verbose (remarks 1 tokens)) :=
  join_displayFrom verbose 1 tokens

theorem ordinal_eq (n : Nat) :
    (ordinal n).toList = (if n < 10 then ['0'] else []) ++ Nat.toDigits 10 n := by
  rw [ordinal, String.toList_append, ← Nat.toList_repr]
  split <;> rfl

theorem isDigit_of_mem_ordinal {n : Nat} {c : Char} (h : c ∈ (ordinal n).toList) :
    c.isDigit = true := by
  rw [ordinal_eq, List.mem_append] at h
  cases h with
  | inl front =>
    split at front
    · rw [List.mem_singleton.1 front]
      rfl
    · cases front
  | inr digit => exact Nat.isDigit_of_mem_toDigits (by decide) (by decide) digit

/-- The leading zero of a short number does not change what it denotes. -/
theorem numeral_ordinal (n : Nat) : Numeral 10 n (ordinal n).toList := by
  refine numeral_ten_iff.2 ⟨fun c => isDigit_of_mem_ordinal, ?_⟩
  have value : Nat.ofDigitChars 10 (Nat.toDigits 10 n) 0 = n :=
    Nat.ofDigitChars_toDigits (by decide) (by decide)
  rw [ordinal_eq, Nat.ofDigitChars_append]
  split
  · exact value.symm
  · exact value.symm

theorem length_ordinal (n : Nat) : (ordinal n).length = max 2 (Nat.toDigits 10 n).length := by
  rw [← String.length_toList, ordinal_eq]
  split
  · next small =>
    rw [Nat.toDigits_of_lt_base small]
    rfl
  · next large =>
    have two : ¬ (Nat.toDigits 10 n).length ≤ 1 :=
      mt (Nat.length_toDigits_le_iff (by decide) (by decide)).1 (by omega)
    rw [List.nil_append]
    omega

theorem exists_head_verdict (number : Nat) (failure : Option String) (description : String) :
    ∃ c, (Remark.verdict number failure description).text.toList.head? = some c ∧
      c.isDigit = true := by
  have nonempty : (ordinal number).toList ≠ [] := by
    rw [← List.length_pos_iff, String.length_toList, length_ordinal]
    omega
  obtain ⟨c, rest, digits⟩ := List.exists_cons_of_ne_nil nonempty
  refine ⟨c, ?_, isDigit_of_mem_ordinal (by rw [digits]; exact List.mem_cons_self)⟩
  simp [Remark.text, digits]

/-- A verdict is known by the digit that its line begins with. -/
theorem begins_isDigit_text (r : Remark) : begins Char.isDigit r.text = r.isVerdict := by
  cases r with
  | verdict number failure description =>
    obtain ⟨c, head, digit⟩ := exists_head_verdict number failure description
    rw [begins, head]
    exact digit
  | _ => simp [begins, Remark.text, Remark.isVerdict]

def isDetailSign (c : Char) : Bool := c == '⚡' || c == '⚙'

/-- What is only said on request is known by its sign, which no digit is. -/
theorem begins_isDetailSign_text (r : Remark) : begins isDetailSign r.text = r.isDetail := by
  cases r with
  | verdict number failure description =>
    obtain ⟨c, head, digit⟩ := exists_head_verdict number failure description
    rw [begins, head]
    refine Bool.eq_false_iff.2 fun sign => ?_
    obtain rfl | rfl : c = '⚡' ∨ c = '⚙' := by simpa [isDetailSign] using sign
    · cases digit
    · cases digit
  | _ => simp [begins, Remark.text, Remark.isDetail, isDetailSign]

theorem newline_not_mem_digits (n : Nat) : '\n' ∉ Nat.toDigits 10 n := fun h =>
  absurd (Nat.isDigit_of_mem_toDigits (by decide) (by decide) h) (by decide)

/-- A remark breaks its line only where a text of its token does. -/
theorem newline_not_mem_remarks {token : Token} (plain : ∀ text ∈ token.texts, '\n' ∉ text.toList)
    (number : Nat) : ∀ r ∈ token.remarks number, '\n' ∉ r.text.toList := by
  cases token with
  | assertion failure description =>
    have digits : '\n' ∉ (ordinal number).toList := by
      rw [ordinal_eq]
      split <;> simp [newline_not_mem_digits]
    cases failure <;> simp_all [Token.texts, Token.remarks, Remark.text, Remark.outcome]
  | marker description => simpa [Token.texts, Token.remarks, Remark.text] using plain
  | run lines status =>
    have ceiling : '\n' ∉ (Remark.unfinished lines.length).text.toList := by
      simp [Remark.text, Remark.ceiling, RunStatus.text, newline_not_mem_digits]
    rw [Token.remarks, List.forall_mem_append, List.forall_mem_map]
    constructor
    · simpa [Token.texts, Remark.text] using plain
    · split
      · rwa [List.forall_mem_singleton]
      · exact List.forall_mem_nil _
  | setup lines | view lines => simpa [Token.texts, Token.remarks, Remark.text] using plain

theorem mem_remarks {tokens : List Token} {r : Remark} {number : Nat}
    (h : r ∈ remarks number tokens) : ∃ token ∈ tokens, ∃ n, r ∈ token.remarks n := by
  obtain ⟨_, member, h⟩ := List.mem_flatten.1 h
  obtain ⟨i, inside, rfl⟩ := List.mem_mapIdx.1 member
  exact ⟨_, List.getElem_mem inside, _, h⟩

/-- What is shown can be taken apart into the lines that it was made of. -/
theorem linesOf_display {tokens : List Token}
    (plain : ∀ token ∈ tokens, ∀ text ∈ token.texts, '\n' ∉ text.toList) (verbose : Bool) :
    linesOf (display verbose tokens) = shown verbose (remarks 1 tokens) := by
  rw [display_eq]
  apply linesOf_unlines
  intro line member
  obtain ⟨r, said, rfl⟩ := List.mem_map.1 member
  obtain ⟨token, inside, n, whose⟩ := mem_remarks (List.mem_of_mem_filter said)
  exact newline_not_mem_remarks (plain token inside) n r whose

/-- By induction on the tokens, each of which has a verdict just where it is an assertion. -/
theorem filter_isVerdict_remarks (number : Nat) (tokens : List Token) :
    (remarks number tokens).filter Remark.isVerdict =
      (tokens.filterMap Token.asserted?).mapIdx fun i asserted =>
        .verdict (number + i) asserted.1 asserted.2 := by
  induction tokens generalizing number with
  | nil => rfl
  | cons token tokens ih =>
    rw [remarks_cons, List.filter_append, ih]
    cases token with
    | assertion failure description =>
      have first : (Token.remarks number (.assertion failure description)).filter
          Remark.isVerdict = [.verdict number failure description] := rfl
      have asserted : Token.asserted? (.assertion failure description) =
          some (failure, description) := rfl
      rw [first, List.filterMap_cons_some asserted, List.mapIdx_cons, List.singleton_append]
      simp [Token.isAssertion, Nat.add_assoc, Nat.add_comm 1]
    | marker description | setup lines | view lines =>
      rw [List.filterMap_cons_none rfl]
      simp [Token.remarks, Token.isAssertion, Remark.isVerdict]
    | run lines status =>
      rw [List.filterMap_cons_none rfl]
      cases status <;> simp [Token.remarks, Token.isAssertion, Remark.isVerdict]

/-- The short form is the long one without the lines of runs and setups. -/
theorem shown_false (rs : List Remark) :
    shown false rs = (shown true rs).filter fun line => !begins isDetailSign line := by
  rw [shown, shown, List.filter_map]
  simp [Function.comp_def, begins_isDetailSign_text]

/-- The lines that begin with a digit are the verdicts, in either form. -/
theorem filter_begins_shown (verbose : Bool) (rs : List Remark) :
    (shown verbose rs).filter (begins Char.isDigit) =
      (rs.filter Remark.isVerdict).map Remark.text := by
  rw [shown, List.filter_map, List.filter_filter]
  congr 2
  funext r
  rw [Function.comp_apply, begins_isDigit_text]
  cases r <;> simp [Remark.isVerdict, Remark.isDetail]

/-- Where no text breaks its line, the display is a row of lines. They tell what the tokens say in
the order of the tokens: every assertion, marker and view, and of every run that did not halt how
many lines it has, in either form, and in the long form also the lines of runs and setups, the
removal of which makes it the short form. Assertions are numbered from one on in their order, in as
many digits as it takes but at least in two. -/
theorem display_tells_in_order {tokens : List Token}
    (plain : ∀ token ∈ tokens, ∀ text ∈ token.texts, '\n' ∉ text.toList) :
    let lines verbose := linesOf (display verbose tokens)
    (∀ verbose, display verbose tokens = unlines (lines verbose) ∧
      lines verbose =
        ((remarks 1 tokens).filter fun r => verbose || !r.isDetail).map Remark.text ∧
      (lines verbose).filter (begins Char.isDigit) =
        ((tokens.filterMap Token.asserted?).mapIdx fun i asserted =>
          Remark.verdict (1 + i) asserted.1 asserted.2).map Remark.text) ∧
    (lines false = (lines true).filter fun line => !begins isDetailSign line) ∧
    ∀ n, Numeral 10 n (ordinal n).toList ∧ (ordinal n).length = max 2 (toString n).length := by
  intro lines
  have shows (verbose : Bool) : lines verbose = shown verbose (remarks 1 tokens) :=
    linesOf_display plain verbose
  refine ⟨fun verbose => ⟨?_, shows verbose, ?_⟩, ?_, fun n => ⟨numeral_ordinal n, ?_⟩⟩
  · rw [shows, display_eq]
  · rw [shows, filter_begins_shown, filter_isVerdict_remarks]
  · rw [shows, shows, shown_false]
  · rw [length_ordinal, ← String.length_toList, Nat.toString_eq_repr, Nat.toList_repr]

theorem display_of_all_kinds :
    let tokens : List Token := [.marker "test", .setup ["3 bytes loaded"], .assertion none "first",
      .run ["MVI", "JMP"] .outOfSteps, .view ["#0x0800: 3e"], .assertion (some "2 ≠ 3") "second"]
    (∀ token ∈ tokens, ∀ text ∈ token.texts, '\n' ∉ text.toList) ∧
      linesOf (display true tokens) = ["♯ test", "⚙ 3 bytes loaded", "01 → first ✅", "⚡ MVI",
        "⚡ JMP", "⚠ program did not halt after 2 instructions", "📄 #0x0800: 3e",
        "02 → second ❌ 2 ≠ 3"] ∧
      linesOf (display false tokens) = ["♯ test", "01 → first ✅",
        "⚠ program did not halt after 2 instructions", "📄 #0x0800: 3e", "02 → second ❌ 2 ≠ 3"] := by
  intro tokens
  have plain : ∀ token ∈ tokens, ∀ text ∈ token.texts, '\n' ∉ text.toList := by decide
  obtain ⟨told, -⟩ := display_tells_in_order plain
  exact ⟨plain, (told true).2.1.trans (by decide), (told false).2.1.trans (by decide)⟩

end Emu8085.Script
