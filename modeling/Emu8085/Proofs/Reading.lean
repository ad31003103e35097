import Emu8085.Proofs.Spelling
import Mathlib.Data.List.TakeWhile
import Mathlib.Data.List.Infix

/-!
# How texts are read

What the readers of single things do to the texts of `Spelling`, in both directions where there
are two: gaps, numerals, marks and the white space around a line. A gap is the one place where
text is dropped, so the relation between a line and what is left of it after some tokens
(`Before`) is kept with the characters that are really there.
-/
namespace Emu8085.Script

open Text Script.Parser

/-- The text begins with these tokens and goes on with the rest. -/
def Before (ts : List (List Char)) (cs rest : List Char) : Prop :=
  ∃ body, Spread ts body ∧ cs = body ++ rest

theorem Spread.append {ts us : List (List Char)} {body more : List Char} (h : Spread ts body)
    (h' : Spread us more) : Spread (ts ++ us) (body ++ more) := by
  induction h with
  | nil => exact h'
  | @cons g t rest ts blanks _ ih =>
    rw [List.append_assoc, List.append_assoc]
    exact .cons blanks ih

namespace Before

variable {ts us : List (List Char)} {t cs mid rest : List Char}

@[simp] theorem nil_iff : Before [] cs rest ↔ cs = rest := by
  constructor
  · rintro ⟨_, ⟨⟩, rfl⟩
    rfl
  · rintro rfl
    exact ⟨[], .nil, rfl⟩

theorem cons_iff : Before (t :: ts) cs rest ↔
    ∃ g mid, (∀ c ∈ g, isGap c = true) ∧ cs = g ++ (t ++ mid) ∧ Before ts mid rest := by
  constructor
  · rintro ⟨_, spread, rfl⟩
    cases spread with
    | @cons g _ body _ blanks spread =>
      exact ⟨g, body ++ rest, blanks, by simp only [List.append_assoc], body, spread, rfl⟩
  · rintro ⟨g, mid, blanks, rfl, body, spread, rfl⟩
    exact ⟨_, .cons blanks spread, by simp only [List.append_assoc]⟩

theorem append (h : Before ts cs mid) (h' : Before us mid rest) : Before (ts ++ us) cs rest := by
  obtain ⟨body, spread, rfl⟩ := h
  obtain ⟨more, spread', rfl⟩ := h'
  exact ⟨body ++ more, spread.append spread', (List.append_assoc ..).symm⟩

theorem exists_of_append (h : Before (ts ++ us) cs rest) :
    ∃ mid, Before ts cs mid ∧ Before us mid rest := by
  induction ts generalizing cs with
  | nil => exact ⟨cs, nil_iff.2 rfl, h⟩
  | cons t ts ih =>
    obtain ⟨g, mid, blanks, rfl, after⟩ := cons_iff.1 h
    obtain ⟨last, front, back⟩ := ih after
    exact ⟨last, cons_iff.2 ⟨g, mid, blanks, rfl, front⟩, back⟩

end Before

/-- One parser takes up the text where the other left it. -/
theorem bind_eq_some_iff {α β : Type} {p : Parser α} {f : α → Parser β} {y : β}
    {cs rest : List Char} : (p >>= f) cs = some (y, rest) ↔
      ∃ x mid, p cs = some (x, mid) ∧ f x mid = some (y, rest) := by
  rw [bind_apply]
  split
  · next x mid first => simp [first]
  · next first => simp [first]

/-- Begins with a character that no gap takes. -/
def Opens (t : List Char) : Prop := ∃ c ∈ t.head?, isBlank c = false ∧ c ≠ '/'

instance (t : List Char) : Decidable (Opens t) :=
  decidable_of_iff (t.head?.any (fun c => !isBlank c && c != '/') = true) (by
    rw [Opens]
    cases t.head? <;> simp)

theorem Opens.append {t : List Char} (h : Opens t) (u : List Char) : Opens (t ++ u) := by
  obtain ⟨c, first, ink⟩ := h
  exact ⟨c, List.mem_head?_append_of_mem_head? first, ink⟩

theorem isBlank_of_isGap {c : Char} (h : isGap c = true) : isBlank c = true := by
  obtain h | h : c = ' ' ∨ c = '\t' := by simpa [isGap] using h
  all_goals
    subst h
    decide

theorem isBlank_of_endsLine {c : Char} (h : endsLine c = true) : isBlank c = true := by
  obtain h | h : c = '\n' ∨ c = '\r' := by simpa [endsLine] using h
  all_goals
    subst h
    decide

/-- What a gap leaves of a text: it takes blanks up to something else, or blanks and a comment up
to the end of its line. -/
inductive Skipped (rest : List Char) : List Char → Prop
  | blanks {g : List Char} : (∀ c ∈ g, isGap c = true) → (∀ c ∈ rest.head?, isGap c = false) →
      ¬ "//".toList <+: rest → Skipped rest (g ++ rest)
  | comment {g t : List Char} : (∀ c ∈ g, isGap c = true) → IsComment t →
      (∀ c ∈ rest.head?, endsLine c = true) → Skipped rest (g ++ (t ++ rest))

section

variable {p : Char → Bool} {cs ds rest : List Char}

theorem dropWhile_head (h : ∀ c ∈ rest.head?, p c = false) : rest.dropWhile p = rest := by
  cases rest with
  | nil => rfl
  | cons c rest => exact List.dropWhile_cons_of_neg (by simp [h c rfl])

theorem of_mem_head?_dropWhile {c : Char} (h : c ∈ (cs.dropWhile p).head?) : p c = false := by
  have stopped := List.head?_dropWhile_not p cs
  rw [Option.mem_def.1 h] at stopped
  exact stopped

theorem dropWhile_append (all : ∀ c ∈ ds, p c = true) (stop : ∀ c ∈ rest.head?, p c = false) :
    (ds ++ rest).dropWhile p = rest := by
  rw [List.dropWhile_append_of_pos all, dropWhile_head stop]

theorem skipped_afterGap (cs : List Char) : Skipped (afterGap cs) cs := by
  have blanks : ∀ c ∈ cs.takeWhile isGap, isGap c = true := fun _ => List.mem_takeWhile_imp
  have whole : cs.takeWhile isGap ++ cs.dropWhile isGap = cs := List.takeWhile_append_dropWhile
  rw [afterGap]
  split
  · next rest opened =>
    have note : "//".toList ++ rest.takeWhile (!endsLine ·) ++ rest.dropWhile (!endsLine ·) =
        cs.dropWhile isGap := by
      rw [List.append_assoc, List.takeWhile_append_dropWhile, opened]
      rfl
    have comment : IsComment ("//".toList ++ rest.takeWhile (!endsLine ·)) :=
      ⟨_, fun c h => by simpa using List.mem_takeWhile_imp h, rfl⟩
    have stop : ∀ c ∈ (rest.dropWhile (!endsLine ·)).head?, endsLine c = true :=
      fun c h => by simpa using of_mem_head?_dropWhile h
    have skipped := Skipped.comment blanks comment stop
    rwa [note, whole] at skipped
  · next other =>
    have stop : ∀ c ∈ (cs.dropWhile isGap).head?, isGap c = false :=
      fun _ => of_mem_head?_dropWhile
    have skipped := Skipped.blanks blanks stop fun ⟨rest, h⟩ => other rest h.symm
    rwa [whole] at skipped

theorem afterGap_of_skipped (h : Skipped rest cs) : afterGap cs = rest := by
  cases h with
  | blanks blanks stop noComment =>
    rw [afterGap, dropWhile_append blanks stop]
    split
    · exact absurd ⟨_, rfl⟩ noComment
    · rfl
  | @comment g t blanks note stop =>
    obtain ⟨note, inside, rfl⟩ := note
    have front : (g ++ ("//".toList ++ note ++ rest)).dropWhile isGap =
        '/' :: '/' :: (note ++ rest) :=
      dropWhile_append blanks (by rintro _ ⟨⟩; decide)
    rw [afterGap, front]
    exact dropWhile_append (by simpa using inside) (by simpa using stop)

/-- A gap takes what it can, so it leaves one text only. -/
theorem afterGap_eq_iff : afterGap cs = rest ↔ Skipped rest cs :=
  ⟨fun h => h ▸ skipped_afterGap cs, afterGap_of_skipped⟩

/-- A gap ends at a token. -/
theorem afterGap_append {g t : List Char} (blanks : ∀ c ∈ g, isGap c = true) (h : Opens t) :
    afterGap (g ++ (t ++ rest)) = t ++ rest := by
  obtain ⟨c, first, ink, slash⟩ := h
  cases t with
  | nil => cases first
  | cons d t =>
    cases first
    refine afterGap_of_skipped (.blanks blanks ?_ ?_)
    · rintro _ ⟨⟩
      exact Bool.eq_false_iff.2 fun gap => Bool.eq_false_iff.1 ink (isBlank_of_isGap gap)
    · rintro ⟨_, h⟩
      exact slash (List.cons.inj h).1.symm

/-- What comes before a token is blanks, as a comment would have hidden it. -/
theorem exists_of_afterGap {t : List Char} (h : Opens t) (after : afterGap cs = t ++ rest) :
    ∃ g, (∀ c ∈ g, isGap c = true) ∧ cs = g ++ (t ++ rest) := by
  obtain ⟨c, first, ink, -⟩ := h
  cases afterGap_eq_iff.1 after with
  | blanks blanks => exact ⟨_, blanks, rfl⟩
  | comment _ _ stop =>
    have lineEnd : endsLine c = true := stop c (List.mem_head?_append_of_mem_head? first)
    rw [isBlank_of_endsLine lineEnd] at ink
    cases ink

end

section

variable {base n : Nat} {ds : List Char} {c : Char}

theorem hexValue?_eq_some_iff {d : Nat} :
    hexValue? c = some d ↔ d < 16 ∧ ∃ letters, c = hexDigit letters d := by
  constructor
  · intro h
    have table : ∀ n : Fin 103, ∀ d ∈ hexValue? (Char.ofNat n),
        d < 16 ∧ (Char.ofNat n = hexDigit .lower d ∨ Char.ofNat n = hexDigit .upper d) := by
      decide
    have bound : c.toNat < 103 := by
      rw [hexValue?] at h
      split at h
      · next digit =>
        have high : c.toNat ≤ 57 := (Bool.and_eq_true_iff.1 digit).2 |> of_decide_eq_true
        omega
      · split at h
        · next lower => exact Nat.lt_succ_of_le lower.2
        · split at h
          · next upper => exact Nat.lt_of_le_of_lt (m := 70) upper.2 (by decide)
          · cases h
    rw [← Char.ofNat_toNat c] at h ⊢
    obtain ⟨small, lower | upper⟩ := table ⟨c.toNat, bound⟩ d h
    · exact ⟨small, _, lower⟩
    · exact ⟨small, _, upper⟩
  · rintro ⟨small, letters, rfl⟩
    exact hexValue?_hexDigit letters ⟨d, small⟩

theorem Numeral.concat_iff : Numeral base n (ds ++ [c]) ↔
    ∃ m d letters, Numeral base m ds ∧ d < base ∧ c = hexDigit letters d ∧ n = base * m + d := by
  constructor
  · intro h
    generalize whole : ds ++ [c] = cs at h
    cases h with
    | nil => simp at whole
    | digit letters front small =>
      obtain ⟨rfl, last⟩ := List.append_inj' whole rfl
      obtain rfl := List.singleton_inj.1 last
      exact ⟨_, _, letters, front, small, rfl, rfl⟩
  · rintro ⟨m, d, letters, front, small, rfl, rfl⟩
    exact front.digit letters small

theorem numberAfter_concat {v : Nat} : numberAfter base v (ds ++ [c]) = some n ↔
    ∃ m d, numberAfter base v ds = some m ∧ hexValue? c = some d ∧ d < base ∧
      n = base * m + d := by
  induction ds generalizing v with
  | nil =>
    simp only [List.nil_append, numberAfter]
    cases hexValue? c with
    | none => simp
    | some d => by_cases small : d < base <;> simp [small, eq_comm]
  | cons b ds ih =>
    rw [List.cons_append, numberAfter, numberAfter]
    cases hexValue? b with
    | none => simp
    | some d =>
      by_cases small : d < base
      · simpa [small] using ih
      · simp [small]

/-- Digits are read as the number that they write; by induction from the last digit. -/
theorem numberAfter_eq_some_iff (small : base ≤ 16) :
    numberAfter base 0 ds = some n ↔ Numeral base n ds := by
  induction ds using List.reverseRecOn generalizing n with
  | nil =>
    rw [numberAfter, Option.some_inj]
    constructor
    · rintro rfl
      exact .nil
    · intro h
      generalize empty : ([] : List Char) = cs at h
      cases h with
      | nil => rfl
      | digit => simp at empty
  | append_singleton ds c ih =>
    rw [numberAfter_concat, Numeral.concat_iff]
    simp only [ih, hexValue?_eq_some_iff]
    constructor
    · rintro ⟨m, d, front, ⟨-, letters, rfl⟩, bound, rfl⟩
      exact ⟨m, d, letters, front, bound, rfl, rfl⟩
    · rintro ⟨m, d, letters, front, bound, rfl, rfl⟩
      exact ⟨m, d, front, ⟨Nat.lt_of_lt_of_le bound small, letters, rfl⟩, bound, rfl⟩

/-- A digit below ten is a decimal one in either case of letters. -/
theorem isDigit_iff : c.isDigit = true ↔ ∃ letters d, d < 10 ∧ c = hexDigit letters d := by
  constructor
  · intro h
    have value : hexValue? c = some (c.toNat - '0'.toNat) := if_pos h
    obtain ⟨-, letters, digit⟩ := hexValue?_eq_some_iff.1 value
    have high : c.toNat ≤ 57 := (Bool.and_eq_true_iff.1 h).2 |> of_decide_eq_true
    have zero : '0'.toNat = 48 := rfl
    exact ⟨letters, _, by omega, digit⟩
  · rintro ⟨letters, d, small, rfl⟩
    have table : ∀ d : Fin 10, (hexDigit letters d).isDigit = true := by
      cases letters <;> decide
    exact table ⟨d, small⟩

theorem toNat_hexDigit (letters : LetterCase) {d : Nat} (small : d < 10) :
    (hexDigit letters d).toNat - '0'.toNat = d := by
  have table : ∀ d : Fin 10, (hexDigit letters d).toNat - '0'.toNat = d := by
    cases letters <;> decide
  exact table ⟨d, small⟩

/-- Decimal numerals are rows of decimal digits. -/
theorem numeral_ten_iff : Numeral 10 n ds ↔
    (∀ c ∈ ds, c.isDigit = true) ∧ n = Nat.ofDigitChars 10 ds 0 := by
  induction ds using List.reverseRecOn generalizing n with
  | nil =>
    rw [← numberAfter_eq_some_iff (by decide), numberAfter, Option.some_inj, eq_comm]
    exact ⟨fun h => ⟨List.forall_mem_nil _, h⟩, fun h => h.2⟩
  | append_singleton ds c ih =>
    rw [Numeral.concat_iff, Nat.ofDigitChars_append, Nat.ofDigitChars_cons, Nat.ofDigitChars_nil,
      List.forall_mem_append, List.forall_mem_singleton]
    simp only [ih]
    constructor
    · rintro ⟨m, d, letters, ⟨front, rfl⟩, small, rfl, rfl⟩
      rw [toNat_hexDigit letters small]
      exact ⟨⟨front, isDigit_iff.2 ⟨letters, d, small, rfl⟩⟩, rfl⟩
    · rintro ⟨⟨front, digit⟩, rfl⟩
      obtain ⟨letters, d, small, rfl⟩ := isDigit_iff.1 digit
      exact ⟨_, d, letters, ⟨front, rfl⟩, small, rfl, by rw [toNat_hexDigit letters small]⟩

end

/-- No gap and no sign of the grammar is a digit. -/
theorem hexDigit_ink (letters : LetterCase) {d : Nat} (small : d < 16) :
    isBlank (hexDigit letters d) = false ∧ hexDigit letters d ≠ '/' ∧
      (hexDigit letters d).isAlphanum = true := by
  have table : ∀ d : Fin 16, isBlank (hexDigit letters d) = false ∧ hexDigit letters d ≠ '/' ∧
      (hexDigit letters d).isAlphanum = true := by
    cases letters <;> decide
  exact table ⟨d, small⟩

theorem Numeral.exists_hexDigit {base n : Nat} {ds : List Char} (h : Numeral base n ds) :
    ∀ c ∈ ds, ∃ letters d, d < base ∧ c = hexDigit letters d := by
  induction h with
  | nil => exact List.forall_mem_nil _
  | digit letters _ small ih =>
    rw [List.forall_mem_append, List.forall_mem_singleton]
    exact ⟨ih, letters, _, small, rfl⟩

theorem Numeral.opens {base n : Nat} {ds : List Char} (h : Numeral base n ds) (small : base ≤ 16)
    (nonempty : ds ≠ []) : Opens ds := by
  cases ds with
  | nil => exact absurd rfl nonempty
  | cons c ds =>
    obtain ⟨letters, d, digit, rfl⟩ := h.exists_hexDigit c List.mem_cons_self
    obtain ⟨ink, slash, -⟩ := hexDigit_ink letters (Nat.lt_of_lt_of_le digit small)
    exact ⟨_, rfl, ink, slash⟩

theorem AddressText.opens {a : Nat} {t : List Char} (h : AddressText a t) : Opens t := by
  obtain ⟨ds, -, -, rfl⟩ := h
  exact Opens.append (by decide) ds

theorem ValueText.opens {v : Nat} {t : List Char} (h : ValueText v t) : Opens t := by
  obtain ⟨ds, -, -, rfl⟩ := h
  exact Opens.append (by decide) ds

theorem CountText.opens {n : Nat} {t : List Char} (h : CountText n t) : Opens t :=
  h.1.opens (by decide) h.2

theorem ByteText.opens {b : Byte} {t : List Char} (h : ByteText b t) : Opens t := by
  refine h.1.opens (Nat.le_refl 16) ?_
  rintro rfl
  cases h.2

theorem ByteListText.opens {bs : List Byte} {t : List Char} (h : ByteListText bs t) :
    Opens t := by
  cases h with
  | one byte => exact byte.opens
  | more blanks byte => exact byte.opens.append _

theorem Source.Text.opens {s : Source} {t : List Char} (h : s.Text t) : Opens t := by
  cases s with
  | register r =>
    obtain rfl : t = r.name.toList := h
    cases r <;> decide
  | flag f =>
    obtain rfl : t = f.name.toList := h
    cases f <;> decide
  | memory address => exact AddressText.opens h
  | literal v => exact ValueText.opens h

section

variable {n : Nat} {cs ds rest : List Char}

theorem exactly_eq_some_iff {text : String} {u : Unit} :
    exactly text cs = some (u, rest) ↔ cs = text.toList ++ rest := by
  simp [exactly, afterFront_eq_some]

theorem number?_eq_some_iff (positive : 0 < ds.length) :
    number? 16 ds = some n ↔ Numeral 16 n ds := by
  cases ds with
  | nil => cases positive
  | cons d ds => exact numberAfter_eq_some_iff (Nat.le_refl 16)

/-- So many digits are taken, no more even where more follow. -/
theorem hexNumber_eq_some_iff {count : Nat} (positive : 0 < count) :
    hexNumber count cs = some (n, rest) ↔
      ∃ ds, Numeral 16 n ds ∧ ds.length = count ∧ cs = ds ++ rest := by
  have number {ds : List Char} (length : ds.length = count) :
      number? 16 ds = some n ↔ Numeral 16 n ds := number?_eq_some_iff (length ▸ positive)
  constructor
  · intro h
    by_cases length : (cs.take count).length = count
    · rw [hexNumber, if_pos length] at h
      obtain ⟨m, value, ⟨⟩⟩ := Option.map_eq_some_iff.1 h
      exact ⟨_, (number length).1 value, length, (List.take_append_drop count cs).symm⟩
    · rw [hexNumber, if_neg length] at h
      cases h
  · rintro ⟨ds, numeral, length, rfl⟩
    have front : (ds ++ rest).take count = ds := List.take_left' length
    have back : (ds ++ rest).drop count = rest := List.drop_left' length
    rw [hexNumber, front, back, if_pos length, (number length).2 numeral]
    rfl

theorem byte_eq_some_iff {b : Byte} :
    Grammar.byte cs = some (b, rest) ↔ ∃ t, ByteText b t ∧ cs = t ++ rest := by
  constructor
  · intro h
    obtain ⟨n, mid, number, ⟨⟩⟩ := bind_eq_some_iff.1 h
    obtain ⟨ds, numeral, length, rfl⟩ := (hexNumber_eq_some_iff (by decide)).1 number
    have small : n < 2 ^ 8 := by
      have bound := numeral.lt_pow
      rwa [length] at bound
    refine ⟨ds, ⟨?_, length⟩, rfl⟩
    rwa [BitVec.toNat_ofNat, Nat.mod_eq_of_lt small]
  · rintro ⟨t, ⟨numeral, length⟩, rfl⟩
    have number : hexNumber 2 (t ++ rest) = some (b.toNat, rest) :=
      (hexNumber_eq_some_iff (by decide)).2 ⟨t, numeral, length, rfl⟩
    rw [Grammar.byte, bind_of_eq_some number, BitVec.ofNat_toNat, BitVec.setWidth_eq]
    rfl

/-- A count takes all the digits that there are. -/
theorem digits_eq_some_iff : digits cs = some (ds, rest) ↔
    CountText (Nat.ofDigitChars 10 ds 0) ds ∧ (∀ c ∈ rest.head?, c.isDigit = false) ∧
      cs = ds ++ rest := by
  constructor
  · intro h
    have whole : cs.takeWhile Char.isDigit ++ cs.dropWhile Char.isDigit = cs :=
      List.takeWhile_append_dropWhile
    rw [digits] at h
    split at h
    · cases h
    · next nonempty =>
      cases h
      have all : ∀ c ∈ cs.takeWhile Char.isDigit, c.isDigit = true :=
        fun _ => List.mem_takeWhile_imp
      exact ⟨⟨numeral_ten_iff.2 ⟨all, rfl⟩, nonempty⟩, fun _ => of_mem_head?_dropWhile, whole.symm⟩
  · rintro ⟨⟨numeral, nonempty⟩, stop, rfl⟩
    have all : ∀ c ∈ ds, c.isDigit = true := (numeral_ten_iff.1 numeral).1
    have front : (ds ++ rest).takeWhile Char.isDigit = ds := by
      rw [List.takeWhile_append_of_pos all]
      cases rest with
      | nil => simp
      | cons c rest => simp [stop c rfl]
    rw [digits, front, dropWhile_append all stop]
    cases ds with
    | nil => exact absurd rfl nonempty
    | cons => rfl

end

section

variable {d cs mid : List Char}

/-- Text that has no mark in it and does not run into the next one is all that comes before it. -/
theorem splitMark_of_unmarked (unmarked : ¬ ['$', '$'] <:+: d) (last : d.getLast? ≠ some '$')
    (rest : List Char) : splitMark (d ++ ("$$".toList ++ rest)) = (d, "$$".toList ++ rest) := by
  induction d with
  | nil => rfl
  | cons c d ih =>
    have later : splitMark (d ++ ("$$".toList ++ rest)) = (d, "$$".toList ++ rest) := by
      refine ih (fun inside => unmarked (inside.trans (List.suffix_cons c d).isInfix)) ?_
      cases d with
      | nil => simp
      | cons e d => rwa [List.getLast?_cons_cons] at last
    rw [List.cons_append, splitMark, later]
    rintro more ⟨rfl⟩ marked
    cases d with
    | nil => exact last rfl
    | cons e d =>
      obtain rfl : e = '$' := (List.cons.inj marked).1
      exact unmarked (List.prefix_append ['$', '$'] d).isInfix

/-- What comes before a mark has none in it and does not run into it. -/
theorem of_splitMark (h : splitMark cs = (d, mid)) :
    ¬ ['$', '$'] <:+: d ∧ (mid = [] ∨ (['$', '$'] <+: mid ∧ d.getLast? ≠ some '$')) := by
  fun_induction splitMark cs generalizing d mid with
  | case1 rest =>
    cases h
    exact ⟨by simp, .inr ⟨List.prefix_append ['$', '$'] rest, by simp⟩⟩
  | case2 c rest unmarked ih =>
    cases h
    obtain ⟨inside, after⟩ := ih rfl
    have whole := splitMark_append rest
    constructor
    · intro marked
      rcases List.infix_cons_iff.1 marked with ⟨more, front⟩ | later
      · obtain ⟨rfl, tail⟩ := List.cons.inj front
        rw [← tail] at whole
        exact unmarked _ rfl whole.symm
      · exact inside later
    · refine after.imp_right ?_
      rintro ⟨mark, last⟩
      refine ⟨mark, ?_⟩
      cases text : (splitMark rest).1 with
      | nil =>
        rintro ⟨rfl⟩
        obtain ⟨more, mark⟩ := mark
        rw [text, ← mark] at whole
        exact unmarked _ rfl whole.symm
      | cons e text' => rwa [List.getLast?_cons_cons, ← text]
  | case3 =>
    cases h
    exact ⟨by simp, .inl rfl⟩

end

section

variable {cs a b : List Char}

theorem trimStart_append (blank : ∀ c ∈ a, isBlank c = true) :
    trimStart (a ++ b) = trimStart b :=
  List.dropWhile_append_of_pos blank

theorem trimStart_of_head (h : ∀ c ∈ a.head?, isBlank c = false) : trimStart a = a :=
  dropWhile_head h

theorem trimEnd_of_blank (blank : ∀ c ∈ a, isBlank c = true) : trimEnd a = [] := by
  have nothing : trimStart a.reverse = [] :=
    List.dropWhile_eq_nil_iff.2 fun c h => blank c (List.mem_reverse.1 h)
  rw [trimEnd, nothing, List.reverse_nil]

/-- White space is cut off at the end of a text no further than its last other character. -/
theorem trimEnd_append (h : ∃ c ∈ a.getLast?, isBlank c = false) :
    trimEnd (a ++ b) = a ++ trimEnd b := by
  obtain ⟨c, last, ink⟩ := h
  have stop : trimStart (b.reverse ++ a.reverse) = trimStart b.reverse ++ a.reverse := by
    rw [trimStart, List.dropWhile_append]
    split
    · next nothing =>
      rw [List.isEmpty_iff] at nothing
      rw [trimStart, nothing, List.nil_append]
      refine dropWhile_head ?_
      rw [List.head?_reverse, Option.mem_def.1 last]
      rintro _ ⟨⟩
      exact ink
    · rfl
  rw [trimEnd, List.reverse_append, stop, List.reverse_append, List.reverse_reverse, trimEnd]

/-- Cutting off white space leaves a text between two runs of it. -/
theorem exists_trim (cs : List Char) : ∃ lead trail, (∀ c ∈ lead, isBlank c = true) ∧
    (∀ c ∈ trail, isBlank c = true) ∧ cs = lead ++ (trim cs ++ trail) := by
  refine ⟨cs.takeWhile isBlank, ((trimStart cs).reverse.takeWhile isBlank).reverse,
    fun _ => List.mem_takeWhile_imp, fun c h => List.mem_takeWhile_imp (List.mem_reverse.1 h), ?_⟩
  rw [trim, trimEnd, trimStart, ← List.reverse_append, List.takeWhile_append_dropWhile,
    List.reverse_reverse, trimStart, List.takeWhile_append_dropWhile]

end

end Emu8085.Script
