import Emu8085.Script.Line
import Mathlib.Data.List.Infix
import Mathlib.Tactic.Ring

/-!
# How script lines are spelled

The texts of a line by what they say, apart from how they are read: numerals, the tokens of each
command in their order, the blanks between tokens and what may stand around them. A command has a
spelling just where its numbers fit in their digits and its description can be told from its marks
(`exists_writtenOn_iff`).
-/
namespace Emu8085.Script

open Text Script.Parser

/-- Digits that write a number in a base up to sixteen, the highest first and letters in either
case. Zeros in front do not matter. -/
inductive Numeral (base : Nat) : Nat → List Char → Prop
  | nil : Numeral base 0 []
  | digit {n d : Nat} {ds : List Char} (letters : LetterCase) :
      Numeral base n ds → d < base → Numeral base (base * n + d) (ds ++ [hexDigit letters d])

def AddressText (n : Nat) (t : List Char) : Prop :=
  ∃ ds, Numeral 16 n ds ∧ ds.length = 4 ∧ t = "#0x".toList ++ ds

def ValueText (n : Nat) (t : List Char) : Prop :=
  ∃ ds, Numeral 16 n ds ∧ (ds.length = 4 ∨ ds.length = 2) ∧ t = "0x".toList ++ ds

def CountText (n : Nat) (t : List Char) : Prop := Numeral 10 n t ∧ t ≠ []

def ByteText (b : Byte) (t : List Char) : Prop := Numeral 16 b.toNat t ∧ t.length = 2

/-- Bytes with a comma and any number of blanks between them. -/
inductive ByteListText : List Byte → List Char → Prop
  | one {b : Byte} {t : List Char} : ByteText b t → ByteListText [b] t
  | more {b : Byte} {bs : List Byte} {t u : List Char} (blanks : Nat) :
      ByteText b t → ByteListText bs u →
        ByteListText (b :: bs) (t ++ ',' :: (List.replicate blanks ' ' ++ u))

def Source.Text : Source → List Char → Prop
  | register r, t => t = r.name.toList
  | flag f, t => t = f.name.toList
  | memory address, t => AddressText address t
  | literal v, t => ValueText v t

/-- What can stand between marks and be told from them, from a gap and from a comment. -/
structure IsDescription (d : List Char) : Prop where
  unmarked : ¬ ['$', '$'] <:+: d
  last : d.getLast? ≠ some '$'
  first : ∀ c ∈ d.head?, isGap c = false
  noComment : ¬ ['/', '/'] <+: d

def IsComment (t : List Char) : Prop :=
  ∃ note, (∀ c ∈ note, endsLine c = false) ∧ t = "//".toList ++ note

/-- A description with the mark that closes it. A comment may go before one that begins with the
end of a line. -/
inductive DescriptionText (d : List Char) : List Char → Prop
  | plain : DescriptionText d (d ++ "$$".toList)
  | noted {t : List Char} : IsComment t → (∃ c ∈ d.head?, endsLine c = true) →
      DescriptionText d (t ++ (d ++ "$$".toList))

inductive PredicateTokens : Predicate → List (List Char) → Prop
  | yes : PredicateTokens (.constant true) ["true".toList]
  | no : PredicateTokens (.constant false) ["false".toList]
  | compare {l r : Source} {t u : List Char} (relation : Relation) : l.Text t → r.Text u →
      PredicateTokens (.compare l relation r) [t, relation.symbol.toList, u]

inductive StartTokens : Option Nat → List (List Char) → Prop
  | absent : StartTokens none []
  | present {a : Nat} {t : List Char} : AddressText a t → StartTokens (some a) [t]

inductive StopTokens : Option Predicate → List (List Char) → Prop
  | absent : StopTokens none []
  | present {p : Predicate} {ts : List (List Char)} : PredicateTokens p ts →
      StopTokens (some p) ("until".toList :: ts)

/-- The tokens of a line and what they ask for. A count that is too large is the only mistake that
tokens in their right places can make. -/
inductive Spelled : Except LineError Command → List (List Char) → Prop
  | nothing : Spelled (.ok .nothing) []
  | marker {d : String} {t : List Char} : IsDescription d.toList → DescriptionText d.toList t →
      Spelled (.ok (.marker d)) ["marker".toList, "$$".toList, t]
  | reset : Spelled (.ok .reset) ["reset".toList]
  | load {a : Nat} {bs : List Byte} {t u : List Char} : AddressText a t → ByteListText bs u →
      Spelled (.ok (.load a bs)) ["load".toList, t, "0x(".toList, u, ")".toList]
  | memoryWrite {a : Nat} {bs : List Byte} {t u : List Char} : AddressText a t →
      ByteListText bs u → Spelled (.ok (.memoryWrite a bs))
        ["memory".toList, "write".toList, t, "0x(".toList, u, ")".toList]
  | memoryShow {a n : Nat} {t u : List Char} : AddressText a t → CountText n u → n < countLimit →
      Spelled (.ok (.memoryShow a n)) ["memory".toList, "show".toList, t, u]
  | memoryShowTooMuch {a n : Nat} {t u : List Char} : AddressText a t → CountText n u →
      countLimit ≤ n → Spelled (.error (.countTooLarge (String.ofList u)))
        ["memory".toList, "show".toList, t, u]
  | registersShow : Spelled (.ok .registersShow) ["registers".toList, "show".toList]
  | registersSet {v : Nat} {t : List Char} (r : Register) : ValueText v t →
      Spelled (.ok (.registersSet r v))
        ["registers".toList, "set".toList, r.name.toList, "=".toList, t]
  | goto {a : Nat} {t : List Char} : AddressText a t → Spelled (.ok (.goto a)) ["goto".toList, t]
  | step : Spelled (.ok .step) ["step".toList]
  | run {start : Option Nat} {stop : Option Predicate} {ts us : List (List Char)} :
      StartTokens start ts → StopTokens stop us →
        Spelled (.ok (.run stop start defaultMaxSteps)) ("run".toList :: (ts ++ us))
  | disassemble {a n : Nat} {t u : List Char} : AddressText a t → CountText n u →
      n < countLimit → Spelled (.ok (.disassemble a n)) ["disassemble".toList, t, u]
  | disassembleTooMuch {a n : Nat} {t u : List Char} : AddressText a t → CountText n u →
      countLimit ≤ n → Spelled (.error (.countTooLarge (String.ofList u)))
        ["disassemble".toList, t, u]
  | assert {p : Predicate} {d : String} {ts : List (List Char)} {t : List Char} :
      PredicateTokens p ts → IsDescription d.toList → DescriptionText d.toList t →
        Spelled (.ok (.assert p d)) ("assert".toList :: (ts ++ ["$$".toList, t]))

/-- Tokens in a row, with any blanks and tabs before each. -/
inductive Spread : List (List Char) → List Char → Prop
  | nil : Spread [] []
  | cons {g t rest : List Char} {ts : List (List Char)} : (∀ c ∈ g, isGap c = true) →
      Spread ts rest → Spread (t :: ts) (g ++ (t ++ rest))

/-- A line of tokens: white space may stand around it, and a comment may end it. -/
def Laid (tokens : List (List Char)) (line : List Char) : Prop :=
  ∃ lead body gap note trail : List Char,
    (∀ c ∈ lead, isBlank c = true) ∧ Spread tokens body ∧ (∀ c ∈ gap, isGap c = true) ∧
    (note = [] ∨ IsComment note) ∧ (∀ c ∈ trail, isBlank c = true) ∧
    line = lead ++ (body ++ (gap ++ (note ++ trail)))

/-- The line is one of the spellings of the command. -/
def Command.WrittenOn (c : Command) (line : List Char) : Prop :=
  ∃ tokens, Spelled (.ok c) tokens ∧ Laid tokens line

section

variable {base n : Nat} {ds : List Char}

theorem Numeral.lt_pow (h : Numeral base n ds) : n < base ^ ds.length := by
  induction h with
  | nil => simp
  | @digit n d ds letters _ small ih =>
    rw [List.length_append, List.length_singleton, Nat.pow_succ]
    calc base * n + d < base * n + base := by omega
      _ = base * (n + 1) := by ring
      _ ≤ base * base ^ ds.length := Nat.mul_le_mul_left base ih
      _ = base ^ ds.length * base := Nat.mul_comm ..

/-- A number has a numeral of any length that it fits in. -/
theorem exists_numeral (count : Nat) (h : n < base ^ count) :
    ∃ ds, Numeral base n ds ∧ ds.length = count := by
  induction count generalizing n with
  | zero =>
    have zero : n = 0 := by simpa using h
    exact ⟨[], zero ▸ .nil, rfl⟩
  | succ count ih =>
    rw [Nat.pow_succ, Nat.mul_comm] at h
    have positive : 0 < base := Nat.pos_of_ne_zero (by rintro rfl; simp at h)
    obtain ⟨ds, numeral, length⟩ := ih (Nat.div_lt_of_lt_mul h)
    refine ⟨ds ++ [hexDigit .lower (n % base)], ?_, by simp [length]⟩
    have digits := numeral.digit .lower (Nat.mod_lt n positive)
    rwa [Nat.div_add_mod] at digits

end

theorem numeral_lowDigits (letters : LetterCase) {count n : Nat} (h : n < 16 ^ count) :
    Numeral 16 n (lowDigits letters count n []) := by
  induction count generalizing n with
  | zero =>
    obtain rfl : n = 0 := by simpa using h
    exact .nil
  | succ count ih =>
    rw [Nat.pow_succ, Nat.mul_comm] at h
    have digits := (ih (Nat.div_lt_of_lt_mul h)).digit letters (Nat.mod_lt n (by decide))
    rwa [Nat.div_add_mod, ← lowDigits_succ] at digits

/-- Hexadecimal text is a numeral of its number, in either case of letters. -/
theorem numeral_hex (letters : LetterCase) (width n : Nat) :
    Numeral 16 n (hex letters width n).toList := by
  rw [hex, String.toList_ofList]
  refine numeral_lowDigits letters ?_
  calc n < 16 ^ (n.log2 / 4 + 1) := hexLength_le_iff.1 (Nat.le_refl _)
    _ ≤ 16 ^ max width (hexLength n) := Nat.pow_le_pow_right (by decide) (Nat.le_max_right ..)

theorem AddressText.lt {n : Nat} {t : List Char} (h : AddressText n t) : n < 0x10000 := by
  obtain ⟨ds, numeral, length, -⟩ := h
  have bound := numeral.lt_pow
  rwa [length] at bound

theorem exists_addressText {n : Nat} (h : n < 0x10000) : ∃ t, AddressText n t := by
  have bound : n < 16 ^ 4 := h
  obtain ⟨ds, numeral, length⟩ := exists_numeral 4 bound
  exact ⟨_, ds, numeral, length, rfl⟩

theorem ValueText.lt {n : Nat} {t : List Char} (h : ValueText n t) : n < 0x10000 := by
  obtain ⟨ds, numeral, length | length, -⟩ := h
  · have bound := numeral.lt_pow
    rwa [length] at bound
  · have bound := numeral.lt_pow
    rw [length] at bound
    omega

theorem exists_valueText {n : Nat} (h : n < 0x10000) : ∃ t, ValueText n t := by
  have bound : n < 16 ^ 4 := h
  obtain ⟨ds, numeral, length⟩ := exists_numeral 4 bound
  exact ⟨_, ds, numeral, .inl length, rfl⟩

theorem exists_countText (n : Nat) : ∃ t, CountText n t := by
  have bound : n < 10 ^ (n + 1) := by
    calc n < n + 1 := Nat.lt_succ_self n
      _ < 10 ^ (n + 1) := Nat.lt_pow_self (by decide)
  obtain ⟨ds, numeral, length⟩ := exists_numeral (n + 1) bound
  exact ⟨ds, numeral, List.ne_nil_of_length_pos (by omega)⟩

theorem ByteListText.ne_nil {bs : List Byte} {t : List Char} (h : ByteListText bs t) : bs ≠ [] := by
  cases h <;> exact List.cons_ne_nil _ _

theorem exists_byteListText {bs : List Byte} (h : bs ≠ []) : ∃ t, ByteListText bs t := by
  induction bs with
  | nil => exact absurd rfl h
  | cons b bs ih =>
    have bound : b.toNat < 16 ^ 2 := b.isLt
    obtain ⟨ds, numeral, length⟩ := exists_numeral 2 bound
    rcases List.eq_nil_or_concat bs with rfl | more
    · exact ⟨ds, .one ⟨numeral, length⟩⟩
    · obtain ⟨t, rest⟩ := ih (by rintro rfl; simp at more)
      exact ⟨_, .more 0 ⟨numeral, length⟩ rest⟩

def Source.IsScriptable : Source → Prop
  | register _ | flag _ => True
  | memory address => address < 0x10000
  | literal v => v < 0x10000

def Predicate.IsScriptable : Predicate → Prop
  | constant _ => True
  | compare left _ right => left.IsScriptable ∧ right.IsScriptable

/-- A command that a script can ask for: its addresses and values have sixteen bits, its counts
sixty-four, its byte list is not empty, and its description can stand between marks. -/
def Command.IsScriptable : Command → Prop
  | assert condition description => condition.IsScriptable ∧ IsDescription description.toList
  | disassemble address count | memoryShow address count =>
    address < 0x10000 ∧ count < countLimit
  | goto address => address < 0x10000
  | load address bytes | memoryWrite address bytes => address < 0x10000 ∧ bytes ≠ []
  | marker description => IsDescription description.toList
  | registersSet _ v => v < 0x10000
  | run stop start maxSteps => (∀ p ∈ stop, p.IsScriptable) ∧ (∀ a ∈ start, a < 0x10000) ∧
      maxSteps = defaultMaxSteps
  | nothing | registersShow | reset | step => True

theorem exists_text_iff (s : Source) : (∃ t, s.Text t) ↔ s.IsScriptable := by
  cases s with
  | register r | flag f => exact ⟨fun _ => trivial, fun _ => ⟨_, rfl⟩⟩
  | memory address => exact ⟨fun ⟨_, h⟩ => h.lt, exists_addressText⟩
  | literal v => exact ⟨fun ⟨_, h⟩ => h.lt, exists_valueText⟩

theorem exists_predicateTokens_iff (p : Predicate) :
    (∃ ts, PredicateTokens p ts) ↔ p.IsScriptable := by
  constructor
  · rintro ⟨ts, yes | no | ⟨relation, left, right⟩⟩
    · trivial
    · trivial
    · exact ⟨(exists_text_iff _).1 ⟨_, left⟩, (exists_text_iff _).1 ⟨_, right⟩⟩
  · intro h
    cases p with
    | constant v => cases v <;> exact ⟨_, by constructor⟩
    | compare left relation right =>
      obtain ⟨t, ht⟩ := (exists_text_iff left).2 h.1
      obtain ⟨u, hu⟩ := (exists_text_iff right).2 h.2
      exact ⟨_, .compare relation ht hu⟩

/-- The digits and marks of a spelling bound what it asks for. -/
theorem isScriptable_of_spelled {c : Command} {ts : List (List Char)}
    (h : Spelled (.ok c) ts) : c.IsScriptable := by
  cases h with
  | nothing | reset | registersShow | step => trivial
  | marker described _ => exact described
  | load address bytes | memoryWrite address bytes => exact ⟨address.lt, bytes.ne_nil⟩
  | memoryShow address _ small | disassemble address _ small => exact ⟨address.lt, small⟩
  | registersSet r v => exact v.lt
  | goto address => exact address.lt
  | run start stop =>
    refine ⟨?_, ?_, rfl⟩
    · rintro p ⟨⟩
      cases stop with
      | present tokens => exact (exists_predicateTokens_iff p).1 ⟨_, tokens⟩
    · rintro a ⟨⟩
      cases start with
      | present address => exact address.lt
  | assert tokens described _ => exact ⟨(exists_predicateTokens_iff _).1 ⟨_, tokens⟩, described⟩

/-- By cases on the command: numbers that fit have numerals, and a description has its marks. -/
theorem exists_spelled_of_isScriptable {c : Command} (h : c.IsScriptable) :
    ∃ ts, Spelled (.ok c) ts := by
  cases c with
  | nothing => exact ⟨_, .nothing⟩
  | reset => exact ⟨_, .reset⟩
  | registersShow => exact ⟨_, .registersShow⟩
  | step => exact ⟨_, .step⟩
  | marker description => exact ⟨_, .marker h .plain⟩
  | load address bytes =>
    obtain ⟨t, ht⟩ := exists_addressText h.1
    obtain ⟨u, hu⟩ := exists_byteListText h.2
    exact ⟨_, .load ht hu⟩
  | memoryWrite address bytes =>
    obtain ⟨t, ht⟩ := exists_addressText h.1
    obtain ⟨u, hu⟩ := exists_byteListText h.2
    exact ⟨_, .memoryWrite ht hu⟩
  | memoryShow address count =>
    obtain ⟨t, ht⟩ := exists_addressText h.1
    obtain ⟨u, hu⟩ := exists_countText count
    exact ⟨_, .memoryShow ht hu h.2⟩
  | disassemble address count =>
    obtain ⟨t, ht⟩ := exists_addressText h.1
    obtain ⟨u, hu⟩ := exists_countText count
    exact ⟨_, .disassemble ht hu h.2⟩
  | registersSet r v =>
    obtain ⟨t, ht⟩ := exists_valueText h
    exact ⟨_, .registersSet r ht⟩
  | goto address =>
    obtain ⟨t, ht⟩ := exists_addressText h
    exact ⟨_, .goto ht⟩
  | run stop start maxSteps =>
    obtain ⟨stops, starts, rfl⟩ := h
    obtain ⟨ts, hts⟩ : ∃ ts, StartTokens start ts := by
      cases start with
      | none => exact ⟨_, .absent⟩
      | some a =>
        obtain ⟨t, ht⟩ := exists_addressText (starts a rfl)
        exact ⟨_, .present ht⟩
    obtain ⟨us, hus⟩ : ∃ us, StopTokens stop us := by
      cases stop with
      | none => exact ⟨_, .absent⟩
      | some p =>
        obtain ⟨ps, hps⟩ := (exists_predicateTokens_iff p).2 (stops p rfl)
        exact ⟨_, .present hps⟩
    exact ⟨_, .run hts hus⟩
  | assert condition description =>
    obtain ⟨ts, hts⟩ := (exists_predicateTokens_iff condition).2 h.1
    exact ⟨_, .assert hts h.2 .plain⟩

/-- Any tokens can be laid out on a line. -/
theorem exists_laid (ts : List (List Char)) : ∃ line, Laid ts line := by
  obtain ⟨body, spread⟩ : ∃ body, Spread ts body := by
    induction ts with
    | nil => exact ⟨_, .nil⟩
    | cons t ts ih =>
      obtain ⟨body, spread⟩ := ih
      exact ⟨_, .cons (List.forall_mem_nil _) spread⟩
  exact ⟨_, [], body, [], [], [], List.forall_mem_nil _, spread, List.forall_mem_nil _, .inl rfl,
    List.forall_mem_nil _, rfl⟩

/-- A command can be written on a line just where its parts can be spelled. -/
theorem exists_writtenOn_iff (c : Command) : (∃ line, c.WrittenOn line) ↔ c.IsScriptable := by
  constructor
  · rintro ⟨line, ts, spelled, -⟩
    exact isScriptable_of_spelled spelled
  · intro h
    obtain ⟨ts, spelled⟩ := exists_spelled_of_isScriptable h
    obtain ⟨line, laid⟩ := exists_laid ts
    exact ⟨line, ts, spelled, laid⟩

end Emu8085.Script
