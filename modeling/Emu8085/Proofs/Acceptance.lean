import Emu8085.Proofs.Reading

/-!
# What the grammar accepts

A token can depend on the character behind it: `A` is a register unless a `C` follows, and `0x12`
ends where no digit goes on. What a parser accepts is therefore stated together with what may
follow (`Accepts`), and each choice is settled by how its earlier alternatives part from the token
(`Rejects`). A command accepts every spelling of it in front of the end of a line.
-/
namespace Emu8085.Script

open Text Script.Parser Grammar

variable {α β : Type}

/-- The text does not go on with one of these characters. -/
def Clear (bad : Char → Bool) (rest : List Char) : Prop := ∀ c ∈ rest.head?, bad c = false

/-- Nothing but blanks and a comment is left. -/
def Over (rest : List Char) : Prop := afterGap rest = []

/-- The parser takes these tokens off a text that goes on in an allowed way. -/
def Accepts (p : Parser α) (x : α) (ts : List (List Char)) (Allowed : List Char → Prop) : Prop :=
  ∀ cs rest, Before ts cs rest → Allowed rest → p cs = some (x, rest)

/-- The parser fails on a text that begins with these tokens and goes on in an allowed way. -/
def Rejects (p : Parser α) (ts : List (List Char)) (Allowed : List Char → Prop) : Prop :=
  ∀ cs rest, Before ts cs rest → Allowed rest → p cs = none

section

variable {p q : Parser α} {f : α → Parser β} {x : α} {y : β} {ts us : List (List Char)}
  {F G : List Char → Prop}

namespace Accepts

theorem mono (h : Accepts p x ts F) (link : ∀ rest, G rest → F rest) : Accepts p x ts G :=
  fun cs rest before allowed => h cs rest before (link rest allowed)

theorem pure : Accepts (pure x : Parser α) x [] F := by
  intro cs rest before _
  rw [pure_apply, Before.nil_iff.1 before]

/-- What follows the first part is the second one and what follows that. -/
theorem bind (h : Accepts p x ts F) (h' : Accepts (f x) y us G)
    (link : ∀ cs rest, Before us cs rest → G rest → F cs) : Accepts (p >>= f) y (ts ++ us) G := by
  intro cs rest before allowed
  obtain ⟨mid, front, back⟩ := before.exists_of_append
  rw [bind_of_eq_some (h cs mid front (link mid rest back allowed))]
  exact h' mid rest back allowed

theorem map (h : Accepts p x ts F) (g : α → β) :
    Accepts (p >>= fun x => Pure.pure (g x)) (g x) ts F := by
  intro cs rest before allowed
  rw [bind_of_eq_some (h cs rest before allowed), pure_apply]

theorem orElse_left (h : Accepts p x ts F) : Accepts (orElse p q) x ts F := by
  intro cs rest before allowed
  rw [orElse, h cs rest before allowed]

/-- The second alternative is tried from the same place, after the first one has failed there. -/
theorem orElse_right (other : Rejects p ts F) (h : Accepts q x ts F) :
    Accepts (orElse p q) x ts F := by
  intro cs rest before allowed
  rw [orElse, other cs rest before allowed]
  exact h cs rest before allowed

theorem optional_some (h : Accepts p x ts F) : Accepts (optional p) (some x) ts F := by
  intro cs rest before allowed
  rw [Parser.optional, h cs rest before allowed]

theorem optional_none (h : Rejects p [] F) : Accepts (optional p) none [] F := by
  intro cs rest before allowed
  rw [Parser.optional, h cs rest before allowed, Before.nil_iff.1 before]

end Accepts

namespace Rejects

theorem mono (h : Rejects p ts F) (link : ∀ rest, G rest → F rest) : Rejects p ts G :=
  fun cs rest before allowed => h cs rest before (link rest allowed)

theorem bind (h : Rejects p ts F) : Rejects (p >>= f) ts F :=
  fun cs rest before allowed => bind_of_eq_none (h cs rest before allowed)

/-- A parser that fails on the first tokens fails on all of them, if it is not told by what comes
after. -/
theorem append (h : Rejects p ts F) (link : ∀ cs rest, Before us cs rest → G rest → F cs) :
    Rejects p (ts ++ us) G := by
  intro cs rest before allowed
  obtain ⟨mid, front, back⟩ := before.exists_of_append
  exact h cs mid front (link mid rest back allowed)

theorem orElse (h : Rejects p ts F) (h' : Rejects q ts F) : Rejects (orElse p q) ts F := by
  intro cs rest before allowed
  rw [Parser.orElse, h cs rest before allowed]
  exact h' cs rest before allowed

end Rejects

end

section

variable {p : Parser α} {x : α} {t : List Char} {ts : List (List Char)} {bad : Char → Bool}
  {F : List Char → Prop} {w : String}

/-- A parser behind a gap needs to be judged on the bare token only. -/
theorem accepts_token (opens : Opens t) (h : ∀ rest, F rest → p (t ++ rest) = some (x, rest)) :
    Accepts (token p) x [t] F := by
  intro cs rest before allowed
  obtain ⟨g, mid, blanks, rfl, after⟩ := Before.cons_iff.1 before
  obtain rfl := Before.nil_iff.1 after
  rw [token_apply, afterGap_append blanks opens]
  exact h mid allowed

theorem rejects_token (opens : Opens t) (h : ∀ rest, F rest → p (t ++ rest) = none) :
    Rejects (token p) [t] F := by
  intro cs rest before allowed
  obtain ⟨g, mid, blanks, rfl, after⟩ := Before.cons_iff.1 before
  obtain rfl := Before.nil_iff.1 after
  rw [token_apply, afterGap_append blanks opens]
  exact h mid allowed

/-- Whether a word can be found at the front of a text that goes on with no bad character. -/
def canMatch (bad : Char → Bool) : List Char → List Char → Bool
  | [], _ => true
  | c :: _, [] => !bad c
  | c :: w, d :: t => decide (c = d) && canMatch bad w t

/-- What is left of a word is not found in text that goes on with none of its characters. -/
theorem afterFront_eq_none {w rest : List Char} (h : canMatch bad w t = false)
    (clear : Clear bad rest) : afterFront w (t ++ rest) = none := by
  induction w generalizing t with
  | nil => cases h
  | cons c w ih =>
    cases t with
    | nil =>
      have wanted : bad c = true := by simpa [canMatch] using h
      cases rest with
      | nil => rfl
      | cons d rest =>
        have other : c ≠ d := by
          rintro rfl
          rw [clear c rfl] at wanted
          cases wanted
        exact if_neg other
    | cons d t =>
      rw [List.cons_append, afterFront]
      split
      · next same =>
        refine ih ?_
        simpa [canMatch, same] using h
      · rfl

theorem accepts_word (opens : Opens w.toList) : Accepts (word w) () [w.toList] fun _ => True :=
  accepts_token opens fun rest _ => exactly_append w rest

/-- Another token is not taken for a word, nor for the beginning of one that goes on behind it. -/
theorem rejects_word (opens : Opens t) (h : canMatch bad w.toList t = false) :
    Rejects (word w) [t] (Clear bad) :=
  rejects_token opens fun rest clear => by rw [exactly, afterFront_eq_none h clear]; rfl

/-- A word that parts from the first token is not there, whatever follows. -/
theorem rejects_keyword (opens : Opens t) (h : canMatch (fun _ => false) w.toList t = false)
    (f : Unit → Parser α) : Rejects (word w >>= f) (t :: ts) F :=
  ((rejects_word opens h).append fun _ _ _ _ _ _ => rfl).bind

theorem accepts_choice_head {ps : List (Parser α)} (h : Accepts p x ts F) :
    Accepts (choice (p :: ps)) x ts F :=
  h.orElse_left

theorem accepts_choice_tail {ps : List (Parser α)} (other : Rejects p ts F)
    (h : Accepts (choice ps) x ts F) : Accepts (choice (p :: ps)) x ts F :=
  h.orElse_right other

theorem rejects_choice {ps : List (Parser α)} (h : ∀ p ∈ ps, Rejects p ts F) :
    Rejects (choice ps) ts F := by
  induction ps with
  | nil => exact fun _ _ _ _ => rfl
  | cons p ps ih =>
    obtain ⟨first, others⟩ := List.forall_mem_cons.1 h
    exact first.orElse (ih others)

/-- The name that is read is the first one that can match. -/
theorem accepts_named {names : List (String × α)} (opens : Opens w.toList)
    (h : names.find? (fun n => canMatch bad n.1.toList w.toList) = some (w, x)) :
    Accepts (named names) x [w.toList] (Clear bad) := by
  induction names with
  | nil => cases h
  | cons n names ih =>
    rw [List.find?_cons] at h
    split at h
    · cases h
      exact accepts_choice_head (((accepts_word opens).mono fun _ _ => trivial).map fun _ => x)
    · next parts => exact accepts_choice_tail (rejects_word opens parts).bind (ih h)

theorem rejects_named {names : List (String × α)} (opens : Opens t)
    (h : names.all (fun n => !canMatch bad n.1.toList t) = true) :
    Rejects (named names) [t] (Clear bad) := by
  induction names with
  | nil => exact fun _ _ _ _ => rfl
  | cons n names ih =>
    rw [List.all_cons, Bool.and_eq_true, Bool.not_eq_true'] at h
    exact Rejects.orElse (rejects_word opens h.1).bind (ih h.2)

theorem clear_append {g : List Char} (blanks : ∀ c ∈ g, isGap c = true) (space : bad ' ' = false)
    (tab : bad '\t' = false) (h : Clear bad t) : Clear bad (g ++ t) := by
  cases g with
  | nil => exact h
  | cons c g =>
    rintro _ ⟨⟩
    obtain rfl | rfl : c = ' ' ∨ c = '\t' := by simpa [isGap] using blanks c List.mem_cons_self
    · exact space
    · exact tab

/-- What stands before a token is blanks or the token itself. -/
theorem clear_of_before {cs rest : List Char} (h : Before (t :: ts) cs rest) (opens : t ≠ [])
    (space : bad ' ' = false) (tab : bad '\t' = false) (first : Clear bad t) : Clear bad cs := by
  obtain ⟨g, mid, blanks, rfl, -⟩ := Before.cons_iff.1 h
  refine clear_append blanks space tab ?_
  cases t with
  | nil => exact absurd rfl opens
  | cons d t => exact first

theorem clear_of_over {rest : List Char} (h : Over rest) (space : bad ' ' = false)
    (tab : bad '\t' = false) (slash : bad '/' = false) : Clear bad rest := by
  cases afterGap_eq_iff.1 h with
  | blanks blanks => exact clear_append blanks space tab (by rintro _ ⟨⟩)
  | comment blanks note =>
    obtain ⟨note, -, rfl⟩ := note
    refine clear_append blanks space tab ?_
    rintro _ ⟨⟩
    exact slash

end

section

variable {t : List Char} {bad : Char → Bool}

theorem accepts_address {a : Nat} (h : AddressText a t) :
    Accepts address a [t] fun _ => True := by
  refine accepts_token h.opens fun rest _ => ?_
  obtain ⟨ds, numeral, length, rfl⟩ := h
  rw [List.append_assoc, bind_of_eq_some (exactly_append ..)]
  exact (hexNumber_eq_some_iff (by decide)).2 ⟨ds, numeral, length, rfl⟩

/-- Fewer digits than four are not the first of four where no digit follows them. -/
theorem hexNumber_four_eq_none {ds rest : List Char} (length : ds.length < 4)
    (clear : Clear Char.isAlphanum rest) :
    hexNumber 4 (ds ++ rest) = none := by
  rw [Option.eq_none_iff_forall_ne_some]
  rintro ⟨w, more⟩ four
  obtain ⟨es, numeral', length', whole⟩ := (hexNumber_eq_some_iff (by decide)).1 four
  have behind : rest = es.drop ds.length ++ more := by
    rw [← List.drop_append_of_le_length (by omega), ← whole, List.drop_left]
  cases back : es.drop ds.length with
  | nil =>
    rw [List.drop_eq_nil_iff] at back
    omega
  | cons c tail =>
    obtain ⟨letters, d, small, rfl⟩ :=
      numeral'.exists_hexDigit c (List.mem_of_mem_drop (back ▸ List.mem_cons_self))
    obtain ⟨-, -, digit⟩ := hexDigit_ink letters small
    rw [clear _ (by rw [behind, back]; rfl)] at digit
    cases digit

/-- Two digits are read where the text goes on with no digit, four where there are four. -/
theorem accepts_value {v : Nat} (h : ValueText v t) :
    Accepts value v [t] (Clear Char.isAlphanum) := by
  refine accepts_token h.opens fun rest clear => ?_
  obtain ⟨ds, numeral, length | length, rfl⟩ := h
  · have four : hexNumber 4 (ds ++ rest) = some (v, rest) :=
      (hexNumber_eq_some_iff (by decide)).2 ⟨ds, numeral, length, rfl⟩
    rw [List.append_assoc, bind_of_eq_some (exactly_append ..), orElse, four]
  · have two : hexNumber 2 (ds ++ rest) = some (v, rest) :=
      (hexNumber_eq_some_iff (by decide)).2 ⟨ds, numeral, length, rfl⟩
    rw [List.append_assoc, bind_of_eq_some (exactly_append ..), orElse,
      hexNumber_four_eq_none (by omega) clear]
    exact two

/-- An address or a value is not there where its sign is not. -/
theorem rejects_sign {w : String} (opens : Opens t) (h : canMatch bad w.toList t = false)
    (f : Unit → Parser α) : Rejects (token (exactly w >>= f)) [t] (Clear bad) :=
  rejects_token opens fun rest clear => bind_of_eq_none (by
    rw [exactly, afterFront_eq_none h clear]
    rfl)

theorem accepts_wideRegister {r : Register} (h : r.isWide = true) :
    Accepts wideRegister r [r.name.toList] (Clear Char.isAlphanum) := by
  cases r with
  | bc | de | hl | sp | pc => exact accepts_named (by decide) rfl
  | _ => cases h

theorem rejects_wideRegister {r : Register} (h : r.isWide = false) :
    Rejects wideRegister [r.name.toList] (Clear Char.isAlphanum) := by
  cases r with
  | bc | de | hl | sp | pc => cases h
  | _ => exact rejects_named (by decide) rfl

theorem accepts_narrowRegister {r : Register} (h : r.isWide = false) :
    Accepts narrowRegister r [r.name.toList] (Clear Char.isAlphanum) := by
  cases r with
  | bc | de | hl | sp | pc => cases h
  | _ => exact accepts_named (by decide) rfl

/-- Wide registers come first, so a narrow one has to be told from the pairs that begin with it. -/
theorem accepts_register (r : Register) :
    Accepts register r [r.name.toList] (Clear Char.isAlphanum) := by
  cases wide : r.isWide with
  | true => exact (accepts_wideRegister wide).orElse_left
  | false => exact (accepts_narrowRegister wide).orElse_right (rejects_wideRegister wide)

theorem accepts_flag (f : Flag) : Accepts flag f [f.name.toList] (Clear Char.isAlphanum) := by
  cases f <;> exact accepts_named (by decide) rfl

/-- A symbol of one character is read after those of two, which the text must not complete. -/
theorem accepts_relation (r : Relation) :
    Accepts relation r [r.symbol.toList] (Clear (· == '=')) := by
  cases r <;> exact accepts_named (by decide) rfl

/-- A source is read as what it names: the alternatives before its own part from its text, or
need a letter that does not follow. -/
theorem accepts_source {s : Source} (h : s.Text t) :
    Accepts source s [t] (Clear Char.isAlphanum) := by
  cases s with
  | memory a =>
    exact accepts_choice_head (((accepts_address h).mono fun _ _ => trivial).map Source.memory)
  | literal v =>
    refine accepts_choice_tail (rejects_sign h.opens ?_ _).bind ?_
    · obtain ⟨ds, -, -, rfl⟩ := h
      rfl
    · exact accepts_choice_head ((accepts_value h).map Source.literal)
  | register r =>
    have opens := h.opens
    obtain rfl : t = r.name.toList := h
    refine accepts_choice_tail (rejects_sign opens (by cases r <;> rfl) _).bind ?_
    refine accepts_choice_tail (rejects_sign opens (by cases r <;> rfl) _).bind ?_
    cases wide : r.isWide with
    | true => exact accepts_choice_head ((accepts_wideRegister wide).map Source.register)
    | false =>
      refine accepts_choice_tail (rejects_wideRegister wide).bind ?_
      refine accepts_choice_tail (Rejects.bind ?_) ?_
      · cases r with
        | bc | de | hl | sp | pc => cases wide
        | _ => exact rejects_named opens rfl
      · exact accepts_choice_head ((accepts_narrowRegister wide).map Source.register)
  | flag f =>
    have opens := h.opens
    obtain rfl : t = f.name.toList := h
    refine accepts_choice_tail (rejects_sign opens (by cases f <;> rfl) _).bind ?_
    refine accepts_choice_tail (rejects_sign opens (by cases f <;> rfl) _).bind ?_
    refine accepts_choice_tail (Rejects.bind ?_) ?_
    · cases f <;> exact rejects_named opens rfl
    · exact accepts_choice_head ((accepts_flag f).map Source.flag)

/-- No source begins as a constant does, or with the sign that would lengthen a relation. -/
theorem source_head {s : Source} (h : s.Text t) :
    ∃ c ∈ t.head?, c ≠ 't' ∧ c ≠ 'f' ∧ c ≠ '=' := by
  cases s with
  | memory a =>
    obtain ⟨ds, -, -, rfl⟩ := h
    exact ⟨'#', rfl, by decide⟩
  | literal v =>
    obtain ⟨ds, -, -, rfl⟩ := h
    exact ⟨'0', rfl, by decide⟩
  | register r =>
    obtain rfl : t = r.name.toList := h
    cases r <;> exact ⟨_, rfl, by decide⟩
  | flag f =>
    obtain rfl : t = f.name.toList := h
    cases f <;> exact ⟨_, rfl, by decide⟩

theorem Opens.ne_nil (h : Opens t) : t ≠ [] := by
  rintro rfl
  obtain ⟨_, ⟨⟩, _⟩ := h

/-- A relation stands between a source and what could lengthen it. -/
theorem clear_of_symbol {rel : Relation} {ts : List (List Char)} {cs rest : List Char}
    (h : Before (rel.symbol.toList :: ts) cs rest) : Clear Char.isAlphanum cs := by
  refine clear_of_before h ?_ rfl rfl ?_
  · cases rel <;> exact List.cons_ne_nil _ _
  · cases rel <;> rintro _ ⟨⟩ <;> rfl

/-- What may follow a comparison is what may follow its second source. -/
theorem accepts_comparison_of_source {l r : Source} {u : List Char} {F : List Char → Prop}
    (rel : Relation) (left : l.Text t) (right : Accepts source r [u] F)
    (first : ∃ c ∈ u.head?, c ≠ '=') :
    Accepts comparison (.compare l rel r) [t, rel.symbol.toList, u] F := by
  show Accepts comparison _ ([t] ++ ([rel.symbol.toList] ++ [u])) _
  have last := right.map (Predicate.compare l rel)
  refine (accepts_source left).bind ((accepts_relation rel).bind last ?_)
    fun cs rest before _ => clear_of_symbol before
  intro cs rest before _
  obtain ⟨c, first, equals⟩ := first
  refine clear_of_before before (List.ne_nil_of_mem (List.mem_of_mem_head? first)) rfl rfl ?_
  intro d head
  obtain rfl := Option.mem_unique first head
  exact beq_false_of_ne equals

/-- The relation parts the two sources, so only the second one depends on what follows. -/
theorem accepts_comparison {l r : Source} {u : List Char} (rel : Relation) (left : l.Text t)
    (right : r.Text u) : Accepts comparison (.compare l rel r) [t, rel.symbol.toList, u]
      (Clear Char.isAlphanum) := by
  obtain ⟨c, first, -, -, equals⟩ := source_head right
  exact accepts_comparison_of_source rel left (accepts_source right) ⟨c, first, equals⟩

theorem rejects_constant {s : Source} (h : s.Text t) :
    Rejects constant [t] (Clear Char.isAlphanum) := by
  refine rejects_named h.opens ?_
  obtain ⟨c, first, yes, no, -⟩ := source_head h
  obtain ⟨t, rfl⟩ := List.head?_eq_some_iff.1 first
  simp [canMatch, yes.symm, no.symm]

theorem accepts_predicate {p : Predicate} {ts : List (List Char)} (h : PredicateTokens p ts) :
    Accepts predicate p ts (Clear Char.isAlphanum) := by
  cases h with
  | yes => exact (accepts_named (by decide) rfl).orElse_left
  | no => exact (accepts_named (by decide) rfl).orElse_left
  | @compare l r t u rel left right =>
    refine (accepts_comparison rel left right).orElse_right ?_
    show Rejects constant ([t] ++ [rel.symbol.toList, u]) _
    exact (rejects_constant left).append fun cs rest before _ => clear_of_symbol before

end

theorem ByteListText.length_le {bs : List Byte} {t : List Char} (h : ByteListText bs t) :
    2 * bs.length ≤ t.length := by
  induction h with
  | one byte =>
    rw [byte.2]
    exact Nat.le_refl 2
  | more blanks byte _ ih =>
    simp only [List.length_append, List.length_cons, byte.2]
    omega

theorem moreBytes_of_clear {rest : List Char} (h : Clear (· == ',') rest) (fuel : Nat) :
    moreBytes fuel rest = some ([], rest) := by
  cases fuel with
  | zero => rfl
  | succ fuel =>
    simp only [moreBytes]
    split
    · next comma => exact absurd (h _ rfl) (by decide)
    · rfl

theorem moreBytes_comma {cs mid rest : List Char} {b : Byte} {bs : List Byte} {fuel : Nat}
    (first : byte (cs.dropWhile (· == ' ')) = some (b, mid))
    (others : moreBytes fuel mid = some (bs, rest)) :
    moreBytes (fuel + 1) (',' :: cs) = some (b :: bs, rest) := by
  simp only [moreBytes, first, others]
  rfl

/-- After the first byte come the others, given fuel for each. -/
theorem exists_byte_of_text {bs : List Byte} {t rest : List Char} (h : ByteListText bs t)
    (stop : Clear (· == ',') rest) :
    ∃ b more mid, bs = b :: more ∧ byte (t ++ rest) = some (b, mid) ∧
      ∀ fuel, more.length ≤ fuel → moreBytes fuel mid = some (more, rest) := by
  induction h with
  | one text =>
    exact ⟨_, [], rest, rfl, byte_eq_some_iff.2 ⟨_, text, rfl⟩,
      fun fuel _ => moreBytes_of_clear stop fuel⟩
  | @more b bs t u blanks text list ih =>
    obtain ⟨c, more, mid, rfl, first, others⟩ := ih
    have spaces : (List.replicate blanks ' ' ++ (u ++ rest)).dropWhile (· == ' ') = u ++ rest := by
      refine dropWhile_append (fun c h => by simp [(List.mem_replicate.1 h).2]) ?_
      intro c head
      obtain ⟨d, begins, ink, -⟩ := list.opens.append rest
      obtain rfl := Option.mem_unique begins head
      refine beq_false_of_ne ?_
      rintro rfl
      exact absurd ink (by decide)
    rw [← spaces] at first
    refine ⟨b, c :: more, ',' :: (List.replicate blanks ' ' ++ (u ++ rest)), rfl,
      byte_eq_some_iff.2 ⟨t, text, by simp⟩, ?_⟩
    intro fuel enough
    cases fuel with
    | zero => exact absurd enough (Nat.not_succ_le_zero _)
    | succ fuel => exact moreBytes_comma first (others fuel (Nat.le_of_succ_le_succ enough))

/-- The fuel is the length of what follows the first byte, where every byte takes two characters. -/
theorem accepts_byteList {bs : List Byte} {t : List Char} (h : ByteListText bs t) :
    Accepts (token byteList) bs [t] (Clear (· == ',')) := by
  refine accepts_token h.opens fun rest stop => ?_
  obtain ⟨b, more, mid, rfl, first, others⟩ := exists_byte_of_text h stop
  have fuel : more.length ≤ mid.length := by
    obtain ⟨front, text, whole⟩ := byte_eq_some_iff.1 first
    have lengths := congrArg List.length whole
    have short := h.length_le
    rw [List.length_append, List.length_append, text.2] at lengths
    rw [List.length_cons] at short
    omega
  rw [byteList, bind_of_eq_some first]
  exact bind_of_eq_some (others mid.length fuel)

theorem accepts_bytes {bs : List Byte} {t : List Char} (h : ByteListText bs t)
    (F : List Char → Prop) : Accepts bytes bs ["0x(".toList, t, ")".toList] F := by
  show Accepts bytes bs (["0x(".toList] ++ ([t] ++ [")".toList])) F
  refine ((accepts_word (by decide)).bind ((accepts_byteList h).bind
    (((accepts_word (by decide)).mono fun _ _ => trivial).map fun _ => bs) ?_) ?_)
  · intro cs rest before _
    exact clear_of_before before (List.cons_ne_nil _ _) rfl rfl (by rintro _ ⟨⟩; rfl)
  · exact fun _ _ _ _ => trivial

section

variable {d t : List Char}

theorem IsDescription.clear (h : IsDescription d) (rest : List Char) :
    ∀ c ∈ (d ++ ("$$".toList ++ rest)).head?, isGap c = false := by
  cases d with
  | nil =>
    rintro _ ⟨⟩
    rfl
  | cons e d => exact h.first

/-- A description does not look like a comment, which a gap would take. -/
theorem IsDescription.not_comment (h : IsDescription d) (rest : List Char) :
    ¬ "//".toList <+: d ++ ("$$".toList ++ rest) := by
  intro comment
  refine h.noComment ?_
  match d with
  | [] => simp at comment
  | [c] => simp at comment
  | c :: e :: d => simpa using comment

/-- The gap after the opening mark ends where the description begins. -/
theorem afterGap_description {g rest : List Char} (blanks : ∀ c ∈ g, isGap c = true)
    (h : IsDescription d) (text : DescriptionText d t) :
    afterGap (g ++ (t ++ rest)) = d ++ ("$$".toList ++ rest) := by
  refine afterGap_of_skipped ?_
  cases text with
  | plain =>
    rw [List.append_assoc]
    exact .blanks blanks (h.clear rest) (h.not_comment rest)
  | noted note lineEnd =>
    obtain ⟨c, first, lineEnd⟩ := lineEnd
    rw [List.append_assoc, List.append_assoc]
    refine .comment blanks note fun e head => ?_
    obtain rfl := Option.mem_unique (List.mem_head?_append_of_mem_head? first) head
    exact lineEnd

/-- The description begins where the gap after its mark ends and goes up to the next mark. -/
theorem accepts_description {d : String} (h : IsDescription d.toList)
    (text : DescriptionText d.toList t) (F : List Char → Prop) :
    Accepts description d ["$$".toList, t] F := by
  show Accepts description d (["$$".toList] ++ [t]) F
  refine (accepts_word (by decide)).bind ?_ fun _ _ _ _ => trivial
  intro cs rest before _
  obtain ⟨g, mid, blanks, rfl, after⟩ := Before.cons_iff.1 before
  obtain rfl := Before.nil_iff.1 after
  have mark : Before ["$$".toList] ("$$".toList ++ mid) mid :=
    ⟨"$$".toList, .cons (List.forall_mem_nil _) .nil, rfl⟩
  have inside : token beforeMark (g ++ (t ++ mid)) = some (d, "$$".toList ++ mid) := by
    rw [token_apply, afterGap_description blanks h text, beforeMark,
      splitMark_of_unmarked h.unmarked h.last, String.ofList_toList]
  rw [bind_of_eq_some inside]
  exact bind_of_eq_some (accepts_word (by decide) _ mid mark trivial)

end

section

variable {t u : List Char} {ts us : List (List Char)} {F : List Char → Prop}

theorem accepts_after_word {w : String} {p : Parser α} {x : α} (opens : Opens w.toList)
    (h : Accepts p x ts F) : Accepts (word w >>= fun _ => p) x (w.toList :: ts) F :=
  (accepts_word opens).bind h fun _ _ _ _ => trivial

theorem rejects_after_word {w : String} {p : Parser α} (opens : Opens w.toList)
    (h : Rejects p ts F) : Rejects (word w >>= fun _ => p) (w.toList :: ts) F := by
  intro cs rest before allowed
  rw [← List.singleton_append] at before
  obtain ⟨mid, front, back⟩ := before.exists_of_append
  rw [bind_of_eq_some (accepts_word opens cs mid front trivial)]
  exact h mid rest back allowed

/-- What is read becomes a command. -/
theorem accepts_asked {p : Parser α} {x : α} (h : Accepts p x ts F) (g : α → Command) :
    Accepts (p >>= fun x => pure (.ok (g x))) (.ok (g x) : Except LineError Command) ts F :=
  h.map fun x => Except.ok (g x)

theorem accepts_placedBytes {a : Nat} {bs : List Byte} (g : Nat → List Byte → Command)
    (place : AddressText a t) (list : ByteListText bs u) :
    Accepts (address >>= fun a => bytes >>= fun bs => pure (.ok (g a bs)))
      (.ok (g a bs) : Except LineError Command) [t, "0x(".toList, u, ")".toList] F :=
  (accepts_address place).bind (accepts_asked (accepts_bytes list F) (g a)) fun _ _ _ _ => trivial

/-- A count is read up to its last digit, and is an error of its own if it is too large. -/
theorem accepts_counted {n : Nat} (g : Nat → Command) (h : CountText n t) :
    Accepts (counted g)
      (if n < countLimit then .ok (g n) else .error (.countTooLarge (String.ofList t))) [t]
      (Clear Char.isDigit) := by
  have number : n = Nat.ofDigitChars 10 t 0 := (numeral_ten_iff.1 h.1).2
  have all : Accepts (token digits) t [t] (Clear Char.isDigit) :=
    accepts_token h.opens fun rest stop => digits_eq_some_iff.2 ⟨number ▸ h, stop, rfl⟩
  subst number
  let judged (ds : List Char) : Except LineError Command :=
    if Nat.ofDigitChars 10 ds 0 < countLimit then .ok (g (Nat.ofDigitChars 10 ds 0))
    else .error (.countTooLarge (String.ofList ds))
  exact all.map judged

theorem accepts_placedCount {a n : Nat} (g : Nat → Nat → Command) (place : AddressText a t)
    (count : CountText n u) : Accepts (address >>= fun a => counted (g a))
      (if n < countLimit then .ok (g a n) else .error (.countTooLarge (String.ofList u))) [t, u]
      Over := by
  have last := (accepts_counted (g a) count).mono fun rest ended => clear_of_over ended rfl rfl rfl
  exact (accepts_address place).bind last fun _ _ _ _ => trivial

theorem rejects_address_over : Rejects address [] Over := by
  intro cs rest before ended
  obtain rfl := Before.nil_iff.1 before
  rw [address, token_apply, ended]
  rfl

theorem accepts_stop {stop : Option Predicate} (h : StopTokens stop ts) :
    Accepts (optional stopClause) stop ts Over := by
  cases h with
  | absent =>
    refine .optional_none fun cs rest before ended => ?_
    obtain rfl := Before.nil_iff.1 before
    refine bind_of_eq_none ?_
    rw [word, token_apply, ended]
    rfl
  | present tokens =>
    refine .optional_some (accepts_after_word (by decide) ?_)
    exact (accepts_predicate tokens).mono fun rest ended => clear_of_over ended rfl rfl rfl

theorem accepts_run {start : Option Nat} {stop : Option Predicate} (starts : StartTokens start ts)
    (stops : StopTokens stop us) : Accepts runCommand (.ok (.run stop start defaultMaxSteps))
      ("run".toList :: (ts ++ us)) Over := by
  refine accepts_after_word (by decide) ?_
  have last := accepts_asked (accepts_stop stops) (.run · start defaultMaxSteps)
  cases starts with
  | present place =>
    exact (accepts_address place).optional_some.bind last fun _ _ _ _ => trivial
  | absent =>
    have absent : Accepts (optional address) none [] fun cs => address cs = none := by
      refine .optional_none fun cs rest before fails => ?_
      rwa [Before.nil_iff.1 before]
    refine absent.bind last fun cs rest before ended => ?_
    cases stops with
    | absent => exact rejects_address_over cs rest before ended
    | present =>
      have parts : Rejects address ["until".toList] (Clear fun _ => false) :=
        rejects_sign (by decide) rfl _
      exact parts.append (fun _ _ _ _ _ _ => rfl) cs rest before ended

/-- By cases on the spelling: the alternatives in front of the one that takes it begin with keywords
that part from its first token. -/
theorem accepts_command {r : Except LineError Command} (h : Spelled r ts) (nonempty : ts ≠ []) :
    Accepts command r ts Over := by
  cases h with
  | nothing => exact absurd rfl nonempty
  | @marker d t described text =>
    refine accepts_choice_head (accepts_after_word (by decide) ?_)
    exact accepts_asked (accepts_description described text Over) Command.marker
  | reset =>
    refine accepts_choice_tail (rejects_keyword (by decide) rfl _) ?_
    exact accepts_choice_head (accepts_after_word (by decide) .pure)
  | @load a bs t u place list =>
    iterate 2 refine accepts_choice_tail (rejects_keyword (by decide) rfl _) ?_
    refine accepts_choice_head (accepts_after_word (by decide) ?_)
    exact accepts_placedBytes Command.load place list
  | @memoryWrite a bs t u place list =>
    iterate 3 refine accepts_choice_tail (rejects_keyword (by decide) rfl _) ?_
    refine accepts_choice_head (accepts_after_word (by decide) (Accepts.orElse_left ?_))
    refine accepts_after_word (by decide) ?_
    exact accepts_placedBytes Command.memoryWrite place list
  | @memoryShow a n t u place count small =>
    iterate 3 refine accepts_choice_tail (rejects_keyword (by decide) rfl _) ?_
    refine accepts_choice_head (accepts_after_word (by decide) ?_)
    refine .orElse_right (rejects_keyword (by decide) rfl _) (accepts_after_word (by decide) ?_)
    have last := accepts_placedCount Command.memoryShow place count
    rwa [if_pos small] at last
  | @memoryShowTooMuch a n t u place count large =>
    iterate 3 refine accepts_choice_tail (rejects_keyword (by decide) rfl _) ?_
    refine accepts_choice_head (accepts_after_word (by decide) ?_)
    refine .orElse_right (rejects_keyword (by decide) rfl _) (accepts_after_word (by decide) ?_)
    have last := accepts_placedCount Command.memoryShow place count
    rwa [if_neg (Nat.not_lt.2 large)] at last
  | registersShow =>
    iterate 4 refine accepts_choice_tail (rejects_keyword (by decide) rfl _) ?_
    refine accepts_choice_head (accepts_after_word (by decide) (Accepts.orElse_left ?_))
    exact accepts_after_word (by decide) .pure
  | @registersSet v t r literal =>
    iterate 4 refine accepts_choice_tail (rejects_keyword (by decide) rfl _) ?_
    refine accepts_choice_head (accepts_after_word (by decide) ?_)
    refine .orElse_right (rejects_keyword (by decide) rfl _) (accepts_after_word (by decide) ?_)
    have last := accepts_asked ((accepts_value literal).mono fun rest (ended : Over rest) =>
      clear_of_over ended rfl rfl rfl) (Command.registersSet r)
    refine (accepts_register r).bind (accepts_after_word (by decide) last) ?_
    intro cs rest before _
    exact clear_of_before before (List.cons_ne_nil _ _) rfl rfl (by rintro _ ⟨⟩; rfl)
  | @goto a t place =>
    iterate 5 refine accepts_choice_tail (rejects_keyword (by decide) rfl _) ?_
    refine accepts_choice_head (accepts_after_word (by decide) ?_)
    exact accepts_asked ((accepts_address place).mono fun _ _ => trivial) Command.goto
  | step =>
    iterate 6 refine accepts_choice_tail (rejects_keyword (by decide) rfl _) ?_
    exact accepts_choice_head (accepts_after_word (by decide) .pure)
  | run starts stops =>
    iterate 7 refine accepts_choice_tail (rejects_keyword (by decide) rfl _) ?_
    exact accepts_choice_head (accepts_run starts stops)
  | @disassemble a n t u place count small =>
    iterate 8 refine accepts_choice_tail (rejects_keyword (by decide) rfl _) ?_
    refine accepts_choice_head (accepts_after_word (by decide) ?_)
    have last := accepts_placedCount Command.disassemble place count
    rwa [if_pos small] at last
  | @disassembleTooMuch a n t u place count large =>
    iterate 8 refine accepts_choice_tail (rejects_keyword (by decide) rfl _) ?_
    refine accepts_choice_head (accepts_after_word (by decide) ?_)
    have last := accepts_placedCount Command.disassemble place count
    rwa [if_neg (Nat.not_lt.2 large)] at last
  | @assert p d ts t tokens described text =>
    iterate 9 refine accepts_choice_tail (rejects_keyword (by decide) rfl _) ?_
    refine accepts_choice_head (accepts_after_word (by decide) ?_)
    have last := accepts_asked (accepts_description described text Over) (Command.assert p)
    refine (accepts_predicate tokens).bind last fun cs rest before _ => ?_
    exact clear_of_before before (List.cons_ne_nil _ _) rfl rfl (by rintro _ ⟨⟩; rfl)

end

theorem rejects_keyword_over {w : String} (letters : w.toList ≠ []) (f : Unit → Parser α) :
    Rejects (word w >>= f) [] Over := by
  intro cs rest before ended
  obtain rfl := Before.nil_iff.1 before
  refine bind_of_eq_none ?_
  rw [word, token_apply, ended, exactly]
  cases text : w.toList with
  | nil => exact absurd text letters
  | cons c w => rfl

/-- Where nothing is left no command is found, since each begins with a keyword. -/
theorem rejects_command_over : Rejects command [] Over := by
  refine rejects_choice ?_
  simp only [List.forall_mem_cons]
  exact ⟨rejects_keyword_over (by decide) _, rejects_keyword_over (by decide) _,
    rejects_keyword_over (by decide) _, rejects_keyword_over (by decide) _,
    rejects_keyword_over (by decide) _, rejects_keyword_over (by decide) _,
    rejects_keyword_over (by decide) _, rejects_keyword_over (by decide) _,
    rejects_keyword_over (by decide) _, rejects_keyword_over (by decide) _,
    List.forall_mem_nil _⟩

end Emu8085.Script
