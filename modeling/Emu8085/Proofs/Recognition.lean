import Emu8085.Proofs.Reading

/-!
# What the grammar takes

The converse of acceptance: each parser is taken back to tokens that it can have read (`Reads`),
and the tokens of a sequence are those of its parts. Blanks before a token are all that a parser
drops, but for a comment in front of a description that begins with the end of a line.
-/
namespace Emu8085.Script

open Text Script.Parser Grammar

variable {α β : Type}

/-- What the parser takes off a text is tokens that are related to its value. -/
def Reads (p : Parser α) (T : α → List (List Char) → Prop) : Prop :=
  ∀ cs x rest, p cs = some (x, rest) → ∃ ts, T x ts ∧ Before ts cs rest

section

variable {p q : Parser α} {f : α → Parser β} {T : α → List (List Char) → Prop}
  {U : β → List (List Char) → Prop}

namespace Reads

theorem mono {T' : α → List (List Char) → Prop} (h : Reads p T)
    (weaker : ∀ x ts, T x ts → T' x ts) : Reads p T' := by
  intro cs x rest run
  obtain ⟨ts, related, before⟩ := h cs x rest run
  exact ⟨ts, weaker x ts related, before⟩

theorem pure {x : α} (h : T x []) : Reads (pure x) T := by
  rintro cs _ _ ⟨⟩
  exact ⟨[], h, Before.nil_iff.2 rfl⟩

/-- The second part is read with the tokens of the first one in front of its own. -/
theorem bind (h : Reads p T) (h' : ∀ x ts, T x ts → Reads (f x) fun y us => U y (ts ++ us)) :
    Reads (p >>= f) U := by
  intro cs y rest run
  obtain ⟨x, mid, first, last⟩ := bind_eq_some_iff.1 run
  obtain ⟨ts, related, front⟩ := h cs x mid first
  obtain ⟨us, whole, back⟩ := h' x ts related mid y rest last
  exact ⟨ts ++ us, whole, front.append back⟩

/-- Either alternative reads what it is said to read, so it does not matter which one it was. -/
theorem orElse (h : Reads p T) (h' : Reads q T) : Reads (orElse p q) T := by
  intro cs x rest run
  rw [Parser.orElse] at run
  split at run
  · next first =>
    cases run
    exact h cs x rest first
  · exact h' cs x rest run

theorem choice {ps : List (Parser α)} (h : ∀ p ∈ ps, Reads p T) : Reads (choice ps) T := by
  induction ps with
  | nil =>
    intro cs x rest run
    cases run
  | cons p ps ih =>
    obtain ⟨first, others⟩ := List.forall_mem_cons.1 h
    exact first.orElse (ih others)

/-- Where a parser fails nothing is taken, which has to be among what is read. -/
theorem optional {T : Option α → List (List Char) → Prop} (absent : T none [])
    (h : Reads p fun x => T (some x)) : Reads (optional p) T := by
  intro cs x rest run
  rw [Parser.optional] at run
  split at run
  · next x mid found =>
    cases run
    exact h cs x rest found
  · cases run
    exact ⟨[], absent, Before.nil_iff.2 rfl⟩

end Reads

def Single (X : α → List Char → Prop) (x : α) (ts : List (List Char)) : Prop :=
  ∃ t, ts = [t] ∧ X x t

/-- The gap in front of a token is what a token may have in front of it. -/
theorem reads_token {X : α → List Char → Prop} (opens : ∀ x t, X x t → Opens t)
    (h : ∀ cs x rest, p cs = some (x, rest) → ∃ t, X x t ∧ cs = t ++ rest) :
    Reads (token p) (Single X) := by
  intro cs x rest run
  rw [token_apply] at run
  obtain ⟨t, text, after⟩ := h _ x rest run
  obtain ⟨g, blanks, rfl⟩ := exists_of_afterGap (opens x t text) after
  exact ⟨[t], ⟨t, rfl, text⟩, Before.cons_iff.2 ⟨g, rest, blanks, rfl, Before.nil_iff.2 rfl⟩⟩

theorem reads_word {w : String} (opens : Opens w.toList) :
    Reads (word w) (Single fun _ t => t = w.toList) := by
  refine reads_token (fun _ t text => text ▸ opens) fun cs u rest run => ?_
  exact ⟨_, rfl, exactly_eq_some_iff.1 run⟩

/-- A keyword is the first token of what is read behind it. -/
theorem reads_after_word {w : String} (opens : Opens w.toList)
    (h : Reads p fun x ts => T x (w.toList :: ts)) : Reads (word w >>= fun _ => p) T := by
  refine (reads_word opens).bind ?_
  rintro _ _ ⟨_, rfl, rfl⟩
  exact h

theorem reads_named {names : List (String × α)} (opens : ∀ n ∈ names, Opens n.1.toList) :
    Reads (named names) fun x ts => ∃ w, (w, x) ∈ names ∧ ts = [w.toList] := by
  refine .choice fun p member => ?_
  obtain ⟨n, listed, rfl⟩ := List.mem_map.1 member
  exact reads_after_word (opens n listed) (.pure ⟨n.1, listed, rfl⟩)

/-- What is read in a table of names is what the table has its name for. -/
theorem reads_table {xs : List α} {name : α → String} (opens : ∀ x ∈ xs, Opens (name x).toList) :
    Reads (named (xs.map fun x => (name x, x))) fun x ts => ts = [(name x).toList] := by
  have all : ∀ n ∈ xs.map fun x => (name x, x), Opens n.1.toList := by
    rintro n listed
    obtain ⟨x, member, rfl⟩ := List.mem_map.1 listed
    exact opens x member
  refine (reads_named all).mono ?_
  rintro x ts ⟨w, listed, rfl⟩
  obtain ⟨_, -, ⟨⟩⟩ := List.mem_map.1 listed
  rfl

end

theorem reads_address : Reads address (Single AddressText) := by
  refine reads_token (fun _ _ => AddressText.opens) fun cs a rest run => ?_
  obtain ⟨_, mid, sign, digits⟩ := bind_eq_some_iff.1 run
  obtain ⟨ds, numeral, length, rfl⟩ := (hexNumber_eq_some_iff (by decide)).1 digits
  rw [exactly_eq_some_iff.1 sign]
  exact ⟨_, ⟨ds, numeral, length, rfl⟩, by rw [List.append_assoc]⟩

theorem reads_value : Reads value (Single ValueText) := by
  refine reads_token (fun _ _ => ValueText.opens) fun cs v rest run => ?_
  obtain ⟨_, mid, sign, digits⟩ := bind_eq_some_iff.1 run
  have numeral : ∃ ds, Numeral 16 v ds ∧ (ds.length = 4 ∨ ds.length = 2) ∧ mid = ds ++ rest := by
    rw [orElse] at digits
    split at digits
    · next four =>
      cases digits
      obtain ⟨ds, numeral, length, whole⟩ := (hexNumber_eq_some_iff (by decide)).1 four
      exact ⟨ds, numeral, .inl length, whole⟩
    · obtain ⟨ds, numeral, length, whole⟩ := (hexNumber_eq_some_iff (by decide)).1 digits
      exact ⟨ds, numeral, .inr length, whole⟩
  obtain ⟨ds, numeral, length, rfl⟩ := numeral
  rw [exactly_eq_some_iff.1 sign]
  exact ⟨_, ⟨ds, numeral, length, rfl⟩, by rw [List.append_assoc]⟩

theorem reads_wideRegister : Reads wideRegister fun r ts => ts = [r.name.toList] :=
  reads_table (by decide)

theorem reads_narrowRegister : Reads narrowRegister fun r ts => ts = [r.name.toList] :=
  reads_table (by decide)

theorem reads_register : Reads register fun r ts => ts = [r.name.toList] :=
  reads_wideRegister.orElse reads_narrowRegister

theorem reads_flag : Reads flag fun f ts => ts = [f.name.toList] := reads_table (by decide)

theorem reads_relation : Reads relation fun r ts => ts = [r.symbol.toList] :=
  reads_table (by decide)

/-- By cases on the alternative that matched, each of which reads one spelling of a source. -/
theorem reads_source : Reads source (Single Source.Text) := by
  refine .choice ?_
  simp only [List.forall_mem_cons]
  refine ⟨?_, ?_, ?_, ?_, ?_, List.forall_mem_nil _⟩
  · refine reads_address.bind ?_
    rintro a _ ⟨t, rfl, place⟩
    exact .pure ⟨t, rfl, place⟩
  · refine reads_value.bind ?_
    rintro v _ ⟨t, rfl, literal⟩
    exact .pure ⟨t, rfl, literal⟩
  · refine reads_wideRegister.bind ?_
    rintro r _ rfl
    exact .pure ⟨_, rfl, rfl⟩
  · refine reads_flag.bind ?_
    rintro f _ rfl
    exact .pure ⟨_, rfl, rfl⟩
  · refine reads_narrowRegister.bind ?_
    rintro r _ rfl
    exact .pure ⟨_, rfl, rfl⟩

theorem reads_comparison : Reads comparison PredicateTokens := by
  refine reads_source.bind ?_
  rintro l _ ⟨t, rfl, left⟩
  refine reads_relation.bind ?_
  rintro rel _ rfl
  refine reads_source.bind ?_
  rintro r _ ⟨u, rfl, right⟩
  exact .pure (.compare rel left right)

theorem reads_predicate : Reads predicate PredicateTokens := by
  refine Reads.orElse ?_ reads_comparison
  refine (reads_named (by decide)).mono ?_
  rintro p ts ⟨w, listed, rfl⟩
  simp only [List.mem_cons, List.not_mem_nil, or_false, Prod.mk.injEq] at listed
  obtain ⟨rfl, rfl⟩ | ⟨rfl, rfl⟩ := listed
  · exact .yes
  · exact .no

def MoreText (bs : List Byte) (cs rest : List Char) : Prop :=
  (bs = [] ∧ cs = rest) ∨
    ∃ blanks u, ByteListText bs u ∧ cs = ',' :: (List.replicate blanks ' ' ++ (u ++ rest))

theorem MoreText.exists_cons {b : Byte} {bs : List Byte} {t cs rest : List Char}
    (h : MoreText bs cs rest) (text : ByteText b t) :
    ∃ u, ByteListText (b :: bs) u ∧ t ++ cs = u ++ rest := by
  obtain ⟨rfl, rfl⟩ | ⟨blanks, u, list, rfl⟩ := h
  · exact ⟨t, .one text, rfl⟩
  · exact ⟨_, .more blanks text list, by simp⟩

/-- By induction on the fuel: each comma that is taken has a byte behind it. -/
theorem moreText_of_moreBytes {fuel : Nat} {cs rest : List Char} {bs : List Byte}
    (h : moreBytes fuel cs = some (bs, rest)) : MoreText bs cs rest := by
  induction fuel generalizing cs bs with
  | zero =>
    cases h
    exact .inl ⟨rfl, rfl⟩
  | succ fuel ih =>
    simp only [moreBytes] at h
    split at h
    · next cs =>
      split at h
      · next b mid first =>
        simp only [Option.map_eq_some_iff, Prod.exists, Prod.mk.injEq] at h
        obtain ⟨more, last, others, rfl, rfl⟩ := h
        obtain ⟨t, text, after⟩ := byte_eq_some_iff.1 first
        obtain ⟨u, list, whole⟩ := (ih others).exists_cons text
        have spaces : cs.takeWhile (· == ' ') =
            List.replicate (cs.takeWhile (· == ' ')).length ' ' :=
          List.eq_replicate_iff.2 ⟨rfl, fun c h => by simpa using List.mem_takeWhile_imp h⟩
        refine .inr ⟨(cs.takeWhile (· == ' ')).length, u, list, ?_⟩
        rw [← whole, ← after, ← spaces, List.takeWhile_append_dropWhile]
      · cases h
        exact .inl ⟨rfl, rfl⟩
    · cases h
      exact .inl ⟨rfl, rfl⟩

/-- The first byte and those after commas make up one token. -/
theorem reads_byteList : Reads (token byteList) (Single ByteListText) := by
  refine reads_token (fun _ _ => ByteListText.opens) fun cs bs rest run => ?_
  obtain ⟨b, mid, first, run⟩ := bind_eq_some_iff.1 run
  obtain ⟨more, last, others, ⟨⟩⟩ := bind_eq_some_iff.1 run
  obtain ⟨t, text, rfl⟩ := byte_eq_some_iff.1 first
  exact (moreText_of_moreBytes others).exists_cons text

theorem reads_bytes : Reads bytes fun bs ts =>
    ∃ u, ts = ["0x(".toList, u, ")".toList] ∧ ByteListText bs u := by
  refine reads_after_word (by decide) (reads_byteList.bind ?_)
  rintro bs _ ⟨u, rfl, list⟩
  exact reads_after_word (by decide) (.pure ⟨u, rfl, list⟩)

/-- What follows a gap and is closed by a mark is a description, with the comment that went before
it if it begins with the end of a line. -/
theorem descriptionText_of_afterGap {d cs rest : List Char} (unmarked : ¬ ['$', '$'] <:+: d)
    (last : d.getLast? ≠ some '$') (after : afterGap cs = d ++ ("$$".toList ++ rest)) :
    IsDescription d ∧ ∃ t, DescriptionText d t ∧ Before [t] cs rest := by
  cases afterGap_eq_iff.1 after with
  | @blanks g blanks stop noComment =>
    refine ⟨⟨unmarked, last, fun c first => stop c ?_, ?_⟩, _, .plain, ?_⟩
    · exact List.mem_head?_append_of_mem_head? first
    · exact fun comment => noComment (comment.trans (List.prefix_append _ _))
    · exact Before.cons_iff.2 ⟨g, rest, blanks, by rw [List.append_assoc], Before.nil_iff.2 rfl⟩
  | @comment g t blanks note stop =>
    cases d with
    | nil => exact absurd (stop '$' rfl) (by decide)
    | cons c d =>
      have lineEnd : endsLine c = true := stop c rfl
      refine ⟨⟨unmarked, last, ?_, ?_⟩, _, .noted note ⟨c, rfl, lineEnd⟩, ?_⟩
      · rintro _ ⟨⟩
        obtain rfl | rfl : c = '\n' ∨ c = '\r' := by simpa [endsLine] using lineEnd
        all_goals rfl
      · rintro ⟨more, comment⟩
        obtain rfl : '/' = c := (List.cons.inj comment).1
        exact absurd lineEnd (by decide)
      · exact Before.cons_iff.2 ⟨g, rest, blanks, by simp only [List.append_assoc],
          Before.nil_iff.2 rfl⟩

/-- The closing mark is found right behind what was split off. -/
theorem marked_of_word {d cs rest : List Char} (run : word "$$" cs = some ((), rest))
    (split : cs = [] ∨ (['$', '$'] <+: cs ∧ d.getLast? ≠ some '$')) :
    cs = "$$".toList ++ rest ∧ d.getLast? ≠ some '$' := by
  rw [word, token_apply, exactly_eq_some_iff] at run
  obtain rfl | ⟨⟨more, rfl⟩, last⟩ := split
  · cases run
  · have closed : afterGap ([] ++ ("$$".toList ++ more)) = "$$".toList ++ more :=
      afterGap_append (List.forall_mem_nil _) (by decide)
    exact ⟨closed.symm.trans run, last⟩

/-- What stands between the marks is a description, since the gap after the opening mark took all
that may not begin one. -/
theorem reads_description : Reads description fun d ts =>
    ∃ t, ts = ["$$".toList, t] ∧ IsDescription d.toList ∧ DescriptionText d.toList t := by
  refine reads_after_word (by decide) ?_
  intro cs d rest run
  obtain ⟨_, _, ⟨⟩, run⟩ := bind_eq_some_iff.1 run
  obtain ⟨_, _, mark, ⟨⟩⟩ := bind_eq_some_iff.1 run
  obtain ⟨unmarked, split⟩ := of_splitMark (rfl : splitMark (afterGap cs) = (_, _))
  obtain ⟨back, last⟩ := marked_of_word mark split
  have after := splitMark_append (afterGap cs)
  rw [back] at after
  obtain ⟨described, t, text, before⟩ := descriptionText_of_afterGap unmarked last after.symm
  rw [← String.toList_ofList (l := (splitMark (afterGap cs)).1)] at described text
  exact ⟨[t], ⟨t, rfl, described, text⟩, before⟩

/-- A count that is read is the number of its digits, or an error that quotes them. -/
theorem reads_counted (g : Nat → Command) : Reads (counted g) fun r ts => ∃ n t, ts = [t] ∧
    CountText n t ∧ r = if n < countLimit then .ok (g n)
      else .error (.countTooLarge (String.ofList t)) := by
  have number : Reads (token digits) (Single fun ds t =>
      t = ds ∧ CountText (Nat.ofDigitChars 10 ds 0) t) := by
    refine reads_token (fun _ _ text => text.2.opens) fun cs ds rest run => ?_
    obtain ⟨count, -, whole⟩ := digits_eq_some_iff.1 run
    exact ⟨ds, ⟨rfl, count⟩, whole⟩
  refine number.bind ?_
  rintro ds _ ⟨t, rfl, rfl, count⟩
  exact .pure ⟨_, t, rfl, count, rfl⟩

/-- A command with a count is spelled, and so is its mistake. -/
theorem reads_placedCount (g : Nat → Nat → Command) {T : Except LineError Command →
    List (List Char) → Prop}
    (small : ∀ a n t u, AddressText a t → CountText n u → n < countLimit → T (.ok (g a n)) [t, u])
    (large : ∀ a n t u, AddressText a t → CountText n u → countLimit ≤ n →
      T (.error (.countTooLarge (String.ofList u))) [t, u]) :
    Reads (address >>= fun a => counted (g a)) T := by
  refine reads_address.bind ?_
  rintro a _ ⟨t, rfl, place⟩
  refine (reads_counted (g a)).mono ?_
  rintro r _ ⟨n, u, rfl, count, rfl⟩
  split
  · next fits => exact small a n t u place count fits
  · next exceeds => exact large a n t u place count (Nat.not_lt.1 exceeds)

theorem reads_placedBytes (g : Nat → List Byte → Command) {T : Except LineError Command →
    List (List Char) → Prop}
    (spelled : ∀ a bs t u, AddressText a t → ByteListText bs u →
      T (.ok (g a bs)) [t, "0x(".toList, u, ")".toList]) :
    Reads (address >>= fun a => bytes >>= fun bs => pure (.ok (g a bs))) T := by
  refine reads_address.bind ?_
  rintro a _ ⟨t, rfl, place⟩
  refine reads_bytes.bind ?_
  rintro bs _ ⟨u, rfl, list⟩
  exact .pure (spelled a bs t u place list)

theorem reads_start : Reads (optional address) StartTokens := by
  refine .optional .absent (reads_address.mono ?_)
  rintro a _ ⟨t, rfl, place⟩
  exact .present place

theorem reads_stop : Reads (optional stopClause) StopTokens := by
  refine .optional .absent (reads_after_word (by decide) (reads_predicate.mono ?_))
  exact fun p ts tokens => .present tokens

/-- By cases on the alternative that matched: what it reads is a spelling of its command. -/
theorem reads_command : Reads command Spelled := by
  refine .choice ?_
  simp only [List.forall_mem_cons]
  refine ⟨?_, ?_, ?_, ?_, ?_, ?_, ?_, ?_, ?_, ?_, List.forall_mem_nil _⟩
  · refine reads_after_word (by decide) (reads_description.bind ?_)
    rintro d _ ⟨t, rfl, described, text⟩
    exact .pure (.marker described text)
  · exact reads_after_word (by decide) (.pure .reset)
  · exact reads_after_word (by decide)
      (reads_placedBytes Command.load fun _ _ _ _ place list => .load place list)
  · refine reads_after_word (by decide) (Reads.orElse ?_ ?_)
    · exact reads_after_word (by decide)
        (reads_placedBytes Command.memoryWrite fun _ _ _ _ place list => .memoryWrite place list)
    · exact reads_after_word (by decide) (reads_placedCount Command.memoryShow
        (fun _ _ _ _ place count small => .memoryShow place count small)
        (fun _ _ _ _ place count large => .memoryShowTooMuch place count large))
  · refine reads_after_word (by decide) (Reads.orElse ?_ ?_)
    · exact reads_after_word (by decide) (.pure .registersShow)
    · refine reads_after_word (by decide) (reads_register.bind ?_)
      rintro r _ rfl
      refine reads_after_word (by decide) (reads_value.bind ?_)
      rintro v _ ⟨t, rfl, literal⟩
      exact .pure (.registersSet r literal)
  · refine reads_after_word (by decide) (reads_address.bind ?_)
    rintro a _ ⟨t, rfl, place⟩
    exact .pure (.goto place)
  · exact reads_after_word (by decide) (.pure .step)
  · refine reads_after_word (by decide) (reads_start.bind ?_)
    intro start ts starts
    refine reads_stop.bind ?_
    intro stop us stops
    refine .pure ?_
    rw [List.append_nil]
    exact .run starts stops
  · exact reads_after_word (by decide) (reads_placedCount Command.disassemble
      (fun _ _ _ _ place count small => .disassemble place count small)
      (fun _ _ _ _ place count large => .disassembleTooMuch place count large))
  · refine reads_after_word (by decide) (reads_predicate.bind ?_)
    intro p ts tokens
    refine reads_description.bind ?_
    rintro d _ ⟨t, rfl, described, text⟩
    exact .pure (.assert tokens described text)

end Emu8085.Script
