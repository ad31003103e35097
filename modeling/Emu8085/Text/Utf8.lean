import Emu8085.Word

/-!
# UTF-8

Bytes as text. A character takes one to four bytes: a lead byte that says how many, then
continuation bytes of six bits each. Longer forms than needed, surrogates and numbers past the
last code point are refused, so each text has one encoding.
-/
namespace Emu8085.Text.Utf8

/-- The six bits of a continuation byte. -/
def continuation? (b : Byte) : Option Nat :=
  if 0x80 ≤ b.toNat ∧ b.toNat < 0xC0 then some (b.toNat - 0x80) else none

/-- A code point that needs at least the given value to justify its length. -/
def character? (least code : Nat) : Option Char :=
  if least ≤ code ∧ code.isValidChar then some (Char.ofNat code) else none

def decode : List Byte → Option (List Char)
  | [] => some []
  | b :: rest =>
    if b.toNat < 0x80 then (decode rest).map (Char.ofNat b.toNat :: ·)
    else match rest with
      | [] => none
      | b₁ :: rest =>
        if 0xC0 ≤ b.toNat ∧ b.toNat < 0xE0 then do
          let x ← continuation? b₁
          let c ← character? 0x80 ((b.toNat - 0xC0) * 64 + x)
          (decode rest).map (c :: ·)
        else match rest with
          | [] => none
          | b₂ :: rest =>
            if 0xE0 ≤ b.toNat ∧ b.toNat < 0xF0 then do
              let x ← continuation? b₁
              let y ← continuation? b₂
              let c ← character? 0x800 (((b.toNat - 0xE0) * 64 + x) * 64 + y)
              (decode rest).map (c :: ·)
            else match rest with
              | [] => none
              | b₃ :: rest =>
                if 0xF0 ≤ b.toNat ∧ b.toNat < 0xF8 then do
                  let x ← continuation? b₁
                  let y ← continuation? b₂
                  let z ← continuation? b₃
                  let c ← character? 0x10000
                    ((((b.toNat - 0xF0) * 64 + x) * 64 + y) * 64 + z)
                  (decode rest).map (c :: ·)
                else none

@[simp] theorem decode_nil : decode [] = some [] := by simp [decode]

/-- A byte of the first half stands for itself. -/
theorem decode_cons_ascii {b : Byte} (h : b.toNat < 0x80) (rest : List Byte) :
    decode (b :: rest) = (decode rest).map (Char.ofNat b.toNat :: ·) := by
  rw [decode.eq_def]
  simp [h]

theorem decode_cons_two {b b₁ : Byte} (h : 0xC0 ≤ b.toNat ∧ b.toNat < 0xE0) (rest : List Byte) :
    decode (b :: b₁ :: rest) = (do
      let x ← continuation? b₁
      let c ← character? 0x80 ((b.toNat - 0xC0) * 64 + x)
      (decode rest).map (c :: ·)) := by
  have lead : ¬ b.toNat < 0x80 := by omega
  rw [decode.eq_def]
  simp only [if_neg lead, if_pos h]

theorem decode_cons_three {b b₁ b₂ : Byte} (h : 0xE0 ≤ b.toNat ∧ b.toNat < 0xF0)
    (rest : List Byte) : decode (b :: b₁ :: b₂ :: rest) = (do
      let x ← continuation? b₁
      let y ← continuation? b₂
      let c ← character? 0x800 (((b.toNat - 0xE0) * 64 + x) * 64 + y)
      (decode rest).map (c :: ·)) := by
  have lead : ¬ b.toNat < 0x80 := by omega
  have two : ¬ (0xC0 ≤ b.toNat ∧ b.toNat < 0xE0) := by omega
  rw [decode.eq_def]
  simp only [if_neg lead, if_neg two, if_pos h]

theorem decode_cons_four {b b₁ b₂ b₃ : Byte} (h : 0xF0 ≤ b.toNat ∧ b.toNat < 0xF8)
    (rest : List Byte) : decode (b :: b₁ :: b₂ :: b₃ :: rest) = (do
      let x ← continuation? b₁
      let y ← continuation? b₂
      let z ← continuation? b₃
      let c ← character? 0x10000 ((((b.toNat - 0xF0) * 64 + x) * 64 + y) * 64 + z)
      (decode rest).map (c :: ·)) := by
  have lead : ¬ b.toNat < 0x80 := by omega
  have two : ¬ (0xC0 ≤ b.toNat ∧ b.toNat < 0xE0) := by omega
  have three : ¬ (0xE0 ≤ b.toNat ∧ b.toNat < 0xF0) := by omega
  rw [decode.eq_def]
  simp only [if_neg lead, if_neg two, if_neg three, if_pos h]

/-- The bytes of one character, a lead byte and continuation bytes, are decoded as it whatever
follows them. -/
structure Encodes (c : Char) (lead : Byte) (tail : List Byte) : Prop where
  opens : continuation? lead = none
  goesOn : ∀ b ∈ tail, (continuation? b).isSome = true
  reads : ∀ rest, decode (lead :: (tail ++ rest)) = (decode rest).map (c :: ·)

/-- A text is decoded character by character, each from the bytes that encode it. -/
theorem decode_eq_some_iff_cons {bytes : List Byte} {c : Char} {cs : List Char} :
    decode bytes = some (c :: cs) ↔ ∃ lead tail rest, Encodes c lead tail ∧
      bytes = lead :: (tail ++ rest) ∧ decode rest = some cs := by
  constructor
  · fun_cases decode bytes with
    | case2 b rest small =>
      intro h
      obtain ⟨_, later, ⟨⟩⟩ := Option.map_eq_some_iff.1 h
      have lead : continuation? b = none := if_neg (by omega)
      exact ⟨b, [], rest, ⟨lead, List.forall_mem_nil _, decode_cons_ascii small⟩, rfl, later⟩
    | case4 b high b₁ rest two =>
      intro h
      obtain ⟨x, first, h⟩ := Option.bind_eq_some_iff.1 h
      obtain ⟨d, char, h⟩ := Option.bind_eq_some_iff.1 h
      obtain ⟨_, later, ⟨⟩⟩ := Option.map_eq_some_iff.1 h
      have lead : continuation? b = none := if_neg (by omega)
      refine ⟨b, [b₁], rest, ⟨lead, by simp [first], fun more => ?_⟩, rfl, later⟩
      simp [decode_cons_two two, first, char]
    | case6 b high b₁ notTwo b₂ rest three =>
      intro h
      obtain ⟨x, first, h⟩ := Option.bind_eq_some_iff.1 h
      obtain ⟨y, second, h⟩ := Option.bind_eq_some_iff.1 h
      obtain ⟨d, char, h⟩ := Option.bind_eq_some_iff.1 h
      obtain ⟨_, later, ⟨⟩⟩ := Option.map_eq_some_iff.1 h
      have lead : continuation? b = none := if_neg (by omega)
      refine ⟨b, [b₁, b₂], rest, ⟨lead, by simp [first, second], fun more => ?_⟩, rfl, later⟩
      simp [decode_cons_three three, first, second, char]
    | case8 b high b₁ notTwo b₂ notThree b₃ rest four =>
      intro h
      obtain ⟨x, first, h⟩ := Option.bind_eq_some_iff.1 h
      obtain ⟨y, second, h⟩ := Option.bind_eq_some_iff.1 h
      obtain ⟨z, third, h⟩ := Option.bind_eq_some_iff.1 h
      obtain ⟨d, char, h⟩ := Option.bind_eq_some_iff.1 h
      obtain ⟨_, later, ⟨⟩⟩ := Option.map_eq_some_iff.1 h
      have lead : continuation? b = none := if_neg (by omega)
      refine ⟨b, [b₁, b₂, b₃], rest, ⟨lead, by simp [first, second, third], fun more => ?_⟩, rfl,
        later⟩
      simp [decode_cons_four four, first, second, third, char]
    | _ => simp
  · rintro ⟨lead, tail, rest, encodes, rfl, later⟩
    rw [encodes.reads, later]
    rfl

theorem decode_eq_some_nil_iff {bytes : List Byte} : decode bytes = some [] ↔ bytes = [] := by
  constructor
  · fun_cases decode bytes <;> simp [Option.bind_eq_some_iff]
  · rintro rfl
    exact decode_nil

/-- Text is decoded alike whatever follows it. -/
theorem decode_append {a : List Byte} {as : List Char} (h : decode a = some as) (b : List Byte) :
    decode (a ++ b) = (decode b).map (as ++ ·) := by
  induction as generalizing a with
  | nil =>
    obtain rfl := decode_eq_some_nil_iff.1 h
    simp
  | cons c as ih =>
    obtain ⟨lead, tail, rest, encodes, rfl, later⟩ := decode_eq_some_iff_cons.1 h
    rw [List.cons_append, List.append_assoc, encodes.reads, ih later, Option.map_map]
    rfl

/-- No character begins with a continuation byte. -/
theorem decode_cons_continuation {b : Byte} (h : (continuation? b).isSome = true)
    (rest : List Byte) : decode (b :: rest) = none := by
  cases text : decode (b :: rest) with
  | none => rfl
  | some cs =>
    cases cs with
    | nil => cases decode_eq_some_nil_iff.1 text
    | cons c cs =>
      obtain ⟨lead, tail, more, encodes, whole, -⟩ := decode_eq_some_iff_cons.1 text
      obtain ⟨rfl, -⟩ := List.cons.inj whole
      rw [encodes.opens] at h
      cases h

/-- What is cut off in front of text is text: no character goes across. -/
theorem exists_decode_of_append {a b : List Byte} {bs cs : List Char} (h : decode b = some bs)
    (whole : decode (a ++ b) = some cs) : ∃ as, decode a = some as := by
  induction cs generalizing a with
  | nil =>
    obtain ⟨rfl, -⟩ := List.append_eq_nil_iff.1 (decode_eq_some_nil_iff.1 whole)
    exact ⟨[], decode_nil⟩
  | cons c cs ih =>
    cases a with
    | nil => exact ⟨[], decode_nil⟩
    | cons x a =>
      obtain ⟨lead, tail, rest, encodes, split, later⟩ := decode_eq_some_iff_cons.1 whole
      obtain ⟨rfl, parts⟩ := List.cons.inj split
      rcases List.append_eq_append_iff.1 parts with ⟨mid, rfl, rfl⟩ | ⟨mid, rfl, rfl⟩
      · cases mid with
        | nil =>
          have last := encodes.reads []
          simp only [List.append_nil, decode_nil, Option.map_some] at last
          exact ⟨_, last⟩
        | cons y mid =>
          have inside : (continuation? y).isSome = true :=
            encodes.goesOn y (List.mem_append_right _ List.mem_cons_self)
          rw [List.cons_append, decode_cons_continuation inside] at h
          cases h
      · obtain ⟨as, text⟩ := ih later
        have front := encodes.reads mid
        rw [text] at front
        exact ⟨_, front⟩

end Emu8085.Text.Utf8
