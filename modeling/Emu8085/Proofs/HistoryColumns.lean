import Emu8085.Proofs.MemoryDump
import Emu8085.Proofs.ReadLocality

/-!
# Columns of the history

An instruction is shown in columns of fixed width, and an entry of the history goes on behind them
with the registers after the step. Every part fits its column whatever it says (`Fits`), so parts
stand where they are expected, and what is written there can be read again (`Shows`): the place and
the bytes of the instruction in front, the registers behind.
-/
namespace Emu8085

open Text Script.Parser Script

theorem length_hex_of_lt (letters : LetterCase) {width n : Nat} (small : n < 16 ^ (width + 1)) :
    (hex letters (width + 1) n).length = width + 1 := by
  rw [← String.length_toList, length_hex, Nat.max_eq_left (hexLength_le_iff.2 small)]

theorem prefix_pad (width : Nat) (text : String) :
    text.toList <+: (pad .left width text).toList := by
  rw [pad, String.toList_append]
  exact List.prefix_append ..

/-- A character of one byte that opens no bracket. -/
def isPlain (c : Char) : Bool := decide (c.toNat < 128) && c != '['

/-- Plain text that a column has room for. -/
structure Fits (width : Nat) (text : String) : Prop where
  plain : ∀ c ∈ text.toList, isPlain c = true
  short : text.length ≤ width

instance (width : Nat) (text : String) : Decidable (Fits width text) :=
  decidable_of_iff (text.toList.all isPlain = true ∧ text.length ≤ width)
    ⟨fun h => ⟨List.all_eq_true.1 h.1, h.2⟩, fun h => ⟨List.all_eq_true.2 h.plain, h.short⟩⟩

namespace Fits

variable {m n width : Nat} {s t : String}

theorem append (h : Fits m s) (h' : Fits n t) : Fits (m + n) (s ++ t) where
  plain := by
    rw [String.toList_append, List.forall_mem_append]
    exact ⟨h.plain, h'.plain⟩
  short := by
    rw [String.length_append]
    exact Nat.add_le_add h.short h'.short

theorem mono (h : Fits m s) (le : m ≤ n) : Fits n s := ⟨h.plain, h.short.trans le⟩

theorem blanks (n : Nat) : Fits n (blanks n) where
  plain := by
    rw [Text.blanks, String.toList_ofList]
    intro c member
    rw [List.eq_of_mem_replicate member]
    rfl
  short := (length_blanks n).le

/-- A text that a column has room for is padded to the column. -/
theorem pad (h : Fits width s) : Fits width (pad .left width s) where
  plain := (h.append (Fits.blanks (width - s.length))).plain
  short := by rw [length_pad, Nat.max_eq_left h.short]

theorem length_pad (h : Fits width s) : (Text.pad .left width s).length = width := by
  rw [Text.length_pad, Nat.max_eq_left h.short]

theorem hex (letters : LetterCase) {width n : Nat} (small : n < 16 ^ (width + 1)) :
    Fits (width + 1) (hex letters (width + 1) n) where
  plain := by
    intro c member
    obtain ⟨letters', d, digit, rfl⟩ := (numeral_hex letters (width + 1) n).exists_hexDigit c member
    have table : ∀ d : Fin 16, isPlain (hexDigit letters' d) = true := by
      cases letters' <;> decide
    exact table ⟨d, digit⟩
  short := (length_hex_of_lt letters small).le

end Fits

theorem Reg.fits_name (r : Reg) : Fits 1 r.name := by
  cases r <;> decide

theorem Pair.fits_name (p : Pair) : Fits 3 p.name := by
  cases p <;> decide

theorem Condition.fits_suffix (c : Condition) : Fits 2 c.suffix := by
  cases c <;> decide

theorem Alu.fits_mnemonic (op : Alu) : Fits 3 op.mnemonic := by
  cases op <;> decide

theorem Alu.fits_immediateMnemonic (op : Alu) : Fits 3 op.immediateMnemonic := by
  cases op <;> decide

theorem Rotation.fits_mnemonic (op : Rotation) : Fits 3 op.mnemonic := by
  cases op <;> decide

namespace Instruction

theorem fits_vector (vector : Fin 8) : Fits 1 (toString vector.val) := by
  revert vector
  decide

/-- A branch has a letter and a condition, or an unconditional name of four letters. -/
theorem fits_branchMnemonic {family unconditional : String} (h : Fits 1 family)
    (h' : Fits 4 unconditional) (condition : Option Condition) :
    Fits 8 (branchMnemonic family unconditional condition) := by
  cases condition with
  | none => exact h'.mono (by decide)
  | some c => exact (h.append c.fits_suffix).mono (by decide)

theorem fits_words {operation name : String} (first : Fits 5 operation) (second : Fits 3 name) :
    Fits 8 (operation ++ name) := first.append second

/-- The longest mnemonics, such as that of a push of the status word, just fit. -/
theorem fits_mnemonic (i : Instruction) : Fits 8 i.mnemonic := by
  cases i with
  | mov dst src =>
    have first : Fits 6 ("MOV " ++ dst.name ++ ",") :=
      (Fits.append (by decide : Fits 4 "MOV ") dst.fits_name).append (by decide : Fits 1 ",")
    exact (first.append src.fits_name).mono (by decide)
  | alu op src =>
    have first : Fits 4 (op.mnemonic ++ " ") := op.fits_mnemonic.append (by decide : Fits 1 " ")
    exact (first.append src.fits_name).mono (by decide)
  | mvi r _ | inr r | dcr r => exact fits_words (by decide) (r.fits_name.mono (by decide))
  | lxi p _ | stax p | ldax p | inx p | dcx p | dad p | push p | pop p =>
    exact fits_words (by decide) p.fits_name
  | rst vector => exact fits_words (by decide) ((fits_vector vector).mono (by decide))
  | aluImmediate op _ => exact op.fits_immediateMnemonic.mono (by decide)
  | rotate op => exact op.fits_mnemonic.mono (by decide)
  | jump condition _ | call condition _ | ret condition =>
    exact fits_branchMnemonic (by decide) (by decide) condition
  | _ =>
    simp only [mnemonic]
    decide

end Instruction

/-- A character of a machine code is a blank or one of a byte's digits. -/
theorem mem_code {bytes : List Byte} {c : Char}
    (h : c ∈ [' '].intercalate (bytes.map byteDigits)) : c = ' ' ∨ ∃ b, c ∈ byteDigits b := by
  induction bytes with
  | nil => cases h
  | cons b bytes ih =>
    cases bytes with
    | nil => exact .inr ⟨b, by simpa using h⟩
    | cons b' bytes =>
      rw [List.map_cons, List.intercalate_cons_of_ne_nil (by simp), List.mem_append,
        List.mem_append] at h
      obtain (digit | blank) | later := h
      · exact .inr ⟨b, digit⟩
      · exact .inl (List.mem_singleton.1 blank)
      · exact ih later

theorem toList_machineCode (opcode : Byte) (operand : Operand) :
    (machineCode .lower opcode operand).toList =
      [' '].intercalate ((opcode :: operand.bytes).map byteDigits) := by
  have digits : ∀ b : Byte, (hex .lower 2 b.toNat).toList = byteDigits b := toList_lowerHex
  rw [machineCode, String.toList_intercalate, List.map_map]
  simp only [Function.comp_def, digits]
  rfl

/-- No digit of a byte is a bracket of either kind. -/
theorem isPlain_of_mem_byteDigits (b : Byte) :
    ∀ c ∈ byteDigits b, isPlain c = true ∧ c ≠ ')' := by
  have all : (byteDigits b).all (fun c => isPlain c && c != ')') = true := by
    revert b
    decide +kernel
  simpa using all

/-- An opcode and two bytes behind it are eight characters with their blanks. -/
theorem fits_machineCode (opcode : Byte) (operand : Operand) :
    Fits 8 (machineCode .lower opcode operand) where
  plain := by
    rw [toList_machineCode]
    intro c member
    obtain rfl | ⟨b, digit⟩ := mem_code member
    · rfl
    · exact (isPlain_of_mem_byteDigits b c digit).1
  short := by
    rw [← String.length_toList, toList_machineCode]
    cases operand <;> simp [Operand.bytes, byteDigits, List.intercalate]

theorem Operand.fits_text (o : Operand) : Fits 6 o.text := by
  cases o with
  | none => decide
  | byte v => exact (Fits.append (by decide : Fits 1 "#") (Fits.hex .upper v.isLt)).mono (by decide)
  | word v => exact (Fits.append (by decide : Fits 1 "#") (Fits.hex .upper v.isLt)).mono (by decide)

namespace Located

variable (i : Located)

/-- The columns of the address and the machine code. -/
def location : String :=
  "#0x" ++ upperHex 4 i.address.toNat ++ ": " ++
    pad .left 11 ("(" ++ machineCode .lower i.opcode i.instruction.operand ++ ")")

def wording : String :=
  pad .left 8 i.instruction.mnemonic ++ " " ++ pad .left 6 i.instruction.operand.text

theorem text_eq : i.text = i.location ++ i.wording := by
  simp only [text, location, wording, String.append_assoc]

theorem fits_code :
    Fits 11 ("(" ++ machineCode .lower i.opcode i.instruction.operand ++ ")") :=
  ((Fits.append (by decide : Fits 1 "(") (fits_machineCode ..)).append
    (by decide : Fits 1 ")")).mono (by decide)

/-- The address and the machine code fill the first twenty columns. -/
theorem fits_location : Fits 20 i.location :=
  have address : Fits 4 (upperHex 4 i.address.toNat) := .hex .upper i.address.isLt
  ((Fits.append (by decide : Fits 3 "#0x") address).append (by decide : Fits 2 ": ")).append
    i.fits_code.pad

/-- The mnemonic and the operand fill the fifteen columns behind them. -/
theorem fits_wording : Fits 15 i.wording :=
  (i.instruction.fits_mnemonic.pad.append (by decide : Fits 1 " ")).append
    i.instruction.operand.fits_text.pad

theorem length_location : i.location.length = 20 := by
  have address : (upperHex 4 i.address.toNat).length = 4 := length_hex_of_lt .upper i.address.isLt
  rw [location, String.length_append, String.length_append, String.length_append, address,
    i.fits_code.length_pad]
  rfl

theorem length_wording : i.wording.length = 15 := by
  rw [wording, String.length_append, String.length_append,
    i.instruction.fits_mnemonic.length_pad, i.instruction.operand.fits_text.length_pad]
  rfl

/-- Both parts fill their columns, so the line is as long whatever is in it. -/
theorem length_text : i.text.length = 35 := by
  rw [text_eq, String.length_append, length_location, length_wording]

theorem fits_text : Fits 35 i.text := by
  rw [text_eq]
  exact i.fits_location.append i.fits_wording

theorem take_text (behind : List Char) :
    (i.text.toList ++ behind).take 20 = i.location.toList := by
  rw [text_eq, String.toList_append, List.append_assoc]
  exact List.take_left' (by rw [String.length_toList, length_location])

/-- The mnemonic stands at the front of the second part. -/
theorem mnemonic_prefix_drop : i.instruction.mnemonic.toList <+: i.text.toList.drop 20 := by
  rw [text_eq, String.toList_append,
    List.drop_left' (by rw [String.length_toList, length_location]), wording, String.append_assoc,
    String.toList_append]
  exact (prefix_pad _ _).trans (List.prefix_append ..)

theorem operand_prefix_drop : i.instruction.operand.text.toList <+: i.text.toList.drop 29 := by
  have front : (i.location ++ (pad .left 8 i.instruction.mnemonic ++ " ")).length = 29 := by
    rw [String.length_append, String.length_append, length_location,
      i.instruction.fits_mnemonic.length_pad]
    rfl
  rw [text_eq, wording, ← String.append_assoc, String.toList_append,
    List.drop_left' (by rw [String.length_toList, front])]
  exact prefix_pad _ _

end Located

/-- Five letters, each of which is upper case where its flag is set. -/
theorem Flags.toList_text (f : Flags) : f.text.toList =
    [if f.sign then 'S' else 's', if f.zero then 'Z' else 'z', '-',
      if f.auxCarry then 'A' else 'a', '-', if f.parity then 'P' else 'p', '-',
      if f.carry then 'C' else 'c'] := by
  obtain ⟨s, z, a, p, c⟩ := f
  revert s z a p c
  decide

def registerText (name : String) (digits n : Nat) : String :=
  "[" ++ name ++ "=0x" ++ lowerHex digits n ++ "]"

namespace Entry

variable (e : Entry)

theorem outcome_eq : e.outcome = registerText "A" 2 e.after.a.toNat ++
    (registerText "BC" 4 (e.after.pair .bc).toNat ++
      (registerText "DE" 4 (e.after.pair .de).toNat ++
        (registerText "HL" 4 (e.after.pair .hl).toNat ++
          (registerText "SP" 4 e.after.sp.toNat ++ ("[S=" ++ e.after.flags.text ++ "]"))))) := by
  have opening : "[" ++ "A" ++ "=0x" = "[A=0x" := by decide
  unfold outcome
  simp only [registerText, opening, String.append_assoc]

theorem length_front : (e.fetched.text ++ " ").length = 36 := by
  rw [String.length_append, e.fetched.length_text]
  rfl

theorem take_text : e.text.toList.take 20 = e.fetched.location.toList := by
  rw [text, String.append_assoc, String.toList_append, Located.take_text]

theorem drop_text : e.text.toList.drop 36 = e.outcome.toList := by
  rw [text, String.toList_append]
  exact List.drop_left' (by rw [String.length_toList, length_front])

end Entry

/-- A parser finds a value at the front of any line that begins with a text. -/
def Shows {α : Type} (text : String) (p : Parser α) (x : α) : Prop :=
  ∀ rest, p (text.toList ++ rest) = some (x, rest)

namespace Columns

def found {α : Type} (p : Parser α) (line : List Char) : Option α := (p line).map (·.1)

def bits (digits : Nat) : Parser (BitVec (4 * digits)) := do
  return BitVec.ofNat _ (← hexNumber digits)

def between {α : Type} (opening closing : String) (p : Parser α) : Parser α := do
  exactly opening
  let x ← p
  exactly closing
  return x

/-- The bytes of a machine code up to the bracket that closes it. -/
def code : Parser (List Byte) := fun cs =>
  (((cs.takeWhile (· != ')')).splitOn ' ').mapM byteOfDigits?).map fun bytes =>
    (bytes, (cs.dropWhile (· != ')')).tail)

/-- The address and the bytes of an instruction. -/
def location : Parser (Word × List Byte) := do
  let address ← between "#0x" ": (" (bits 4)
  let bytes ← code
  return (address, bytes)

def register (name : String) (digits : Nat) : Parser (BitVec (4 * digits)) :=
  between ("[" ++ name ++ "=0x") "]" (bits digits)

def flagLetters : Parser Flags
  | s :: z :: '-' :: a :: '-' :: p :: '-' :: c :: rest =>
    some (⟨s.isUpper, z.isUpper, a.isUpper, p.isUpper, c.isUpper⟩, rest)
  | _ => none

end Columns

/-- What an entry tells of the registers. -/
structure Snapshot where
  a : Byte
  bc : Word
  de : Word
  hl : Word
  sp : Word
  flags : Flags
  deriving DecidableEq, Repr

def Registers.snapshot (r : Registers) : Snapshot :=
  ⟨r.a, r.pair .bc, r.pair .de, r.pair .hl, r.sp, r.flags⟩

def Columns.snapshot : Parser Snapshot := do
  let a ← register "A" 2
  let bc ← register "BC" 4
  let de ← register "DE" 4
  let hl ← register "HL" 4
  let sp ← register "SP" 4
  let flags ← between "[S=" "]" flagLetters
  return ⟨a, bc, de, hl, sp, flags⟩

namespace Shows

variable {α β : Type} {s t : String} {p : Parser α} {f : α → Parser β} {x : α} {y : β}

/-- One text behind the other is read by one parser behind the other, whatever follows. -/
theorem bind (h : Shows s p x) (h' : Shows t (f x) y) : Shows (s ++ t) (p >>= f) y := by
  intro rest
  rw [String.toList_append, List.append_assoc, bind_of_eq_some (h _)]
  exact h' rest

theorem map (h : Shows s p x) (g : α → β) : Shows s (p >>= fun x => pure (g x)) (g x) := by
  intro rest
  rw [bind_of_eq_some (h rest), pure_apply]

theorem exactly (text : String) : Shows text (exactly text) () := exactly_append text

theorem between (opening closing : String) (h : Shows s p x) :
    Shows (opening ++ s ++ closing) (Columns.between opening closing p) x := by
  rw [String.append_assoc]
  exact (exactly opening).bind (h.bind ((exactly closing).map fun _ => x))

/-- Whatever the bits are, they take all of the digits, so the reader stops at the right place. -/
theorem bits (letters : LetterCase) (digits : Nat) (v : BitVec (4 * (digits + 1))) :
    Shows (hex letters (digits + 1) v.toNat) (Columns.bits (digits + 1)) v := by
  have small : v.toNat < 16 ^ (digits + 1) := by
    have power : 16 ^ (digits + 1) = 2 ^ (4 * (digits + 1)) := (Nat.pow_mul 2 4 _).symm
    rw [power]
    exact v.isLt
  have number : Shows (hex letters (digits + 1) v.toNat) (hexNumber (digits + 1)) v.toNat :=
    fun _ => (hexNumber_eq_some_iff (Nat.succ_pos digits)).2
      ⟨_, numeral_hex .., length_hex_of_lt letters small, rfl⟩
  have read := number.map (BitVec.ofNat (4 * (digits + 1)))
  rwa [BitVec.ofNat_toNat, BitVec.setWidth_eq] at read

/-- A register is found by its name and the digits up to its bracket. -/
theorem register (name : String) (digits : Nat) (v : BitVec (4 * (digits + 1))) :
    Shows (registerText name (digits + 1) v.toNat) (Columns.register name (digits + 1)) v :=
  (bits .lower digits v).between ("[" ++ name ++ "=0x") "]"

theorem flagLetters (f : Flags) : Shows f.text Columns.flagLetters f := by
  intro rest
  rw [Flags.toList_text]
  obtain ⟨s, z, a, p, c⟩ := f
  cases s <;> cases z <;> cases a <;> cases p <;> cases c <;> rfl

/-- The bytes of a machine code are told apart by their blanks, up to the bracket that closes it. -/
theorem code (opcode : Byte) (operand : Operand) :
    Shows (machineCode .lower opcode operand ++ ")") Columns.code (opcode :: operand.bytes) := by
  intro rest
  have inside : ∀ c ∈ [' '].intercalate ((opcode :: operand.bytes).map byteDigits),
      (c != ')') = true := by
    intro c member
    obtain rfl | ⟨b, digit⟩ := mem_code member
    · rfl
    · exact bne_iff_ne.2 (isPlain_of_mem_byteDigits b c digit).2
  have line : (machineCode .lower opcode operand ++ ")").toList ++ rest =
      [' '].intercalate ((opcode :: operand.bytes).map byteDigits) ++ ')' :: rest := by
    rw [String.toList_append, toList_machineCode, List.append_assoc]
    rfl
  have front : (')' :: rest).takeWhile (· != ')') = [] := rfl
  have behind : (')' :: rest).dropWhile (· != ')') = ')' :: rest := rfl
  rw [line, Columns.code, List.takeWhile_append_of_pos inside, List.dropWhile_append_of_pos inside,
    front, behind, List.append_nil, mapM_splitOn (List.cons_ne_nil opcode operand.bytes)]
  rfl

/-- The reader finds the address and the bytes that the line was made from. -/
theorem location (i : Located) :
    Shows ("#0x" ++ upperHex 4 i.address.toNat ++ ": (" ++
      (machineCode .lower i.opcode i.instruction.operand ++ ")"))
      Columns.location (i.address, i.bytes) :=
  ((bits .upper 3 i.address).between "#0x" ": (").bind ((code _ _).map _)

/-- The reader takes one bracket after the other, in the order in which an entry names its
registers. -/
theorem snapshot (e : Entry) : Shows e.outcome Columns.snapshot e.after.snapshot := by
  have flags := (flagLetters e.after.flags).between "[S=" "]"
  rw [e.outcome_eq]
  exact (register "A" 1 e.after.a).bind ((register "BC" 3 (e.after.pair .bc)).bind
    ((register "DE" 3 (e.after.pair .de)).bind ((register "HL" 3 (e.after.pair .hl)).bind
      ((register "SP" 3 e.after.sp).bind (flags.map _)))))

theorem found (h : Shows s p x) (rest : List Char) :
    Columns.found p (s.toList ++ rest) = some x := by
  rw [Columns.found, h]
  rfl

end Shows

/-- The first columns of a line are enough to know the address and the bytes. The reader takes the
bracket with the colon, and the blanks that fill the column it leaves. -/
theorem Located.found_location (i : Located) :
    Columns.found Columns.location i.location.toList = some (i.address, i.bytes) := by
  have opening : ": (" = ": " ++ "(" := by decide
  have read := (Shows.location i).found
    (blanks (11 - ("(" ++ machineCode .lower i.opcode i.instruction.operand ++ ")").length)).toList
  rw [← String.toList_append, opening] at read
  simpa only [location, pad, String.append_assoc] using read

theorem Entry.found_snapshot (e : Entry) :
    Columns.found Columns.snapshot (e.text.toList.drop 36) = some e.after.snapshot := by
  rw [drop_text, ← List.append_nil e.outcome.toList]
  exact (Shows.snapshot e).found []

/-- An instruction is known by its address and its bytes. -/
theorem Memory.fetch_eq_of_bytes {m m' : Memory} {a : Word}
    (h : (m'.fetch a).bytes = (m.fetch a).bytes) : m'.fetch a = m.fetch a := by
  have opcode : m'.read a = m.read a := (List.cons.inj h).1
  have cells : m'.codeCells a = m.codeCells a := by rw [codeCells, codeCells, opcode]
  rw [bytes_fetch, bytes_fetch, Located.cells_fetch, Located.cells_fetch, cells,
    List.map_inj_left] at h
  exact fetch_congr h

/-- The column from which on a text first stands in a line. -/
def column? (text line : String) : Option Nat :=
  line.toList.tails.findIdx? (text.toList.isPrefixOf ·)

/-- A text is not found earlier than its first character: an earlier column holds another one. -/
theorem column?_append (text : String) {front : String} {c : Char}
    (head : text.toList.head? = some c) (free : c ∉ front.toList) (behind : String) :
    column? text (front ++ (text ++ behind)) = some front.length := by
  have line : (front ++ (text ++ behind)).toList =
      front.toList ++ (text.toList ++ behind.toList) := by
    rw [String.toList_append, String.toList_append]
  rw [column?, line, List.findIdx?_eq_some_iff_getElem]
  refine ⟨?_, ?_, fun j before found => ?_⟩
  · rw [List.length_tails, List.length_append, String.length_toList]
    omega
  · rw [List.getElem_tails, List.drop_left' String.length_toList, List.isPrefixOf_iff_prefix]
    exact List.prefix_append ..
  · rw [← String.length_toList] at before
    rw [List.getElem_tails, List.isPrefixOf_iff_prefix,
      List.drop_append_of_le_length before.le, List.drop_eq_getElem_cons before] at found
    obtain ⟨rest, text_eq⟩ := List.head?_eq_some_iff.1 head
    rw [text_eq, List.cons_append, List.cons_prefix_cons] at found
    exact free (found.1 ▸ List.getElem_mem before)

/-- The accumulator is not named before its column, since no bracket stands in the line of an
instruction. -/
theorem Entry.column_outcome (e : Entry) : column? "[A=" e.text = some 36 := by
  have front : Fits 36 (e.fetched.text ++ " ") :=
    e.fetched.fits_text.append (by decide : Fits 1 " ")
  have free : '[' ∉ (e.fetched.text ++ " ").toList := fun member => by
    cases front.plain _ member
  obtain ⟨behind, outcome⟩ : ∃ behind, e.outcome = "[A=" ++ behind := by
    have opening : "[" ++ "A" ++ "=0x" = "[A=" ++ "0x" := by decide
    rw [outcome_eq, registerText, opening]
    simp only [String.append_assoc]
    exact ⟨_, rfl⟩
  rw [text, outcome, column?_append "[A=" rfl free behind, length_front]

/-- The text of an instruction is thirty-five characters of one byte each, its mnemonic in column
twenty and its operand in column twenty-nine, and the text of the entry that its execution leaves
names the accumulator first in column thirty-six. The first twenty columns of either tell the
address and the opcode and operand bytes that were in memory before the execution, so instructions
with the same text are the same, in their address and bytes as in their mnemonic. The columns from
the thirty-sixth on tell the accumulator, the pairs, the stack pointer and the flags after the
execution. -/
theorem history_text_is_faithful (s : Machine) (a : Word) :
    let i := s.memory.fetch a
    let e := (i.execute s).1
    let t := (i.execute s).2
    let bytes := (s.memory.codeCells a).map s.memory.read
    (i.text.length = 35 ∧ (∀ c ∈ i.text.toList, c.toNat < 128) ∧
      i.instruction.mnemonic.toList <+: i.text.toList.drop 20 ∧
      i.instruction.operand.text.toList <+: i.text.toList.drop 29) ∧
    column? "[A=" e.text = some 36 ∧
    Columns.found Columns.location (i.text.toList.take 20) = some (a, bytes) ∧
    Columns.found Columns.location (e.text.toList.take 20) = some (a, bytes) ∧
    (∀ (m : Memory) (b : Word), (m.fetch b).text = i.text → m.fetch b = i) ∧
    Columns.found Columns.snapshot (e.text.toList.drop 36) = some t.registers.snapshot := by
  intro i e t bytes
  have ascii : ∀ c ∈ i.text.toList, c.toNat < 128 := by
    intro c member
    have plain := i.fits_text.plain c member
    rw [isPlain, Bool.and_eq_true, decide_eq_true_eq] at plain
    exact plain.1
  have told (m : Memory) (b : Word) : Columns.found Columns.location
      ((m.fetch b).text.toList.take 20) = some (b, (m.fetch b).bytes) := by
    rw [← List.append_nil (m.fetch b).text.toList, Located.take_text, Located.found_location]
    rfl
  have fetched : i.bytes = bytes := by rw [Memory.bytes_fetch, Located.cells_fetch]
  refine ⟨⟨i.length_text, ascii, i.mnemonic_prefix_drop, i.operand_prefix_drop⟩,
    e.column_outcome, ?instruction, ?entry, ?same, e.found_snapshot⟩
  case instruction => rw [told, fetched]
  case entry =>
    rw [Entry.take_text, Located.found_location, ← fetched]
    rfl
  case same =>
    intro m b text
    have there := told m b
    rw [text, told] at there
    obtain ⟨rfl, bytes⟩ : a = b ∧ i.bytes = (m.fetch b).bytes := by simpa using there
    exact Memory.fetch_eq_of_bytes bytes.symm

example : ((Memory.zero.store 0x1000 [0x21, 0x00, 0x20]).fetch 0x1000).text =
    "#0x1000: (21 00 20) LXI H    #2000 " := by decide +kernel

end Emu8085
