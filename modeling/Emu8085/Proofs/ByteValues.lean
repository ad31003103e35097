import Emu8085.Proofs.DigitChains
import Emu8085.Proofs.Encoding
import Mathlib.Data.Nat.Digits.Lemmas

/-!
# The value of a byte string

A byte string denotes a number, the lowest byte first, of which sixty-four bits are kept
(`littleEndian_eq_number`). Eight bytes fill those bits, so up to there the value determines the
bytes and from there on further bytes are lost. The same number is built up by a word of that width
into which the bytes are shifted one after the other, the last one first.
-/
namespace Emu8085

/-- Shifts a byte in at the low end; eight bits fall out at the high end. -/
def shiftIn (w : BitVec 64) (b : Byte) : BitVec 64 := w <<< 8 ||| b.setWidth 64

/-- What a shift of eight places pushes out of sixty-four bits is what a remainder leaves out. -/
theorem toNat_shiftIn (w : BitVec 64) (b : Byte) :
    (shiftIn w b).toNat = (b.toNat + 256 * w.toNat) % countLimit := by
  have apart : w <<< 8 &&& b.setWidth 64 = 0#64 := by
    refine BitVec.eq_of_getLsbD_eq fun i _ => ?_
    by_cases low : i < 8
    · simp [low]
    · simp [BitVec.getLsbD_of_ge b i (Nat.not_lt.1 low)]
  have shifted : (w <<< 8).toNat = 256 * w.toNat % countLimit := by
    rw [BitVec.toNat_shiftLeft, Nat.shiftLeft_eq, Nat.mul_comm]
    rfl
  have small : b.toNat < 2 ^ 64 := Nat.lt_trans b.isLt (by decide)
  rw [shiftIn, ← BitVec.add_eq_or_of_and_eq_zero _ _ apart, BitVec.toNat_add, shifted,
    BitVec.toNat_setWidth, Nat.mod_eq_of_lt small, Nat.add_comm]
  exact Nat.add_mod_mod ..

section

variable (bytes : List Byte)

/-- The run lemma, by induction on the bytes; the first one goes in last. -/
theorem toNat_foldl_shiftIn :
    (bytes.reverse.foldl shiftIn 0).toNat = littleEndian bytes := by
  induction bytes with
  | nil => rfl
  | cons b bytes ih =>
    rw [List.reverse_cons, List.foldl_append, List.foldl_cons, List.foldl_nil, toNat_shiftIn, ih,
      littleEndian_cons]

/-- Remainders taken byte by byte are the remainder of the whole. -/
theorem littleEndian_eq_number : littleEndian bytes = number bytes % countLimit := by
  induction bytes with
  | nil => rfl
  | cons b bytes ih =>
    rw [littleEndian_cons, ih, number_cons, Nat.add_mod, Nat.mul_mod_mod, ← Nat.add_mod]

/-- Each byte counts with the power of its place. -/
theorem number_eq_sum : number bytes = (bytes.mapIdx fun i b => b.toNat * 256 ^ i).sum := by
  rw [number, Nat.ofDigits_eq_sum_mapIdx]
  refine congrArg List.sum (List.ext_getElem (by simp) fun i _ _ => ?_)
  rw [List.getElem_mapIdx, List.getElem_mapIdx, List.getElem_map]

theorem number_append (more : List Byte) :
    number (bytes ++ more) = number bytes + 256 ^ bytes.length * number more := by
  rw [number, List.map_append, Nat.ofDigits_append, List.length_map, number, number]

theorem number_replicate_zero (zeros : Nat) : number (List.replicate zeros 0) = 0 := by
  rw [number, List.map_replicate]
  exact Nat.ofDigits_replicate_zero

/-- What is behind the eighth byte counts a multiple of all that is kept. -/
theorem littleEndian_take : littleEndian (bytes.take 8) = littleEndian bytes := by
  by_cases short : bytes.length ≤ 8
  · rw [List.take_of_length_le short]
  · have eight : (bytes.take 8).length = 8 := by
      rw [List.length_take]
      omega
    have whole : number bytes = number (bytes.take 8) + countLimit * number (bytes.drop 8) := by
      conv_lhs => rw [← List.take_append_drop 8 bytes, number_append, eight]
      rfl
    rw [littleEndian_eq_number, littleEndian_eq_number, whole, Nat.add_mul_mod_self_left]

end

theorem littleEndian_of_short {bytes : List Byte} (short : bytes.length ≤ 8) :
    littleEndian bytes = number bytes := by
  have small : number bytes < countLimit := by
    calc number bytes < 256 ^ bytes.length := number_lt bytes
      _ ≤ 256 ^ 8 := Nat.pow_le_pow_right (by decide) short
  rw [littleEndian_eq_number, Nat.mod_eq_of_lt small]

/-- Strings of one length are their own digits in base 256. -/
theorem number_injective {bytes other : List Byte} (length : bytes.length = other.length)
    (same : number bytes = number other) : bytes = other := by
  have digits : bytes.map BitVec.toNat = other.map BitVec.toNat := by
    refine Nat.ofDigits_inj_of_len_eq (by decide : 1 < 256) ?_ ?_ ?_ same
    · rw [List.length_map, List.length_map, length]
    · exact List.forall_mem_map.2 fun b _ => b.isLt
    · exact List.forall_mem_map.2 fun b _ => b.isLt
  exact (List.map_inj_right fun _ _ => BitVec.eq_of_toNat_eq).1 digits

theorem Operand.toNat_asWord {o : Operand} (two : o.length = 2) :
    o.asWord.toNat = littleEndian o.bytes := by
  have short : o.bytes.length ≤ 8 := two.trans_le (by decide)
  cases o with
  | none | byte => cases two
  | word w =>
    rw [littleEndian_of_short short]
    show w.toNat = number [w.low, w.high]
    rw [number_cons, number_cons, number_nil, Word.toNat_low, Word.toNat_high]
    omega

/-- The value of a byte string is the sum of its bytes, each with the power of 256 of its place,
in sixty-four bits, and what a word of that width holds after the bytes are shifted into it from
the last to the first. Strings of one length up to eight are told apart by it; zeros behind a
string do not change it, and bytes behind the eighth do not count. That of two bytes has sixteen
bits, so the word of an operand of two bytes is just their value, also where the operand is
fetched from memory. -/
theorem little_endian_is_base_256 (bytes : List Byte) :
    littleEndian bytes = (bytes.mapIdx fun i b => b.toNat * 256 ^ i).sum % 2 ^ 64 ∧
    littleEndian bytes = (bytes.reverse.foldl shiftIn 0).toNat ∧
    (bytes.length ≤ 8 → ∀ other : List Byte, other.length = bytes.length →
      littleEndian other = littleEndian bytes → other = bytes) ∧
    (∀ zeros, littleEndian (bytes ++ List.replicate zeros 0) = littleEndian bytes) ∧
    (∀ other : List Byte, other.take 8 = bytes.take 8 →
      littleEndian other = littleEndian bytes) ∧
    (∀ o : Operand, o.length = 2 →
      littleEndian o.bytes < 2 ^ 16 ∧ o.asWord = BitVec.ofNat 16 (littleEndian o.bytes) ∧
        o.asWord.toNat = littleEndian o.bytes) ∧
    ∀ (m : Memory) (a : Word), operandWidth (m.read a) = 2 →
      (m.fetch a).instruction.operand.asWord.toNat =
        littleEndian [m.read (a + 1), m.read (a + 2)] := by
  refine ⟨?sum, (toNat_foldl_shiftIn bytes).symm, ?injective, ?zeros, ?ninth, ?operand, ?fetched⟩
  case sum =>
    rw [littleEndian_eq_number, number_eq_sum]
    rfl
  case injective =>
    intro short other length same
    rw [littleEndian_of_short short, littleEndian_of_short (length.trans_le short)] at same
    exact number_injective length same
  case zeros =>
    intro zeros
    rw [littleEndian_eq_number, littleEndian_eq_number, number_append, number_replicate_zero,
      Nat.mul_zero, Nat.add_zero]
  case ninth =>
    intro other front
    rw [← littleEndian_take, front, littleEndian_take]
  case operand =>
    intro o two
    have value := Operand.toNat_asWord two
    refine ⟨value ▸ o.asWord.isLt, ?_, value⟩
    rw [← value, BitVec.ofNat_toNat, BitVec.setWidth_eq]
  case fetched =>
    intro m a two
    have bytes : (m.fetch a).instruction.operand.bytes = [m.read (a + 1), m.read (a + 2)] := by
      have taken := Instruction.bytes_decode (m.read a) (m.read (a + 1)) (m.read (a + 2))
      rwa [two] at taken
    have length : (m.fetch a).instruction.operand.length = 2 := by
      rw [Operand.length, bytes]
      rfl
    rw [Operand.toNat_asWord length, bytes]

example : littleEndian [0x34, 0x12, 0, 0, 0, 0, 0, 0, 0xFF] = 0x1234 := by decide

end Emu8085
