import Prpc.Lib.Bytes

/-!
`Base64::base64_encode` and `base64_decode`. The encoder's input and the decoder's output buffer are
not null. A failed check and an access out of bounds are told apart.
-/

namespace Prpc.Base64
open Lib

def encodeTable : List Byte :=
  (List.range' 65 26 ++ List.range' 97 26 ++ List.range' 48 10 ++ [43, 47]).map UInt8.ofNat

def decodeTable : List Nat :=
  List.replicate 43 0 ++ [62, 0, 0, 0, 63] ++ List.range' 52 10 ++ List.replicate 7 0 ++
    List.range 26 ++ List.replicate 6 0 ++ List.range' 26 26

def pad : Byte := '='.toUInt8

def base64Encode : List Byte → Option (List Byte)
  | a :: b :: c :: input => do
    return (← encodeTable[a.toNat >>> 2]?) :: (← encodeTable[(a.toNat <<< 4 ||| b.toNat >>> 4) &&& 0x3F]?) ::
      (← encodeTable[(b.toNat <<< 2 ||| c.toNat >>> 6) &&& 0x3F]?) ::
      (← encodeTable[c.toNat &&& 0x3F]?) :: (← base64Encode input)
  | [a] => do
    return [← encodeTable[(a.toNat &&& 0xFC) >>> 2]?, ← encodeTable[(a.toNat &&& 0x03) <<< 4]?, pad, pad]
  | [a, b] => do
    return [← encodeTable[(a.toNat &&& 0xFC) >>> 2]?,
      ← encodeTable[(a.toNat &&& 0x03) <<< 4 ||| (b.toNat &&& 0xF0) >>> 4]?,
      ← encodeTable[(b.toNat &&& 0x0F) <<< 2]?, pad]
  | [] => some []

inductive Fault where
  | check
  | outside
  deriving DecidableEq

def isBase64 (c : Byte) : Bool :=
  c == '+'.toUInt8 || c == '/'.toUInt8 || inRange '0' '9' c || inRange 'A' 'Z' c || inRange 'a' 'z' c

/-- `input[i]` of a `std::string`, which ends with a zero. -/
def charAt (input : List Byte) (i : Nat) : Except Fault Byte :=
  match (input ++ [0])[i]? with
  | some c => .ok c
  | none => .error .outside

def checkedAt (input : List Byte) (i : Nat) : Except Fault Byte := do
  let c ← charAt input i
  if isBase64 c then pure c else throw .check

/-- A `char` converted to `size_t`. -/
def charIndex (c : Byte) : Nat := c.toInt8.toInt64.toUInt64.toNat

def decodeAt (c : Byte) : Except Fault Nat :=
  match decodeTable[charIndex c]? with
  | some v => .ok v
  | none => .error .outside

/-- `in_idx` and the output written so far, from the start of the buffer to `out_len`. -/
structure Decoding where
  inIdx : Nat
  output : List Byte
  deriving DecidableEq

def Decoding.put (s : Decoding) (read value : Nat) : Decoding :=
  ⟨s.inIdx + read, s.output ++ [UInt8.ofNat value]⟩

def decodeGroup (input : List Byte) (s : Decoding) : Except Fault Decoding := do
  let value := (← decodeAt (← checkedAt input s.inIdx)) <<< 18
  let value := value + (← decodeAt (← charAt input (s.inIdx + 1))) <<< 12
  let s := s.put 2 ((value &&& 0x00FF0000) >>> 16)
  if (← charAt input s.inIdx) = pad then
    pure s
  else
    let value := value + (← decodeAt (← checkedAt input s.inIdx)) <<< 6
    let s := s.put 1 ((value &&& 0x0000FF00) >>> 8)
    if (← charAt input s.inIdx) = pad then
      pure s
    else
      let value := value + (← decodeAt (← checkedAt input s.inIdx))
      pure (s.put 1 (value &&& 0x000000FF))

def decodeGroups (input : List Byte) : Nat → Decoding → Except Fault Decoding
  | 0, s => pure s
  | n + 1, s => do decodeGroups input n (← decodeGroup input s)

/-- What was written to the output, the zero after it included, and `out_len`. -/
def base64Decode (input : List Byte) : Except Fault (List Byte × Nat) := do
  let s ← decodeGroups input ((input.length + 3) / 4) ⟨0, []⟩
  return (s.output ++ [0], s.output.length)

structure Letter (c : Byte) (i : Nat) : Prop where
  base64 : isBase64 c
  value : decodeAt c = .ok i

theorem letter_of_encodeTable {i : Nat} (lt : i < 64) : ∃ c, encodeTable[i]? = some c ∧ Letter c i := by
  have all : ∀ i : Fin 64, (encodeTable[i.val]?).any fun c =>
      isBase64 c && decodeTable[charIndex c]? == some i.val := by decide +kernel
  obtain ⟨c, read, letter⟩ := (Option.any_eq_true ..).1 (all ⟨i, lt⟩)
  rw [Bool.and_eq_true, beq_iff_eq] at letter
  exact ⟨c, read, letter.1, by rw [decodeAt, letter.2]⟩

section
variable {a b : Nat}

theorem and_three : a &&& 0x03 = a % 4 := Nat.and_two_pow_sub_one_eq_mod a 2

theorem and_fifteen : a &&& 0x0F = a % 16 := Nat.and_two_pow_sub_one_eq_mod a 4

theorem and_sixtythree : a &&& 0x3F = a % 64 := Nat.and_two_pow_sub_one_eq_mod a 6

theorem and_byte : a &&& 0xFF = a % 256 := Nat.and_two_pow_sub_one_eq_mod a 8

theorem shifted_or (n : Nat) (lt : b < 2 ^ n) : a <<< n ||| b = a * 2 ^ n + b := by
  rw [← Nat.shiftLeft_add_eq_or_of_lt lt, Nat.shiftLeft_eq]

theorem high_six (lt : a < 256) : (a &&& 0xFC) >>> 2 = a / 4 := by
  rw [Nat.shiftRight_and_distrib, Nat.shiftRight_eq_div_pow, show 0xFC >>> 2 = 0x3F from rfl, and_sixtythree]
  omega

theorem high_four (lt : b < 256) : (b &&& 0xF0) >>> 4 = b / 16 := by
  rw [Nat.shiftRight_and_distrib, Nat.shiftRight_eq_div_pow, show 0xF0 >>> 4 = 0x0F from rfl, and_fifteen]
  omega

theorem low_two : (a &&& 0x03) <<< 4 = a % 4 * 16 := by
  rw [and_three, Nat.shiftLeft_eq]

theorem low_four : (b &&& 0x0F) <<< 2 = b % 16 * 4 := by
  rw [and_fifteen, Nat.shiftLeft_eq]

theorem join_two (lt : b < 256) : (a &&& 0x03) <<< 4 ||| (b &&& 0xF0) >>> 4 = a % 4 * 16 + b / 16 := by
  rw [high_four lt, shifted_or 4 (by omega), and_three]
  rfl

theorem masked_two (lt : b < 256) : (a <<< 4 ||| b >>> 4) &&& 0x3F = a % 4 * 16 + b / 16 := by
  rw [Nat.shiftRight_eq_div_pow, shifted_or 4 (by omega), and_sixtythree]
  omega

theorem masked_four (lt : b < 256) : (a <<< 2 ||| b >>> 6) &&& 0x3F = a % 16 * 4 + b / 64 := by
  rw [Nat.shiftRight_eq_div_pow, shifted_or 2 (by omega), and_sixtythree]
  omega

theorem first_byte : (a &&& 0x00FF0000) >>> 16 = a / 2 ^ 16 % 256 := by
  rw [Nat.shiftRight_and_distrib, Nat.shiftRight_eq_div_pow, show 0x00FF0000 >>> 16 = 0xFF from rfl, and_byte]

theorem second_byte : (a &&& 0x0000FF00) >>> 8 = a / 2 ^ 8 % 256 := by
  rw [Nat.shiftRight_and_distrib, Nat.shiftRight_eq_div_pow, show 0x0000FF00 >>> 8 = 0xFF from rfl, and_byte]

end

inductive Groups : List Byte → List Byte → Prop
  | nil : Groups [] []
  | one {a p q : Byte} (first : Letter p (a.toNat / 4)) (second : Letter q (a.toNat % 4 * 16)) :
    Groups [a] [p, q, pad, pad]
  | two {a b p q r : Byte} (first : Letter p (a.toNat / 4))
    (second : Letter q (a.toNat % 4 * 16 + b.toNat / 16)) (third : Letter r (b.toNat % 16 * 4)) :
    Groups [a, b] [p, q, r, pad]
  | three {a b c p q r t : Byte} {input text : List Byte} (first : Letter p (a.toNat / 4))
    (second : Letter q (a.toNat % 4 * 16 + b.toNat / 16))
    (third : Letter r (b.toNat % 16 * 4 + c.toNat / 64)) (fourth : Letter t (c.toNat % 64))
    (rest : Groups input text) : Groups (a :: b :: c :: input) (p :: q :: r :: t :: text)

theorem groups_of_encode (input : List Byte) :
    ∃ text, base64Encode input = some text ∧ Groups input text := by
  induction input using base64Encode.induct with
  | case1 a b c input ih =>
    obtain ⟨text, encoded, groups⟩ := ih
    have ha : a.toNat < 256 := a.toNat_lt
    have hb : b.toNat < 256 := b.toNat_lt
    have hc : c.toNat < 256 := c.toNat_lt
    obtain ⟨p, readP, first⟩ := letter_of_encodeTable (i := a.toNat / 4) (by omega)
    obtain ⟨q, readQ, second⟩ := letter_of_encodeTable (i := a.toNat % 4 * 16 + b.toNat / 16) (by omega)
    obtain ⟨r, readR, third⟩ := letter_of_encodeTable (i := b.toNat % 16 * 4 + c.toNat / 64) (by omega)
    obtain ⟨t, readT, fourth⟩ := letter_of_encodeTable (i := c.toNat % 64) (by omega)
    refine ⟨p :: q :: r :: t :: text, ?_, .three first second third fourth groups⟩
    rw [base64Encode, masked_two hb, masked_four hc, and_sixtythree, Nat.shiftRight_eq_div_pow]
    simp [readP, readQ, readR, readT, encoded]
  | case2 a =>
    have ha : a.toNat < 256 := a.toNat_lt
    obtain ⟨p, readP, first⟩ := letter_of_encodeTable (i := a.toNat / 4) (by omega)
    obtain ⟨q, readQ, second⟩ := letter_of_encodeTable (i := a.toNat % 4 * 16) (by omega)
    refine ⟨[p, q, pad, pad], ?_, .one first second⟩
    rw [base64Encode, high_six ha, low_two]
    simp [readP, readQ]
  | case3 a b =>
    have ha : a.toNat < 256 := a.toNat_lt
    have hb : b.toNat < 256 := b.toNat_lt
    obtain ⟨p, readP, first⟩ := letter_of_encodeTable (i := a.toNat / 4) (by omega)
    obtain ⟨q, readQ, second⟩ := letter_of_encodeTable (i := a.toNat % 4 * 16 + b.toNat / 16) (by omega)
    obtain ⟨r, readR, third⟩ := letter_of_encodeTable (i := b.toNat % 16 * 4) (by omega)
    refine ⟨[p, q, r, pad], ?_, .two first second third⟩
    rw [base64Encode, high_six ha, join_two hb, low_four]
    simp [readP, readQ, readR]
  | case4 => exact ⟨[], rfl, .nil⟩

theorem Groups.length {input text : List Byte} (groups : Groups input text) :
    text.length = 4 * ((input.length + 2) / 3) := by
  induction groups with
  | nil | one | two => simp
  | three first second third fourth rest ih =>
    simp only [List.length_cons, ih]
    omega

theorem Groups.alphabet {input text : List Byte} (groups : Groups input text) :
    ∃ body n, text = body ++ List.replicate n pad ∧ n ≤ 2 ∧ ∀ c ∈ body, isBase64 c := by
  induction groups with
  | nil => exact ⟨[], 0, rfl, by omega, by simp⟩
  | @one a p q first second =>
    exact ⟨[p, q], 2, rfl, by omega, by simp [first.base64, second.base64]⟩
  | @two a b p q r first second third =>
    exact ⟨[p, q, r], 1, rfl, by omega, by simp [first.base64, second.base64, third.base64]⟩
  | @three a b c p q r t input text first second third fourth rest ih =>
    obtain ⟨body, n, rfl, few, all⟩ := ih
    refine ⟨p :: q :: r :: t :: body, n, rfl, few, ?_⟩
    simpa [first.base64, second.base64, third.base64, fourth.base64] using all

section
variable {input text : List Byte} {s : Decoding} {a b c d : Byte} {i j k l : Nat}

theorem ok_bind {α β : Type} (x : α) (f : α → Except Fault β) : Except.ok x >>= f = f x := rfl

theorem error_bind {α β : Type} (e : Fault) (f : α → Except Fault β) : Except.error e >>= f = .error e := rfl

theorem charAt_eq_ok_iff : charAt input i = .ok c ↔ input[i]? = some c ∨ i = input.length ∧ c = 0 := by
  rcases lt_trichotomy i input.length with lt | rfl | gt
  · simp [charAt, List.getElem?_append_left lt, lt, lt.ne]
  · simp [charAt, eq_comm]
  · have outside : (input ++ [0])[i]? = none := by simp; omega
    simp [charAt, outside, gt.ne', gt.le]

theorem exists_charAt (le : i ≤ input.length) : ∃ c, charAt input i = .ok c := by
  rcases Nat.lt_or_eq_of_le le with lt | rfl
  · exact ⟨input[i], charAt_eq_ok_iff.2 (.inl (List.getElem?_eq_getElem lt))⟩
  · exact ⟨0, charAt_eq_ok_iff.2 (.inr ⟨rfl, rfl⟩)⟩

theorem decodeAt_of_lt (lt : c < 123) : ∃ v, decodeAt c = .ok v := by
  have bound : charIndex c < 123 := by
    revert c
    apply forall_byte
    decide +kernel
  have length : decodeTable.length = 123 := by simp [decodeTable]
  cases found : decodeTable[charIndex c]? with
  | none =>
    rw [List.getElem?_eq_none_iff, length] at found
    omega
  | some v => exact ⟨v, by rw [decodeAt, found]⟩

theorem lt_of_isBase64 (base64 : isBase64 c) : c < 123 := by
  revert c
  apply forall_byte
  decide +kernel

structure CheckedRead (input : List Byte) (i : Nat) (c : Byte) (v : Nat) : Prop where
  char : input[i]? = some c
  base64 : isBase64 c
  value : decodeAt c = .ok v

namespace CheckedRead
variable {v : Nat} (read : CheckedRead input i c v)
include read

theorem charAt : charAt input i = .ok c := charAt_eq_ok_iff.2 (.inl read.char)

theorem checkedAt : checkedAt input i = .ok c := by
  rw [Base64.checkedAt, read.charAt, ok_bind, read.base64]
  rfl

theorem ne_pad : c ≠ pad := by
  rintro rfl
  exact absurd read.base64 (by decide)

theorem lt_length : i < input.length := (List.getElem?_eq_some_iff.1 read.char).1

end CheckedRead

theorem char_of_pad (read : charAt input i = .ok pad) : input[i]? = some pad := by
  rcases charAt_eq_ok_iff.1 read with here | ⟨-, zero⟩
  · exact here
  · exact absurd zero (by decide)

theorem checkedAt_cases (le : i ≤ input.length) :
    checkedAt input i = .error .check ∨ ∃ c v, CheckedRead input i c v := by
  obtain ⟨c, read⟩ := exists_charAt le
  cases base64 : isBase64 c with
  | false =>
    left
    rw [checkedAt, read, ok_bind, base64]
    rfl
  | true =>
    right
    obtain ⟨v, value⟩ := decodeAt_of_lt (lt_of_isBase64 base64)
    rcases charAt_eq_ok_iff.1 read with here | ⟨-, rfl⟩
    · exact ⟨c, v, here, base64, value⟩
    · exact absurd base64 (by decide)

section
variable (first : CheckedRead input s.inIdx a i) (readB : charAt input (s.inIdx + 1) = .ok b)
  (valueB : decodeAt b = .ok j)

include first readB valueB

theorem decodeGroup_one (readC : charAt input (s.inIdx + 2) = .ok pad) :
    decodeGroup input s = .ok (s.put 2 ((i * 2 ^ 18 + j * 2 ^ 12) / 2 ^ 16 % 256)) := by
  simp only [decodeGroup, first.checkedAt, first.value, readB, valueB, ok_bind, readC,
    Decoding.put, first_byte, Nat.shiftLeft_eq, if_true]
  rfl

theorem decodeGroup_third_fails {e : Byte} (readC : charAt input (s.inIdx + 2) = .ok e)
    (ne : e ≠ pad) (failed : checkedAt input (s.inIdx + 2) = .error .check) :
    decodeGroup input s = .error .check := by
  simp only [decodeGroup, first.checkedAt, first.value, readB, valueB, ok_bind, readC,
    Decoding.put, ne, if_false, failed, error_bind]

variable (third : CheckedRead input (s.inIdx + 2) c k)

include third

theorem decodeGroup_two (readD : charAt input (s.inIdx + 3) = .ok pad) :
    decodeGroup input s = .ok ((s.put 2 ((i * 2 ^ 18 + j * 2 ^ 12) / 2 ^ 16 % 256)).put 1
      ((i * 2 ^ 18 + j * 2 ^ 12 + k * 2 ^ 6) / 2 ^ 8 % 256)) := by
  simp only [decodeGroup, first.checkedAt, first.value, readB, valueB, ok_bind, third.charAt,
    Decoding.put, first_byte, second_byte, Nat.shiftLeft_eq, third.ne_pad, if_false,
    third.checkedAt, third.value, readD, if_true]
  rfl

theorem decodeGroup_fourth_fails {e : Byte} (readD : charAt input (s.inIdx + 3) = .ok e)
    (ne : e ≠ pad) (failed : checkedAt input (s.inIdx + 3) = .error .check) :
    decodeGroup input s = .error .check := by
  simp only [decodeGroup, first.checkedAt, first.value, readB, valueB, ok_bind, third.charAt,
    Decoding.put, third.ne_pad, if_false, third.checkedAt, third.value, readD, ne, failed,
    error_bind]

theorem decodeGroup_three (fourth : CheckedRead input (s.inIdx + 3) d l) :
    decodeGroup input s = .ok (((s.put 2 ((i * 2 ^ 18 + j * 2 ^ 12) / 2 ^ 16 % 256)).put 1
      ((i * 2 ^ 18 + j * 2 ^ 12 + k * 2 ^ 6) / 2 ^ 8 % 256)).put 1
      ((i * 2 ^ 18 + j * 2 ^ 12 + k * 2 ^ 6 + l) % 256)) := by
  simp only [decodeGroup, first.checkedAt, first.value, readB, valueB, ok_bind, third.charAt,
    Decoding.put, first_byte, second_byte, and_byte, Nat.shiftLeft_eq, third.ne_pad, if_false,
    third.checkedAt, third.value, fourth.charAt, fourth.ne_pad, fourth.checkedAt, fourth.value]
  rfl

end

theorem decodeGroups_one {s' : Decoding} (decoded : decodeGroup input s = .ok s') (n : Nat) :
    decodeGroups input (n + 1) s = decodeGroups input n s' := by
  rw [decodeGroups, decoded]
  rfl

theorem ofNat_of_eq {n : Nat} (eq : n = a.toNat) : UInt8.ofNat n = a := by
  rw [eq, UInt8.ofNat_toNat]

theorem Letter.at (letter : Letter c k) (here : input[i]? = some c) : CheckedRead input i c k :=
  ⟨here, letter.base64, letter.value⟩

theorem char_of_drop (unread : input.drop i = text) (m : Nat) : input[i + m]? = text[m]? := by
  rw [← unread, List.getElem?_drop]

theorem charAt_of_drop (unread : input.drop i = text) {m : Nat} (here : text[m]? = some c) :
    charAt input (i + m) = .ok c :=
  charAt_eq_ok_iff.2 (.inl ((char_of_drop unread m).trans here))

theorem Groups.decode {bytes : List Byte} {n : Nat} (groups : Groups bytes text)
    (unread : input.drop s.inIdx = text) (count : text.length = 4 * n) :
    ∃ s', decodeGroups input n s = .ok s' ∧ s'.output = s.output ++ bytes := by
  induction groups generalizing s n with
  | nil =>
    obtain rfl : n = 0 := by simpa using count.symm
    exact ⟨s, rfl, (List.append_nil _).symm⟩
  | @one a p q first second =>
    have reads := char_of_drop unread
    have group := decodeGroup_one (first.at (reads 0)) (charAt_of_drop unread rfl) second.value
      (charAt_of_drop unread rfl)
    have ha : a.toNat < 256 := a.toNat_lt
    obtain rfl : n = 1 := Nat.eq_of_mul_eq_mul_left (by decide : 0 < 4) count.symm
    refine ⟨_, decodeGroups_one group 0, ?_⟩
    simp only [Decoding.put]
    rw [ofNat_of_eq (a := a) (by omega)]
  | @two a b p q r first second third =>
    have reads := char_of_drop unread
    have group := decodeGroup_two (first.at (reads 0)) (charAt_of_drop unread rfl) second.value
      (third.at (reads 2)) (charAt_of_drop unread rfl)
    have ha : a.toNat < 256 := a.toNat_lt
    have hb : b.toNat < 256 := b.toNat_lt
    obtain rfl : n = 1 := Nat.eq_of_mul_eq_mul_left (by decide : 0 < 4) count.symm
    refine ⟨_, decodeGroups_one group 0, ?_⟩
    simp only [Decoding.put]
    rw [ofNat_of_eq (a := a) (by omega), ofNat_of_eq (a := b) (by omega), List.append_assoc]
    rfl
  | @three a b c p q r t bytes text first second third fourth rest ih =>
    have reads := char_of_drop unread
    have group := decodeGroup_three (first.at (reads 0)) (charAt_of_drop unread rfl) second.value
      (third.at (reads 2)) (fourth.at (reads 3))
    have ha : a.toNat < 256 := a.toNat_lt
    have hb : b.toNat < 256 := b.toNat_lt
    have hc : c.toNat < 256 := c.toNat_lt
    simp only [Decoding.put] at group
    rw [ofNat_of_eq (a := a) (by omega), ofNat_of_eq (a := b) (by omega),
      ofNat_of_eq (a := c) (by omega)] at group
    simp only [List.length_cons] at count
    obtain ⟨n, rfl⟩ : ∃ m, n = m + 1 := ⟨n - 1, by omega⟩
    have tail : input.drop (s.inIdx + 2 + 1 + 1) = text := by
      rw [Nat.add_assoc, Nat.add_assoc, ← List.drop_drop, unread]
      rfl
    obtain ⟨s', decoded, output⟩ :=
      ih (s := ⟨s.inIdx + 2 + 1 + 1, s.output ++ [a] ++ [b] ++ [c]⟩) (n := n) tail (by omega)
    refine ⟨s', (decodeGroups_one group n).trans decoded, ?_⟩
    rw [output]
    simp

end

theorem base64_round_trip (bytes : List Byte) : ∃ text, base64Encode bytes = some text ∧
      text.length = 4 * ((bytes.length + 2) / 3) ∧
      (∃ body n, text = body ++ List.replicate n pad ∧ n ≤ 2 ∧ ∀ c ∈ body, isBase64 c) ∧
      base64Decode text = .ok (bytes ++ [0], bytes.length) := by
  obtain ⟨text, encoded, groups⟩ := groups_of_encode bytes
  obtain ⟨s, decoded, output⟩ := groups.decode (s := ⟨0, []⟩) (List.drop_zero (l := text)) groups.length
  refine ⟨text, encoded, groups.length, groups.alphabet, ?_⟩
  rw [base64Decode, show (text.length + 3) / 4 = (bytes.length + 2) / 3 by rw [groups.length]; omega,
    decoded, ok_bind, output]
  rfl

/-- Where a group begins with a Base64 character, a character follows that `decode_table` has an
entry for. -/
def SecondsInTable (input : List Byte) : Prop :=
  ∀ k a, input[4 * k]? = some a → isBase64 a → ∃ b, input[4 * k + 1]? = some b ∧ b < 123

structure AtGroup (input : List Byte) (s : Decoding) : Prop where
  le : s.inIdx ≤ input.length
  start : 4 ∣ s.inIdx ∨ input[s.inIdx]? = some pad

section
variable {input : List Byte} {s : Decoding}

theorem AtGroup.decodeGroup (start : AtGroup input s) (seconds : SecondsInTable input) :
    decodeGroup input s = .error .check ∨ ∃ s', decodeGroup input s = .ok s' ∧ AtGroup input s' ∧
        s'.output.length ≤ s.output.length + 3 := by
  rcases checkedAt_cases start.le with failed | ⟨a, i, first⟩
  · left
    rw [Base64.decodeGroup, failed, error_bind]
  obtain ⟨m, aligned⟩ : 4 ∣ s.inIdx := by
    rcases start.start with aligned | padded
    · exact aligned
    · rw [first.char, Option.some.injEq] at padded
      exact absurd padded first.ne_pad
  obtain ⟨b, second, lt⟩ := seconds m a (aligned ▸ first.char) first.base64
  rw [← aligned] at second
  obtain ⟨j, valueB⟩ := decodeAt_of_lt lt
  have readB := charAt_eq_ok_iff.2 (.inl second)
  have leC : s.inIdx + 2 ≤ input.length := (List.getElem?_eq_some_iff.1 second).1
  obtain ⟨c, readC⟩ := exists_charAt leC
  by_cases padC : c = pad
  · right
    subst padC
    refine ⟨_, decodeGroup_one first readB valueB readC, ⟨leC, .inr (char_of_pad readC)⟩, ?_⟩
    simp [Decoding.put]
  rcases checkedAt_cases leC with failed | ⟨c, k, third⟩
  · exact .inl (decodeGroup_third_fails first readB valueB readC padC failed)
  have leD : s.inIdx + 3 ≤ input.length := third.lt_length
  obtain ⟨d, readD⟩ := exists_charAt leD
  by_cases padD : d = pad
  · right
    subst padD
    refine ⟨_, decodeGroup_two first readB valueB third readD, ⟨leD, .inr (char_of_pad readD)⟩, ?_⟩
    simp [Decoding.put]
  rcases checkedAt_cases leD with failed | ⟨d, l, fourth⟩
  · exact .inl (decodeGroup_fourth_fails first readB valueB third readD padD failed)
  · right
    refine ⟨_, decodeGroup_three first readB valueB third fourth, ⟨fourth.lt_length, .inl ?_⟩, ?_⟩
    · simp only [Decoding.put]
      omega
    · simp [Decoding.put]

theorem AtGroup.decodeGroups (start : AtGroup input s) (seconds : SecondsInTable input) (n : Nat) :
    decodeGroups input n s = .error .check ∨
      ∃ s', decodeGroups input n s = .ok s' ∧ s'.output.length ≤ s.output.length + 3 * n := by
  induction n generalizing s with
  | zero => exact .inr ⟨s, rfl, Nat.le_refl _⟩
  | succ n ih =>
    rcases start.decodeGroup seconds with failed | ⟨s₁, decoded, next, wrote⟩
    · left
      rw [Base64.decodeGroups, failed, error_bind]
    rw [decodeGroups_one decoded]
    rcases ih next with failed | ⟨s', rest, total⟩
    · exact .inl failed
    · exact .inr ⟨s', rest, by omega⟩

end

end Prpc.Base64
