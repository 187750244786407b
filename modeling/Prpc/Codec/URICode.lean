import Prpc.Lib.Bytes

/-!
`URICode::encode` and `decode` on the bytes of a `std::string`. A `char` is signed, so the index of
a table lookup is an `int`; `none` is a failed check or a read outside of the table.
-/

namespace Prpc.URICode
open Lib

def hex : List Byte :=
  ['0', '1', '2', '3', '4', '5', '6', '7', '8', '9', 'A', 'B', 'C', 'D', 'E', 'F', '\x00'].map
    Char.toUInt8

def hexAt (i : Int) : Option Byte := if i < 0 then none else hex[i.toNat]?

def isalnum (c : Byte) : Bool := inRange '0' '9' c || inRange 'A' 'Z' c || inRange 'a' 'z' c

def unreserved (c : Byte) : Bool := isalnum c || ['_', '-', '.', '~'].any (·.toUInt8 == c)

def highIndex (c : Byte) : Int := (c.toInt8.toInt32 >>> 4).toInt

def lowIndex (c : Byte) : Int := (c.toInt8.toInt32 &&& 0x0F).toInt

def percent : Byte := '%'.toUInt8

def encode : List Byte → Option (List Byte)
  | [] => some []
  | c :: uri =>
    if unreserved c then do
      return c :: (← encode uri)
    else do
      return percent :: (← hexAt (highIndex c)) :: (← hexAt (lowIndex c)) :: (← encode uri)

def letterToHex (c : Byte) : Option Byte :=
  if inRange 'A' 'F' c then some (c + 10 - 'A'.toUInt8)
  else if inRange 'a' 'f' c then some (c + 10 - 'a'.toUInt8)
  else if inRange '0' '9' c then some (c - '0'.toUInt8)
  else none

def decode : List Byte → Option (List Byte)
  | [] => some []
  | c :: uri =>
    if c = percent then
      match uri with
      | h :: l :: uri => do
        let h ← letterToHex h
        let l ← letterToHex l
        return (h <<< 4 ||| l) :: (← decode uri)
      | _ => none
    else do
      return c :: (← decode uri)

/-- The indices at which `encode` reads `_hex`, in order. -/
def hexReads (uri : List Byte) : List Int :=
  (uri.filter (!unreserved ·)).flatMap fun c => [highIndex c, lowIndex c]

def upperHex (c : Byte) : Bool := inRange '0' '9' c || inRange 'A' 'F' c

inductive Encoded : List Byte → Prop
  | nil : Encoded []
  | unreserved {c : Byte} {uri : List Byte} (plain : unreserved c) (rest : Encoded uri) : Encoded (c :: uri)
  | triplet {h l : Byte} {uri : List Byte} (high : upperHex h) (low : upperHex l)
    (rest : Encoded uri) : Encoded (percent :: h :: l :: uri)

variable {c : Byte}

theorem ne_percent_of_unreserved (plain : unreserved c) : c ≠ percent := by
  rintro rfl
  revert plain
  decide

theorem lowIndex_eq (c : Byte) : lowIndex c = c.toNat % 16 := by
  revert c
  apply forall_byte
  decide +kernel

theorem highIndex_eq (ascii : c < 128) : highIndex c = c.toNat / 16 := by
  revert c
  apply forall_byte
  decide +kernel

theorem highIndex_neg (high : 128 ≤ c) : highIndex c < 0 := by
  revert c
  apply forall_byte
  decide +kernel

theorem not_unreserved (high : 128 ≤ c) : unreserved c = false := by
  revert c
  apply forall_byte
  decide +kernel

theorem nibbles (c : Byte) : UInt8.ofNat (c.toNat / 16) <<< 4 ||| UInt8.ofNat (c.toNat % 16) = c := by
  revert c
  apply forall_byte
  decide +kernel

theorem hexAt_digit {n : Nat} (lt : n < 16) :
    ∃ d, hexAt n = some d ∧ upperHex d ∧ letterToHex d = some (UInt8.ofNat n) := by
  have all : ∀ n : Fin 16, (hexAt (n : Nat)).any fun d =>
      upperHex d && letterToHex d == some (UInt8.ofNat n) := by decide +kernel
  obtain ⟨d, read, digit⟩ := (Option.any_eq_true ..).1 (all ⟨n, lt⟩)
  rw [Bool.and_eq_true, beq_iff_eq] at digit
  exact ⟨d, read, digit⟩

theorem decode_plain (ne : c ≠ percent) (uri : List Byte) :
    decode (c :: uri) = (decode uri).map (c :: ·) := by
  rw [decode.eq_def]
  simp only [if_neg ne]
  cases decode uri <;> rfl

theorem decode_triplet {c h l : Byte} (high : letterToHex h = some (UInt8.ofNat (c.toNat / 16)))
    (low : letterToHex l = some (UInt8.ofNat (c.toNat % 16))) (uri : List Byte) :
    decode (percent :: h :: l :: uri) = (decode uri).map (c :: ·) := by
  simp only [decode, if_pos, high, low, Option.bind_eq_bind, Option.bind_some, nibbles]
  cases decode uri <;> rfl

theorem hexReads_bounded_iff (uri : List Byte) :
    (∀ i ∈ hexReads uri, 0 ≤ i ∧ i < 16) ↔ ∀ c ∈ uri, c < 128 := by
  simp only [hexReads, List.mem_flatMap, List.mem_filter]
  constructor
  · intro bounded c mem
    by_contra high
    have high : 128 ≤ c := UInt8.not_lt.1 high
    have reads := bounded (highIndex c) ⟨c, ⟨mem, by simp [not_unreserved high]⟩, by simp⟩
    exact absurd (highIndex_neg high) (Int.not_lt.2 reads.1)
  · rintro ascii i ⟨c, ⟨mem, -⟩, read⟩
    have bound : c.toNat < 256 := c.toNat_lt
    simp only [List.mem_cons, List.not_mem_nil, or_false] at read
    rcases read with rfl | rfl
    · rw [highIndex_eq (ascii c mem)]
      omega
    · rw [lowIndex_eq]
      omega

theorem decode_of_encode {uri : List Byte} (ascii : ∀ c ∈ uri, c < 128) :
    ∃ out, encode uri = some out ∧ Encoded out ∧ decode out = some uri := by
  induction uri with
  | nil => exact ⟨[], rfl, .nil, rfl⟩
  | cons c uri ih =>
    obtain ⟨out, encoded, shape, decoded⟩ := ih fun c mem => ascii c (List.mem_cons_of_mem _ mem)
    cases plain : unreserved c with
    | true =>
      refine ⟨c :: out, ?_, .unreserved plain shape, ?_⟩
      · simp [encode, plain, encoded]
      · rw [decode_plain (ne_percent_of_unreserved plain), decoded]
        rfl
    | false =>
      have bound : c.toNat < 256 := c.toNat_lt
      obtain ⟨h, readHigh, upperHigh, high⟩ := hexAt_digit (n := c.toNat / 16) (by omega)
      obtain ⟨l, readLow, upperLow, low⟩ := hexAt_digit (n := c.toNat % 16) (by omega)
      refine ⟨percent :: h :: l :: out, ?_, .triplet upperHigh upperLow shape, ?_⟩
      · have head : c < 128 := ascii c (List.mem_cons_self ..)
        have first : hexAt (highIndex c) = some h := by
          rw [highIndex_eq head]
          exact_mod_cast readHigh
        have second : hexAt (lowIndex c) = some l := by
          rw [lowIndex_eq]
          exact_mod_cast readLow
        simp [encode, plain, first, second, encoded]
      · rw [decode_triplet high low, decoded]
        rfl

theorem percent_coding_round_trip {uri : List Byte} (ascii : ∀ c ∈ uri, c < 128) :
    (∀ i ∈ hexReads uri, 0 ≤ i ∧ i < 16) ∧
      ∃ out, encode uri = some out ∧ Encoded out ∧ decode out = some uri :=
  ⟨(hexReads_bounded_iff uri).2 ascii, decode_of_encode ascii⟩

theorem percent_coding_of_slash : decode [37, 50, 70] = some [47] ∧
    ∃ out, encode [47] = some out ∧ Encoded out ∧ decode out = some [47] :=
  ⟨by decide, (@percent_coding_round_trip [47] (by decide +kernel)).2⟩

/-- The byte 128 is read as -128, and `_hex` at -8. -/
theorem percent_coding_leaves_table : -8 ∈ hexReads [128] ∧ encode [128] = none := by
  decide

end Prpc.URICode
