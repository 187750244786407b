import Prpc.Common.Numerals

/-!
`pico_lexical_cast` from a `char*` to the fixed-width integers and to `bool`: the libc function of
the width is run on the text, and the checks around it decide whether its result counts. A text is
what lies at the pointer; it ends with the list or at the first zero byte.
-/

namespace Prpc

inductive Width where
  | w8 | w16 | w32 | w64
  deriving DecidableEq

def Width.bytes : Width → Nat
  | .w8 => 1
  | .w16 => 2
  | .w32 => 4
  | .w64 => 8

abbrev Width.bits (w : Width) : Nat := 8 * w.bytes

/-- What follows "parse string to T failed, " in the exception. -/
inductive CastError where
  | leadingWhitespace
  | strlenTooShort
  | isNegative
  | emptyString
  | unusedChar
  | outOfRange
  deriving DecidableEq

def strtoul (s : List Char) : Strtol :=
  let (neg, body) := takeSign (s.dropWhile isSpace)
  let digits := body.takeWhile Char.isDigit
  if digits = [] then
    ⟨0, s, false⟩
  else
    let n : Int := Nat.ofDigitChars 10 digits 0
    let pos := body.dropWhile Char.isDigit
    if 2 ^ 64 ≤ n then ⟨2 ^ 64 - 1, pos, true⟩ else ⟨(if neg then -n else n) % 2 ^ 64, pos, false⟩

/-- Runs `func` on the first `num` characters only, unless the next one ends the number anyway. -/
def strntox (func : List Char → Strtol) (s : List Char) (num : Nat) : Strtol :=
  if 0 < num ∧ s[num]?.any (fun c => !isSpace c) then
    let r := func (s.take num)
    { r with pos := r.pos ++ s.drop num }
  else
    func s

def stringPrecheck (s : List Char) (count : Nat) : Except CastError Unit :=
  if s.head?.any isSpace then .error .leadingWhitespace
  else if 0 < count ∧ s.length < count then .error .strlenTooShort
  else .ok ()

def stringPrechecku (s : List Char) (count : Nat) : Except CastError Unit := do
  stringPrecheck s count
  if s.head? = some '-' then .error .isNegative else .ok ()

def stringAftcheck (s : List Char) (r : Strtol) (count : Nat) : Except CastError Unit :=
  let used := s.length - r.pos.length
  if used = 0 then .error .emptyString
  else if 0 < count ∧ used ≠ count ∨ count = 0 ∧ r.pos ≠ [] then .error .unusedChar
  else if r.erange then .error .outOfRange
  else .ok ()

def rangeCheck (low high num : Int) : Except CastError Unit :=
  if num < low ∨ high < num then .error .outOfRange else .ok ()

def innerLexicalCast (precheck : List Char → Nat → Except CastError Unit)
    (func : List Char → Strtol) (ret : Int → Int) (range : Int → Except CastError Unit)
    (text : List Char) (count : Nat) : Except CastError Int := do
  let s := cStr text
  precheck s count
  let r := strntox func s count
  stringAftcheck s r count
  range (ret r.value)
  return ret r.value

def uint32 (x : Int) : Int := x % 2 ^ 32

def castUint8 := innerLexicalCast stringPrechecku strtoul uint32 (rangeCheck 0 (2 ^ 8 - 1))
def castUint16 := innerLexicalCast stringPrechecku strtoul uint32 (rangeCheck 0 (2 ^ 16 - 1))
def castUint32 := innerLexicalCast stringPrechecku strtoul uint32 (fun _ => .ok ())
def castUint64 := innerLexicalCast stringPrechecku strtoul id (fun _ => .ok ())
def castInt8 := innerLexicalCast stringPrecheck strtol int32 (rangeCheck (-2 ^ 7) (2 ^ 7 - 1))
def castInt32 := innerLexicalCast stringPrecheck strtol int32 (fun _ => .ok ())
def castInt64 := innerLexicalCast stringPrecheck strtol id (fun _ => .ok ())

def castInt16 (text : List Char) (count : Nat) : Except CastError Int := do
  let s := cStr text
  stringPrecheck s count
  let r := strntox strtol s count
  rangeCheck (-2 ^ 15) (2 ^ 15 - 1) (int32 r.value)
  stringAftcheck s r count
  return int32 r.value

def picoLexicalCast (signed : Bool) (width : Width) : List Char → Nat → Except CastError Int :=
  match signed, width with
  | false, .w8 => castUint8
  | false, .w16 => castUint16
  | false, .w32 => castUint32
  | false, .w64 => castUint64
  | true, .w8 => castInt8
  | true, .w16 => castInt16
  | true, .w32 => castInt32
  | true, .w64 => castInt64

def picoLexicalCastBool (text : List Char) (count : Nat) : Option Bool :=
  let s := cStr text
  let actualLen := if 0 < count then count else s.length
  if actualLen = 1 then
    some (s.take 1 ≠ ['0'])
  else if actualLen = 4 ∧ (s.take 4 = "True".toList ∨ s.take 4 = "true".toList) then
    some true
  else if actualLen = 5 ∧ (s.take 5 = "False".toList ∨ s.take 5 = "false".toList) then
    some false
  else
    none

theorem strtoul_toText_append {x : Int} (low : 0 ≤ x) (high : x < 2 ^ 64) {tail : List Char}
    (stop : tail.head?.any Char.isDigit = false) :
    strtoul (toText x ++ tail) = ⟨x, tail, false⟩ := by
  have all := isDigit_toDigits x.natAbs
  have value := ofDigitChars_toDigits x.natAbs
  have small : ¬ (2 ^ 64 ≤ (x.natAbs : Int)) := by omega
  rw [toText, if_neg (by omega)]
  simp only [strtoul, takeSign_digits all Nat.toDigits_ne_nil, takeWhile_digits all stop,
    dropWhile_digits all stop, if_neg Nat.toDigits_ne_nil, Bool.false_eq_true, if_false, value,
    if_neg small, Strtol.mk.injEq, and_true]
  omega

section
variable {x : Int} {tail : List Char}

theorem cStr_toText_append (x : Int) (tail : List Char) :
    cStr (toText x ++ ' ' :: tail) = toText x ++ ' ' :: cStr tail := by
  have noZero : ∀ c ∈ toText x, decide (c ≠ Char.ofNat 0) = true := by
    intro c mem
    rcases mem_toText mem with rfl | digit
    · decide
    · have other := ne_of_isDigit digit (by decide : (Char.ofNat 0).isDigit = false)
      simpa using other
  rw [cStr, List.takeWhile_append_of_pos noZero, List.takeWhile_cons, if_pos (by decide)]
  rfl

theorem head?_toText (x : Int) : ∃ c, (toText x).head? = some c ∧ (c = '-' ∨ c.isDigit = true) := by
  obtain ⟨c, cs, eq⟩ := List.exists_cons_of_ne_nil (toText_ne_nil x)
  have mem : c ∈ toText x := by simp [eq]
  exact ⟨c, by rw [eq, List.head?_cons], mem_toText mem⟩

theorem stringPrecheck_toText (x : Int) (tail : List Char) :
    stringPrecheck (toText x ++ tail) (toText x).length = .ok () := by
  obtain ⟨c, head, kind⟩ := head?_toText x
  have noSpace : isSpace c = false := by
    rcases kind with rfl | digit
    · decide
    · exact not_isSpace_of_isDigit digit
  rw [stringPrecheck, List.head?_append, head]
  simp [noSpace]

theorem stringPrechecku_toText (low : 0 ≤ x) (tail : List Char) :
    stringPrechecku (toText x ++ tail) (toText x).length = .ok () := by
  have noSign : (toText x ++ tail).head? ≠ some '-' := by
    rw [toText, if_neg (by omega)]
    obtain ⟨c, cs, eq⟩ := List.exists_cons_of_ne_nil
      (Nat.toDigits_ne_nil : Nat.toDigits 10 x.natAbs ≠ [])
    rw [eq]
    rintro ⟨⟩
    exact toDigits_ne_minus _ _ eq
  rw [stringPrechecku, stringPrecheck_toText]
  exact if_neg noSign

theorem stringAftcheck_toText (x : Int) (tail : List Char) :
    stringAftcheck (toText x ++ tail) ⟨x, tail, false⟩ (toText x).length = .ok () := by
  have ne : (toText x).length ≠ 0 := by simpa using toText_ne_nil x
  simp [stringAftcheck, ne]

theorem strntox_toText (func : List Char → Strtol) (x : Int) (tail : List Char) :
    strntox func (toText x ++ ' ' :: tail) (toText x).length = func (toText x ++ ' ' :: tail) := by
  rw [strntox, if_neg]
  rintro ⟨-, other⟩
  rw [List.getElem?_append_right (le_refl _), Nat.sub_self, List.getElem?_cons_zero] at other
  exact absurd other (by decide)

theorem innerLexicalCast_toText {precheck : List Char → Nat → Except CastError Unit}
    {func : List Char → Strtol} {ret : Int → Int} {range : Int → Except CastError Unit}
    (checked : precheck (toText x ++ ' ' :: cStr tail) (toText x).length = .ok ())
    (read : func (toText x ++ ' ' :: cStr tail) = ⟨x, ' ' :: cStr tail, false⟩)
    (fits : ret x = x) (inRange : range x = .ok ()) :
    innerLexicalCast precheck func ret range (toText x ++ ' ' :: tail) (toText x).length = .ok x := by
  simp only [innerLexicalCast, cStr_toText_append, checked, strntox_toText, read,
    stringAftcheck_toText, fits, inRange]
  rfl

end

def InRange (signed : Bool) (width : Width) (x : Int) : Prop :=
  if signed then -2 ^ (width.bits - 1) ≤ x ∧ x < 2 ^ (width.bits - 1)
  else 0 ≤ x ∧ x < 2 ^ width.bits

theorem picoLexicalCast_toText {signed : Bool} {width : Width} {x : Int}
    (inRange : InRange signed width x) (tail : List Char) :
    picoLexicalCast signed width (toText x ++ ' ' :: tail) (toText x).length = .ok x := by
  have stop : (' ' :: cStr tail).head?.any Char.isDigit = false := rfl
  cases signed with
  | false =>
    have range : 0 ≤ x ∧ x < 2 ^ width.bits := inRange
    have bound : x < 2 ^ 64 := by
      cases width <;> simp only [Width.bits, Width.bytes] at range <;> omega
    have checked := stringPrechecku_toText range.1 (' ' :: cStr tail)
    have read := strtoul_toText_append range.1 bound stop
    have fits : x < 2 ^ 32 → uint32 x = x := by
      intro small
      rw [uint32]
      omega
    cases width <;> simp only [Width.bits, Width.bytes] at range
    · apply innerLexicalCast_toText checked read (fits (by omega))
      exact if_neg (by omega)
    · apply innerLexicalCast_toText checked read (fits (by omega))
      exact if_neg (by omega)
    · change castUint32 _ _ = _
      exact innerLexicalCast_toText checked read (fits (by omega)) rfl
    · change castUint64 _ _ = _
      exact innerLexicalCast_toText checked read rfl rfl
  | true =>
    have range : -2 ^ (width.bits - 1) ≤ x ∧ x < 2 ^ (width.bits - 1) := inRange
    have bounds : -2 ^ 63 ≤ x ∧ x < 2 ^ 63 := by
      cases width <;> simp only [Width.bits, Width.bytes] at range <;> omega
    have checked := stringPrecheck_toText x (' ' :: cStr tail)
    have read := strtol_toText_append bounds.1 bounds.2 stop
    cases width <;> simp only [Width.bits, Width.bytes] at range
    · apply innerLexicalCast_toText checked read (int32_of_range (by omega) (by omega))
      exact if_neg (by omega)
    · have fits : rangeCheck (-2 ^ 15) (2 ^ 15 - 1) x = .ok () := if_neg (by omega)
      simp only [picoLexicalCast, castInt16, cStr_toText_append, checked, strntox_toText, read,
        stringAftcheck_toText, int32_of_range (show -2 ^ 31 ≤ x by omega) (by omega), fits]
      rfl
    · change castInt32 _ _ = _
      exact innerLexicalCast_toText checked read (int32_of_range (by omega) (by omega)) rfl
    · change castInt64 _ _ = _
      exact innerLexicalCast_toText checked read rfl rfl

end Prpc
