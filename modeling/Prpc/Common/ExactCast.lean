import Prpc.Common.LexicalCast

/-!
A text denotes an integer if it is an optional sign and at least one digit.
-/

namespace Prpc

inductive Denotes (signed : Bool) : List Char → Int → Prop
  | digits {ds : List Char} (ne : ds ≠ []) (all : ∀ c ∈ ds, c.isDigit = true) :
      Denotes signed ds (Nat.ofDigitChars 10 ds 0)
  | plus {ds : List Char} (ne : ds ≠ []) (all : ∀ c ∈ ds, c.isDigit = true) :
      Denotes signed ('+' :: ds) (Nat.ofDigitChars 10 ds 0)
  | minus {ds : List Char} (ne : ds ≠ []) (all : ∀ c ∈ ds, c.isDigit = true) (minus : signed = true) :
      Denotes signed ('-' :: ds) (-Nat.ofDigitChars 10 ds 0)

def numeral (s : List Char) : Option (Bool × Nat) :=
  let (neg, body) := takeSign s
  if body ≠ [] ∧ body.all Char.isDigit then some (neg, Nat.ofDigitChars 10 body 0) else none

def signedValue (neg : Bool) (n : Nat) : Int := if neg then -n else n

def strtox (convert : Bool → Nat → Int × Bool) (s : List Char) : Strtol :=
  let (neg, body) := takeSign (s.dropWhile isSpace)
  let digits := body.takeWhile Char.isDigit
  if digits = [] then ⟨0, s, false⟩
  else
    let x := convert neg (Nat.ofDigitChars 10 digits 0)
    ⟨x.1, body.dropWhile Char.isDigit, x.2⟩

def convertSigned (neg : Bool) (n : Nat) : Int × Bool :=
  let x := signedValue neg n
  (max (-2 ^ 63) (min x (2 ^ 63 - 1)), x < -2 ^ 63 || 2 ^ 63 ≤ x)

def convertUnsigned (neg : Bool) (n : Nat) : Int × Bool :=
  if 2 ^ 64 ≤ (n : Int) then (2 ^ 64 - 1, true) else (signedValue neg n % 2 ^ 64, false)

theorem strtol_eq_strtox : strtol = strtox convertSigned := rfl

theorem strtoul_eq_strtox : strtoul = strtox convertUnsigned := by
  funext s
  rw [strtoul, strtox]
  simp only [convertUnsigned]
  split
  · rfl
  · split
    · rfl
    · rfl

section
variable {s p rest : List Char} {convert : Bool → Nat → Int × Bool}

theorem dropWhile_isSpace (start : s.head?.any isSpace = false) : s.dropWhile isSpace = s := by
  cases s with
  | nil => rfl
  | cons c cs => rw [List.dropWhile_cons, if_neg (by simpa using start)]

theorem takeSign_append (ne : p ≠ []) (rest : List Char) :
    takeSign (p ++ rest) = ((takeSign p).1, (takeSign p).2 ++ rest) := by
  obtain ⟨c, cs, rfl⟩ := List.exists_cons_of_ne_nil ne
  by_cases minus : c = '-'
  · rw [minus]
    rfl
  · by_cases plus : c = '+'
    · rw [plus]
      rfl
    · simp [takeSign, minus, plus]

theorem takeWhile_stop (body : List Char) (stop : rest.head?.any Char.isDigit = false) :
    (body ++ rest).takeWhile Char.isDigit = body.takeWhile Char.isDigit ∧
      (body ++ rest).dropWhile Char.isDigit = body.dropWhile Char.isDigit ++ rest := by
  induction body with
  | nil => exact ⟨takeWhile_digits nofun stop, dropWhile_digits nofun stop⟩
  | cons c body ih =>
    simp only [List.cons_append, List.takeWhile_cons, List.dropWhile_cons]
    split
    · exact ⟨congrArg _ ih.1, ih.2⟩
    · exact ⟨rfl, rfl⟩

theorem strtox_append (ne : p ≠ []) (start : p.head?.any isSpace = false)
    (stop : rest.head?.any Char.isDigit = false) :
    strtox convert (p ++ rest) = { strtox convert p with pos := (strtox convert p).pos ++ rest } := by
  have start' : (p ++ rest).head?.any isSpace = false := by
    rw [List.head?_append_of_ne_nil p ne]
    exact start
  obtain ⟨taken, left⟩ := takeWhile_stop (takeSign p).2 stop
  simp only [strtox, dropWhile_isSpace start, dropWhile_isSpace start', takeSign_append ne rest, taken, left]
  split
  · rfl
  · rfl

theorem numeral_eq_some {neg : Bool} {n : Nat} (number : numeral s = some (neg, n)) :
    ∃ body, takeSign s = (neg, body) ∧ body ≠ [] ∧ (∀ c ∈ body, c.isDigit = true) ∧ n = Nat.ofDigitChars 10 body 0 := by
  rw [numeral, Option.ite_none_right_eq_some] at number
  obtain ⟨⟨ne, all⟩, value⟩ := number
  cases value
  exact ⟨_, rfl, ne, List.all_eq_true.1 all, rfl⟩

theorem strtox_numeral {neg : Bool} {n : Nat} (start : s.head?.any isSpace = false)
    (number : numeral s = some (neg, n)) : strtox convert s = ⟨(convert neg n).1, [], (convert neg n).2⟩ := by
  obtain ⟨body, sign, ne, all, rfl⟩ := numeral_eq_some number
  have taken : (body ++ []).takeWhile Char.isDigit = body := takeWhile_digits all rfl
  have left : (body ++ []).dropWhile Char.isDigit = [] := dropWhile_digits all rfl
  rw [List.append_nil] at taken left
  simp [strtox, dropWhile_isSpace start, sign, taken, left, if_neg ne]

theorem strtox_other (start : s.head?.any isSpace = false) (ne : s ≠ []) (other : numeral s = none) :
    (strtox convert s).pos ≠ [] := by
  rw [strtox, dropWhile_isSpace start]
  split
  rename_i neg body sign
  dsimp only
  split
  · exact ne
  · rename_i some_digit
    intro (all : body.dropWhile Char.isDigit = [])
    have whole := List.takeWhile_append_dropWhile (p := Char.isDigit) (l := body)
    rw [all, List.append_nil] at whole
    rw [whole] at some_digit
    have digits : body.all Char.isDigit := by
      rw [← whole, List.all_eq_true]
      exact fun c mem => List.mem_takeWhile_imp mem
    simp [numeral, sign, some_digit, digits] at other

theorem ne_nil_of_numeral {x : Bool × Nat} (number : numeral s = some x) : s ≠ [] := by
  rintro rfl
  cases number

theorem stringAftcheck_whole {r : Strtol} (ne : s ≠ []) :
    stringAftcheck s r 0 = .ok () ↔ r.pos = [] ∧ r.erange = false := by
  simp only [stringAftcheck, Nat.lt_irrefl, false_and, false_or, true_and]
  by_cases all : r.pos = []
  · rw [all, List.length_nil, Nat.sub_zero, if_neg (List.length_pos_of_ne_nil ne).ne', if_neg (not_not.2 rfl)]
    simp
  · rw [if_pos all]
    simp only [all, false_and, iff_false]
    split
    · simp
    · simp

theorem stringAftcheck_strtox (start : s.head?.any isSpace = false) :
    stringAftcheck s (strtox convert s) 0 = .ok () ↔
      ∃ neg n, numeral s = some (neg, n) ∧ (convert neg n).2 = false := by
  cases number : numeral s with
  | some x =>
    rw [stringAftcheck_whole (ne_nil_of_numeral number), strtox_numeral start number]
    exact ⟨fun fine => ⟨x.1, x.2, rfl, fine.2⟩, fun ⟨neg, n, eq, fine⟩ => by cases eq; exact ⟨rfl, fine⟩⟩
  | none =>
    refine iff_of_false (fun fine => ?_) nofun
    rcases eq_or_ne s [] with rfl | ne
    · cases fine
    · rw [stringAftcheck_whole ne] at fine
      exact strtox_other start ne number fine.1

theorem denotes_iff {signed : Bool} {x : Int} : Denotes signed s x ↔
      ∃ neg n, numeral s = some (neg, n) ∧ (neg = true → signed = true) ∧ x = signedValue neg n := by
  have made {neg : Bool} {body : List Char} (sign : takeSign s = (neg, body)) (ne : body ≠ [])
      (all : ∀ c ∈ body, c.isDigit = true) : numeral s = some (neg, Nat.ofDigitChars 10 body 0) := by
    rw [numeral, sign]
    exact if_pos ⟨ne, List.all_eq_true.2 all⟩
  constructor
  · intro denotes
    cases denotes with
    | digits ne all =>
      refine ⟨false, _, made (?_ : _ = (false, s)) ne all, nofun, rfl⟩
      have sign := takeSign_digits all ne []
      rw [List.append_nil, dropWhile_isSpace] at sign
      · exact sign
      · obtain ⟨c, cs, rfl⟩ := List.exists_cons_of_ne_nil ne
        exact not_isSpace_of_isDigit (all c (List.mem_cons_self ..))
    | plus ne all => exact ⟨false, _, made rfl ne all, nofun, rfl⟩
    | minus ne all signed => exact ⟨true, _, made rfl ne all, fun _ => signed, rfl⟩
  · rintro ⟨neg, n, number, allowed, rfl⟩
    obtain ⟨body, sign, ne, all, rfl⟩ := numeral_eq_some number
    unfold takeSign at sign
    split at sign
    · cases sign
      exact .minus ne all (allowed rfl)
    · cases sign
      exact .plus ne all
    · cases sign
      exact .digits ne all

theorem Denotes.unique {signed : Bool} {x y : Int} (first : Denotes signed s x) (second : Denotes signed s y) :
    x = y := by
  obtain ⟨neg, n, number, -, rfl⟩ := denotes_iff.1 first
  obtain ⟨neg', n', number', -, rfl⟩ := denotes_iff.1 second
  cases number.symm.trans number'
  rfl

end

theorem andThen_eq_ok {a : Except CastError Unit} {b : Except CastError Int} {v : Int} :
    (do a; b) = .ok v ↔ a = .ok () ∧ b = .ok v := by
  cases a with
  | error e => exact iff_of_false nofun fun both => absurd both.1 (by simp)
  | ok u => exact ⟨fun eq => ⟨rfl, eq⟩, fun both => both.2⟩

section
variable {s text : List Char} {x v : Int}

theorem stringPrecheck_whole : stringPrecheck s 0 = .ok () ↔ s.head?.any isSpace = false := by
  rw [stringPrecheck]
  split
  · rename_i space
    simp [space]
  · rename_i start
    simpa using start

theorem stringPrechecku_whole :
    stringPrechecku s 0 = .ok () ↔ s.head?.any isSpace = false ∧ s.head? ≠ some '-' := by
  rw [stringPrechecku, ← stringPrecheck_whole]
  cases stringPrecheck s 0 with
  | error e =>
    refine iff_of_false (fun eq => ?_) fun both => ?_
    · cases eq
    · cases both.1
  | ok u =>
    split
    · refine iff_of_false (fun eq => ?_) fun both => both.2 ‹_›
      cases eq
    · exact iff_of_true rfl ⟨rfl, ‹_›⟩

theorem head?_of_numeral {neg : Bool} {n : Nat} (number : numeral s = some (neg, n)) :
    s.head?.any isSpace = false ∧ (neg = true ↔ s.head? = some '-') := by
  obtain ⟨body, sign, ne, all, -⟩ := numeral_eq_some number
  unfold takeSign at sign
  split at sign
  · cases sign
    exact ⟨rfl, iff_of_true rfl rfl⟩
  · cases sign
    exact ⟨rfl, iff_of_false nofun (by simp)⟩
  · rename_i minus _
    cases sign
    obtain ⟨c, cs, rfl⟩ := List.exists_cons_of_ne_nil ne
    refine ⟨not_isSpace_of_isDigit (all c (List.mem_cons_self ..)), iff_of_false nofun fun head => ?_⟩
    rw [List.head?_cons, Option.some.injEq] at head
    exact minus cs (by rw [head])

theorem reads_signed :
    (stringPrecheck s 0 = .ok () ∧ stringAftcheck s (strtol s) 0 = .ok () ∧ x = (strtol s).value) ↔
      Denotes true s x ∧ InRange true .w64 x := by
  have convert {neg : Bool} {n : Nat} : (convertSigned neg n).2 = false ↔ InRange true .w64 (signedValue neg n) := by
    simp [convertSigned, InRange, Width.bits, Width.bytes]
  have value {neg : Bool} {n : Nat} (fits : InRange true .w64 (signedValue neg n)) :
      (convertSigned neg n).1 = signedValue neg n := by
    simp only [InRange, Width.bits, Width.bytes, if_true] at fits
    simp only [convertSigned]
    omega
  rw [stringPrecheck_whole, strtol_eq_strtox, denotes_iff]
  constructor
  · rintro ⟨start, fine, rfl⟩
    obtain ⟨neg, n, number, range⟩ := (stringAftcheck_strtox start).1 fine
    rw [convert] at range
    rw [strtox_numeral start number, value range]
    exact ⟨⟨neg, n, number, fun _ => rfl, rfl⟩, range⟩
  · rintro ⟨⟨neg, n, number, -, rfl⟩, range⟩
    have start := (head?_of_numeral number).1
    refine ⟨start, (stringAftcheck_strtox start).2 ⟨neg, n, number, convert.2 range⟩, ?_⟩
    rw [strtox_numeral start number, value range]

theorem reads_unsigned :
    (stringPrechecku s 0 = .ok () ∧ stringAftcheck s (strtoul s) 0 = .ok () ∧ x = (strtoul s).value) ↔
      Denotes false s x ∧ InRange false .w64 x := by
  have convert {n : Nat} : (convertUnsigned false n).2 = false ↔ InRange false .w64 n := by
    simp only [convertUnsigned, InRange, Width.bits, Width.bytes]
    split
    · simp
      omega
    · simp
      omega
  have value {n : Nat} (fits : InRange false .w64 n) : (convertUnsigned false n).1 = n := by
    simp only [InRange, Width.bits, Width.bytes, Bool.false_eq_true, if_false] at fits
    simp only [convertUnsigned, signedValue, Bool.false_eq_true, if_false]
    rw [if_neg (by omega)]
    omega
  rw [stringPrechecku_whole, strtoul_eq_strtox, denotes_iff]
  constructor
  · rintro ⟨⟨start, plain⟩, fine, rfl⟩
    obtain ⟨neg, n, number, range⟩ := (stringAftcheck_strtox start).1 fine
    obtain rfl : neg = false := by
      rw [← Bool.not_eq_true]
      exact fun minus => plain ((head?_of_numeral number).2.1 minus)
    rw [convert] at range
    rw [strtox_numeral start number, value range]
    exact ⟨⟨false, n, number, by simp, rfl⟩, range⟩
  · rintro ⟨⟨neg, n, number, plain, rfl⟩, range⟩
    obtain rfl : neg = false := by
      rw [← Bool.not_eq_true]
      exact fun minus => absurd (plain minus) (by simp)
    obtain ⟨start, minus⟩ := head?_of_numeral number
    refine ⟨⟨start, fun head => absurd (minus.2 head) (by simp)⟩,
      (stringAftcheck_strtox start).2 ⟨false, n, number, convert.2 range⟩, ?_⟩
    rw [strtox_numeral start number]
    exact (value range).symm

theorem strntox_whole (func : List Char → Strtol) : strntox func s 0 = func s :=
  if_neg fun both => absurd both.1 (Nat.lt_irrefl 0)

theorem innerLexicalCast_eq_ok {precheck : List Char → Nat → Except CastError Unit} {func : List Char → Strtol}
    {ret : Int → Int} {range : Int → Except CastError Unit} {reads : List Char → Int → Prop}
    (read : ∀ s x, (precheck s 0 = .ok () ∧ stringAftcheck s (func s) 0 = .ok () ∧ x = (func s).value) ↔ reads s x) :
    innerLexicalCast precheck func ret range text 0 = .ok v ↔
      ∃ x, reads (cStr text) x ∧ range (ret x) = .ok () ∧ v = ret x := by
  simp only [innerLexicalCast, strntox_whole, andThen_eq_ok]
  constructor
  · rintro ⟨checked, fine, inRange, value⟩
    exact ⟨_, (read _ _).1 ⟨checked, fine, rfl⟩, inRange, (Except.ok.inj value).symm⟩
  · rintro ⟨x, reads, inRange, rfl⟩
    obtain ⟨checked, fine, rfl⟩ := (read _ _).2 reads
    exact ⟨checked, fine, inRange, rfl⟩

theorem castInt16_eq_ok : castInt16 text 0 = .ok v ↔
    innerLexicalCast stringPrecheck strtol int32 (rangeCheck (-2 ^ 15) (2 ^ 15 - 1)) text 0 = .ok v := by
  simp only [castInt16, innerLexicalCast, andThen_eq_ok]
  rw [and_left_comm (a := rangeCheck ..= _)]

end

def narrow (signed : Bool) : Width → Int → Int
  | .w64 => id
  | _ => if signed then int32 else uint32

theorem rangeCheck_eq_ok {low high x : Int} : rangeCheck low high x = .ok () ↔ low ≤ x ∧ x ≤ high := by
  rw [rangeCheck]
  split
  · exact iff_of_false nofun (by omega)
  · exact iff_of_true rfl (by omega)

variable {x : Int} {width : Width}

theorem inRange_unsigned : InRange false width x ↔ 0 ≤ x ∧ x < 2 ^ width.bits := .rfl

theorem inRange_signed : InRange true width x ↔ -2 ^ (width.bits - 1) ≤ x ∧ x < 2 ^ (width.bits - 1) := .rfl

section
variable {signed : Bool} {width : Width} {text : List Char} {v : Int}

theorem innerLexicalCast_narrow {precheck : List Char → Nat → Except CastError Unit} {func : List Char → Strtol}
    (width : Width) (range : Int → Except CastError Unit)
    (read : ∀ s x, (precheck s 0 = .ok () ∧ stringAftcheck s (func s) 0 = .ok () ∧ x = (func s).value) ↔
      Denotes signed s x ∧ InRange signed .w64 x)
    (same : ∀ x, InRange signed .w64 x →
      (range (narrow signed width x) = .ok () ↔ InRange signed width (narrow signed width x))) :
    innerLexicalCast precheck func (narrow signed width) range text 0 = .ok v ↔
      ∃ x, (Denotes signed (cStr text) x ∧ InRange signed .w64 x) ∧ InRange signed width (narrow signed width x) ∧
        v = narrow signed width x := by
  rw [innerLexicalCast_eq_ok read]
  exact exists_congr fun x => and_congr_right fun reads => and_congr_left fun _ => same x reads.2

theorem picoLexicalCast_eq_ok : picoLexicalCast signed width text 0 = .ok v ↔
      ∃ x, (Denotes signed (cStr text) x ∧ InRange signed .w64 x) ∧ InRange signed width (narrow signed width x) ∧
        v = narrow signed width x := by
  cases signed with
  | false =>
    cases width with
    | w8 =>
      refine innerLexicalCast_narrow .w8 _ (fun _ _ => reads_unsigned) fun x _ => ?_
      rw [rangeCheck_eq_ok, inRange_unsigned, Int.le_sub_one_iff]
      rfl
    | w16 =>
      refine innerLexicalCast_narrow .w16 _ (fun _ _ => reads_unsigned) fun x _ => ?_
      rw [rangeCheck_eq_ok, inRange_unsigned, Int.le_sub_one_iff]
      rfl
    | w32 =>
      refine innerLexicalCast_narrow .w32 (fun _ => .ok ()) (fun _ _ => reads_unsigned) fun x _ => iff_of_true rfl ?_
      exact ⟨Int.emod_nonneg _ (by decide), Int.emod_lt_of_pos _ (by decide)⟩
    | w64 => exact innerLexicalCast_narrow .w64 (fun _ => .ok ()) (fun _ _ => reads_unsigned) fun x fits => iff_of_true rfl fits
  | true =>
    cases width with
    | w8 =>
      refine innerLexicalCast_narrow .w8 _ (fun _ _ => reads_signed) fun x _ => ?_
      rw [rangeCheck_eq_ok, inRange_signed, Int.le_sub_one_iff]
      rfl
    | w16 =>
      refine castInt16_eq_ok.trans (innerLexicalCast_narrow .w16 _ (fun _ _ => reads_signed) fun x _ => ?_)
      rw [rangeCheck_eq_ok, inRange_signed, Int.le_sub_one_iff]
      rfl
    | w32 =>
      refine innerLexicalCast_narrow .w32 (fun _ => .ok ()) (fun _ _ => reads_signed) fun x _ => iff_of_true rfl ?_
      exact ⟨Int.le_bmod (by decide), Int.bmod_lt (by decide)⟩
    | w64 => exact innerLexicalCast_narrow .w64 (fun _ => .ok ()) (fun _ _ => reads_signed) fun x fits => iff_of_true rfl fits

end

theorem narrow_of_inRange {signed : Bool} (inRange : InRange signed width x) :
    narrow signed width x = x ∧ InRange signed .w64 x := by
  cases signed with
  | false =>
    rw [inRange_unsigned] at inRange ⊢
    cases width <;> simp only [Width.bits, Width.bytes] at inRange ⊢
    · exact ⟨Int.emod_eq_of_lt (by omega) (by omega), by omega⟩
    · exact ⟨Int.emod_eq_of_lt (by omega) (by omega), by omega⟩
    · exact ⟨Int.emod_eq_of_lt (by omega) (by omega), by omega⟩
    · exact ⟨rfl, by omega⟩
  | true =>
    rw [inRange_signed] at inRange ⊢
    cases width <;> simp only [Width.bits, Width.bytes] at inRange ⊢
    · exact ⟨int32_of_range (by omega) (by omega), by omega⟩
    · exact ⟨int32_of_range (by omega) (by omega), by omega⟩
    · exact ⟨int32_of_range (by omega) (by omega), by omega⟩
    · exact ⟨rfl, by omega⟩

/-- `pico_lexical_cast` returns exactly the integer that the text denotes, if it is in the range of the type, unless
the text denotes an integer that is out of this range, has 64 bits, and comes into the range when all but its low 32
bits are dropped. -/
theorem picoLexicalCast_exact (signed : Bool) (width : Width) (text : List Char) :
    (∀ n, picoLexicalCast signed width text 0 = .ok n ↔ Denotes signed (cStr text) n ∧ InRange signed width n) ↔
      ¬ ∃ x, Denotes signed (cStr text) x ∧ ¬ InRange signed width x ∧ InRange signed .w64 x ∧
        InRange signed width (narrow signed width x) := by
  constructor
  · rintro exact_ ⟨x, denotes, outside, fits, wraps⟩
    have accepted := (exact_ (narrow signed width x)).1 (picoLexicalCast_eq_ok.2 ⟨x, ⟨denotes, fits⟩, wraps, rfl⟩)
    rw [accepted.1.unique denotes] at accepted
    exact outside accepted.2
  · intro none_wraps n
    rw [picoLexicalCast_eq_ok]
    constructor
    · rintro ⟨x, ⟨denotes, fits⟩, wraps, rfl⟩
      have inRange : InRange signed width x := by
        by_contra outside
        exact none_wraps ⟨x, denotes, outside, fits, wraps⟩
      rw [(narrow_of_inRange inRange).1]
      exact ⟨denotes, inRange⟩
    · rintro ⟨denotes, inRange⟩
      obtain ⟨same, fits⟩ := narrow_of_inRange inRange
      rw [← same] at inRange
      exact ⟨n, ⟨denotes, fits⟩, inRange, same.symm⟩

/-- `2 ^ 32 + 1` is taken for a `uint8_t`, and for an `int8_t`. -/
theorem picoLexicalCast_not_exact :
    Denotes false "4294967297".toList 4294967297 ∧ picoLexicalCast false .w8 "4294967297".toList 0 = .ok 1 ∧
      picoLexicalCast true .w8 "4294967297".toList 0 = .ok 1 :=
  ⟨.digits (by decide) (List.all_eq_true.1 rfl), rfl, rfl⟩

section
variable {s : List Char} {n : Nat}

theorem cStr_take (text : List Char) (n : Nat) : cStr ((cStr text).take n) = (cStr text).take n := by
  rw [cStr, List.takeWhile_eq_self_iff]
  intro c mem
  have inside : c ∈ cStr text := List.mem_of_mem_take mem
  exact List.mem_takeWhile_imp (p := fun c => decide (c ≠ Char.ofNat 0)) inside

theorem head?_take (pos : 0 < n) : (s.take n).head? = s.head? := by
  rw [List.head?_take, if_neg pos.ne']

theorem stringPrecheck_take (pos : 0 < n) (le : n ≤ s.length) :
    stringPrecheck s n = stringPrecheck (s.take n) 0 := by
  simp [stringPrecheck, head?_take pos, Nat.not_lt.2 le]

theorem stringPrechecku_take (pos : 0 < n) (le : n ≤ s.length) :
    stringPrechecku s n = stringPrechecku (s.take n) 0 := by
  rw [stringPrechecku, stringPrecheck_take pos le, stringPrechecku, head?_take pos]

theorem strntox_take {convert : Bool → Nat → Int × Bool} (pos : 0 < n) (le : n ≤ s.length)
    (start : s.head?.any isSpace = false) :
    strntox (strtox convert) s n =
      { strtox convert (s.take n) with pos := (strtox convert (s.take n)).pos ++ s.drop n } := by
  rw [strntox]
  split
  · rfl
  · rename_i in_place
    have ne : s.take n ≠ [] := by
      rw [ne_eq, List.take_eq_nil_iff]
      rintro (rfl | rfl)
      · exact absurd pos (Nat.lt_irrefl 0)
      · exact absurd (pos.trans_le le) (Nat.lt_irrefl 0)
    -- what follows is the end of the text or a blank
    have stop : (s.drop n).head?.any Char.isDigit = false := by
      rw [List.head?_drop]
      cases next : s[n]? with
      | none => rfl
      | some c =>
        have blank : isSpace c = true := by simpa [pos, next] using in_place
        rw [Option.any_some, ← Bool.not_eq_true]
        exact fun digit => absurd blank (by rw [not_isSpace_of_isDigit digit]; decide)
    rw [← strtox_append ne (by rwa [head?_take pos]) stop, List.take_append_drop]

theorem stringAftcheck_take (r : Strtol) (pos : 0 < n) (le : n ≤ s.length) :
    stringAftcheck s { r with pos := r.pos ++ s.drop n } n = stringAftcheck (s.take n) r 0 := by
  have used : s.length - (r.pos ++ s.drop n).length = n - r.pos.length := by
    rw [List.length_append, List.length_drop]
    omega
  have whole : n - r.pos.length = n ↔ r.pos = [] := by
    rw [← List.length_eq_zero_iff]
    omega
  simp only [stringAftcheck, used, List.length_take, min_eq_left le, pos, pos.ne', whole, true_and, false_and, or_false,
    Nat.lt_irrefl, false_or, ne_eq]

end

theorem innerLexicalCast_take {precheck : List Char → Nat → Except CastError Unit}
    {convert : Bool → Nat → Int × Bool} {ret : Int → Int} {range : Int → Except CastError Unit} {text : List Char}
    {n : Nat} (pos : 0 < n) (le : n ≤ (cStr text).length)
    (same : precheck (cStr text) n = precheck ((cStr text).take n) 0)
    (start : precheck ((cStr text).take n) 0 = .ok () → (cStr text).head?.any isSpace = false) :
    innerLexicalCast precheck (strtox convert) ret range text n =
      innerLexicalCast precheck (strtox convert) ret range ((cStr text).take n) 0 := by
  simp only [innerLexicalCast, cStr_take, same]
  cases checked : precheck ((cStr text).take n) 0 with
  | error e => rfl
  | ok u =>
    rw [strntox_take pos le (start checked), strntox_whole, stringAftcheck_take _ pos le]

theorem castInt16_take {text : List Char} {n : Nat} (pos : 0 < n) (le : n ≤ (cStr text).length) :
    castInt16 text n = castInt16 ((cStr text).take n) 0 := by
  simp only [castInt16, cStr_take, stringPrecheck_take pos le, strtol_eq_strtox]
  cases checked : stringPrecheck ((cStr text).take n) 0 with
  | error e => rfl
  | ok u =>
    have start := stringPrecheck_whole.1 checked
    rw [head?_take pos] at start
    rw [strntox_take pos le start, strntox_whole, stringAftcheck_take _ pos le]

theorem picoLexicalCast_take (signed : Bool) (width : Width) {text : List Char} {n : Nat} (pos : 0 < n)
    (le : n ≤ (cStr text).length) :
    picoLexicalCast signed width text n = picoLexicalCast signed width ((cStr text).take n) 0 := by
  cases signed with
  | false =>
    have start (checked : stringPrechecku ((cStr text).take n) 0 = .ok ()) :
        (cStr text).head?.any isSpace = false := by
      rw [← head?_take pos]
      exact (stringPrechecku_whole.1 checked).1
    cases width <;> rw [picoLexicalCast]
    · rw [castUint8, strtoul_eq_strtox, innerLexicalCast_take pos le (stringPrechecku_take pos le) start]
    · rw [castUint16, strtoul_eq_strtox, innerLexicalCast_take pos le (stringPrechecku_take pos le) start]
    · rw [castUint32, strtoul_eq_strtox, innerLexicalCast_take pos le (stringPrechecku_take pos le) start]
    · rw [castUint64, strtoul_eq_strtox, innerLexicalCast_take pos le (stringPrechecku_take pos le) start]
  | true =>
    have start (checked : stringPrecheck ((cStr text).take n) 0 = .ok ()) :
        (cStr text).head?.any isSpace = false := by
      rw [← head?_take pos]
      exact stringPrecheck_whole.1 checked
    cases width <;> rw [picoLexicalCast]
    · rw [castInt8, strtol_eq_strtox, innerLexicalCast_take pos le (stringPrecheck_take pos le) start]
    · exact castInt16_take pos le
    · rw [castInt32, strtol_eq_strtox, innerLexicalCast_take pos le (stringPrecheck_take pos le) start]
    · rw [castInt64, strtol_eq_strtox, innerLexicalCast_take pos le (stringPrecheck_take pos le) start]

theorem picoLexicalCast_take_digits :
    picoLexicalCast true .w16 "-12x".toList 3 = picoLexicalCast true .w16 "-12".toList 0 ∧
      picoLexicalCast false .w8 "300 4".toList 3 = picoLexicalCast false .w8 "300".toList 0 :=
  ⟨picoLexicalCast_take true .w16 (by decide) (by decide), picoLexicalCast_take false .w8 (by decide) (by decide)⟩

end Prpc
