import Mathlib.Data.List.Nodup
import Mathlib.Data.List.TakeWhile
import Mathlib.Tactic.MkIffOfInductiveProp
import Prpc.Codec.URICode

/-!
`URIConfig::set_uri` and `uri` on the bytes of a `std::string`. A failed check is `none`. Values are
strings, on which `pico_lexical_cast` is the identity.
-/

namespace Prpc.URI
open Lib Prpc.URICode

abbrev Bytes := List Byte

def bytes (text : List Char) : Bytes := text.map Char.toUInt8

inductive FileSystemType where
  | unknown | localDisk | hdfs | mem | kafka
  deriving DecidableEq

abbrev Param := Bytes × Int

/-- `uri_config_t`, in the order of its keys. -/
abbrev Params := List (Bytes × Param)

def uricfg : Int := 1

def override : Int := 99

def insertParam (key : Bytes) (param : Param) : Params → Params
  | [] => [(key, param)]
  | p :: ps => if p.1 < key then p :: insertParam key param ps else (key, param) :: p :: ps

def setVal (ps : Params) (key val : Bytes) (lvl : Int) : Params × Bool :=
  match ps.lookup key with
  | none => (insertParam key (val, lvl) ps, true)
  | some (_, old) =>
    if lvl ≥ old then (ps.map fun p => if p.1 = key then (key, (val, lvl)) else p, true)
    else (ps, false)

def printParams (sep : Char) : Params → Option Bytes
  | [] => some []
  | p :: ps => do
    let val ← encode p.2.1
    return sep.toUInt8 :: (p.1 ++ '='.toUInt8 :: (val ++ (← printParams '&' ps)))

def toString (lowLvl : Int) (ps : Params) : Option Bytes :=
  printParams '?' (ps.filter fun p => ¬p.2.2 < lowLvl)

/-- The end of a parameter. `raw` is what was read of it, and its value begins after `key_len`. -/
def setParam (raw : Bytes) (keyLen : Nat) (ps : Params) : Option Params :=
  if keyLen = 0 then none
  else do
    let skey ← decode (raw.take keyLen)
    let sval ← decode (raw.drop (keyLen + 1))
    match setVal ps skey sval uricfg with
    | (ps, true) => return ps
    | (_, false) => none

def parseParams : Bytes → Bytes → Nat → Params → Option Params
  | [], raw, keyLen, ps => setParam raw keyLen ps
  | c :: rest, raw, keyLen, ps =>
    if c = '='.toUInt8 then
      if raw.length = 0 then none else parseParams rest (raw ++ [c]) raw.length ps
    else if c = '&'.toUInt8 then do parseParams rest [] 0 (← setParam raw keyLen ps)
    else parseParams rest (raw ++ [c]) keyLen ps

def isBlank (c : Byte) : Bool := (bytes [' ', '\n', '\r', '\t']).contains c

def trim (s : Bytes) : Bytes := ((s.dropWhile isBlank).reverse.dropWhile isBlank).reverse

def schemes : List (Bytes × FileSystemType × Nat) :=
  [(bytes ['h', 'd', 'f', 's', ':', '/', '/'], .hdfs, 0), (bytes ['s', '3', ':', '/', '/'], .hdfs, 0),
    (bytes ['s', '3', 'n', ':', '/', '/'], .hdfs, 0), (bytes ['s', '3', 'a', ':', '/', '/'], .hdfs, 0),
    (bytes ['m', 'e', 'm', ':', '/', '/'], .mem, 6),
    (bytes ['f', 'i', 'l', 'e', ':', '/', '/'], .localDisk, 7),
    (bytes ['k', 'a', 'f', 'k', 'a', ':', '/', '/'], .kafka, 8)]

def findScheme (path : Bytes) : Option Nat := path.tails.findIdx? (bytes [':', '/', '/']).isPrefixOf

def fsType (pathStr : Bytes) : FileSystemType × Nat :=
  let path := trim pathStr
  match schemes.find? (·.1.isPrefixOf path) with
  | some (_, type, namePos) => (type, namePos)
  | none =>
    match findScheme path with
    | none => (.localDisk, 0)
    | some pos => (.unknown, pos + 3)

structure URIConfig where
  store : FileSystemType
  prefixPart : Bytes
  name : Bytes
  config : Params
  deriving DecidableEq

def setParams : Bytes → Option Params
  | [] => some []
  | _ :: params => parseParams (params.takeWhile (· ≠ 0)) [] 0 []

def setStorage (tmpuri : Bytes) (config : Params) : Option URIConfig :=
  let (store, namePos) := fsType tmpuri
  if store = .unknown then none
  else some ⟨store, tmpuri.take namePos, tmpuri.drop namePos, config⟩

def setUri (uri : Bytes) : Option URIConfig :=
  if trim uri = [] then some ⟨.unknown, [], [], []⟩
  else do
    let path := uri.takeWhile (· ≠ '?'.toUInt8)
    setStorage (← decode path) (← setParams (uri.drop path.length))

namespace URIConfig

def setVal (c : URIConfig) (key val : Bytes) : URIConfig :=
  { c with config := (URI.setVal c.config key val override).1 }

def uri (c : URIConfig) : Option Bytes := do
  return c.prefixPart ++ c.name ++ (← toString 0 c.config)

def value (c : URIConfig) (key : Bytes) : Option Bytes := (c.config.lookup key).map Prod.fst

end URIConfig

theorem decode_of_notMem {s : Bytes} (plain : percent ∉ s) : decode s = some s := by
  induction s with
  | nil => rfl
  | cons c s ih =>
    rw [List.mem_cons, not_or] at plain
    rw [decode_plain (Ne.symm plain.1), ih plain.2]
    rfl

def special (b : Byte) : Bool := (bytes ['=', '&', '\x00']).contains b

theorem not_special_of_encoded {out : Bytes} (encoded : Encoded out) {b : Byte} (mem : b ∈ out) :
    special b = false := by
  have plain : ∀ b : Byte, unreserved b = true ∨ upperHex b = true → special b = false :=
    forall_byte (by decide +kernel)
  induction encoded with
  | nil => cases mem
  | unreserved unreserved_ rest ih =>
    rcases List.mem_cons.1 mem with rfl | mem
    · exact plain b (.inl unreserved_)
    · exact ih mem
  | triplet high low rest ih =>
    simp only [List.mem_cons] at mem
    rcases mem with rfl | rfl | rfl | mem
    · decide
    · exact plain b (.inr high)
    · exact plain b (.inr low)
    · exact ih mem

theorem lookup_cons (k : Bytes) (p : Bytes × Param) (ps : Params) :
    List.lookup k (p :: ps) = if k = p.1 then some p.2 else ps.lookup k := by
  rw [List.lookup_cons]
  by_cases same : k = p.1
  · simp [same]
  · rw [beq_false_of_ne same, if_neg same]

theorem lookup_eq_none {key : Bytes} {ps : Params} : ps.lookup key = none ↔ key ∉ ps.map Prod.fst := by
  induction ps with
  | nil => simp
  | cons p ps ih =>
    rw [lookup_cons, List.map_cons, List.mem_cons, not_or, ← ih]
    by_cases same : key = p.1 <;> simp [same]

theorem insertParam_perm (key : Bytes) (param : Param) (ps : Params) :
    (insertParam key param ps).Perm ((key, param) :: ps) := by
  induction ps with
  | nil => exact .refl _
  | cons p ps ih =>
    rw [insertParam]
    split
    · exact (ih.cons p).trans (.swap ..)
    · exact .refl _

theorem mem_keys_insertParam (key : Bytes) (param : Param) (ps : Params) (k : Bytes) :
    k ∈ (insertParam key param ps).map Prod.fst ↔ k = key ∨ k ∈ ps.map Prod.fst := by
  rw [((insertParam_perm key param ps).map Prod.fst).mem_iff, List.map_cons, List.mem_cons]

theorem lookup_insertParam {key : Bytes} {param : Param} {ps : Params} (fresh : key ∉ ps.map Prod.fst)
    (k : Bytes) : (insertParam key param ps).lookup k = if k = key then some param else ps.lookup k := by
  induction ps with
  | nil => simp [insertParam, lookup_cons]
  | cons p ps ih =>
    rw [List.map_cons, List.mem_cons, not_or] at fresh
    rw [insertParam]
    split
    · rw [lookup_cons, lookup_cons, ih fresh.2]
      by_cases first : k = p.1
      · subst first
        simp [Ne.symm fresh.1]
      · simp [first]
    · rw [lookup_cons]

structure PlainKey (key : Bytes) : Prop where
  nonempty : key ≠ []
  percent : percent ∉ key
  ampersand : '&'.toUInt8 ∉ key
  zero : 0 ∉ key
  equals : key.head? ≠ some '='.toUInt8

section
variable {ps : Params} {rest raw : Bytes} {keyLen : Nat}

theorem parseParams_key {cs : Bytes} (ne : raw ≠ []) (plain : '&'.toUInt8 ∉ cs) :
    ∃ len, parseParams (cs ++ rest) raw keyLen ps = parseParams rest (raw ++ cs) len ps := by
  induction cs generalizing raw keyLen with
  | nil => exact ⟨keyLen, by simp⟩
  | cons c cs ih =>
    rw [List.mem_cons, not_or] at plain
    rw [List.cons_append, parseParams]
    by_cases equals : c = '='.toUInt8
    · obtain ⟨len, parsed⟩ := @ih (raw ++ [c]) raw.length (by simp) plain.2
      refine ⟨len, ?_⟩
      rw [if_pos equals, if_neg (by simpa using ne), parsed, List.append_assoc, List.singleton_append]
    · obtain ⟨len, parsed⟩ := @ih (raw ++ [c]) keyLen (by simp) plain.2
      refine ⟨len, ?_⟩
      rw [if_neg equals, if_neg (Ne.symm plain.1), parsed, List.append_assoc, List.singleton_append]

theorem parseParams_value {cs : Bytes} (plain : ∀ c ∈ cs, special c = false) :
    parseParams (cs ++ rest) raw keyLen ps = parseParams rest (raw ++ cs) keyLen ps := by
  induction cs generalizing raw with
  | nil => simp
  | cons c cs ih =>
    have head := plain c (List.mem_cons_self ..)
    have equals : c ≠ '='.toUInt8 := by
      rintro rfl
      exact absurd head (by decide)
    have ampersand : c ≠ '&'.toUInt8 := by
      rintro rfl
      exact absurd head (by decide)
    rw [List.cons_append, parseParams, if_neg equals, if_neg ampersand,
      ih fun c mem => plain c (List.mem_cons_of_mem _ mem), List.append_assoc, List.singleton_append]

theorem parseParams_param {key val : Bytes} (plain : PlainKey key)
    (encoded : ∀ c ∈ val, special c = false) :
    parseParams (key ++ '='.toUInt8 :: (val ++ rest)) [] 0 ps =
      parseParams rest (key ++ '='.toUInt8 :: val) key.length ps := by
  obtain ⟨c, cs, rfl⟩ := List.exists_cons_of_ne_nil plain.nonempty
  have equals : c ≠ '='.toUInt8 := by simpa using plain.equals
  have ampersand := plain.ampersand
  rw [List.mem_cons, not_or] at ampersand
  obtain ⟨len, parsed⟩ := @parseParams_key ps ('='.toUInt8 :: (val ++ rest)) [c] 0 cs (by simp)
    ampersand.2
  rw [List.cons_append, parseParams, if_neg equals, if_neg (Ne.symm ampersand.1), List.nil_append,
    parsed, parseParams, if_pos rfl, if_neg (by simp), parseParams_value encoded]
  simp

theorem setParam_print {key val out : Bytes} (plain : PlainKey key)
    (decoded : decode out = some val) (fresh : key ∉ ps.map Prod.fst) :
    setParam (key ++ '='.toUInt8 :: out) key.length ps = some (insertParam key (val, uricfg) ps) := by
  have absent := lookup_eq_none.2 fresh
  have length : key.length ≠ 0 := by simpa using plain.nonempty
  simp [setParam, length, decode_of_notMem plain.percent, decoded, setVal, absent]

theorem parseParams_print {es : Params} (ne : es ≠ []) (nodup : (es.map Prod.fst).Nodup)
    (plain : ∀ p ∈ es, PlainKey p.1 ∧ ∀ b ∈ p.2.1, b < 128)
    (fresh : ∀ p ∈ es, p.1 ∉ ps.map Prod.fst) (sep : Char) :
    ∃ out ps', printParams sep es = some (sep.toUInt8 :: out) ∧ 0 ∉ out ∧ parseParams out [] 0 ps = some ps' ∧
      ∀ k, (ps'.lookup k).map Prod.fst = ((es.lookup k).or (ps.lookup k)).map Prod.fst := by
  induction es generalizing ps sep with
  | nil => exact absurd rfl ne
  | cons p es ih =>
    obtain ⟨key, ascii⟩ := plain p (List.mem_cons_self ..)
    obtain ⟨val, printed, shape, decoded⟩ := decode_of_encode ascii
    have noSpecial := fun c mem => not_special_of_encoded shape (b := c) mem
    have set_ := setParam_print key decoded (fresh p (List.mem_cons_self ..))
    have lookups := @lookup_insertParam p.1 (p.2.1, uricfg) ps (fresh p (List.mem_cons_self ..))
    have noZero : 0 ∉ p.1 ++ '='.toUInt8 :: val := by
      simp only [List.mem_append, List.mem_cons, not_or]
      refine ⟨key.zero, by decide, fun mem => ?_⟩
      exact absurd (noSpecial 0 mem) (by decide)
    rw [List.map_cons, List.nodup_cons] at nodup
    rcases eq_or_ne es [] with rfl | ne
    · refine ⟨p.1 ++ '='.toUInt8 :: val, insertParam p.1 (p.2.1, uricfg) ps, ?_, noZero, ?_, fun k => ?_⟩
      · simp [printParams, printed]
      · rw [← List.append_nil val, parseParams_param key noSpecial, parseParams]
        exact set_
      · rw [lookups, lookup_cons]
        by_cases same : k = p.1 <;> simp [same]
    · have fresh' : ∀ q ∈ es, q.1 ∉ (insertParam p.1 (p.2.1, uricfg) ps).map Prod.fst := by
        intro q mem
        rw [mem_keys_insertParam, not_or]
        refine ⟨fun same => nodup.1 ?_, fresh q (List.mem_cons_of_mem _ mem)⟩
        exact same ▸ List.mem_map_of_mem mem
      obtain ⟨out, ps', rest, zero, parsed, found⟩ := ih ne nodup.2
        (fun q mem => plain q (List.mem_cons_of_mem _ mem)) fresh' '&'
      refine ⟨p.1 ++ '='.toUInt8 :: (val ++ '&'.toUInt8 :: out), ps', ?_, ?_, ?_, fun k => ?_⟩
      · simp [printParams, printed, rest]
      · simp only [List.mem_append, List.mem_cons, not_or] at noZero ⊢
        exact ⟨noZero.1, noZero.2.1, noZero.2.2, by decide, zero⟩
      · rw [parseParams_param key noSpecial, parseParams, if_neg (by decide), if_pos rfl, set_]
        exact parsed
      · rw [found, lookups, lookup_cons]
        by_cases same : k = p.1
        · subst same
          simp [lookup_eq_none.2 nodup.1]
        · simp [same]

end

structure Params.Wf (ps : Params) : Prop where
  nodup : (ps.map Prod.fst).Nodup
  params : ∀ p ∈ ps, p.1 ≠ [] ∧ 0 ≤ p.2.2

theorem Params.Wf.setVal {ps : Params} (wf : Params.Wf ps) {key : Bytes} (ne : key ≠ []) (val : Bytes)
    {lvl : Int} (printed : 0 ≤ lvl) : Params.Wf (URI.setVal ps key val lvl).1 := by
  cases found : ps.lookup key with
  | none =>
    simp only [URI.setVal, found]
    have perm := insertParam_perm key (val, lvl) ps
    refine ⟨(perm.map Prod.fst).nodup_iff.2 (List.nodup_cons.2 ⟨lookup_eq_none.1 found, wf.nodup⟩),
      fun p mem => ?_⟩
    rcases List.mem_cons.1 (perm.mem_iff.1 mem) with rfl | mem
    · exact ⟨ne, printed⟩
    · exact wf.params p mem
  | some old =>
    simp only [URI.setVal, found]
    split
    · refine ⟨?_, List.forall_mem_map.2 fun p mem => ?_⟩
      · have keys : (ps.map fun p => if p.1 = key then (key, (val, lvl)) else p).map Prod.fst =
            ps.map Prod.fst := by
          rw [List.map_map]
          refine List.map_congr_left fun p _ => ?_
          simp only [Function.comp_apply]
          split
          · rename_i same
            exact same.symm
          · rfl
        rw [keys]
        exact wf.nodup
      · split
        · exact ⟨ne, printed⟩
        · exact wf.params p mem
    · exact wf

structure Reached (c : URIConfig) : Prop where
  config : Params.Wf c.config
  store : c.store = .unknown ∧ c.prefixPart = [] ∧ c.name = [] ∨
    c.store ≠ .unknown ∧ fsType (c.prefixPart ++ c.name) = (c.store, c.prefixPart.length)

theorem decode_ne_nil {s out : Bytes} (ne : s ≠ []) (decoded : decode s = some out) : out ≠ [] := by
  rintro rfl
  obtain ⟨c, s, rfl⟩ := List.exists_cons_of_ne_nil ne
  rw [decode.eq_def] at decoded
  by_cases escaped : c = percent
  · simp only [if_pos escaped] at decoded
    split at decoded
    · simp [Option.bind_eq_some_iff] at decoded
    · cases decoded
  · simp [if_neg escaped, Option.bind_eq_some_iff] at decoded

theorem Params.Wf.setParam {ps ps' : Params} (wf : Params.Wf ps) {raw : Bytes} {keyLen : Nat}
    (le : keyLen ≤ raw.length) (set_ : setParam raw keyLen ps = some ps') : Params.Wf ps' := by
  rw [URI.setParam, Option.ite_none_left_eq_some] at set_
  obtain ⟨positive, set_⟩ := set_
  simp only [Option.bind_eq_bind, Option.bind_eq_some_iff] at set_
  obtain ⟨skey, decoded, sval, -, set_⟩ := set_
  have ne : raw.take keyLen ≠ [] := by
    rw [ne_eq, List.take_eq_nil_iff, not_or]
    refine ⟨positive, ?_⟩
    rintro rfl
    exact positive (Nat.le_zero.1 le)
  have kept := wf.setVal (decode_ne_nil ne decoded) sval (by decide : 0 ≤ uricfg)
  split at set_
  · rename_i eq
    rw [eq] at kept
    exact Option.some.inj set_ ▸ kept
  · cases set_

theorem Params.Wf.parseParams {ps ps' : Params} (wf : Params.Wf ps) {rest raw : Bytes} {keyLen : Nat}
    (le : keyLen ≤ raw.length) (parsed : parseParams rest raw keyLen ps = some ps') :
    Params.Wf ps' := by
  induction rest generalizing raw keyLen ps with
  | nil => exact wf.setParam le parsed
  | cons c rest ih =>
    rw [URI.parseParams] at parsed
    split at parsed
    · rw [Option.ite_none_left_eq_some] at parsed
      exact ih wf (by simp) parsed.2
    · split at parsed
      · obtain ⟨ps₁, set_, parsed⟩ := Option.bind_eq_some_iff.1 parsed
        exact ih (wf.setParam le set_) (Nat.le_refl _) parsed
      · refine ih wf ?_ parsed
        rw [List.length_append]
        omega

theorem trim_eq_nil {s : Bytes} : trim s = [] ↔ ∀ b ∈ s, isBlank b := by
  simp only [trim, List.reverse_eq_nil_iff, List.dropWhile_eq_nil_iff, List.mem_reverse]
  constructor
  · intro blank b mem
    rw [← List.takeWhile_append_dropWhile (p := isBlank) (l := s), List.mem_append] at mem
    exact mem.elim List.mem_takeWhile_imp (blank b)
  · exact fun blank b mem => blank b (List.dropWhile_sublist isBlank |>.subset mem)

theorem fsType_pos_le {s : Bytes} {store : FileSystemType} {pos : Nat} (type : fsType s = (store, pos))
    (known : store ≠ .unknown) : pos ≤ s.length := by
  have shorter : (trim s).length ≤ s.length := by
    have front := (List.dropWhile_sublist isBlank (l := s)).length_le
    have back := (List.dropWhile_sublist isBlank (l := (s.dropWhile isBlank).reverse)).length_le
    simp only [trim, List.length_reverse] at back ⊢
    omega
  rw [fsType] at type
  split at type
  · rename_i scheme type' pos' found
    cases type
    have inside : scheme <+: trim s := List.isPrefixOf_iff_prefix.1 (by simpa using List.find?_some found)
    have short : ∀ s ∈ schemes, s.2.2 ≤ s.1.length := by decide
    exact (short _ (List.mem_of_find?_eq_some found)).trans (inside.length_le.trans shorter)
  · split at type <;> cases type
    · exact Nat.zero_le _
    · exact absurd rfl known

theorem reached_of_setUri {u : Bytes} {c : URIConfig} (accepted : setUri u = some c) : Reached c := by
  rw [setUri] at accepted
  split at accepted
  · cases accepted
    exact ⟨⟨.nil, nofun⟩, .inl ⟨rfl, rfl, rfl⟩⟩
  · simp only [Option.bind_eq_bind, Option.bind_eq_some_iff, setStorage,
      Option.ite_none_left_eq_some, Option.some.injEq] at accepted
    obtain ⟨tmpuri, -, config, parsed, known, rfl⟩ := accepted
    have le : (fsType tmpuri).2 ≤ tmpuri.length := fsType_pos_le (Prod.mk.eta.symm) known
    have empty : Params.Wf [] := ⟨List.nodup_nil, by simp⟩
    refine ⟨?_, .inr ⟨known, ?_⟩⟩
    · rw [setParams.eq_def] at parsed
      split at parsed
      · exact Option.some.inj parsed ▸ empty
      · exact empty.parseParams (Nat.le_refl _) parsed
    · simp only [List.take_append_drop, List.length_take_of_le le]

theorem Reached.set_ {c : URIConfig} (reached : Reached c) {key : Bytes} (ne : key ≠ [])
    (val : Bytes) : Reached (c.setVal key val) :=
  ⟨reached.config.setVal ne val (by decide), reached.store⟩

/-- What the printed form of a configuration has to be free of. -/
@[mk_iff]
structure Printable (c : URIConfig) : Prop where
  path : '?'.toUInt8 ∉ c.prefixPart ++ c.name ∧ percent ∉ c.prefixPart ++ c.name
  keys : ∀ p ∈ c.config, percent ∉ p.1 ∧ '&'.toUInt8 ∉ p.1 ∧ 0 ∉ p.1 ∧ p.1.head? ≠ some '='.toUInt8
  values : ∀ p ∈ c.config, ∀ b ∈ p.2.1, b < 128
  blank : c.store = .unknown → c.config = []
  nonblank : c.store ≠ .unknown → c.config = [] → trim (c.prefixPart ++ c.name) ≠ []

instance (value : Bytes) : Decidable (∀ b ∈ value, b < 128) := List.decidableBAll (· < 128) value

instance (c : URIConfig) : Decidable (Printable c) := decidable_of_iff' _ (printable_iff c)

theorem Reached.round_trip {c : URIConfig} (reached : Reached c) (printable : Printable c) :
    ∃ text d, c.uri = some text ∧ setUri text = some d ∧ d.store = c.store ∧
      d.prefixPart = c.prefixPart ∧ d.name = c.name ∧ ∀ k, d.value k = c.value k := by
  have printed : c.config.filter (fun p => ¬p.2.2 < 0) = c.config := by
    refine List.filter_eq_self.2 fun p mem => ?_
    have := (reached.config.params p mem).2
    simpa using this
  rcases reached.store with ⟨unknown, pre, name⟩ | ⟨known, type⟩
  · have empty := printable.blank unknown
    refine ⟨[], ⟨.unknown, [], [], []⟩, ?_, rfl, unknown.symm, pre.symm, name.symm, fun k => ?_⟩
    · simp [URIConfig.uri, toString, empty, printParams, pre, name]
    · simp [URIConfig.value, empty]
  have decoded := decode_of_notMem printable.path.2
  have stored (config : Params) : setStorage (c.prefixPart ++ c.name) config =
      some ⟨c.store, c.prefixPart, c.name, config⟩ := by simp [setStorage, type, known]
  have path (rest : Bytes) (stop : rest.takeWhile (· ≠ '?'.toUInt8) = []) :
      (c.prefixPart ++ c.name ++ rest).takeWhile (· ≠ '?'.toUInt8) = c.prefixPart ++ c.name := by
    rw [List.takeWhile_append_of_pos, stop, List.append_nil]
    intro b mem
    simpa using ne_of_mem_of_not_mem mem printable.path.1
  by_cases empty : c.config = []
  · refine ⟨c.prefixPart ++ c.name, ⟨c.store, c.prefixPart, c.name, []⟩, ?_, ?_, rfl, rfl, rfl, fun k => ?_⟩
    · simp [URIConfig.uri, toString, empty, printParams]
    · have whole := path [] rfl
      rw [List.append_nil] at whole
      simp only [setUri, printable.nonblank known empty, if_false, whole, decoded, List.drop_length]
      exact stored []
    · simp [URIConfig.value, empty]
  · obtain ⟨out, ps, print, zero, parsed, found⟩ := @parseParams_print [] _ empty
      reached.config.nodup (fun p mem => ⟨⟨(reached.config.params p mem).1, (printable.keys p mem).1,
        (printable.keys p mem).2.1, (printable.keys p mem).2.2.1, (printable.keys p mem).2.2.2⟩,
        printable.values p mem⟩) (by simp) '?'
    refine ⟨c.prefixPart ++ c.name ++ '?'.toUInt8 :: out, ⟨c.store, c.prefixPart, c.name, ps⟩, ?_, ?_,
      rfl, rfl, rfl, fun k => ?_⟩
    · rw [URIConfig.uri, toString, printed, print]
      rfl
    · have shown : trim (c.prefixPart ++ c.name ++ '?'.toUInt8 :: out) ≠ [] := by
        intro blank
        have := trim_eq_nil.1 blank '?'.toUInt8 (by simp)
        exact absurd this (by decide)
      have all : out.takeWhile (· ≠ 0) = out := by
        refine List.takeWhile_eq_self_iff.2 fun b mem => ?_
        simpa using ne_of_mem_of_not_mem mem zero
      simp only [setUri, shown, if_false, path ('?'.toUInt8 :: out) rfl, decoded, List.drop_left, setParams, all, parsed]
      exact stored ps
    · simpa [URIConfig.value] using found k

end Prpc.URI
