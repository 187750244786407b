import Prpc.Rpc.Archive.Serialize

namespace Prpc.Archive
open Lib

def RoundTrips {k : Carrier} (c : Serializer k) : Prop :=
  ∀ x y, Delimits (c.picoDeserialize y) (c.picoSerialize x ++ ·) (k.val x)

theorem delimits_pod {Obj Val : Type} {val : Obj → Val} (rep : Representation val) (x : Obj) :
    Delimits (readPod rep) (writePod rep x ++ ·) (val x) := by
  have bytes := (Delimits.raw (rep.bytes_length x)).ret rep.read
  rwa [rep.read_bytes] at bytes

theorem byteChar_charByte {c : Char} (ascii : c.toNat < 128) : byteChar (charByte c) = c := by
  have small : (UInt8.ofNat c.toNat).toNat = c.toNat := by
    rw [UInt8.toNat_ofNat']
    omega
  rw [byteChar, charByte, small, Char.ofNat_toNat]

theorem delimits_token {α : Type} {cast : List Char → Nat → Option α} {s : List Char} {a : α}
    (plain : ∀ c ∈ s, c.toNat < 128 ∧ c ≠ ' ') (ne : s ≠ [])
    (parsed : ∀ tail, cast (s ++ ' ' :: tail) s.length = some a) :
    Delimits (readToken cast) (s.map charByte ++ [blank] ++ ·) a := by
  intro rest
  have noBlank : ∀ b ∈ s.map charByte, b ≠ blank := by
    intro b mem same
    obtain ⟨c, inText, rfl⟩ := List.mem_map.1 mem
    have back := byteChar_charByte (plain c inText).1
    rw [same] at back
    exact (plain c inText).2 (back.symm.trans (by decide))
  have chars : (s.map charByte).map byteChar = s := by
    rw [List.map_map]
    conv => rhs; rw [← List.map_id s]
    exact List.map_congr_left fun c mem => byteChar_charByte (plain c mem).1
  have token : (s.map charByte ++ blank :: rest).takeWhile (· != blank) = s.map charByte := by
    rw [List.takeWhile_append_of_pos (by simpa using noBlank)]
    simp
  have after : (s.map charByte ++ blank :: rest).dropWhile (· != blank) = blank :: rest := by
    rw [List.dropWhile_append_of_pos (by simpa using noBlank)]
    simp
  have start : (s.map charByte ++ blank :: rest).dropWhile (· == blank) =
      s.map charByte ++ blank :: rest := by
    obtain ⟨c, cs, rfl⟩ := List.exists_cons_of_ne_nil ne
    have first := noBlank (charByte c) (by simp)
    simp [first]
  change readToken cast (s.map charByte ++ [blank] ++ rest) = _
  rw [List.append_assoc, List.singleton_append]
  simp [readToken, start, token, after, if_neg ne, chars, show byteChar blank = ' ' from rfl, parsed]

theorem plain_toText (x : Int) : ∀ c ∈ toText x, c.toNat < 128 ∧ c ≠ ' ' := by
  intro c mem
  rcases mem_toText mem with rfl | digit
  · decide
  · have range := toNat_of_isDigit digit
    exact ⟨by omega, ne_of_isDigit digit (by decide)⟩

theorem inRange_intOf (signed : Bool) (width : Width) (x : BitVec width.bits) :
    InRange signed (if width = .w8 then .w32 else width) (intOf signed x) := by
  have nat := x.isLt
  have low := BitVec.le_toInt x
  have high := BitVec.toInt_lt (x := x)
  cases signed <;> cases width <;>
    simp only [InRange, intOf, Bool.false_eq_true, if_false, if_true, reduceCtorEq, Width.bits,
      Width.bytes] at nat low high ⊢ <;> omega

variable {n : Nat}

theorem ofInt_intOf (signed : Bool) (x : BitVec n) : BitVec.ofInt n (intOf signed x) = x := by
  cases signed with
  | false => exact (BitVec.ofInt_natCast ..).trans (by simp)
  | true => exact BitVec.ofInt_toInt

theorem delimits_int (signed : Bool) (width : Width) (x : BitVec width.bits) :
    Delimits (readInt signed (if width = .w8 then .w32 else width))
      ((toText (intOf signed x)).map charByte ++ [blank] ++ ·) (intOf signed x) := by
  apply delimits_token (plain_toText _) (toText_ne_nil _)
  intro tail
  rw [picoLexicalCast_toText (inRange_intOf signed width x)]
  rfl

theorem delimits_arithmetic (a : Arithmetic) (x : a.Val) :
    Delimits (readArithmetic a) (writeArithmetic a x ++ ·) x := by
  cases a with
  | int signed width =>
    have word := (delimits_int signed width x).ret (BitVec.ofInt width.bits)
    rwa [ofInt_intOf] at word
  | bool =>
    apply delimits_token (plain_toText _) (toText_ne_nil _)
    intro tail
    cases x <;> simp [toText, picoLexicalCastBool, cStr, Nat.toDigits, Nat.toDigitsCore]
  | char => exact (Delimits.raw (w := [x]) rfl).ret fun c : List Byte => c.headD 0

theorem arithmetic_roundTrips (ar : ArchiveType) (a : Arithmetic) : RoundTrips (arithmetic ar a) := by
  intro x _
  cases ar with
  | binary => exact delimits_pod a.rep x
  | text => exact delimits_arithmetic a x

section
variable (ar : ArchiveType)

theorem delimits_size (fits : n < 2 ^ 64) : Delimits (readSize ar) (writeSize ar n ++ ·) n := by
  have word := (arithmetic_roundTrips ar (.int false .w64) (BitVec.ofNat 64 n) 0#64).ret
    (BitVec.toNat (w := 64))
  change Delimits _ _ (BitVec.ofNat 64 n).toNat at word
  rwa [BitVec.toNat_ofNat, Nat.mod_eq_of_lt fits] at word

theorem signExtend_int {signed : Bool} {width : Width} {x : BitVec width.bits}
    (fits : EnumFits signed x) :
    (if signed then x.signExtend 32 else x.setWidth 32).signExtend width.bits = x := by
  apply BitVec.eq_of_toInt_eq
  rw [BitVec.toInt_signExtend]
  cases signed with
  | false =>
    have small : x.toNat < 2 ^ 31 := fits
    have int : ((x.toNat : Int).bmod (2 ^ 32)) = x.toNat := Int.bmod_eq_of_le (by omega) (by omega)
    rw [if_neg (by simp), BitVec.toInt_setWidth, int, BitVec.toInt_eq_toNat_bmod]
    cases width with
    | w8 | w16 | w32 => rfl
    | w64 =>
      have wide : (x.toNat : Int).bmod (2 ^ 64) = x.toNat := Int.bmod_eq_of_le (by omega) (by omega)
      exact int.trans wide.symm
  | true =>
    have range : -2 ^ 31 ≤ x.toInt ∧ x.toInt < 2 ^ 31 := fits
    rw [if_pos rfl, BitVec.toInt_signExtend, Nat.min_comm, Int.bmod_bmod]
    have low : -2 ^ (width.bits - 1) ≤ x.toInt := BitVec.le_toInt x
    have high : x.toInt < 2 ^ (width.bits - 1) := BitVec.toInt_lt
    generalize x.toInt = n at range low high
    cases width with
    | w8 => exact Int.bmod_eq_of_le (m := 2 ^ 8) low high
    | w16 => exact Int.bmod_eq_of_le (m := 2 ^ 16) low high
    | w32 => exact Int.bmod_eq_of_le (m := 2 ^ 32) low high
    | w64 => exact Int.bmod_eq_of_le (m := 2 ^ 32) range.1 range.2

theorem enum_roundTrips (signed : Bool) (width : Width) : RoundTrips (enum ar signed width) := by
  intro x _
  have word := (arithmetic_roundTrips ar (.int true .w32)
    (if signed then x.1.signExtend 32 else x.1.setWidth 32) 0#32).ret
    (BitVec.signExtend (w := 32) width.bits)
  change Delimits _ _ (BitVec.signExtend width.bits
    (if signed then x.1.signExtend 32 else x.1.setWidth 32)) at word
  rwa [signExtend_int x.2] at word

theorem archive_roundTrips : RoundTrips (archive ar) := by
  intro x _
  have body := (Delimits.raw (w := x.1.bytes) rfl).ret fun bytes => (⟨bytes, 0⟩ : Carrier.Memory)
  exact (delimits_size ar x.2.2).append body

theorem string_roundTrips : RoundTrips (string ar) := by
  intro x _
  have value : (Carrier.list (Arithmetic.carrier .char)).val x = x.1 := List.map_id _
  rw [value]
  cases ar with
  | binary => exact (delimits_size .binary x.2).append (Delimits.raw rfl)
  | text =>
    have close := (delimits_arithmetic .char blank).ret fun _ => x.1
    exact (delimits_size .text x.2).append ((Delimits.raw rfl).append close)

variable {k v : Carrier} {c : Serializer k}

theorem delimits_each (round : RoundTrips c) (xs : List k.Obj) {ys : List k.Val}
    (len : (xs.map k.val).length = ys.length) :
    Delimits (readEach c.picoDeserialize ys) (xs.flatMap c.picoSerialize ++ ·)
      ⟨xs.map k.val, len⟩ :=
  (Delimits.each (fun x _ y => round x y) len).congr fun rest => foldr_append _ xs rest

theorem resized_length (y : List k.Val) (size : Nat) : (resized y size).length = size := by
  rw [resized, List.length_append, List.length_take, List.length_replicate]
  omega

theorem sequence_roundTrips (round : RoundTrips c) : RoundTrips (sequence ar c) := by
  intro x y
  have len : (x.1.map k.val).length = (resized y x.1.length).length := by
    rw [List.length_map, resized_length]
  exact (delimits_size ar x.2).append ((delimits_each round x.1 len).ret Subtype.val)

theorem vectorRaw_roundTrips (rep : Representation k.val) : RoundTrips (vectorRaw ar rep) := by
  intro x _
  have body := (Delimits.raw (Carrier.arrayBytes_length rep x.1)).ret
    (Carrier.readArray rep x.1.length)
  rw [Carrier.readArray_arrayBytes] at body
  exact (delimits_size ar x.2).append body

theorem vector_roundTrips (round : RoundTrips c) : RoundTrips (vector ar c) := by
  unfold vector
  split
  · exact vectorRaw_roundTrips _ _
  · exact sequence_roundTrips _ round

theorem valarray_roundTrips (round : RoundTrips c) : RoundTrips (valarray ar c) := by
  intro x _
  have len : (x.1.map k.val).length = (List.replicate x.1.length k.init).length := by simp
  exact (delimits_size ar x.2).append ((delimits_each round x.1 len).ret Subtype.val)

theorem elements_roundTrips (round : RoundTrips c) (n : Nat) : RoundTrips (elements ar c n) := by
  unfold elements
  split
  · rename_i rep _
    rintro ⟨xs, rfl⟩ _
    have body := (Delimits.raw (Carrier.arrayBytes_length rep xs)).ret fun bytes =>
      (⟨Carrier.readArray rep xs.length bytes, Carrier.readArray_length rep xs.length bytes⟩ :
        Carrier.Of xs.length k.Val)
    have value : (⟨Carrier.readArray rep xs.length (Carrier.arrayBytes rep xs),
        Carrier.readArray_length ..⟩ : Carrier.Of xs.length k.Val) =
        (k.array xs.length).val ⟨xs, rfl⟩ :=
      Subtype.ext (Carrier.readArray_arrayBytes rep xs)
    exact value ▸ body
  · intro x y
    have len : (x.1.map k.val).length = y.1.length := by rw [List.length_map, x.2, y.2]
    exact (delimits_each round x.1 len).ret fun l => (⟨l.1, l.2.trans y.2⟩ : Carrier.Of n k.Val)

theorem cArray_roundTrips (round : RoundTrips c) (fits : n < 2 ^ 64) : RoundTrips (cArray ar c n) := by
  intro x y
  have body : Delimits (do
      if n ≠ n then failure
      (elements ar c n).picoDeserialize y) ((elements ar c n).picoSerialize x ++ ·)
      ((k.array n).val x) := by
    simpa using elements_roundTrips ar round n x y
  exact (delimits_size ar fits).append body

theorem bit_test (word : BitVec 64) {i : Nat} (lt : i < 64) :
    (word &&& 1#64 <<< i != 0#64) = word.getLsbD i := by
  rw [← BitVec.twoPow_eq, BitVec.and_twoPow]
  have ne : BitVec.twoPow 64 i ≠ 0#64 := by
    intro zero
    have bit := congrArg (BitVec.getLsbD · i) zero
    simp [lt] at bit
  cases word.getLsbD i <;> simp [ne]

variable {offset : Nat}

theorem getLsbD_setBit (bits : BitVec 64) (val : Bool) (lt : offset < 64) (i : Nat) :
    (if val then bits ||| 1#64 <<< offset else bits).getLsbD i =
      (bits.getLsbD i || (val && decide (i = offset))) := by
  cases val with
  | false => simp
  | true => simp [← BitVec.twoPow_eq, BitVec.getLsbD_twoPow, lt, eq_comm]

theorem setBit_clear {bits : BitVec 64} (val : Bool) (lt : offset < 64)
    (clear : ∀ i, offset ≤ i → bits.getLsbD i = false) :
    ∀ i, offset + 1 ≤ i → (if val then bits ||| 1#64 <<< offset else bits).getLsbD i = false := by
  intro i past
  rw [getLsbD_setBit _ _ lt, clear i (by omega)]
  simp [show i ≠ offset by omega]

theorem delimits_bit {word : BitVec 64} {val : Bool} {vect : List Bool}
    {out : List Byte} (lt : offset < 64) (bit : word.getLsbD offset = val)
    (reads : Delimits (unpackBits vect.length word (offset + 1)) (out ++ ·) vect) :
    Delimits (do
      let vect ← unpackBits vect.length word (offset + 1)
      return (word &&& 1#64 <<< offset != 0#64) :: vect) (out ++ ·) (val :: vect) := by
  have rest := reads.ret fun vect => (word &&& 1#64 <<< offset != 0#64) :: vect
  rwa [show (word &&& 1#64 <<< offset != 0#64) :: vect = val :: vect by
    rw [bit_test _ lt, bit]] at rest

theorem packBits_word (vect : List Bool) {bits : BitVec 64} (pos : 0 < offset)
    (le : offset ≤ 64) (clear : ∀ i, offset ≤ i → bits.getLsbD i = false) :
    ∃ (word : BitVec 64) (out : List Byte), packBits vect bits offset = writePod (wordRep .w64) word ++ out ∧
      (∀ i < offset, word.getLsbD i = bits.getLsbD i) ∧
      Delimits (unpackBits vect.length word offset) (out ++ ·) vect := by
  induction vect generalizing bits offset with
  | nil => exact ⟨bits, [], by simp [packBits, pos], fun _ _ => rfl, Delimits.pure _⟩
  | cons val vect ih =>
    by_cases full : offset = 64
    · -- the full word goes out, the value starts a new one
      subst full
      have fresh : (if val then 1#64 <<< 0 else 0#64) = if val then 0#64 ||| 1#64 <<< 0 else 0#64 := by simp
      obtain ⟨word, out, eq, low, reads⟩ :=
        ih Nat.one_pos (by omega) (setBit_clear val (by omega) fun i _ => BitVec.getLsbD_zero)
      have bit : word.getLsbD 0 = val := by
        rw [low 0 (by omega), getLsbD_setBit _ _ (by omega)]
        simp
      refine ⟨bits, writePod (wordRep .w64) word ++ out, ?_, fun _ _ => rfl, ?_⟩
      · rw [packBits, if_pos rfl, fresh, eq]
      · exact (delimits_pod (wordRep .w64) word).append (delimits_bit (show 0 < 64 by omega) bit reads)
    · have lt : offset < 64 := by omega
      obtain ⟨word, out, eq, low, reads⟩ := ih (Nat.succ_pos offset) lt (setBit_clear val lt clear)
      have bit : word.getLsbD offset = val := by
        rw [low offset (by omega), getLsbD_setBit _ _ lt, clear offset le_rfl]
        simp
      refine ⟨word, out, by rw [packBits, if_neg full, eq], ?_, ?_⟩
      · intro i below
        rw [low i (by omega), getLsbD_setBit _ _ lt]
        simp [show i ≠ offset by omega]
      · simp only [List.length_cons, unpackBits, if_neg full]
        exact (Delimits.pure word).bind (delimits_bit lt bit reads)

theorem delimits_bits (vect : List Bool) :
    Delimits (unpackBits vect.length 0#64 64) (packBits vect 0#64 0 ++ ·) vect := by
  cases vect with
  | nil => exact Delimits.pure _
  | cons val vect =>
    obtain ⟨word, out, eq, low, reads⟩ := packBits_word vect Nat.one_pos (by omega)
      (setBit_clear val (show 0 < 64 by omega) fun i _ => BitVec.getLsbD_zero)
    have bit : word.getLsbD 0 = val := by
      rw [low 0 (by omega), getLsbD_setBit _ _ (by omega)]
      simp
    rw [packBits, if_neg (by omega), eq]
    exact (delimits_pod (wordRep .w64) word).append (delimits_bit (show 0 < 64 by omega) bit reads)

theorem vectorBool_roundTrips : RoundTrips (vectorBool ar) := by
  intro x _
  have value : (Carrier.list (Arithmetic.carrier .bool)).val x = x.1 := List.map_id _
  cases ar with
  | binary =>
    rw [value]
    exact (delimits_size .binary x.2).append (delimits_bits x.1)
  | text =>
    have len : (x.1.map id).length = (List.replicate x.1.length false).length := by simp
    have bit : ∀ b ∈ x.1, ∀ _ : Bool, Delimits (readArithmetic .bool)
        (writeArithmetic .bool b ++ ·) (id b) := fun b _ _ => delimits_arithmetic .bool b
    have each := (Delimits.each bit len).congr fun rest => foldr_append _ x.1 rest
    have body := each.ret Subtype.val
    exact (delimits_size .text x.2).append body

theorem insertKeys_ok {xs : List k.Obj} {s : Finset k.Val} (nodup : (xs.map k.val).Nodup)
    (new : ∀ x ∈ xs, k.val x ∉ s) :
    xs.foldlM (fun s x => insertKey s (k.val x)) s = some (s ∪ (xs.map k.val).toFinset) := by
  induction xs generalizing s with
  | nil => simp
  | cons x xs ih =>
    rw [List.map_cons, List.nodup_cons] at nodup
    rw [List.foldlM_cons, insertKey, if_neg (new x (List.mem_cons_self ..))]
    change xs.foldlM _ (insert (k.val x) s) = _
    rw [ih nodup.2]
    · rw [List.map_cons, List.toFinset_cons, Finset.insert_union, Finset.union_insert]
    · intro z mem inserted
      rcases Finset.mem_insert.1 inserted with same | old
      · exact nodup.1 (same ▸ List.mem_map_of_mem mem)
      · exact new z (List.mem_cons_of_mem _ mem) old

theorem keys_roundTrips (round : RoundTrips c) : RoundTrips (keys ar c) := by
  intro x _
  have stored := insertKeys_ok (s := ∅) x.2.2 (by simp)
  rw [Finset.empty_union] at stored
  have body := Delimits.into (fun key _ => round key k.init) stored
  exact (delimits_size ar x.2.1).append (body.congr fun rest => foldr_append _ x.1 rest)

def entry (i : k.Obj × v.Obj) : (_ : k.Val) × v.Val := ⟨k.val i.1, v.val i.2⟩

theorem insert_union_new {xs : List ((_ : k.Val) × v.Val)} {m : Finmap fun _ : k.Val => v.Val}
    {a : k.Val} {b : v.Val} (new : a ∉ xs.map Sigma.fst) :
    xs.toFinmap ∪ m.insert a b = xs.toFinmap.insert a b ∪ m := by
  apply Finmap.ext_lookup
  intro z
  have absent : a ∉ xs.toFinmap := by
    rw [Finmap.mem_list_toFinmap]
    rintro ⟨b', mem⟩
    exact new (List.mem_map_of_mem (f := Sigma.fst) mem)
  by_cases same : z = a
  · subst same
    rw [Finmap.lookup_union_right absent, Finmap.lookup_insert,
      Finmap.lookup_union_left (by simp), Finmap.lookup_insert]
  · by_cases mem : z ∈ xs.toFinmap
    · rw [Finmap.lookup_union_left mem, Finmap.lookup_union_left (by simp [mem]),
        Finmap.lookup_insert_of_ne _ same]
    · rw [Finmap.lookup_union_right mem, Finmap.lookup_insert_of_ne _ same,
        Finmap.lookup_union_right (by simp [mem, same])]

theorem insertItems_ok {xs : List (k.Obj × v.Obj)} {m : Finmap fun _ : k.Val => v.Val}
    (nodup : (xs.map fun i => k.val i.1).Nodup) (new : ∀ i ∈ xs, k.val i.1 ∉ m) :
    xs.foldlM (fun m i => insertItem m (k.val i.1, v.val i.2)) m = some ((xs.map entry).toFinmap ∪ m) := by
  induction xs generalizing m with
  | nil => simp
  | cons i xs ih =>
    rw [List.map_cons, List.nodup_cons] at nodup
    rw [List.foldlM_cons, insertItem, if_neg (new i (List.mem_cons_self ..))]
    change xs.foldlM _ (m.insert (k.val i.1) (v.val i.2)) = _
    rw [ih nodup.2]
    · rw [List.map_cons, entry, Finmap.toFinmap_cons, insert_union_new]
      rw [List.mem_map]
      rintro ⟨e, mem, same⟩
      obtain ⟨j, inside, rfl⟩ := List.mem_map.1 mem
      exact nodup.1 (same ▸ List.mem_map_of_mem (f := fun i => k.val i.1) inside)
    · intro z mem inserted
      rcases Finmap.mem_insert.1 inserted with same | old
      · exact nodup.1 (same ▸ List.mem_map_of_mem (f := fun i => k.val i.1) mem)
      · exact new z (List.mem_cons_of_mem _ mem) old

theorem items_roundTrips {d : Serializer v} (key : RoundTrips c)
    (value : RoundTrips d) : RoundTrips (items ar c d) := by
  intro x _
  have stored := insertItems_ok (m := ∅) x.2.2 fun _ _ => Finmap.notMem_empty
  rw [Finmap.union_empty] at stored
  have item : ∀ i ∈ x.1, Delimits (do
      let key ← c.picoDeserialize k.init
      let value ← d.picoDeserialize v.init
      return (key, value)) ((c.picoSerialize i.1 ++ d.picoSerialize i.2) ++ ·)
      (k.val i.1, v.val i.2) := fun i _ =>
    (key i.1 k.init).append ((value i.2 v.init).ret fun value => (k.val i.1, value))
  have body := Delimits.into item stored
  exact (delimits_size ar x.2.1).append (body.congr fun rest => foldr_append _ x.1 rest)

end

section
variable {k v : Carrier} {c : Serializer k} {d : Serializer v}

theorem pair_roundTrips (first : RoundTrips c) (second : RoundTrips d) : RoundTrips (pair c d) := by
  intro x y
  exact (first x.1 y.1).append ((second x.2 y.2).ret fun second => (k.val x.1, second))

theorem structEnd_roundTrips (tail : Nat) : RoundTrips (structEnd tail) := by
  intro _ _ _
  rfl

theorem field_roundTrips (pad : Nat) (member : RoundTrips c) (others : RoundTrips d) :
    RoundTrips (field pad c d) := by
  intro x y
  exact (member x.2.1 y.1).append ((others x.2.2 y.2).ret fun others => (k.val x.2.1, others))

end

section
variable (ar : ArchiveType)

mutual

theorem Ty.roundTrips : (t : Ty) → RoundTrips (t.serializer ar)
  | .arithmetic a => arithmetic_roundTrips ar a
  | .enum signed width => enum_roundTrips ar signed width
  | .string => string_roundTrips ar
  | .vector t => vector_roundTrips ar t.roundTrips
  | .vectorBool => vectorBool_roundTrips ar
  | .array t n => elements_roundTrips ar t.roundTrips n
  | .cArray t n => cArray_roundTrips ar t.roundTrips n.isLt
  | .deque t => sequence_roundTrips ar t.roundTrips
  | .valarray t => valarray_roundTrips ar t.roundTrips
  | .map k v => items_roundTrips ar k.roundTrips v.roundTrips
  | .unorderedMap k v => items_roundTrips ar k.roundTrips v.roundTrips
  | .hashTable k v => items_roundTrips ar k.roundTrips v.roundTrips
  | .set k => keys_roundTrips ar k.roundTrips
  | .unorderedSet k => keys_roundTrips ar k.roundTrips
  | .pair a b => pair_roundTrips a.roundTrips b.roundTrips
  | .tuple ts => ts.roundTrips
  | .archive => archive_roundTrips ar
  | .struct fields => fields.roundTrips

theorem Tys.roundTrips : (ts : Tys) → RoundTrips (ts.serializer ar)
  | .nil => structEnd_roundTrips 1
  | .cons t ts => pair_roundTrips t.roundTrips ts.roundTrips

theorem Fields.roundTrips : (fields : Fields) → RoundTrips (fields.serializer ar)
  | .nil tail => structEnd_roundTrips tail
  | .cons pad t fields => field_roundTrips pad t.roundTrips fields.roundTrips

end

abbrev Written := (t : Ty) × t.carrier.Obj × t.carrier.Val

abbrev Read := (t : Ty) × t.carrier.Val

theorem delimits_all (xs : List Written) : Delimits (readAll ar (xs.map fun x => ⟨x.1, x.2.2⟩))
      (writeAll ar (xs.map fun x => ⟨x.1, x.2.1⟩) ++ ·)
      (xs.map fun x => ⟨x.1, x.1.carrier.val x.2.1⟩) := by
  induction xs with
  | nil => exact Delimits.pure _
  | cons x xs ih =>
    have others := ih.ret fun others => (⟨x.1, x.1.carrier.val x.2.1⟩ : Read) :: others
    exact (x.1.roundTrips ar x.2.1 x.2.2).append others

end

end Prpc.Archive
