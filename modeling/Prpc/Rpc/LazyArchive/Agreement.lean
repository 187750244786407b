import Prpc.Rpc.LazyArchive.Model

namespace Prpc.Archive
open Lib

def Whole (blocks : List DataBlock) : Prop := ∀ b ∈ blocks, b.data.length < 2 ^ 32

theorem Whole.left {bs cs : List DataBlock} (whole : Whole (bs ++ cs)) : Whole bs := fun b mem =>
  whole b (List.mem_append_left _ mem)

theorem Whole.right {bs cs : List DataBlock} (whole : Whole (bs ++ cs)) : Whole cs := fun b mem =>
  whole b (List.mem_append_right _ mem)

theorem content_putSharedUncheck {bytes : List Byte} (small : bytes.length < 2 ^ 32) :
    (putSharedUncheck bytes).content = bytes := by
  rw [DataBlock.content, putSharedUncheck, Nat.mod_eq_of_lt small, List.take_length]

namespace Lazy

theorem both_assoc (a b c : Input) : both (both a b) c = both a (both b c) := by
  simp [both]

theorem delimits_both {α β : Type} {read : Reader Input α} {next : α → Reader Input β}
    {w₁ w₂ : Input} {a : α} {b : β} (first : Delimits read (both w₁) a)
    (second : Delimits (next a) (both w₂) b) :
    Delimits (read >>= next) (both (both w₁ w₂)) b :=
  (first.bind second).congr fun rest => (both_assoc w₁ w₂ rest).symm

theorem foldr_both {α : Type} (write : α → Input) (xs : List α) (rest : Input) :
    xs.foldr (fun x rest => both (write x) rest) rest = both (eachOf write xs) rest := by
  induction xs with
  | nil => rfl
  | cons x xs ih =>
    rw [List.foldr_cons, ih, ← both_assoc]
    rfl

theorem delimits_fromMeta {α : Type} {read : Reader (List Byte) α} {w : List Byte} {a : α}
    (delimits : Delimits read (w ++ ·) a) : Delimits (fromMeta read) (both (w, [])) a := by
  intro rest
  change (read (w ++ rest.1)).map _ = _
  rw [delimits rest.1]
  rfl

theorem delimits_shared {bytes : List Byte} {n sizeof : Nat} (pos : 0 < sizeof)
    (len : bytes.length = sizeof * n) (small : bytes.length < 2 ^ 32) :
    Delimits (getSharedUncheck sizeof) (both ([], [putSharedUncheck bytes])) (n, bytes) := by
  intro rest
  have length : (putSharedUncheck bytes).length = n * sizeof := by
    rw [putSharedUncheck, Nat.mod_eq_of_lt small, len, Nat.mul_comm]
  have size : (putSharedUncheck bytes).length / sizeof = n := by
    rw [length, Nat.mul_div_cancel n pos]
  change (if (putSharedUncheck bytes).length =
    (putSharedUncheck bytes).length / sizeof * sizeof then _ else none) = _
  rw [size, if_pos length, content_putSharedUncheck small]
  rfl

def RoundTrips {k : Carrier} (c : LazySerializer k) : Prop :=
  ∀ x y, Whole (c.picoSerialize x).2 → Delimits (c.picoDeserialize y) (both (c.picoSerialize x)) (k.val x)

theorem binary_roundTrips (b : BinaryType) : RoundTrips (binary b) := by
  intro x y _
  exact delimits_fromMeta (b.roundTrips x y)

theorem block_roundTrips : RoundTrips block := by
  intro x _ whole
  have small := whole _ (List.mem_singleton_self _)
  exact (delimits_shared Nat.one_pos (Nat.one_mul _).symm small).ret Prod.snd

theorem archive_roundTrips : RoundTrips archive := by
  intro x _ whole
  have small := whole _ (List.mem_singleton_self _)
  exact (delimits_shared Nat.one_pos (Nat.one_mul _).symm small).ret
    fun data => (⟨data.2, 0⟩ : Carrier.Memory)

section
variable {k v : Carrier} {c : LazySerializer k}

theorem vector_roundTrips (round : RoundTrips c) (pos : ∀ rep, k.rep = some rep → 0 < rep.size) :
    RoundTrips (vector c) := by
  unfold vector
  split
  · rename_i rep trivial
    intro x _ whole
    have small := whole _ (List.mem_singleton_self _)
    have body := (delimits_shared (pos rep trivial) (Carrier.arrayBytes_length rep x.1) small).ret
      fun data => Carrier.readArray rep data.1 data.2
    simp only [Carrier.readArray_arrayBytes] at body
    exact body
  · intro x y whole
    have len : (x.1.map k.val).length = (resized y x.1.length).length := by
      rw [List.length_map, resized_length]
    have each : ∀ i ∈ x.1, ∀ z, Delimits (c.picoDeserialize z) (both (c.picoSerialize i))
        (k.val i) := by
      intro i mem z
      apply round i z
      intro b inside
      exact whole b (List.mem_flatMap.2 ⟨i, mem, inside⟩)
    have body := ((Delimits.each each len).congr (foldr_both _ x.1)).ret Subtype.val
    exact delimits_both (delimits_fromMeta (delimits_size .binary x.2)) body

theorem map_roundTrips (b : BinaryType) {d : LazySerializer v} (round : RoundTrips d) :
    RoundTrips (map b d) := by
  intro x _ whole
  have stored := insertItems_ok (m := ∅) x.2.2 fun _ _ => Finmap.notMem_empty
  rw [Finmap.union_empty] at stored
  have item : ∀ i ∈ x.1, Delimits (do
      let key ← fromMeta (b.serializer.picoDeserialize b.carrier.init)
      let value ← d.picoDeserialize v.init
      return (key, value)) (both (both (b.serializer.picoSerialize i.1, []) (d.picoSerialize i.2)))
      (b.carrier.val i.1, v.val i.2) := by
    intro i mem
    have value := round i.2 v.init fun block inside =>
      whole block (List.mem_flatMap.2 ⟨i, mem, inside⟩)
    exact delimits_both (delimits_fromMeta (b.roundTrips i.1 b.carrier.init))
      (value.ret fun value => (b.carrier.val i.1, value))
  have body := (Delimits.into item stored).congr (foldr_both _ x.1)
  exact delimits_both (delimits_fromMeta (delimits_size .binary x.2.1)) body

theorem pair_roundTrips {d : LazySerializer v} (first : RoundTrips c) (second : RoundTrips d) :
    RoundTrips (pair c d) := by
  intro x y whole
  exact delimits_both (first x.1 y.1 whole.left)
    ((second x.2 y.2 whole.right).ret fun second => (k.val x.1, second))

end

section
variable {T : Type} (bin : T → BinaryType)

theorem sizeof_pos (t : LazyType T) : ∀ rep, (t.carrier bin).rep = some rep → 0 < rep.size := by
  cases t with
  | binary t => exact (bin t).sizeof_pos
  | block | archive | vector t | map k v | pair a b =>
    intro rep trivial
    cases trivial

theorem length_of_mem_picoSerialize (t : LazyType T) (x : (t.carrier bin).Obj) :
    ∀ b ∈ ((t.serializer bin).picoSerialize x).2, b.length = b.data.length % 2 ^ 32 := by
  induction t with
  | binary t => exact fun _ mem => absurd mem List.not_mem_nil
  | block | archive =>
    intro b mem
    rw [List.mem_singleton.1 mem]
    rfl
  | vector t ih =>
    change ∀ b ∈ ((vector (t.serializer bin)).picoSerialize x).2, _
    unfold vector
    split
    · intro b mem
      rw [List.mem_singleton.1 mem]
      rfl
    · intro b mem
      obtain ⟨i, -, inside⟩ := List.mem_flatMap.1 mem
      exact ih i b inside
  | map k v ih =>
    intro b mem
    obtain ⟨i, -, inside⟩ := List.mem_flatMap.1 mem
    exact ih i.2 b inside
  | pair a c iha ihc =>
    intro b mem
    rcases List.mem_append.1 mem with first | second
    · exact iha x.1 b first
    · exact ihc x.2 b second

theorem type_roundTrips (t : LazyType T) : RoundTrips (t.serializer bin) := by
  induction t with
  | binary t => exact binary_roundTrips (bin t)
  | block => exact block_roundTrips
  | archive => exact archive_roundTrips
  | vector t ih => exact vector_roundTrips ih (sizeof_pos bin t)
  | map k v ih => exact map_roundTrips (bin k) ih
  | pair a b iha ihb => exact pair_roundTrips iha ihb

end

end Lazy

namespace LazyArchive
variable {T : Type} [DecidableEq T] {bin : T → BinaryType}

abbrev Entry (bin : T → BinaryType) :=
  (t : LazyType T) × (t.carrier bin).Obj × (t.carrier bin).Val × (t.carrier bin).Val

namespace Entry

def item (e : Entry bin) : Item bin := ⟨e.1, e.2.1⟩
def inProcess (e : Entry bin) : Target bin := ⟨e.1, e.2.2.1⟩
def onWire (e : Entry bin) : Target bin := ⟨e.1, e.2.2.2⟩
def result (e : Entry bin) : Target bin := ⟨e.1, (e.1.carrier bin).val e.2.1⟩

end Entry

variable {a : LazyArchive bin}

theorem getAll_inProcess (idle : a.ar = [] ∧ a.pos = a.data.length)
    (es : List (Entry bin)) {later : List (Item bin)}
    (stored : a.lazy.drop a.cur = es.map Entry.item ++ later) :
    a.getAll (es.map Entry.inProcess) = some (es.map Entry.result, { a with cur := a.cur + es.length }) := by
  induction es generalizing a with
  | nil => rfl
  | cons e es ih =>
    have first : a.lazy[a.cur]? = some e.item := by
      rw [← List.head?_drop, stored]
      rfl
    have others : a.lazy.drop (a.cur + 1) = es.map Entry.item ++ later := by
      rw [← List.drop_drop, stored]
      rfl
    have got : a.get e.inProcess = some (e.result, { a with cur := a.cur + 1 }) := by
      rw [get, if_pos idle, first]
      exact if_pos rfl
    have rest := ih (a := { a with cur := a.cur + 1 }) idle others
    rw [List.map_cons, getAll, got]
    change Option.bind (getAll { a with cur := a.cur + 1 } _) _ = _
    rw [rest, List.map_cons, List.length_cons, Nat.add_comm es.length, ← Nat.add_assoc]
    rfl

def written (es : List (Entry bin)) : Input :=
  Lazy.eachOf (fun i : Item bin => (i.1.serializer bin).picoSerialize i.2) (es.map Entry.item)

def left (a : LazyArchive bin) : Input := (a.ar, a.data.drop a.pos)

omit [DecidableEq T] in
theorem moveOn_left (a : LazyArchive bin) : a.moveOn a.left = a := by
  simp [moveOn, left]

omit [DecidableEq T] in
theorem left_moveOn {w rest : Input} (unread : a.left = Lazy.both w rest)
    (more : rest.2 ≠ []) :
    (a.moveOn rest).left = rest ∧ ∀ later : Input, later.2.length ≤ rest.2.length →
      (a.moveOn rest).moveOn later = a.moveOn later := by
  have blocks : a.data.drop a.pos = w.2 ++ rest.2 := congrArg Prod.snd unread
  have inside : a.pos ≤ a.data.length := by
    by_contra past
    rw [List.drop_of_length_le (by omega)] at blocks
    exact more (List.append_eq_nil_iff.1 blocks.symm).2
  have used : (a.data.drop a.pos).length - rest.2.length = w.2.length := by
    rw [blocks, List.length_append, Nat.add_sub_cancel]
  have taken : (a.data.take a.pos ++ List.replicate w.2.length DataBlock.moved).length =
      a.pos + w.2.length := by
    rw [List.length_append, List.length_take, List.length_replicate, Nat.min_eq_left inside]
  have moved : a.moveOn rest = { a with
      ar := rest.1
      data := a.data.take a.pos ++ List.replicate w.2.length .moved ++ rest.2
      pos := a.pos + w.2.length } := by
    rw [moveOn, used]
  refine ⟨?_, ?_⟩
  · rw [moved, left, List.drop_left' taken]
  · intro later le
    have total : (a.data.drop a.pos).length - later.2.length =
        w.2.length + (rest.2.length - later.2.length) := by
      rw [blocks, List.length_append]
      omega
    rw [moved]
    simp only [moveOn, total, List.drop_left' taken, List.take_left' taken]
    simp only [List.append_assoc, Nat.add_assoc, List.replicate_add]

theorem get_onWire {t : LazyType T} {x : (t.carrier bin).Obj}
    (z : (t.carrier bin).Val) {rest : Input}
    (whole : Whole ((t.serializer bin).picoSerialize x).2)
    (unread : a.left = Lazy.both ((t.serializer bin).picoSerialize x) rest) (more : rest.2 ≠ []) :
    a.get ⟨t, z⟩ = some (⟨t, (t.carrier bin).val x⟩, a.moveOn rest) := by
  have blocks : a.data.drop a.pos = ((t.serializer bin).picoSerialize x).2 ++ rest.2 :=
    congrArg Prod.snd unread
  have busy : ¬(a.ar = [] ∧ a.pos = a.data.length) := by
    rintro ⟨-, done⟩
    rw [done, List.drop_length] at blocks
    exact more (List.append_eq_nil_iff.1 blocks.symm).2
  have read := Lazy.type_roundTrips bin t x z whole rest
  rw [← unread, left] at read
  rw [get, if_neg busy, read]

theorem getAll_onWire (es : List (Entry bin)) {last : DataBlock}
    (whole : Whole (written es).2) (unread : a.left = Lazy.both (written es) ([], [last])) :
    a.getAll (es.map Entry.onWire) = some (es.map Entry.result, a.moveOn ([], [last])) := by
  induction es generalizing a with
  | nil =>
    have all : a.left = ([], [last]) := unread
    rw [← all, moveOn_left]
    rfl
  | cons e es ih =>
    obtain ⟨t, x, y, z⟩ := e
    have split : written (⟨t, x, y, z⟩ :: es) =
        Lazy.both ((t.serializer bin).picoSerialize x) (written es) := rfl
    rw [split] at whole unread
    rw [Lazy.both_assoc] at unread
    obtain ⟨left, onward⟩ := left_moveOn unread (by simp [Lazy.both])
    have got := get_onWire z whole.left unread (by simp [Lazy.both])
    have rest := ih whole.right left
    rw [onward _ (by simp [Lazy.both])] at rest
    rw [List.map_cons, getAll, show Entry.onWire ⟨t, x, y, z⟩ = ⟨t, z⟩ from rfl, got]
    change Option.bind (getAll _ _) _ = _
    rw [rest]
    rfl

def filled (es : List (Entry bin)) : LazyArchive bin := (es.map Entry.item).foldl put {}

omit [DecidableEq T] in
theorem foldl_put (a : LazyArchive bin) (items : List (Item bin)) :
    items.foldl put a = { a with lazy := a.lazy ++ items } := by
  induction items generalizing a with
  | nil => simp
  | cons i items ih =>
    rw [List.foldl_cons, ih]
    simp [put]

omit [DecidableEq T] in
theorem map_copy {blocks : List DataBlock}
    (full : ∀ b ∈ blocks, b.length = b.data.length) : blocks.map DataBlock.copy = blocks := by
  conv => rhs; rw [← List.map_id blocks]
  apply List.map_congr_left
  intro b mem
  have content : b.content = b.data := by rw [DataBlock.content, full b mem, List.take_length]
  rw [DataBlock.copy, content, id_eq]

def blocksOf (es : List (Entry bin)) : List DataBlock := (written es).2 ++ [putSharedUncheck (written es).1]

section
variable {es : List (Entry bin)} (shared : Whole (written es).2)
  (small : (written es).1.length < 2 ^ 32)

omit [DecidableEq T] in
include shared small in
theorem copy_blocksOf : (blocksOf es).map DataBlock.copy = blocksOf es := by
  apply map_copy
  intro b mem
  rcases List.mem_append.1 mem with block | last
  · obtain ⟨i, -, inside⟩ := List.mem_flatMap.1 block
    rw [Lazy.length_of_mem_picoSerialize bin i.1 i.2 b inside, Nat.mod_eq_of_lt (shared b block)]
  · rw [List.mem_singleton.1 last]
    exact Nat.mod_eq_of_lt small

include shared small in
theorem getAll_attach (receiver : LazyArchive bin) :
    (receiver.attach (blocksOf es)).getAll (es.map Entry.onWire) = some (es.map Entry.result,
        (receiver.attach (blocksOf es)).moveOn ([], [putSharedUncheck (written es).1])) := by
  apply getAll_onWire es shared
  have last : (blocksOf es).getLast? = some (putSharedUncheck (written es).1) := by
    rw [blocksOf, List.getLast?_concat]
  simp only [left, attach, last, content_putSharedUncheck small, List.drop_zero, Lazy.both, List.append_nil]
  rfl

end

omit [DecidableEq T] in
theorem apply_of_cur {es : List (Entry bin)} (idle : a.data = [])
    (stored : a.lazy.drop a.cur = es.map Entry.item) (some : a.lazy ≠ []) :
    a.apply.1 = blocksOf es := by
  rw [apply, if_neg some, serialized, stored, idle]
  rfl

/-- Whatever was read in the process first, the other values come out the same in the process and
from copies of the blocks, and all blocks but the meta block are used up. -/
theorem lazy_paths_agree (bin : T → BinaryType) (es : List (Entry bin)) (k : Nat)
    (receiver : LazyArchive bin) (shared : Whole (written (es.drop k)).2)
    (small : (written (es.drop k)).1.length < 2 ^ 32) :
    ∃ a : LazyArchive bin, (filled es).getAll ((es.take k).map Entry.inProcess) =
        some ((es.take k).map Entry.result, a) ∧
      (∃ a', a.getAll ((es.drop k).map Entry.inProcess) = some ((es.drop k).map Entry.result, a')) ∧
      ∃ b, (receiver.attach (a.apply.1.map DataBlock.copy)).getAll
            ((es.drop k).map Entry.onWire) = some ((es.drop k).map Entry.result, b) ∧
        b.pos = a.apply.1.length - 1 ∧
        b.data.take b.pos = List.replicate b.pos .moved ∧
        b.data.drop b.pos = a.apply.1.drop b.pos := by
  have start : filled es = { lazy := es.map Entry.item } := foldl_put _ _
  have stored : (es.map Entry.item).drop 0 = (es.take k).map Entry.item ++ (es.drop k).map Entry.item := by
    rw [List.drop_zero, ← List.map_append, List.take_append_drop]
  have first := getAll_inProcess (a := { lazy := es.map Entry.item }) ⟨rfl, rfl⟩ (es.take k) stored
  have remaining : (es.map Entry.item).drop (0 + (es.take k).length) = (es.drop k).map Entry.item := by
    rw [← List.map_drop, Nat.zero_add, List.length_take]
    rcases Nat.le_total k es.length with le | le
    · rw [Nat.min_eq_left le]
    · rw [Nat.min_eq_right le, List.drop_length, List.drop_of_length_le le]
  rw [start]
  refine ⟨_, first, ⟨_, getAll_inProcess ⟨rfl, rfl⟩ (es.drop k) (remaining.trans
    (List.append_nil _).symm)⟩, ?_⟩
  by_cases none : es = []
  · subst none
    refine ⟨receiver.attach [], ?_, rfl, rfl, rfl⟩
    rw [List.drop_nil]
    rfl
  · have some : es.map Entry.item ≠ [] := by simpa using none
    rw [apply_of_cur rfl remaining some, copy_blocksOf shared small]
    refine ⟨_, getAll_attach shared small receiver, ?_⟩
    have used : (blocksOf (es.drop k)).length - 1 = (written (es.drop k)).2.length := by
      simp [blocksOf]
    simp only [moveOn, attach, List.drop_zero, List.take_zero, List.nil_append, Nat.zero_add,
      List.length_singleton, used, List.take_left' List.length_replicate,
      List.drop_left' List.length_replicate, true_and]
    rw [blocksOf, List.drop_left]

def intOrString : Bool → BinaryType
  | false => (Ty.arithmetic (.int true .w32)).binaryType fun _ same => by cases same; decide
  | true => Ty.string.binaryType fun _ same => by cases same

def sample : List (Entry intOrString) :=
  [⟨.binary true, ⟨[104, 105], by decide⟩, [], []⟩,
    ⟨.vector (.binary false), ⟨[1#32, 2#32], by decide⟩, [7#32], []⟩,
    ⟨.vector (.pair (.binary false) .block), ⟨[(3#32, ⟨⟨[9], 1⟩, by decide⟩)], by decide⟩, [], []⟩]

theorem lazy_paths_agree_sample :
    Whole (written (sample.drop 1)).2 ∧ (written (sample.drop 1)).1.length < 2 ^ 32 ∧
    ∃ a : LazyArchive intOrString, (filled sample).getAll ((sample.take 1).map Entry.inProcess) =
        some ((sample.take 1).map Entry.result, a) ∧
      (∃ a', a.getAll ((sample.drop 1).map Entry.inProcess) = some ((sample.drop 1).map Entry.result, a')) ∧
      ∃ b, (attach {} (a.apply.1.map DataBlock.copy)).getAll
            ((sample.drop 1).map Entry.onWire) = some ((sample.drop 1).map Entry.result, b) ∧
        b.pos = a.apply.1.length - 1 ∧
        b.data.take b.pos = List.replicate b.pos .moved ∧
        b.data.drop b.pos = a.apply.1.drop b.pos :=
  have shared : Whole (written (sample.drop 1)).2 := by unfold Whole; decide
  have small : (written (sample.drop 1)).1.length < 2 ^ 32 := by decide
  ⟨shared, small, lazy_paths_agree intOrString sample 1 {} shared small⟩

end LazyArchive

end Prpc.Archive
