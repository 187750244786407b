import Mathlib.Data.Finmap
import Mathlib.Data.Finset.Dedup
import Prpc.Common.LexicalCast
import Prpc.Lib.Bytes

/-!
A type comes with its objects, as they lie in memory, and with the values these stand for: the order
in which a hash table is walked, the padding of a struct and the read position of an archive belong
to the object only. A trivially copyable type also has a representation of fixed size.
-/

namespace Prpc.Archive
open Lib

structure Representation {Obj Val : Type} (val : Obj → Val) where
  size : Nat
  bytes : Obj → List Byte
  read : List Byte → Val
  bytes_length : ∀ x, (bytes x).length = size
  read_bytes : ∀ x, read (bytes x) = val x

structure Carrier where
  Obj : Type
  Val : Type
  decEq : DecidableEq Val
  init : Val
  val : Obj → Val
  rep : Option (Representation val)

instance (k : Carrier) : DecidableEq k.Val := k.decEq

inductive Arithmetic where
  | int (signed : Bool) (width : Width)
  | bool
  | char
  deriving DecidableEq

abbrev Arithmetic.Val : Arithmetic → Type
  | .int _ width => BitVec width.bits
  | .bool => Bool
  | .char => Byte

instance : (a : Arithmetic) → DecidableEq a.Val
  | .int _ _ => inferInstanceAs (DecidableEq (BitVec _))
  | .bool => inferInstanceAs (DecidableEq Bool)
  | .char => inferInstanceAs (DecidableEq Byte)

def Arithmetic.init : (a : Arithmetic) → a.Val
  | .int _ _ => 0#_
  | .bool => false
  | .char => (0 : Byte)

def wordRep (width : Width) : Representation (id : BitVec width.bits → BitVec width.bits) where
  size := width.bytes
  bytes x := leBytes width.bytes x.toNat
  read bs := BitVec.ofNat _ (leNat bs)
  bytes_length _ := leBytes_length _ _
  read_bytes x := ofNat_leNat_leBytes x

def Arithmetic.rep : (a : Arithmetic) → Representation (id : a.Val → a.Val)
  | .int _ width => wordRep width
  | .bool =>
    { size := 1
      bytes := fun (b : Bool) => [if b then 1 else 0]
      read := fun bs => bs != [0]
      bytes_length := fun _ => rfl
      read_bytes := by decide }
  | .char =>
    { size := 1
      bytes := fun (c : Byte) => [c]
      read := fun bs => bs.headD 0
      bytes_length := fun _ => rfl
      read_bytes := fun _ => rfl }

abbrev Arithmetic.carrier (a : Arithmetic) : Carrier where
  Obj := a.Val
  Val := a.Val
  decEq := inferInstance
  init := a.init
  val := id
  rep := some a.rep

def EnumFits (signed : Bool) {n : Nat} (x : BitVec n) : Prop :=
  if signed then -2 ^ 31 ≤ x.toInt ∧ x.toInt < 2 ^ 31 else x.toNat < 2 ^ 31

namespace Carrier

abbrev enum (signed : Bool) (width : Width) : Carrier where
  Obj := {x : BitVec width.bits // EnumFits signed x}
  Val := BitVec width.bits
  decEq := inferInstance
  init := 0#_
  val := Subtype.val
  rep := some
    { size := width.bytes
      bytes := fun x => (wordRep width).bytes x.1
      read := (wordRep width).read
      bytes_length := fun x => (wordRep width).bytes_length x.1
      read_bytes := fun x => (wordRep width).read_bytes x.1 }

abbrev Sized (α : Type) := {l : List α // l.length < 2 ^ 64}

abbrev list (k : Carrier) : Carrier where
  Obj := Sized k.Obj
  Val := List k.Val
  decEq := inferInstance
  init := []
  val x := x.1.map k.val
  rep := none

section
variable {k : Carrier} (rep : Representation k.val)

def arrayBytes (xs : List k.Obj) : List Byte := xs.flatMap rep.bytes

def readArray : Nat → List Byte → List k.Val
  | 0, _ => []
  | n + 1, bs => rep.read (bs.take rep.size) :: readArray n (bs.drop rep.size)

theorem arrayBytes_length (xs : List k.Obj) : (arrayBytes rep xs).length = rep.size * xs.length := by
  induction xs with
  | nil => rfl
  | cons x xs ih =>
    rw [arrayBytes, List.flatMap_cons, List.length_append, rep.bytes_length, ← arrayBytes, ih,
      List.length_cons, Nat.mul_succ, Nat.add_comm]

theorem readArray_arrayBytes (xs : List k.Obj) :
    readArray rep xs.length (arrayBytes rep xs) = xs.map k.val := by
  induction xs with
  | nil => rfl
  | cons x xs ih =>
    have len := rep.bytes_length x
    rw [arrayBytes, List.flatMap_cons, ← arrayBytes, List.length_cons, readArray,
      List.take_append_of_le_length (by omega), List.take_of_length_le (by omega),
      rep.read_bytes, List.drop_append_of_le_length (by omega), List.drop_of_length_le (by omega),
      List.nil_append, ih, List.map_cons]

theorem readArray_length (n : Nat) (bs : List Byte) : (readArray rep n bs).length = n := by
  induction n generalizing bs with
  | zero => rfl
  | succ n ih => simp [readArray, ih]

end

abbrev Of (n : Nat) (α : Type) := {l : List α // l.length = n}

abbrev array (k : Carrier) (n : Nat) : Carrier where
  Obj := Of n k.Obj
  Val := Of n k.Val
  decEq := inferInstance
  init := ⟨List.replicate n k.init, List.length_replicate⟩
  val x := ⟨x.1.map k.val, by rw [List.length_map, x.2]⟩
  rep := k.rep.map fun rep =>
    { size := rep.size * n
      bytes := fun x => arrayBytes rep x.1
      read := fun bs => ⟨readArray rep n bs, readArray_length rep n bs⟩
      bytes_length := fun x => by rw [arrayBytes_length, x.2]
      read_bytes := fun x => Subtype.ext <| by
        have read := readArray_arrayBytes rep x.1
        rwa [x.2] at read }

/-- Distinct keys, in the order of a walk over the container. -/
abbrev set (k : Carrier) : Carrier where
  Obj := {l : List k.Obj // l.length < 2 ^ 64 ∧ (l.map k.val).Nodup}
  Val := Finset k.Val
  decEq := inferInstance
  init := ∅
  val x := (x.1.map k.val).toFinset
  rep := none

abbrev map (k v : Carrier) : Carrier where
  Obj := {l : List (k.Obj × v.Obj) // l.length < 2 ^ 64 ∧ (l.map fun i => k.val i.1).Nodup}
  Val := Finmap fun _ : k.Val => v.Val
  decEq := inferInstance
  init := ∅
  val x := (x.1.map fun i => (⟨k.val i.1, v.val i.2⟩ : (_ : k.Val) × v.Val)).toFinmap
  rep := none

/-- `std::pair` has its own assignment operator, so it is not trivially copyable. -/
abbrev pair (a b : Carrier) : Carrier where
  Obj := a.Obj × b.Obj
  Val := a.Val × b.Val
  decEq := inferInstance
  init := (a.init, b.init)
  val x := (a.val x.1, b.val x.2)
  rep := none

structure Memory where
  bytes : List Byte
  position : Nat
  deriving DecidableEq

/-- An archive stands for the bytes in it, read from the start. -/
abbrev archive : Carrier where
  Obj := {m : Memory // m.position ≤ m.bytes.length ∧ m.bytes.length < 2 ^ 64}
  Val := Memory
  decEq := inferInstance
  init := ⟨[], 0⟩
  val x := ⟨x.1.bytes, 0⟩
  rep := none

/-- The end of a struct and the bytes that fill it up; an empty class takes one byte. -/
abbrev structEnd (tail : Nat) : Carrier where
  Obj := Of tail Byte
  Val := Unit
  decEq := inferInstance
  init := ()
  val _ := ()
  rep := some
    { size := tail
      bytes := Subtype.val
      read := fun _ => ()
      bytes_length := Subtype.property
      read_bytes := fun _ => rfl }

abbrev field (pad : Nat) (k rest : Carrier) : Carrier where
  Obj := Of pad Byte × k.Obj × rest.Obj
  Val := k.Val × rest.Val
  decEq := inferInstance
  init := (k.init, rest.init)
  val x := (k.val x.2.1, rest.val x.2.2)
  rep :=
    match k.rep, rest.rep with
    | some rep, some others => some
        { size := pad + rep.size + others.size
          bytes := fun x => x.1.1 ++ rep.bytes x.2.1 ++ others.bytes x.2.2
          read := fun bs =>
            (rep.read ((bs.drop pad).take rep.size), others.read (bs.drop (pad + rep.size)))
          bytes_length := fun x => by
            rw [List.length_append, List.length_append, x.1.2, rep.bytes_length, others.bytes_length]
          read_bytes := fun x => by
            have pads := x.1.2
            have len := rep.bytes_length x.2.1
            have member : ((x.1.1 ++ rep.bytes x.2.1 ++ others.bytes x.2.2).drop pad).take
                rep.size = rep.bytes x.2.1 := by
              rw [List.append_assoc, List.drop_left' pads, List.take_left' len]
            have after : (x.1.1 ++ rep.bytes x.2.1 ++ others.bytes x.2.2).drop
                (pad + rep.size) = others.bytes x.2.2 :=
              List.drop_left' (by rw [List.length_append, pads, len])
            rw [member, after, rep.read_bytes, others.read_bytes] }
    | _, _ => none

end Carrier

mutual

/-- `vector` is for elements other than `bool`: `std::vector<bool>` is a type of its own. -/
inductive Ty where
  | arithmetic (a : Arithmetic)
  | enum (signed : Bool) (width : Width)
  | string
  | vector (t : Ty)
  | vectorBool
  | array (t : Ty) (n : Nat)
  | cArray (t : Ty) (n : Fin (2 ^ 64))
  | deque (t : Ty)
  | valarray (t : Ty)
  | map (k v : Ty)
  | unorderedMap (k v : Ty)
  | hashTable (k v : Ty)
  | set (k : Ty)
  | unorderedSet (k : Ty)
  | pair (a b : Ty)
  | tuple (ts : Tys)
  | archive
  | struct (fields : Fields)

inductive Tys where
  | nil
  | cons (t : Ty) (ts : Tys)

inductive Fields where
  | nil (tail : Nat)
  | cons (pad : Nat) (t : Ty) (fields : Fields)

end

mutual

def Ty.carrier : Ty → Carrier
  | .arithmetic a => a.carrier
  | .enum signed width => .enum signed width
  | .string => .list (Arithmetic.carrier .char)
  | .vector t => .list t.carrier
  | .vectorBool => .list (Arithmetic.carrier .bool)
  | .array t n => .array t.carrier n
  | .cArray t n => .array t.carrier n
  | .deque t => .list t.carrier
  | .valarray t => .list t.carrier
  | .map k v => .map k.carrier v.carrier
  | .unorderedMap k v => .map k.carrier v.carrier
  | .hashTable k v => .map k.carrier v.carrier
  | .set k => .set k.carrier
  | .unorderedSet k => .set k.carrier
  | .pair a b => .pair a.carrier b.carrier
  | .tuple ts => ts.carrier
  | .archive => .archive
  | .struct fields => fields.carrier

def Tys.carrier : Tys → Carrier
  | .nil => .structEnd 1
  | .cons t ts => .pair t.carrier ts.carrier

def Fields.carrier : Fields → Carrier
  | .nil tail => .structEnd tail
  | .cons pad t fields => .field pad t.carrier fields.carrier

end

end Prpc.Archive
