import Mathlib.Logic.Function.Basic
import Prpc.Common.Numerals
import Prpc.Lib.Transition

/-!
Every call of `MemoryStorage` holds its lock. The nodes of the tree are given by their paths from the
root, which is no node that a path leads to.
-/

namespace Prpc.MemoryStorage
open Lib Function

abbrev Path := List (List Char)

inductive OpenStatus where
  | closed | read | write
  deriving DecidableEq

/-- `tree_t` without its `nodes`. A value is the type and the number of an object. -/
structure Node (X : Type) where
  value : Option (X × Nat) := none
  status : OpenStatus := .closed
  readCnt : Int := 0

def Node.close {X : Type} (node : Node X) : Node X :=
  match node.status with
  | .write => { node with status := .closed }
  | .read =>
    if node.readCnt = 0 then { node with status := .closed }
    else
      let node := { node with readCnt := int32 (node.readCnt - 1) }
      if node.readCnt = 0 then { node with status := .closed } else node
  | .closed => node

structure Storage (X : Type) where
  nodes : Path → Option (Node X)
  made : Nat
  parent : ∀ path name, path ≠ [] → nodes path = none → nodes (path ++ [name]) = none

def isSeparator (c : Char) : Bool := c = '/' || c = '\\'

def isTrimmed (c : Char) : Bool := isSeparator c || c = '\r' || c = '\n' || c = '\t' || c = ' '

def trim (path : List Char) : List Char := ((path.dropWhile isTrimmed).reverse.dropWhile isTrimmed).reverse

def splitPath (path : List Char) : Path :=
  -- separators are compressed, and there are none at the ends
  match ((trim path).splitOnP isSeparator).filter (· ≠ []) with
  | [] => [[]]
  | paths => paths

inductive Call (X : Type) where
  | openRead (type : X) (name : List Char)
  | openWrite (type : X) (name : List Char) (truncate : Bool)
  | close (name : List Char)
  | mkdirP (name : List Char)
  | rmr (name : List Char)

inductive Result where
  | pointer (object : Nat)
  | null
  | thrown
  | returned (b : Bool)
  deriving DecidableEq

namespace Storage
variable {X : Type}

def initial : Storage X := ⟨fun _ => none, 0, fun _ _ _ _ => rfl⟩

def modify (s : Storage X) (path : Path) (f : Node X → Node X) : Storage X where
  nodes q := if q = path then (s.nodes q).map f else s.nodes q
  made := s.made
  parent q name ne absent := by
    have before : s.nodes q = none := by
      split at absent
      · exact Option.map_eq_none_iff.1 absent
      · exact absent
    simp [s.parent q name ne before]

def createTree (s : Storage X) (path : Path) : Storage X × Bool :=
  if (s.nodes path).isSome then (s, false)
  else
    ({ nodes := fun q => if s.nodes q = none ∧ q ≠ [] ∧ q <+: path then some {} else s.nodes q
       made := s.made
       parent := fun q name ne absent => by
        split at absent
        · cases absent
        · rename_i old
          rw [s.parent q name ne absent, if_neg]
          rintro ⟨-, -, longer⟩
          exact old ⟨absent, ne, (List.prefix_append q [name]).trans longer⟩ }, true)

def deleteTree (s : Storage X) (path : Path) : Storage X × Bool :=
  if (s.nodes path).isNone then (s, false)
  else
    ({ nodes := fun q => if path <+: q then none else s.nodes q
       made := s.made
       parent := fun q name ne absent => by
        split at absent
        · rename_i inside
          rw [if_pos (inside.trans (List.prefix_append q [name]))]
        · rw [s.parent q name ne absent, ite_self] }, true)

variable [DecidableEq X]

def openRead (s : Storage X) (type : X) (name : List Char) : Storage X × Result :=
  match s.nodes (splitPath name) with
  | none => (s, .null)
  | some node =>
    if node.status = .write then (s, .null)
    else
      match node.value with
      | some (held, object) =>
        if held = type then
          (s.modify (splitPath name) fun node =>
            { node with status := .read, readCnt := int32 (node.readCnt + 1) }, .pointer object)
        else (s, .null)
      | none => (s, .null)

def openWrite (s : Storage X) (type : X) (name : List Char) (truncate : Bool) : Storage X × Result :=
  let s := (s.createTree (splitPath name)).1
  match s.nodes (splitPath name) with
  | none => (s, .null)
  | some node =>
    if node.status ≠ .closed then (s, .null)
    else if truncate ∨ node.value = none then
      ({ s.modify (splitPath name) fun node =>
          { node with value := some (type, s.made), status := .write } with made := s.made + 1 },
        .pointer s.made)
    else
      -- the status is set before the cast
      let s := s.modify (splitPath name) fun node => { node with status := .write }
      match node.value with
      | some (held, object) => if held = type then (s, .pointer object) else (s, .thrown)
      | none => (s, .thrown)

def close (s : Storage X) (name : List Char) : Storage X := s.modify (splitPath name) Node.close

def call (s : Storage X) : Call X → Storage X × Result
  | .openRead type name => s.openRead type name
  | .openWrite type name truncate => s.openWrite type name truncate
  | .close name => (s.close name, .returned true)
  | .mkdirP name =>
    let (s, created) := s.createTree (splitPath name)
    (s, .returned created)
  | .rmr name =>
    let (s, deleted) := s.deleteTree (splitPath name)
    (s, .returned deleted)

end Storage

/-- The opens of a node that returned a pointer and were not closed. -/
structure Opens where
  writer : Bool
  readers : Nat
  deriving DecidableEq

def Opens.none : Opens := ⟨false, 0⟩

def Opens.close (o : Opens) : Opens := if o.writer then { o with writer := false } else ⟨false, o.readers - 1⟩

def record {X : Type} (opens : Path → Opens) : Call X → Result → Path → Opens
  | .openRead _ name, .pointer _ =>
    let path := splitPath name
    update opens path { opens path with readers := (opens path).readers + 1 }
  | .openWrite _ name _, .pointer _ =>
    let path := splitPath name
    update opens path { opens path with writer := true }
  | .close name, _ =>
    let path := splitPath name
    update opens path (opens path).close
  | .rmr name, .returned true => fun q => if splitPath name <+: q then .none else opens q
  | _, _ => opens

section
variable {X : Type}

/-- No append is opened on a value of another type, and the count of readers does not overflow. -/
def Careful (s : Storage X) : Call X → Prop
  | .openWrite type name false => ∀ node, s.nodes (splitPath name) = some node →
    node.status = .closed → ∀ held object, node.value = some (held, object) → held = type
  | .openRead _ name => ∀ node, s.nodes (splitPath name) = some node → node.readCnt < 2 ^ 31 - 1
  | _ => True

structure System (X : Type) where
  storage : Storage X
  opens : Path → Opens

def System.call [DecidableEq X] (s : System X) (c : Call X) : System X :=
  ⟨(s.storage.call c).1, record s.opens c (s.storage.call c).2⟩

inductive Step [DecidableEq X] : System X → System X → Prop
  | call {s : System X} (c : Call X) (careful : Careful s.storage c) : Step s (s.call c)

abbrev SystemReachable [DecidableEq X] : System X → Prop := Reachable (· = ⟨.initial, fun _ => .none⟩) Step

theorem splitPath_ne_nil (name : List Char) : splitPath name ≠ [] := by
  unfold splitPath
  split
  · simp
  · assumption

variable {s : Storage X} {node : Node X}

theorem createTree_keeps {q : Path} (path : Path)
    (here : s.nodes q = some node) : (s.createTree path).1.nodes q = some node := by
  rw [Storage.createTree]
  split
  · exact here
  · simp [here]

theorem createTree_nodes {path q : Path}
    (here : (s.createTree path).1.nodes q = some node) :
    s.nodes q = some node ∨ s.nodes q = none ∧ node = {} := by
  rw [Storage.createTree] at here
  split at here
  · exact .inl here
  · simp only at here
    split at here
    · rename_i new
      exact .inr ⟨new.1, (Option.some.inj here).symm⟩
    · exact .inl here

theorem createTree_here (s : Storage X) {path : Path} (ne : path ≠ []) :
    ∃ node, (s.createTree path).1.nodes path = some node := by
  rw [Storage.createTree]
  split
  · rename_i present
    exact Option.isSome_iff_exists.1 present
  · rename_i absent
    exact ⟨{}, if_pos ⟨by simpa using absent, ne, List.prefix_rfl⟩⟩

section
variable [DecidableEq X] (s : Storage X) (type : X) (name : List Char)

theorem openRead_cases : s.openRead type name = (s, .null) ∨
      ∃ node object, s.nodes (splitPath name) = some node ∧ node.status ≠ .write ∧
        s.openRead type name = (s.modify (splitPath name) fun node =>
          { node with status := .read, readCnt := int32 (node.readCnt + 1) }, .pointer object) := by
  cases here : s.nodes (splitPath name) with
  | none => simp [Storage.openRead, here]
  | some node =>
    by_cases writing : node.status = .write
    · simp [Storage.openRead, here, writing]
    cases holds : node.value with
    | none => simp [Storage.openRead, here, writing, holds]
    | some value =>
      by_cases same : value.1 = type
      · exact .inr ⟨node, value.2, rfl, writing, by simp [Storage.openRead, here, writing, holds, same]⟩
      · simp [Storage.openRead, here, writing, holds, same]

theorem openWrite_cases (truncate : Bool) :
    ∃ node, (s.createTree (splitPath name)).1.nodes (splitPath name) = some node ∧
      (s.openWrite type name truncate = ((s.createTree (splitPath name)).1, .null) ∨
      node.status = .closed ∧
        ((∃ (value : Node X → Option (X × Nat)) (made object : Nat), s.openWrite type name truncate =
          ({ (s.createTree (splitPath name)).1.modify (splitPath name) fun node =>
              { node with value := value node, status := .write } with made := made },
            .pointer object)) ∨
        ∃ held object, truncate = false ∧ node.value = some (held, object) ∧ held ≠ type ∧
          (s.openWrite type name truncate).2 = .thrown)) := by
  obtain ⟨node, here⟩ := createTree_here s (splitPath_ne_nil name)
  refine ⟨node, here, ?_⟩
  by_cases shut : node.status = .closed
  · refine .inr ⟨shut, ?_⟩
    by_cases fresh : truncate = true ∨ node.value = none
    · exact .inl ⟨fun _ => some (type, (s.createTree (splitPath name)).1.made),
        (s.createTree (splitPath name)).1.made + 1, (s.createTree (splitPath name)).1.made,
        by simp [Storage.openWrite, here, shut, fresh]⟩
    · rw [not_or, Bool.not_eq_true] at fresh
      obtain ⟨⟨held, object⟩, holds⟩ := Option.ne_none_iff_exists'.1 fresh.2
      by_cases same : held = type
      · exact .inl ⟨Node.value, (s.createTree (splitPath name)).1.made, object,
          by simp [Storage.openWrite, here, shut, fresh, holds, same, Storage.modify]⟩
      · exact .inr ⟨held, object, fresh.1, holds, same,
          by simp [Storage.openWrite, here, shut, fresh, holds, same]⟩
  · exact .inl (by simp [Storage.openWrite, here, shut])

end

inductive Accounted : Node X → Opens → Prop
  | closed (value : Option (X × Nat)) : Accounted ⟨value, .closed, 0⟩ .none
  | write (value : Option (X × Nat)) : Accounted ⟨value, .write, 0⟩ ⟨true, 0⟩
  | read (value : Option (X × Nat)) {k : Nat} (some_ : 0 < k) (small : k < 2 ^ 31) :
    Accounted ⟨value, .read, k⟩ ⟨false, k⟩

namespace Accounted
variable {node : Node X} {o : Opens}

section
variable (accounted : Accounted node o)
include accounted

theorem close_ : Accounted node.close o.close := by
  cases accounted with
  | closed value | write value => exact .closed value
  | @read value k some_ small =>
    have pred : int32 ((k : Int) - 1) = ((k - 1 : Nat) : Int) := by
      rw [int32_of_range (by omega) (by omega)]
      omega
    have positive : (k : Int) ≠ 0 := by omega
    simp only [Node.close, positive, if_false, pred, Opens.close, Bool.false_eq_true]
    by_cases last : k = 1
    · subst last
      exact .closed value
    · rw [if_neg (by omega)]
      exact .read value (by omega) (by omega)

theorem openRead (readable : node.status ≠ .write)
    (small : node.readCnt < 2 ^ 31 - 1) :
    Accounted { node with status := .read, readCnt := int32 (node.readCnt + 1) }
      { o with readers := o.readers + 1 } := by
  cases accounted with
  | closed value => exact .read value (k := 1) (by decide) (by decide)
  | write value => exact absurd rfl readable
  | @read value k some_ _ =>
    simp only at small
    rw [int32_of_range (by simp; omega) (by simp; omega)]
    exact .read value (k := k + 1) (by omega) (by omega)

theorem openWrite (shut : node.status = .closed)
    (value : Option (X × Nat)) :
    Accounted { node with value := value, status := .write } { o with writer := true } := by
  cases accounted with
  | closed => exact .write value
  | write | read => cases shut

end

end Accounted

structure System.Inv (s : System X) : Prop where
  absent : ∀ q, s.storage.nodes q = none → s.opens q = .none
  accounted : ∀ q node, s.storage.nodes q = some node → Accounted node (s.opens q)

namespace System.Inv
variable {s : System X} (inv : s.Inv)
include inv

theorem modify {path : Path} (here : s.storage.nodes path = some node)
    {f : Node X → Node X} {o : Opens} (accounted : Accounted (f node) o) (made : Nat) :
    System.Inv ⟨{ s.storage.modify path f with made := made }, update s.opens path o⟩ := by
  constructor <;> intro q <;> by_cases same : q = path
  · simp [Storage.modify, same, here]
  · simpa [Storage.modify, same] using inv.absent q
  · subst same
    simpa [Storage.modify, here] using accounted
  · simpa [Storage.modify, same] using inv.accounted q

theorem createTree (path : Path) : System.Inv ⟨(s.storage.createTree path).1, s.opens⟩ := by
  constructor
  · intro q absent
    refine inv.absent q ?_
    by_contra present
    obtain ⟨node, here⟩ := Option.ne_none_iff_exists'.1 present
    simp [createTree_keeps path here] at absent
  · intro q node here
    rcases createTree_nodes here with here | ⟨absent, rfl⟩
    · exact inv.accounted q node here
    · simp only [inv.absent q absent]
      exact .closed _

variable [DecidableEq X]

theorem close (name : List Char) : (s.call (.close name)).Inv := by
  cases here : s.storage.nodes (splitPath name) with
  | none =>
    have same : (s.storage.close name).nodes = s.storage.nodes := by
      funext q
      by_cases eq : q = splitPath name
      · simp [Storage.close, Storage.modify, eq, here]
      · simp [Storage.close, Storage.modify, eq]
    have nothing : record s.opens (.close name : Call X) (.returned true) = s.opens := by
      simp only [record, inv.absent _ here]
      exact update_eq_self_iff.2 (inv.absent _ here).symm
    constructor
    · simpa only [System.call, Storage.call, same, nothing] using inv.absent
    · simpa only [System.call, Storage.call, same, nothing] using inv.accounted
  | some node => exact inv.modify here (inv.accounted _ node here).close_ _

theorem openRead {type : X} {name : List Char}
    (careful : Careful s.storage (.openRead type name)) : (s.call (.openRead type name)).Inv := by
  rcases openRead_cases s.storage type name with failed | ⟨node, object, here, readable, opened⟩
  · simpa [System.call, Storage.call, failed, record] using inv
  · simp only [System.call, Storage.call, opened, record]
    exact inv.modify here ((inv.accounted _ node here).openRead readable (careful node here)) _

theorem openWrite {type : X} {name : List Char} {truncate : Bool}
    (careful : Careful s.storage (.openWrite type name truncate)) :
    (s.call (.openWrite type name truncate)).Inv := by
  have created := inv.createTree (splitPath name)
  obtain ⟨node, here, failed | ⟨shut, ⟨value, made, object, opened⟩ |
    ⟨held, object, rfl, holds, other, thrown⟩⟩⟩ := openWrite_cases s.storage type name truncate
  · simpa [System.call, Storage.call, failed, record] using created
  · simp only [System.call, Storage.call, opened, record]
    exact created.modify here ((created.accounted _ node here).openWrite shut (value node)) made
  · rcases createTree_nodes here with here | ⟨-, rfl⟩
    · exact absurd (careful node here shut held object holds) other
    · cases holds

theorem rmr (name : List Char) : (s.call (.rmr name)).Inv := by
  by_cases absent : (s.storage.nodes (splitPath name)).isNone
  · simpa [System.call, Storage.call, Storage.deleteTree, absent, record] using inv
  · simp only [System.call, Storage.call, Storage.deleteTree, absent, record]
    constructor <;> intro q <;> by_cases inside : splitPath name <+: q
    · simp [inside]
    · simpa [inside] using inv.absent q
    · simp [inside]
    · simpa [inside] using inv.accounted q

theorem call {c : Call X} (careful : Careful s.storage c) : (s.call c).Inv := by
  cases c with
  | openRead type name => exact inv.openRead careful
  | openWrite type name truncate => exact inv.openWrite careful
  | close name => exact inv.close name
  | mkdirP name => exact inv.createTree (splitPath name)
  | rmr name => exact inv.rmr name

end System.Inv

variable [DecidableEq X]

theorem SystemReachable.inv {s : System X} (reachable : SystemReachable s) : s.Inv := by
  refine reachable.invariant _ (fun s start => ?_) fun s s' inv step => ?_
  · subst start
    exact ⟨fun _ _ => rfl, nofun⟩
  · cases step with
    | call c careful => exact inv.call careful

theorem call_failed {c : Call X} (careful : Careful s c)
    (failed : (s.call c).2 = .null ∨ (s.call c).2 = .thrown) {q : Path}
    (here : s.nodes q = some node) : (s.call c).1.nodes q = some node := by
  cases c with
  | openRead type name =>
    rcases openRead_cases s type name with null | ⟨_, _, -, -, opened⟩
    · simpa [Storage.call, null] using here
    · simp [Storage.call, opened] at failed
  | openWrite type name truncate =>
    obtain ⟨other, there, null | ⟨shut, ⟨_, _, _, opened⟩ |
      ⟨held, object, rfl, holds, ne, -⟩⟩⟩ := openWrite_cases s type name truncate
    · simpa [Storage.call, null] using createTree_keeps _ here
    · simp [Storage.call, opened] at failed
    · rcases createTree_nodes there with there | ⟨-, rfl⟩
      · exact absurd (careful other there shut held object holds) ne
      · cases holds
  | close name | mkdirP name | rmr name => simp [Storage.call] at failed

theorem memoryStorage_open_modes {s : System X} (reachable : SystemReachable s) :
    (∀ q node, s.storage.nodes q = some node → (node.status = .write ↔ (s.opens q).writer = true) ∧
      (∀ k : Nat, 0 < k → (node.status = .read ∧ node.readCnt = k ↔ (s.opens q).readers = k)) ∧
      ((s.opens q).writer = false → (s.opens q).readers = 0 → node.status = .closed ∧ node.readCnt = 0) ∧
      ((s.opens q).writer = true → (s.opens q).readers = 0)) ∧
    ∀ c, Careful s.storage c → (s.storage.call c).2 = .null ∨ (s.storage.call c).2 = .thrown →
      ∀ q node, s.storage.nodes q = some node → (s.storage.call c).1.nodes q = some node := by
  refine ⟨fun q node here => ?_, fun c careful failed q node here => call_failed careful failed here⟩
  have accounted := reachable.inv.accounted q node here
  generalize s.opens q = opens at accounted
  cases accounted with
  | closed value =>
    refine ⟨by simp [Opens.none], fun k positive => ?_, by simp, by simp [Opens.none]⟩
    simp only [Opens.none, reduceCtorEq, false_and, false_iff]
    omega
  | write value =>
    refine ⟨by simp, fun k positive => ?_, by simp, by simp⟩
    simp only [reduceCtorEq, false_and, false_iff]
    omega
  | read value some_ small =>
    refine ⟨by simp, fun k positive => by simp, ?_, by simp⟩
    intro _ zero
    simp only at zero
    omega

end

theorem memoryStorage_open_modes_written :
    ∃ node, ((System.mk (Storage.initial : Storage Bool) fun _ => .none).call
      (.openWrite true ['a'] true)).storage.nodes [['a']] = some node ∧ node.status = .write := by
  have reachable : SystemReachable ((System.mk (Storage.initial : Storage Bool) fun _ => .none).call
      (.openWrite true ['a'] true)) := .next (.initial rfl) (.call _ trivial)
  obtain ⟨node, here⟩ := Option.isSome_iff_exists.1 (by decide +kernel :
    (((System.mk (Storage.initial : Storage Bool) fun _ => .none).call
      (.openWrite true ['a'] true)).storage.nodes [['a']]).isSome)
  exact ⟨node, here, ((memoryStorage_open_modes reachable).1 _ node here).1.2 (by decide +kernel)⟩

/-- The exception of an append to a value of another type leaves the node open for writing. -/
theorem memoryStorage_append_throws :
    let s := [Call.openWrite true ['a'] true, .close ['a']].foldl System.call
      (System.mk (Storage.initial : Storage Bool) fun _ => .none)
    let c := Call.openWrite false ['a'] false
    (s.storage.call c).2 = .thrown ∧ ((s.call c).opens [['a']]).writer = false ∧
      (s.storage.nodes [['a']]).map Node.status = some .closed ∧
      ((s.call c).storage.nodes [['a']]).map Node.status = some .write := by
  decide +kernel

end Prpc.MemoryStorage
