import Prpc.Lib.SharedChunks

/-!
A vector of items that is kept as a list of views of chunks. The chunks are shared by the views of several vectors; a
vector may add items to the chunk of its last view if the view reaches to the end of the chunk. Chunks are numbered in
the order in which they are made, and are not reused. A pointer into `_lazy_views` is the views from it on. A result
`none` stands for a failed check, or an access outside of the vectors.
-/

namespace Prpc.LazyVectors
open Lib

structure View where
  begin : Nat
  end_ : Nat
  pushable : Bool
  lazyData : Nat
deriving DecidableEq

structure LazyVector where
  lazyViews : List View
  totalItemNum : Nat
deriving DecidableEq

namespace LazyVector
variable {T : Type}

def appendANewLazyData (h : List (List T)) (v : LazyVector) : List (List T) × LazyVector :=
  (h ++ [[]], { v with lazyViews := v.lazyViews ++ [⟨0, 0, true, h.length⟩] })

def clearWithoutAppend : LazyVector := ⟨[], 0⟩

def new (h : List (List T)) : List (List T) × LazyVector := appendANewLazyData h ⟨[], 0⟩

/-- `LazyVector(size_t)`, where `LazyVector()` makes another vector that is dropped. -/
def ofSize (_ : Nat) : LazyVector := ⟨[], 0⟩

def clear (h : List (List T)) (_ : LazyVector) : List (List T) × LazyVector := appendANewLazyData h clearWithoutAppend

def setBack (v : LazyVector) (w : View) : LazyVector := { v with lazyViews := v.lazyViews.dropLast ++ [w] }

def pushBack (h : List (List T)) (v : LazyVector) (item : T) : Option (List (List T) × LazyVector) := do
  let (h, v) := if v.lazyViews.isEmpty then appendANewLazyData h v else (h, v)
  let back ← v.lazyViews.getLast?
  let (h, v) := if back.pushable = false then appendANewLazyData h v else (h, v)
  let back ← v.lazyViews.getLast?
  let data ← h[back.lazyData]?
  let (h, v) := if back.end_ ≠ data.length
    then appendANewLazyData h (v.setBack { back with pushable := false }) else (h, v)
  let back ← v.lazyViews.getLast?
  let data ← h[back.lazyData]?
  let data := data ++ [item]
  return (h.set back.lazyData data, { v.setBack { back with end_ := data.length } with
    totalItemNum := v.totalItemNum + 1 })

def pushBackVector (h : List (List T)) (v : LazyVector) (data : List T) : List (List T) × LazyVector :=
  if data.length > 0 then
    (h ++ [data], ⟨v.lazyViews ++ [⟨0, data.length, true, h.length⟩], v.totalItemNum + data.length⟩)
  else (h, v)

def pushBackView (v : LazyVector) (w : View) : LazyVector :=
  if w.end_ - w.begin > 0 then ⟨v.lazyViews ++ [w], v.totalItemNum + (w.end_ - w.begin)⟩ else v

/-- Where the loop over the views ends that looks for an index: `data_id`, what is left of the index, the view, and
the views after it. -/
structure Found where
  dataId : Nat
  idx : Nat
  view : View
  rest : List View

def seek : List View → Nat → Option Found
  | [], _ => none
  | w :: rest, idx =>
    if idx + w.begin ≥ w.end_ then do
      let f ← seek rest (idx - (w.end_ - w.begin))
      return { f with dataId := f.dataId + 1 }
    else some ⟨0, idx, w, rest⟩

def index (v : LazyVector) (i : Nat) : Option Place :=
  if i < v.totalItemNum then do
    let f ← seek v.lazyViews i
    return ⟨f.view.lazyData, f.idx + f.view.begin⟩
  else none

def size (v : LazyVector) : Nat := v.totalItemNum

def cut (v : LazyVector) (idx : Nat) (tail : LazyVector) : Option (LazyVector × LazyVector) :=
  if idx < v.totalItemNum then do
    let f ← seek v.lazyViews idx
    let tail := clearWithoutAppend.pushBackView ⟨f.view.begin + f.idx, f.view.end_, true, f.view.lazyData⟩
    let tail := f.rest.foldl pushBackView tail
    let views := (v.lazyViews.take (f.dataId + 1)).modify f.dataId fun w =>
      { w with end_ := f.idx + w.begin, pushable := false }
    return (⟨views, idx⟩, tail)
  else some (v, tail)

def merge (v another : LazyVector) : LazyVector :=
  ⟨v.lazyViews ++ another.lazyViews, v.totalItemNum + another.totalItemNum⟩

def sub (h : List (List T)) (v : LazyVector) (beginIdx endIdx : Nat) : Option (List (List T) × LazyVector) :=
  let (h, subVector) := new h
  let (h, subVector) := clear h subVector
  if beginIdx < endIdx ∧ endIdx ≤ v.totalItemNum then do
    let f ← seek v.lazyViews beginIdx
    let g ← seek (f.view :: f.rest) (f.idx + endIdx - beginIdx)
    let subVector := clearWithoutAppend
    if g.dataId = 0 then
      return (h, subVector.pushBackView ⟨f.view.begin + f.idx, f.view.begin + g.idx, false, f.view.lazyData⟩)
    else
      let subVector := subVector.pushBackView ⟨f.view.begin + f.idx, f.view.end_, f.view.pushable, f.view.lazyData⟩
      let subVector := (f.rest.take (g.dataId - 1)).foldl pushBackView subVector
      return (h, subVector.pushBackView ⟨g.view.begin, g.view.begin + g.idx, false, g.view.lazyData⟩)
  else some (h, subVector)

def gather (h : List (List T)) : List T × Nat → View → Option (List T × Nat)
  | (items, end_), w =>
    if w.end_ - w.begin > 0 then do
      let data ← h[w.lazyData]?
      guard (w.end_ ≤ data.length)
      return (items ++ (data.take w.end_).drop w.begin, end_ + (w.end_ - w.begin))
    else some (items, end_)

def shrink (h : List (List T)) (v : LazyVector) : Option (List (List T) × LazyVector) := do
  let (items, end_) ← v.lazyViews.foldlM (gather h) ([], 0)
  return (h ++ [items], { v with lazyViews := [⟨0, end_, true, h.length⟩] })

end LazyVector

structure Iterator where
  view : View
  rest : List View
  cursor : Place
  idx : Nat
  globalIdx : Nat
deriving DecidableEq

namespace Iterator

def skip (view : View) (rest : List View) (cursor : Place) (idx globalIdx : Nat) : Iterator :=
  match rest with
  | [] => ⟨view, [], cursor, idx, globalIdx⟩
  | next :: rest' =>
    if view.end_ ≤ view.begin + idx then skip next rest' ⟨next.lazyData, 0⟩ 0 globalIdx
    else ⟨view, rest, cursor, idx, globalIdx⟩

def next (it : Iterator) : Iterator :=
  skip it.view it.rest { it.cursor with offset := it.cursor.offset + 1 } (it.idx + 1) (it.globalIdx + 1)

def same (it it' : Iterator) : Bool := it.view.lazyData = it'.view.lazyData && it.cursor = it'.cursor

end Iterator

namespace LazyVector
variable {T : Type}

def last (v : LazyVector) : Option Iterator := do
  let back ← v.lazyViews.getLast?
  return ⟨back, [], ⟨back.lazyData, back.end_⟩, back.end_, v.totalItemNum⟩

def first (v : LazyVector) : Option Iterator :=
  if v.totalItemNum = 0 then v.last
  else match v.lazyViews with
    | [] => none
    | view :: rest => some ⟨view, rest, ⟨view.lazyData, view.begin⟩, 0, 0⟩

def walk (h : List (List T)) (last : Iterator) : Nat → Iterator → Option (List Place)
  | 0, _ => none
  | fuel + 1, it =>
    if it.same last then some []
    else do
      let _ ← readAt h it.cursor
      let places ← walk h last fuel it.next
      return it.cursor :: places

def iterate (h : List (List T)) (v : LazyVector) (fuel : Nat) : Option (List Place) := do
  walk h (← v.last) fuel (← v.first)

end LazyVector

structure World (ι T : Type) where
  heap : List (List T)
  vectors : ι → LazyVector

inductive Op (ι T : Type)
  | new (i : ι)
  | ofSize (i : ι) (n : Nat)
  | pushBack (i : ι) (item : T)
  | pushBackVector (i : ι) (data : List T)
  | cut (i : ι) (idx : Nat) (tail : ι)
  | merge (i another : ι)
  | sub (i : ι) (beginIdx endIdx : Nat) (result : ι)
  | shrink (i : ι)
  | clear (i : ι)

namespace World
variable {ι T : Type} [DecidableEq ι]

def initial (ι T : Type) : World ι T := ⟨[], fun _ => LazyVector.ofSize 0⟩

def put (w : World ι T) (i : ι) : List (List T) × LazyVector → World ι T
  | (h, v) => ⟨h, Function.update w.vectors i v⟩

def apply (w : World ι T) : Op ι T → Option (World ι T)
  | .new i => w.put i (LazyVector.new w.heap)
  | .ofSize i n => w.put i (w.heap, .ofSize n)
  | .pushBack i item => (w.vectors i).pushBack w.heap item |>.map (w.put i)
  | .pushBackVector i data => w.put i ((w.vectors i).pushBackVector w.heap data)
  | .cut i idx tail => do
    let (v, t) ← (w.vectors i).cut idx (w.vectors tail)
    return (w.put i (w.heap, v)).put tail (w.heap, t)
  | .merge i another => w.put i (w.heap, (w.vectors i).merge (w.vectors another))
  | .sub i beginIdx endIdx result => (w.vectors i).sub w.heap beginIdx endIdx |>.map (w.put result)
  | .shrink i => (w.vectors i).shrink w.heap |>.map (w.put i)
  | .clear i => w.put i ((w.vectors i).clear w.heap)

def at_ (w : World ι T) (i : ι) (k : Nat) : Option T := do readAt w.heap (← (w.vectors i).index k)

end World

end Prpc.LazyVectors
