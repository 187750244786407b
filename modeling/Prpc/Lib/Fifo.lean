import Mathlib.Data.List.Basic

/-!
The sequential meaning of a bounded first-in first-out queue: the events that can happen at it, one at a
time, and when each of them is allowed.
-/

namespace Prpc.Lib

inductive FifoEvent (T : Type)
  | push (v : T)
  | pop (v : T)
  | reject
  | drained
  | tryReject
  | tryEmpty
  | setClosed (closed : Bool)
  deriving DecidableEq

structure Fifo (T : Type) where
  items : List T
  closed : Bool

namespace Fifo
variable {T : Type} {capacity : Nat} {f g h : Fifo T} {e : FifoEvent T} {es es' : List (FifoEvent T)}

inductive Move (capacity : Nat) : Fifo T → FifoEvent T → Fifo T → Prop
  | push {f : Fifo T} (v : T) (isOpen : f.closed = false) (room : f.items.length < capacity) :
      Move capacity f (.push v) { f with items := f.items ++ [v] }
  | pop (v : T) (rest : List T) (closed : Bool) : Move capacity ⟨v :: rest, closed⟩ (.pop v) ⟨rest, closed⟩
  | reject {f : Fifo T} (closed : f.closed = true) : Move capacity f .reject f
  | drained {f : Fifo T} (closed : f.closed = true) (empty : f.items = []) : Move capacity f .drained f
  | tryReject {f : Fifo T} (closed_or_full : f.closed = true ∨ capacity ≤ f.items.length) :
      Move capacity f .tryReject f
  | tryEmpty {f : Fifo T} (empty : f.items = []) : Move capacity f .tryEmpty f
  | setClosed (f : Fifo T) (closed : Bool) : Move capacity f (.setClosed closed) { f with closed := closed }

inductive Moves (capacity : Nat) : Fifo T → List (FifoEvent T) → Fifo T → Prop
  | nil (f : Fifo T) : Moves capacity f [] f
  | cons {f g h : Fifo T} {e : FifoEvent T} {es : List (FifoEvent T)} (move : Move capacity f e g)
      (moves : Moves capacity g es h) : Moves capacity f (e :: es) h

theorem Move.single (move : Move capacity f e g) : Moves capacity f [e] g := .cons move (.nil g)

theorem Moves.append (moves : Moves capacity f es g) (moves' : Moves capacity g es' h) :
    Moves capacity f (es ++ es') h := by
  induction moves with
  | nil => exact moves'
  | cons move _ ih => exact .cons move (ih moves')

def pushed (es : List (FifoEvent T)) : List T := es.filterMap fun | .push v => some v | _ => none

def popped (es : List (FifoEvent T)) : List T := es.filterMap fun | .pop v => some v | _ => none

theorem Moves.conserved (moves : Moves capacity f es g) : f.items ++ pushed es = popped es ++ g.items := by
  induction moves with
  | nil f => exact List.append_nil _
  | cons move _ ih =>
    cases move with
    | push v isOpen room => simpa [pushed, popped] using ih
    | pop v rest closed => simpa [pushed, popped] using ih
    | _ => exact ih

theorem Moves.length_le (moves : Moves capacity f es g) (fits : f.items.length ≤ capacity) :
    g.items.length ≤ capacity := by
  induction moves with
  | nil f => exact fits
  | cons move _ ih =>
    apply ih
    cases move with
    | push v isOpen room =>
      rw [List.length_append, List.length_singleton]
      omega
    | pop v rest closed => exact Nat.le_of_succ_le fits
    | _ => exact fits

theorem Moves.popped_isPrefix {closed : Bool} (moves : Moves capacity ⟨[], closed⟩ es g) :
    popped es <+: pushed es :=
  ⟨g.items, moves.conserved.symm⟩

end Fifo

end Prpc.Lib
