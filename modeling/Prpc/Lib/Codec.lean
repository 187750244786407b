import Mathlib.Data.List.Basic

/-!
A reader takes what it needs from the front of its input and fails with `none`.
-/

namespace Prpc.Lib

abbrev Reader (S α : Type) := StateT S Option α

/-- From any input that `put` extended, `read` returns `a` and leaves what was there before. -/
def Delimits {S α : Type} (read : Reader S α) (put : S → S) (a : α) : Prop :=
  ∀ rest, read (put rest) = some (a, rest)

section
variable {S α β γ : Type} {read : Reader S α} {put putNext : S → S} {a : α} {b : β}

theorem Delimits.pure (a : α) : Delimits (S := S) (Pure.pure a) id a := fun _ => rfl

theorem Delimits.bind {next : α → Reader S β} (first : Delimits read put a)
    (second : Delimits (next a) putNext b) : Delimits (read >>= next) (put ∘ putNext) b := by
  intro rest
  change (read (put (putNext rest))).bind (fun p => next p.1 p.2) = _
  rw [first (putNext rest)]
  exact second rest

theorem Delimits.ret (f : α → β) (delimits : Delimits read put a) :
    Delimits (do let a ← read; return f a) put (f a) :=
  delimits.bind (Delimits.pure (f a))

theorem Delimits.congr {put' : S → S} (delimits : Delimits read put a)
    (same : ∀ rest, put rest = put' rest) : Delimits read put' a := by
  intro rest
  rw [← same]
  exact delimits rest

def readEach (read : γ → Reader S β) : (targets : List γ) → Reader S {l : List β // l.length = targets.length}
  | [] => Pure.pure ⟨[], rfl⟩
  | y :: ys => do
    let x ← read y
    let xs ← readEach read ys
    Pure.pure ⟨x :: xs.1, by simp [xs.2]⟩

theorem Delimits.each {put : α → S → S} {read : γ → Reader S β} {val : α → β} {xs : List α}
    (each : ∀ x ∈ xs, ∀ y, Delimits (read y) (put x) (val x)) {ys : List γ}
    (len : (xs.map val).length = ys.length) :
    Delimits (readEach read ys) (fun rest => xs.foldr put rest) ⟨xs.map val, len⟩ := by
  induction xs generalizing ys with
  | nil =>
    cases List.length_eq_zero_iff.1 len.symm
    exact Delimits.pure _
  | cons x xs ih =>
    cases ys with
    | nil => simp at len
    | cons y ys =>
      have head := each x (List.mem_cons_self ..) y
      have others : (xs.map val).length = ys.length := by simpa using len
      have tail := ih (fun x' mem => each x' (List.mem_cons_of_mem _ mem)) others
      exact head.bind (tail.bind (Delimits.pure _))

def readInto (read : Reader S α) (store : γ → α → Option γ) : Nat → γ → Reader S γ
  | 0, m => Pure.pure m
  | n + 1, m => do
    let a ← read
    let m ← store m a
    readInto read store n m

theorem Delimits.lift {x : Option α} (found : x = some a) : Delimits (S := S) (liftM x) id a := by
  intro rest
  subst found
  rfl

theorem Delimits.into {put : β → S → S} {val : β → α} {store : γ → α → Option γ} {xs : List β}
    (each : ∀ x ∈ xs, Delimits read (put x) (val x)) {m m' : γ}
    (stored : xs.foldlM (fun m x => store m (val x)) m = some m') :
    Delimits (readInto read store xs.length m) (fun rest => xs.foldr put rest) m' := by
  induction xs generalizing m with
  | nil =>
    cases stored
    exact Delimits.pure _
  | cons x xs ih =>
    rw [List.foldlM_cons, Option.bind_eq_bind, Option.bind_eq_some_iff] at stored
    obtain ⟨m₁, first, others⟩ := stored
    have tail := ih (fun x' mem => each x' (List.mem_cons_of_mem _ mem)) others
    exact (each x (List.mem_cons_self ..)).bind ((Delimits.lift first).bind tail)

end

section
variable {B α β γ : Type}

theorem foldr_append (write : α → List B) (xs : List α) (rest : List B) :
    xs.foldr (fun x rest => write x ++ rest) rest = xs.flatMap write ++ rest := by
  induction xs with
  | nil => rfl
  | cons x xs ih => rw [List.foldr_cons, ih, List.flatMap_cons, List.append_assoc]

theorem Delimits.append {read : Reader (List B) α} {next : α → Reader (List B) β}
    {w₁ w₂ : List B} {a : α} {b : β} (first : Delimits read (w₁ ++ ·) a)
    (second : Delimits (next a) (w₂ ++ ·) b) :
    Delimits (read >>= next) (w₁ ++ w₂ ++ ·) b :=
  (first.bind second).congr fun rest => (List.append_assoc w₁ w₂ rest).symm

def readRaw (len : Nat) : Reader (List B) (List B) := fun unread =>
  if len ≤ unread.length then some (unread.take len, unread.drop len) else none

theorem Delimits.raw {w : List B} {len : Nat} (exact : w.length = len) :
    Delimits (readRaw len) (w ++ ·) w := by
  intro rest
  subst exact
  simp [readRaw]

end

end Prpc.Lib
