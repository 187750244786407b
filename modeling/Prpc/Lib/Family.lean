import Mathlib.Data.Option.Basic
import Mathlib.Logic.Function.Basic

namespace Prpc.Lib

variable {A B O : Type*} {R : A → B → Prop}

abbrev Family (A : Type*) := Nat → Option A

def Family.modify (s : Family A) (i : Nat) (f : A → Option (A × O)) : Option (Family A × O) :=
  (s i).bind fun a => (f a).map fun result => (Function.update s i (some result.1), result.2)

def Paired (R : A → B → Prop) (s : Family A) (r : Family B) : Prop := ∀ i, Option.Rel R (s i) (r i)

variable {s : Family A} {r r' : Family B} {i : Nat} {b : B}

theorem paired_none : Paired R (fun _ => none) fun _ => none := fun _ => .none

theorem Paired.get (paired : Paired R s r) (there : r i = some b) : ∃ a, s i = some a ∧ R a b := by
  have related := paired i
  rw [there] at related
  cases eq : s i with
  | none =>
    rw [eq] at related
    cases related
  | some a =>
    rw [eq] at related
    cases related with
    | some related => exact ⟨a, rfl, related⟩

theorem Paired.update {a : A} (paired : Paired R s r) (i : Nat) (related : R a b) :
    Paired R (Function.update s i (some a)) (Function.update r i (some b)) := by
  intro j
  by_cases same : j = i
  · rw [same, Function.update_self, Function.update_self]
    exact .some related
  · rw [Function.update_of_ne same, Function.update_of_ne same]
    exact paired j

theorem Paired.modify {f : A → Option (A × O)} {g : B → Option (B × O)} {out : O} (paired : Paired R s r)
    (follows : ∀ a b b' out, s i = some a → R a b → g b = some (b', out) → ∃ a', f a = some (a', out) ∧ R a' b')
    (moved : r.modify i g = some (r', out)) : ∃ s', s.modify i f = some (s', out) ∧ Paired R s' r' := by
  obtain ⟨b, there, moved⟩ := Option.bind_eq_some_iff.1 moved
  obtain ⟨⟨b', out'⟩, step, same⟩ := Option.map_eq_some_iff.1 moved
  obtain ⟨a, here, related⟩ := paired.get there
  obtain ⟨a', step', related'⟩ := follows a b b' out' here related step
  cases same
  refine ⟨Function.update s i (some a'), ?_, paired.update i related'⟩
  rw [Family.modify, here, Option.bind_some, step']
  rfl

end Prpc.Lib
