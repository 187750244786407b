import Mathlib.Algebra.BigOperators.Group.List.Basic

namespace Prpc.Lib

variable {σ A : Type*} [AddCommMonoid A] {f : σ → A} {l : List σ} {x y : σ} {k : Nat}

def total (f : σ → A) (l : List σ) : A := (l.map f).sum

theorem total_set (at_ : l[k]? = some x) (y : σ) : total f (l.set k y) + f x = total f l + f y := by
  induction l generalizing k with
  | nil => simp at at_
  | cons z l ih =>
    cases k with
    | zero =>
      obtain rfl : z = x := by simpa using at_
      simp only [total, List.set_cons_zero, List.map_cons, List.sum_cons]
      rw [add_comm (f y), add_assoc, add_comm (f y), ← add_assoc, add_comm _ (f z)]
    | succ k =>
      have rest : total f (l.set k y) + f x = total f l + f y := ih (by simpa using at_)
      simp only [total, List.set_cons_succ, List.map_cons, List.sum_cons] at rest ⊢
      rw [add_assoc, rest, add_assoc]

theorem total_append (l : List σ) (x : σ) : total f (l ++ [x]) = total f l + f x := by
  simp [total]

theorem total_eq_zero (none : ∀ x ∈ l, f x = 0) : total f l = 0 := by
  refine List.sum_eq_zero fun a mem => ?_
  obtain ⟨x, member, rfl⟩ := List.mem_map.1 mem
  exact none x member

theorem total_single (at_ : l[k]? = some x) (others : ∀ j y, j ≠ k → l[j]? = some y → f y = 0) :
    total f l = f x := by
  induction l generalizing k with
  | nil => simp at at_
  | cons z l ih =>
    cases k with
    | zero =>
      obtain rfl : z = x := by simpa using at_
      have rest : total f l = 0 := by
        refine total_eq_zero fun y mem => ?_
        obtain ⟨j, at_y⟩ := List.getElem?_of_mem mem
        exact others (j + 1) y (Nat.succ_ne_zero j) at_y
      simp only [total] at rest
      simp [total, rest]
    | succ k =>
      have rest : total f l = f x := ih (by simpa using at_) fun j y ne at_y =>
        others (j + 1) y (fun eq => ne (Nat.succ.inj eq)) at_y
      have head : f z = 0 := others 0 z (Nat.succ_ne_zero k).symm rfl
      simp only [total] at rest
      simp [total, head, rest]

/-- At most one element of the list has the property, and `o` is that element with its place. -/
structure Sole (p : σ → Bool) (l : List σ) (o : Option (Nat × σ)) : Prop where
  only : ∀ j x, l[j]? = some x → p x = true → o = some (j, x)
  here : ∀ j x, o = some (j, x) → l[j]? = some x ∧ p x = true

namespace Sole

variable {p : σ → Bool} {o : Option (Nat × σ)}

theorem nil (p : σ → Bool) : Sole p [] none := ⟨nofun, nofun⟩

theorem other (sole : Sole p l o) (at_ : l[k]? = some x) (old : p x = false) (new : p y = false) :
    Sole p (l.set k y) o where
  only j z at_z has := by
    by_cases eq : k = j
    · subst eq
      rw [List.getElem?_set_self (List.getElem?_eq_some_iff.1 at_).1] at at_z
      obtain rfl : y = z := Option.some.inj at_z
      rw [new] at has
      cases has
    · rw [List.getElem?_set_ne eq] at at_z
      exact sole.only j z at_z has
  here j z eq := by
    obtain ⟨at_z, has⟩ := sole.here j z eq
    refine ⟨?_, has⟩
    rwa [List.getElem?_set_ne]
    rintro rfl
    obtain rfl : x = z := Option.some.inj (at_.symm.trans at_z)
    rw [old] at has
    cases has

theorem set (sole : Sole p l o) (at_ : l[k]? = some x) (free : ∀ j z, o = some (j, z) → j = k) (y : σ) :
    Sole p (l.set k y) (if p y then some (k, y) else none) where
  only j z at_z has := by
    by_cases eq : k = j
    · subst eq
      rw [List.getElem?_set_self (List.getElem?_eq_some_iff.1 at_).1] at at_z
      obtain rfl : y = z := Option.some.inj at_z
      rw [if_pos has]
    · rw [List.getElem?_set_ne eq] at at_z
      exact absurd (free j z (sole.only j z at_z has)).symm eq
  here j z eq := by
    split at eq
    · next has =>
      cases eq
      exact ⟨List.getElem?_set_self (List.getElem?_eq_some_iff.1 at_).1, has⟩
    · cases eq

theorem append (sole : Sole p l o) (new : p y = false) : Sole p (l ++ [y]) o where
  only j z at_z has := by
    rw [List.getElem?_append] at at_z
    split at at_z
    · exact sole.only j z at_z has
    · rw [List.mem_singleton.1 (List.mem_of_getElem? at_z), new] at has
      cases has
  here j z eq := by
    obtain ⟨at_z, has⟩ := sole.here j z eq
    exact ⟨by rw [List.getElem?_append_left (List.getElem?_eq_some_iff.1 at_z).1, at_z], has⟩

theorem spawn (sole : Sole p l none) (new : p y = true) : Sole p (l ++ [y]) (some (l.length, y)) where
  only j z at_z has := by
    rw [List.getElem?_append] at at_z
    split at at_z
    · cases sole.only j z at_z has
    · obtain rfl := List.mem_singleton.1 (List.mem_of_getElem? at_z)
      have lt := (List.getElem?_eq_some_iff.1 at_z).1
      rw [List.length_singleton] at lt
      obtain rfl : j = l.length := by omega
      rfl
  here j z eq := by
    cases eq
    exact ⟨by simp, new⟩

theorem total_eq (sole : Sole p l o) (others : ∀ x, p x = false → f x = 0) :
    total f l = o.elim 0 (fun w => f w.2) := by
  cases o with
  | none =>
    refine total_eq_zero fun x mem => others x ?_
    obtain ⟨j, at_⟩ := List.getElem?_of_mem mem
    by_contra has
    cases sole.only j x at_ (Bool.not_eq_false _ ▸ has)
  | some w =>
    obtain ⟨k, x⟩ := w
    obtain ⟨at_, has⟩ := sole.here k x rfl
    refine total_single at_ fun j y ne at_y => others y ?_
    by_contra hasy
    cases sole.only j y at_y (Bool.not_eq_false _ ▸ hasy)
    exact ne rfl

end Sole

end Prpc.Lib
