import Mathlib.Data.List.Basic

namespace Prpc.Lib

structure Place where
  chunk : Nat
  offset : Nat
deriving DecidableEq

def placesOf (chunk first last : Nat) : List Place := (List.range' first (last - first)).map (⟨chunk, ·⟩)

section
variable {chunk first last : Nat}

@[simp] theorem length_placesOf : (placesOf chunk first last).length = last - first := by simp [placesOf]

theorem placesOf_nil (le : last ≤ first) : placesOf chunk first last = [] := by simp [placesOf, Nat.sub_eq_zero_of_le le]

theorem placesOf_cons (lt : first < last) :
    placesOf chunk first last = ⟨chunk, first⟩ :: placesOf chunk (first + 1) last := by
  have length : last - first = last - (first + 1) + 1 := by omega
  rw [placesOf, length, List.range'_succ]
  rfl

theorem placesOf_append {middle : Nat} (le : first ≤ middle) (le' : middle ≤ last) :
    placesOf chunk first middle ++ placesOf chunk middle last = placesOf chunk first last := by
  have length : last - first = (middle - first) + (last - middle) := by omega
  rw [placesOf, placesOf, placesOf, length, ← List.range'_append_1, List.map_append, Nat.add_sub_cancel' le]

theorem drop_placesOf (n : Nat) : (placesOf chunk first last).drop n = placesOf chunk (first + n) last := by
  rw [placesOf, placesOf, ← List.map_drop, List.drop_range', Nat.mul_one, Nat.sub_sub]

theorem getElem?_placesOf {n : Nat} (lt : first + n < last) : (placesOf chunk first last)[n]? = some ⟨chunk, first + n⟩ := by
  rw [placesOf, List.getElem?_map, List.getElem?_range' (by omega), Nat.one_mul]
  rfl

end

section
variable {α : Type*} {h h' h'' : List (List α)}

def readAt (h : List (List α)) (p : Place) : Option α := do
  let items ← h[p.chunk]?
  items[p.offset]?

variable {items : List α}

theorem readAt_placesOf {a : Nat} (there : h[a]? = some items) (first last : Nat)
    (fits : last ≤ items.length) :
    (placesOf a first last).map (readAt h) = ((items.take last).drop first).map some := by
  refine List.ext_getElem? fun n => ?_
  rw [List.getElem?_map, List.getElem?_map, List.getElem?_drop, List.getElem?_take]
  by_cases inside : first + n < last
  · rw [getElem?_placesOf inside, if_pos inside, List.getElem?_eq_getElem (Nat.lt_of_lt_of_le inside fits)]
    simp [readAt, there, Nat.lt_of_lt_of_le inside fits]
  · have out : (placesOf a first last)[n]? = none := List.getElem?_eq_none (by rw [length_placesOf]; omega)
    rw [out, if_neg inside]
    rfl

def Extends (h h' : List (List α)) : Prop :=
  ∀ (a : Nat) items, h[a]? = some items → ∃ more, h'[a]? = some (items ++ more)

namespace Extends

theorem refl (h : List (List α)) : Extends h h := fun _ _ there => ⟨[], by rw [there, List.append_nil]⟩

theorem trans (first : Extends h h') (second : Extends h' h'') : Extends h h'' := by
  intro a items there
  obtain ⟨more, there'⟩ := first a items there
  obtain ⟨more', there''⟩ := second a _ there'
  exact ⟨more ++ more', by rw [there'', List.append_assoc]⟩

theorem alloc (h : List (List α)) (items : List α) : Extends h (h ++ [items]) := by
  intro a old there
  refine ⟨[], ?_⟩
  rw [List.getElem?_append_left (List.getElem?_eq_some_iff.1 there).1, there, List.append_nil]

theorem push {a : Nat} (there : h[a]? = some items) (more : List α) :
    Extends h (h.set a (items ++ more)) := by
  intro a' old there'
  have bound := (List.getElem?_eq_some_iff.1 there).1
  rcases eq_or_ne a a' with rfl | other
  · cases there.symm.trans there'
    exact ⟨more, List.getElem?_set_self bound⟩
  · exact ⟨[], by rw [List.getElem?_set_ne other, there', List.append_nil]⟩

theorem readAt (grows : Extends h h') {p : Place} {x : α} (held : readAt h p = some x) : readAt h' p = some x := by
  simp only [Lib.readAt, Option.bind_eq_bind, Option.bind_eq_some_iff] at held ⊢
  obtain ⟨items, there, at_⟩ := held
  obtain ⟨more, there'⟩ := grows p.chunk items there
  exact ⟨items ++ more, there', List.getElem?_append_left (List.getElem?_eq_some_iff.1 at_).1 ▸ at_⟩

theorem map_readAt (grows : Extends h h') {places : List Place}
    (held : places.map (Lib.readAt h) = items.map some) : places.map (Lib.readAt h') = items.map some := by
  rw [← held]
  refine List.map_congr_left fun p mem => ?_
  have known : Lib.readAt h p ∈ items.map some := held ▸ List.mem_map_of_mem mem
  obtain ⟨x, -, value⟩ := List.mem_map.1 known
  rw [← value]
  exact grows.readAt value.symm

end Extends

end

end Prpc.Lib
