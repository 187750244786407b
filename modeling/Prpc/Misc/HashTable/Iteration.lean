import Mathlib.Data.List.Induction
import Prpc.Misc.HashTable.Contents

/-!
An iterator stands before some of the entries and after the others.
-/

namespace Prpc.HashTable
open Lib

variable {K V F : Type} {P : Params K V F} {t t' : Table K V F} {chain : Nat → Chain K V} {n i : Nat}
  {it : Chain K V} {e : Entry K V}

def later (n : Nat) (chain : Nat → Chain K V) (i : Nat) : List (Entry K V) :=
  (List.range' i (n - i)).flatMap chain

theorem later_end (chain : Nat → Chain K V) (n : Nat) : later n chain n = [] := by
  simp [later]

theorem later_eq (chain : Nat → Chain K V) (lt : i < n) :
    later n chain i = chain i ++ later n chain (i + 1) := by
  rw [later, show n - i = n - (i + 1) + 1 by omega, List.range'_succ, List.flatMap_cons, later]

theorem later_zero (n : Nat) (chain : Nat → Chain K V) : later n chain 0 = inChains n chain := by
  rw [later, inChains, Nat.sub_zero, List.range_eq_range']

theorem later_update {j : Nat} (lt : j < i) (new : Chain K V) :
    later n (Function.update chain j new) i = later n chain i := by
  refine List.flatMap_congr fun x mem => Function.update_of_ne ?_ ..
  rw [List.mem_range'_1] at mem
  omega

theorem inChains_append_later (chain : Nat → Chain K V) (le : i ≤ n) :
    inChains i chain ++ later n chain i = inChains n chain := by
  induction i with
  | zero => rw [later_zero]; rfl
  | succ i ih =>
    rw [inChains_succ, List.append_assoc, ← later_eq chain le]
    exact ih (by omega)

inductive First (n : Nat) (chain : Nat → Chain K V) : Nat → Chain K V → Prop
  | atEnd : First n chain n []
  | here {i : Nat} (lt : i < n) (ne : chain i ≠ []) : First n chain i (chain i)
  | skip {i : Nat} {it : Chain K V} (lt : i < n) (nil : chain i = [])
      (first : First n chain (i + 1) it) : First n chain i it

inductive At (n : Nat) (chain : Nat → Chain K V) : Chain K V → List (Entry K V) → List (Entry K V) → Prop
  | atEnd : At n chain [] (inChains n chain) []
  | inside {i : Nat} {a it : Chain K V} (lt : i < n) (split : chain i = a ++ it) (ne : it ≠ []) :
      At n chain it (inChains i chain ++ a) (it ++ later n chain (i + 1))

variable {pre rest : List (Entry K V)}

theorem At.append (at_ : At n chain it pre rest) : pre ++ rest = inChains n chain := by
  cases at_ with
  | atEnd => rw [List.append_nil]
  | @inside i a it lt split ne =>
    rw [← inChains_append_later chain (show i ≤ n by omega), later_eq chain lt, split]
    simp

theorem At.head (at_ : At n chain it pre rest) : it.head? = rest.head? := by
  cases at_ with
  | atEnd => rfl
  | inside lt split ne =>
    obtain ⟨e, it, rfl⟩ := List.exists_cons_of_ne_nil ne
    rfl

theorem First.at (first : First n chain i it) : At n chain it (inChains i chain) (later n chain i) := by
  induction first with
  | atEnd =>
    rw [later_end]
    exact .atEnd
  | @here i lt ne =>
    rw [later_eq chain lt, ← List.append_nil (inChains i chain)]
    exact .inside lt (List.nil_append _).symm ne
  | @skip i it lt nil first ih =>
    rw [inChains_succ, nil, List.append_nil] at ih
    rw [later_eq chain lt, nil]
    exact ih

theorem First.update (first : First n chain i it) {j : Nat} (lt : j < i) (new : Chain K V) :
    First n (Function.update chain j new) i it := by
  induction first with
  | atEnd => exact .atEnd
  | @here i lti ne =>
    have same : Function.update chain j new i = chain i := Function.update_of_ne (by omega) ..
    rw [← same] at ne ⊢
    exact .here lti ne
  | @skip i it lti nil first ih =>
    refine .skip lti ?_ (ih (by omega))
    rw [Function.update_of_ne (by omega), nil]

section
variable {slack : Nat}

section
variable (view : View t chain slack)
include view

theorem View.findFirstNonempty (le : i ≤ t.bucketCount) :
    ∃ j it, t.findFirstNonempty (t.bucketCount - i) i = some j ∧ First t.bucketCount chain i it ∧
      (if j ≥ t.bucketCount then some [] else t.bucket j) = some it := by
  generalize left : t.bucketCount - i = k
  induction k generalizing i with
  | zero =>
    obtain rfl : i = t.bucketCount := by omega
    exact ⟨_, [], rfl, .atEnd, if_pos (le_refl _)⟩
  | succ k ih =>
    have lt : i < t.bucketCount := by omega
    have bucket := view.chains i lt
    by_cases nil : chain i = []
    · obtain ⟨j, it, found, first, at_⟩ := ih lt (by omega)
      refine ⟨j, it, ?_, .skip lt nil first, at_⟩
      simp [Table.findFirstNonempty, bucket, nil, found]
    · refine ⟨i, chain i, ?_, .here lt nil, ?_⟩
      · simp [Table.findFirstNonempty, bucket, nil]
      · rw [if_neg (by omega), bucket]

theorem View.firstFrom (le : i ≤ t.bucketCount) :
    ∃ it, t.firstFrom i = some it ∧ First t.bucketCount chain i it := by
  obtain ⟨j, it, found, first, at_⟩ := view.findFirstNonempty le
  refine ⟨it, ?_, first⟩
  simp only [Table.firstFrom, found, Option.bind_eq_bind, Option.bind_some]
  exact at_

theorem View.begin : ∃ it, t.begin = some it ∧ At t.bucketCount chain it [] (contents t chain) := by
  obtain ⟨it, eq, first⟩ := view.firstFrom (Nat.zero_le _)
  have at_ := first.at
  rw [later_zero] at at_
  exact ⟨it, eq, at_⟩

end

section
variable (holds : Holds P t chain slack)
include holds

theorem Holds.next
    (at_ : At t.bucketCount chain it pre (e :: rest)) :
    ∃ i a b first, i < t.bucketCount ∧ chain i = a ++ e :: b ∧ it = e :: b ∧
      t.next it = some first ∧ At t.bucketCount chain first (pre ++ [e]) rest ∧
      At t.bucketCount (Function.update chain i (a ++ b)) first pre rest := by
  generalize all : e :: rest = l at at_
  cases at_ with
  | atEnd => cases all
  | @inside i a it lt split ne =>
    obtain ⟨e', b, rfl⟩ := List.exists_cons_of_ne_nil ne
    cases all
    have updated : Function.update chain i (a ++ b) i = a ++ b := Function.update_self ..
    have before : inChains i (Function.update chain i (a ++ b)) = inChains i chain :=
      inChains_congr fun j ltj => Function.update_of_ne (Nat.ne_of_lt ltj) ..
    have after : later t.bucketCount (Function.update chain i (a ++ b)) (i + 1) =
        later t.bucketCount chain (i + 1) := later_update (Nat.lt_succ_self i) _
    cases b with
    | cons e'' b =>
      refine ⟨i, a, e'' :: b, e'' :: b, lt, split, rfl, rfl, ?_, ?_⟩
      · rw [List.append_assoc]
        exact .inside lt (by rw [split, List.append_assoc]; rfl) nofun
      · rw [← before, ← after]
        exact .inside lt updated nofun
    | nil =>
      have address := (holds.placed i lt e (by simp [split])).2
      obtain ⟨first, eq, isFirst⟩ := holds.toView.firstFrom (Nat.succ_le_of_lt lt)
      have at_ := isFirst.at
      have at' := (isFirst.update (Nat.lt_succ_self i) (a ++ [])).at
      rw [inChains_succ, split, ← List.append_assoc] at at_
      rw [inChains_succ, updated, before, after] at at'
      refine ⟨i, a, [], first, lt, split, rfl, ?_, at_, ?_⟩
      · rw [Table.next, address]
        exact eq
      · have none : a ++ [] = a := List.append_nil a
        rw [none] at at' ⊢
        exact at'

theorem Holds.walk
    (at_ : At t.bucketCount chain it pre rest) {k : Nat} (enough : rest.length ≤ k) :
    t.walk k it = some rest := by
  induction rest generalizing it pre k with
  | nil =>
    have nil : it = [] := List.head?_eq_none_iff.1 at_.head
    rw [nil]
    cases k <;> rfl
  | cons e rest ih =>
    obtain ⟨i, a, b, first, -, -, rfl, next, at', -⟩ := holds.next at_
    cases k with
    | zero => simp at enough
    | succ k =>
      simp [Table.walk, next, ih at' (Nat.le_of_succ_le_succ enough)]

theorem Holds.iterator {k : Nat}
    (le : k ≤ (contents t chain).length) : ∃ it, t.iterator k = some it ∧
      At t.bucketCount chain it ((contents t chain).take k) ((contents t chain).drop k) := by
  induction k with
  | zero => exact holds.toView.begin
  | succ k ih =>
    obtain ⟨it, eq, at_⟩ := ih (Nat.le_of_succ_le le)
    rw [List.drop_eq_getElem_cons le] at at_
    obtain ⟨-, -, -, first, -, -, -, next, at', -⟩ := holds.next at_
    refine ⟨first, ?_, ?_⟩
    · simp [Table.iterator, eq, next]
    · rwa [← List.take_succ_eq_append_getElem le] at at'

end

end

section
variable [DecidableEq K] {m : Finmap fun _ : K => V}

section
variable (refines : Refines P t m chain)
include refines

theorem Refines.entries : t.entries = some (contents t chain) := by
  obtain ⟨it, eq, at_⟩ := refines.toView.begin
  simp only [Table.entries, eq, Option.bind_eq_bind, Option.bind_some]
  exact refines.toHolds.walk at_ refines.size.ge

theorem Refines.eraseIterator
    (at_ : At t.bucketCount chain it pre (e :: rest)) : ∃ t' chain' first,
    t.next it = some first ∧ t.eraseIterator P it = some t' ∧
    Refines P t' (m.erase e.key) chain' ∧ At t'.bucketCount chain' first pre rest := by
  obtain ⟨i, a, b, first, lt, split, rfl, next, -, at'⟩ := refines.toHolds.next at_
  obtain ⟨t', erased, count, refines'⟩ := refines.eraseEntry lt split
  refine ⟨t', _, first, next, ?_, refines', count ▸ at'⟩
  obtain ⟨found, eq, -, nil, -⟩ := refines.findEntry e.key
  have present : e.key ∈ m := refines.lists.mem_iff.2 ⟨e, mem_inChains.2 ⟨i, lt, by simp [split]⟩, rfl⟩
  have ne : found ≠ [] := fun h => nil.1 h present
  simp [Table.eraseIterator, eq, ne, erased]

theorem Refines.eraseRange {pre mid post : List (Entry K V)}
    (at_ : At t.bucketCount chain it pre (mid ++ post)) {last : Chain K V}
    (end_ : last.head? = post.head?) {k : Nat} (enough : mid.length ≤ k) : ∃ t' chain',
    t.eraseRange P k it last = some t' ∧
    Refines P t' ((mid.map Entry.key).foldl (fun m k => m.erase k) m) chain' := by
  induction mid generalizing t m chain it k with
  | nil =>
    refine ⟨t, chain, ?_, refines⟩
    have same : Table.sameEntry it last = true := by
      rw [Table.sameEntry, at_.head, end_]
      exact decide_eq_true rfl
    cases k <;> rw [Table.eraseRange, if_pos same]
  | cons e mid ih =>
    have head := at_.head
    have other : Table.sameEntry it last = false := by
      rw [Table.sameEntry, head, end_, decide_eq_false_iff_not]
      intro same
      have nodup := refines.lists.nodup
      rw [contents, ← at_.append, List.map_append, List.cons_append, List.map_cons, List.map_append,
        List.nodup_append, List.nodup_cons] at nodup
      cases post with
      | nil => simp at same
      | cons e' post =>
        have eq : e.key = e'.key := by simpa using same
        exact nodup.2.1.1 (List.mem_append_right _ (by simp [eq]))
    cases k with
    | zero => simp at enough
    | succ k =>
      obtain ⟨t₁, chain₁, first, next, erased, refines₁, at₁⟩ := refines.eraseIterator at_
      obtain ⟨t', chain', rest, refines'⟩ := ih refines₁ at₁ (Nat.le_of_succ_le_succ enough)
      refine ⟨t', chain', ?_, refines'⟩
      rw [Table.eraseRange, if_neg (by rw [other]; exact Bool.false_ne_true)]
      simp [next, erased, rest]

end

end

end Prpc.HashTable
