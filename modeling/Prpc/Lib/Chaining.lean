import Mathlib.Data.Finmap
import Mathlib.Data.List.Perm.Basic
import Mathlib.Data.List.Range

/-!
A list of entries with distinct keys lists a finite map.
-/

namespace Prpc.Lib

open Function (update update_self update_of_ne update_eq_self)

variable {E K V : Type*} [DecidableEq K] {key : E → K} {value : E → V} {l l' : List E}
  {m : Finmap fun _ : K => V} {e : E}

structure Lists (key : E → K) (value : E → V) (l : List E) (m : Finmap fun _ : K => V) : Prop where
  nodup : (l.map key).Nodup
  lookup : ∀ k v, m.lookup k = some v ↔ ∃ e ∈ l, key e = k ∧ value e = v

theorem Lists.nil : Lists key value [] (∅ : Finmap fun _ : K => V) := ⟨List.nodup_nil, by simp⟩

section
variable (lists : Lists key value l m)
include lists

theorem Lists.perm (perm : l.Perm l') : Lists key value l' m :=
  ⟨(perm.map key).nodup_iff.1 lists.nodup, fun k v => by simp only [lists.lookup, perm.mem_iff]⟩

theorem Lists.mem_iff {k : K} : k ∈ m ↔ ∃ e ∈ l, key e = k := by
  rw [← Finmap.lookup_isSome, Option.isSome_iff_exists]
  constructor
  · rintro ⟨v, h⟩
    obtain ⟨e, mem, rfl, -⟩ := (lists.lookup k v).1 h
    exact ⟨e, mem, rfl⟩
  · rintro ⟨e, mem, rfl⟩
    exact ⟨value e, (lists.lookup _ _).2 ⟨e, mem, rfl, rfl⟩⟩

theorem Lists.length : l.length = m.keys.card := by
  have keys : (l.map key).toFinset = m.keys := by
    ext k
    rw [List.mem_toFinset, List.mem_map, Finmap.mem_keys, lists.mem_iff]
  rw [← keys, List.toFinset_card_of_nodup lists.nodup, List.length_map]

theorem Lists.cons (fresh : key e ∉ m) : Lists key value (e :: l) (m.insert (key e) (value e)) := by
  refine ⟨List.nodup_cons.2 ⟨fun mem => ?_, lists.nodup⟩, fun k v => ?_⟩
  · obtain ⟨e', mem', eq⟩ := List.mem_map.1 mem
    exact fresh (lists.mem_iff.2 ⟨e', mem', eq⟩)
  · by_cases eq : k = key e
    · subst eq
      rw [Finmap.lookup_insert]
      constructor
      · rintro ⟨⟩
        exact ⟨e, List.mem_cons_self .., rfl, rfl⟩
      · rintro ⟨e', mem, same, rfl⟩
        rcases List.mem_cons.1 mem with rfl | mem
        · rfl
        · exact absurd (lists.mem_iff.2 ⟨e', mem, same⟩) fresh
    · rw [Finmap.lookup_insert_of_ne _ eq, lists.lookup]
      constructor
      · rintro ⟨e', mem, h⟩
        exact ⟨e', List.mem_cons_of_mem _ mem, h⟩
      · rintro ⟨e', mem, same, h⟩
        rcases List.mem_cons.1 mem with rfl | mem
        · exact absurd same.symm eq
        · exact ⟨e', mem, same, h⟩

end

theorem Lists.tail (lists : Lists key value (e :: l) m) : Lists key value l (m.erase (key e)) := by
  obtain ⟨head, nodup⟩ := List.nodup_cons.1 lists.nodup
  refine ⟨nodup, fun k v => ?_⟩
  by_cases eq : k = key e
  · subst eq
    rw [Finmap.lookup_erase]
    refine iff_of_false nofun ?_
    rintro ⟨e', mem, same, -⟩
    exact head (List.mem_map.2 ⟨e', mem, same⟩)
  · rw [Finmap.lookup_erase_ne eq, lists.lookup]
    constructor
    · rintro ⟨e', mem, same, h⟩
      rcases List.mem_cons.1 mem with rfl | mem
      · exact absurd same.symm eq
      · exact ⟨e', mem, same, h⟩
    · rintro ⟨e', mem, h⟩
      exact ⟨e', List.mem_cons_of_mem _ mem, h⟩

theorem Lists.replace {e' : E} (lists : Lists key value (e :: l) m) (same : key e' = key e) :
    Lists key value (e' :: l) (m.insert (key e') (value e')) := by
  have cons := lists.tail.cons (e := e') (by rw [same]; exact Finmap.notMem_erase_self)
  refine ⟨cons.nodup, fun k v => ?_⟩
  rw [← cons.lookup]
  by_cases eq : k = key e'
  · subst eq
    rw [Finmap.lookup_insert, Finmap.lookup_insert]
  · rw [Finmap.lookup_insert_of_ne _ eq, Finmap.lookup_insert_of_ne _ eq, Finmap.lookup_erase_ne (same ▸ eq)]

theorem erase_of_notMem {k : K} (absent : k ∉ m) : m.erase k = m := by
  apply Finmap.ext_lookup
  intro k'
  by_cases eq : k' = k
  · subst eq
    rw [Finmap.lookup_erase, Finmap.lookup_eq_none.2 absent]
  · rw [Finmap.lookup_erase_ne eq]

def inChains (n : Nat) (chain : Nat → List E) : List E := (List.range n).flatMap chain

variable {n : Nat} {chain : Nat → List E}

theorem mem_inChains : e ∈ inChains n chain ↔ ∃ i < n, e ∈ chain i := by
  simp [inChains]

@[simp] theorem inChains_nil (n : Nat) : inChains n (fun _ => ([] : List E)) = [] := by
  simp [inChains]

variable {n i : Nat}

theorem sublist_inChains (lt : i < n) : (chain i).Sublist (inChains n chain) :=
  List.sublist_flatten_of_mem (List.mem_map_of_mem (List.mem_range.2 lt))

theorem inChains_congr {chain chain' : Nat → List E}
    (same : ∀ i < n, chain' i = chain i) : inChains n chain' = inChains n chain :=
  List.flatMap_congr fun i mem => same i (List.mem_range.1 mem)

theorem inChains_succ (n : Nat) (chain : Nat → List E) :
    inChains (n + 1) chain = inChains n chain ++ chain n := by
  simp [inChains, List.range_succ]

theorem inChains_perm_at (chain : Nat → List E) (lt : i < n) :
    ∃ rest, ∀ new, (inChains n (update chain i new)).Perm (new ++ rest) := by
  induction n with
  | zero => omega
  | succ n ih =>
    by_cases eq : i = n
    · subst eq
      refine ⟨inChains i chain, fun new => ?_⟩
      rw [inChains_succ, update_self, inChains_congr fun j lt =>
        update_of_ne (by omega : j ≠ i) ..]
      exact List.perm_append_comm
    · obtain ⟨rest, perm⟩ := ih (by omega)
      refine ⟨rest ++ chain n, fun new => ?_⟩
      rw [inChains_succ, update_of_ne (fun h => eq h.symm), ← List.append_assoc]
      exact (perm new).append_right _

theorem inChains_update_perm (lt : i < n) {new : List E}
    (perm : (chain i ++ l).Perm (new ++ l')) :
    (inChains n chain ++ l).Perm (inChains n (update chain i new) ++ l') := by
  obtain ⟨rest, at_⟩ := inChains_perm_at chain lt
  have before := at_ (chain i)
  rw [update_eq_self] at before
  calc (inChains n chain ++ l).Perm ((chain i ++ rest) ++ l) := before.append_right _
    _ |>.Perm ((chain i ++ l) ++ rest) := by
        rw [List.append_assoc, List.append_assoc]
        exact List.perm_append_comm.append_left _
    _ |>.Perm ((new ++ l') ++ rest) := perm.append_right _
    _ |>.Perm ((new ++ rest) ++ l') := by
        rw [List.append_assoc, List.append_assoc]
        exact List.perm_append_comm.append_left _
    _ |>.Perm (inChains n (update chain i new) ++ l') := (at_ new).symm.append_right _

theorem inChains_append_perm (chain : Nat → List E) (lt : i < n) (l : List E) :
    (inChains n (update chain i (chain i ++ l))).Perm (inChains n chain ++ l) := by
  have same : (chain i ++ l).Perm (chain i ++ l ++ []) := by rw [List.append_nil]
  have perm := inChains_update_perm lt same
  rw [List.append_nil] at perm
  exact perm.symm

theorem map_inChains_update_perm {B : Type*} (lt : i < n)
    (f : E → B) {b b' : List B} {new : List E}
    (perm : ((chain i).map f ++ b).Perm (new.map f ++ b')) :
    ((inChains n chain).map f ++ b).Perm ((inChains n (update chain i new)).map f ++ b') := by
  have mapped (chain : Nat → List E) : (inChains n chain).map f = inChains n fun j => (chain j).map f :=
    List.map_flatMap
  have updated : (fun j => (update chain i new j).map f) =
      update (fun j => (chain j).map f) i (new.map f) := by
    funext j
    by_cases eq : j = i
    · subst eq
      simp
    · simp [eq]
  rw [mapped, mapped, updated]
  exact inChains_update_perm lt perm

theorem inChains_split_perm (chain : Nat → List E) (lt : i < n) (goes : E → Bool) :
    (inChains n chain).Perm (inChains (n + 1) (update
      (update chain i ((chain i).filter fun e => !goes e)) n ((chain i).filter goes))) := by
  have split : (chain i ++ []).Perm (((chain i).filter fun e => !goes e) ++ (chain i).filter goes) := by
    rw [List.append_nil]
    exact (List.filter_append_perm goes (chain i)).symm.trans List.perm_append_comm
  have perm := inChains_update_perm lt split
  have below : inChains n (update (update chain i
      ((chain i).filter fun e => !goes e)) n ((chain i).filter goes)) =
      inChains n (update chain i ((chain i).filter fun e => !goes e)) :=
    inChains_congr fun j ltj => update_of_ne (Nat.ne_of_lt ltj) ..
  rw [inChains_succ, update_self, below]
  rwa [List.append_nil] at perm

omit [DecidableEq K] in
theorem mem_chain_of_mem {addr : K → Nat}
    (placed : ∀ i < n, ∀ e ∈ chain i, addr (key e) = i) (mem : e ∈ inChains n chain) :
    e ∈ chain (addr (key e)) := by
  obtain ⟨i, lt, mem⟩ := mem_inChains.1 mem
  rwa [placed i lt e mem]

theorem Lists.unique {m' : Finmap fun _ : K => V} (lists : Lists key value l m)
    (lists' : Lists key value l m') : m = m' := by
  apply Finmap.ext_lookup
  intro k
  apply Option.ext
  intro v
  rw [lists.lookup, lists'.lookup]

end Prpc.Lib
