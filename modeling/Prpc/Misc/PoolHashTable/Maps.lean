import Prpc.Misc.PoolHashTable.Erase
import Prpc.Misc.PoolHashTable.Resize

namespace Prpc.PoolHashTable
open Lib

variable {K V : Type} [DecidableEq K] {d : Doubles} {P : Params K V} {t t' : Table K V d}
  {m : Finmap fun _ : K => V} {o : Nat} {key : K} {v : V} {x : K × V}

structure Refines (P : Params K V) (t : Table K V d) (m : Finmap fun _ : K => V) : Prop where
  wellFormed : WellFormed P t
  limit : t.maxNumItems ≤ t.numNodes
  lists : Lists Prod.fst Prod.snd (contents t) m

theorem Refines.of_within (refines : Refines P t m) (wellFormed : WellFormed P t') (within : Within t t')
    {m' : Finmap fun _ : K => V} (lists : Lists Prod.fst Prod.snd (contents t') m') : Refines P t' m' := by
  refine ⟨wellFormed, ?_, lists⟩
  rw [within.limit, within.nodes]
  exact refines.limit

theorem Resized.refines {n : Nat} (resized : Resized P t t' n) (refines : Refines P t m) : Refines P t' m :=
  ⟨resized.wellFormed, resized.limit, refines.lists.perm resized.contents.symm⟩

section
variable (refines : Refines P t m)
include refines

theorem Refines.lookup_of_mem (mem : (o, x) ∈ slotsOf t t.offsets) : m.lookup x.1 = some x.2 :=
  (refines.lists.lookup x.1 x.2).2 ⟨x, List.mem_map_of_mem mem, rfl, rfl⟩

theorem Refines.find (key : K) : ∃ o, t.find P key = some o ∧
    (o = 0 ∧ key ∉ m ∨ ∃ v, (o, (key, v)) ∈ slotsOf t t.offsets ∧ m.lookup key = some v) := by
  obtain ⟨o, find, found⟩ := refines.wellFormed.find key
  refine ⟨o, find, ?_⟩
  rcases found with ⟨none_, absent⟩ | ⟨v, mem⟩
  · refine .inl ⟨none_, fun mem => ?_⟩
    obtain ⟨x, there, same⟩ := refines.lists.mem_iff.1 mem
    exact absent x there same
  · exact .inr ⟨v, mem, refines.lookup_of_mem mem⟩

theorem Refines.count (key : K) : t.count P key = some (if key ∈ m then 1 else 0) := by
  obtain ⟨o, find, found⟩ := refines.find key
  have find' : t.innerFind P key = some o := find
  rw [Table.count, find', Option.bind_eq_bind, Option.bind_some]
  rcases found with ⟨rfl, absent⟩ | ⟨v, mem, lookup⟩
  · rw [if_neg absent]
    rfl
  · rw [if_pos (Finmap.mem_iff.2 ⟨v, lookup⟩), if_pos (Nat.ne_of_gt (node_of_mem_slots mem).1)]
    rfl

theorem Refines.at_ (key : K) : t.at? P key = some (m.lookup key) := by
  obtain ⟨o, find, found⟩ := refines.find key
  have find' : t.innerFind P key = some o := find
  rw [Table.at?, find', Option.bind_eq_bind, Option.bind_some]
  rcases found with ⟨rfl, absent⟩ | ⟨v, mem, lookup⟩
  · rw [Finmap.lookup_eq_none.2 absent]
    rfl
  · obtain ⟨pos, -, -, item⟩ := node_of_mem_slots mem
    rw [if_neg (Nat.ne_of_gt pos), item, lookup]
    rfl

theorem Refines.innerEmplaceNotExist (fresh : key ∉ m) (v : V) :
    ∃ o t', t.innerEmplaceNotExist P (key, v) = some (o, t') ∧ Refines P t' (m.insert key v) ∧
      (o, (key, v)) ∈ slotsOf t' t'.offsets := by
  obtain ⟨o, t', placed, wellFormed, limit, perm, mem⟩ :=
    refines.wellFormed.innerEmplaceNotExist refines.limit (key, v)
  have lists := refines.lists.cons (e := (key, v)) fresh
  exact ⟨o, t', placed, ⟨wellFormed, limit, lists.perm perm.symm⟩, mem⟩

theorem Refines.emplace (key : K) (v : V) : ∃ o t', t.emplace P (key, v) = some ((o, decide (key ∉ m)), t') ∧
      Refines P t' (if key ∈ m then m else m.insert key v) ∧ (o, (key, (m.lookup key).getD v)) ∈ slotsOf t' t'.offsets := by
  obtain ⟨o, find, found⟩ := refines.find key
  rw [Table.emplace, find, Option.bind_eq_bind, Option.bind_some]
  rcases found with ⟨rfl, fresh⟩ | ⟨w, mem, lookup⟩
  · obtain ⟨o, t', placed, refines', mem⟩ := refines.innerEmplaceNotExist fresh v
    refine ⟨o, t', ?_, ?_, ?_⟩
    · rw [if_neg (by simp), placed, decide_eq_true fresh]
      rfl
    · rwa [if_neg fresh]
    · rw [Finmap.lookup_eq_none.2 fresh]
      exact mem
  · have some_ : o ≠ 0 := Nat.ne_of_gt (node_of_mem_slots mem).1
    have there : key ∈ m := Finmap.mem_iff.2 ⟨w, lookup⟩
    refine ⟨o, t, ?_, ?_, ?_⟩
    · rw [if_pos some_, decide_eq_false (not_not_intro there)]
      rfl
    · rwa [if_pos there]
    · rw [lookup]
      exact mem

end

theorem Table.index_eq (t : Table K V d) (key : K) :
    t.index P key = (t.emplace P (key, P.value)).map fun r => (r.1.1, r.2) := by
  rw [Table.index, Table.emplace]
  cases t.find P key with
  | none => rfl
  | some o =>
    simp only [Option.bind_eq_bind, Option.bind_some]
    by_cases found : o ≠ 0
    · rw [if_pos found, if_pos found]
      rfl
    · rw [if_neg found, if_neg found]
      cases t.innerEmplaceNotExist P (key, P.value) <;> rfl

section
variable (refines : Refines P t m)
include refines

theorem Refines.index (key : K) :
    ∃ o t', t.index P key = some (o, t') ∧ Refines P t' (if key ∈ m then m else m.insert key P.value) ∧
      (o, (key, (m.lookup key).getD P.value)) ∈ slotsOf t' t'.offsets := by
  obtain ⟨o, t', placed, refines', mem⟩ := refines.emplace key P.value
  rw [Table.index_eq, placed]
  exact ⟨o, t', rfl, refines', mem⟩

theorem Refines.setItem (mem : (o, (key, v)) ∈ slotsOf t t.offsets) (w : V) :
    Refines P (t.setItem o (key, w)) (m.insert key w) := by
  obtain ⟨wellFormed, within, perm, -⟩ := refines.wellFormed.setItem mem (y := (key, w)) rfl
  obtain ⟨before, after, split⟩ := List.append_of_mem (List.mem_map_of_mem (f := Prod.snd) mem)
  have old : (contents t).Perm ((key, v) :: (before ++ after)) := by
    rw [contents, split]
    exact List.perm_middle
  have new : ((key, v) :: contents (t.setItem o (key, w))).Perm ((key, v) :: (key, w) :: (before ++ after)) :=
    (perm.map Prod.snd).symm.trans ((old.cons (key, w)).trans (.swap ..))
  have lists : Lists Prod.fst Prod.snd ((key, w) :: (before ++ after)) (m.insert key w) :=
    (refines.lists.perm old).replace rfl
  exact refines.of_within wellFormed within (lists.perm new.cons_inv.symm)

theorem Refines.assign (key : K) (w : V) :
    ∃ t', t.assign P key w = some t' ∧ Refines P t' (m.insert key w) := by
  obtain ⟨o, t', index, refines', mem⟩ := refines.index key
  have item := (node_of_mem_slots mem).2.2.2
  have new := refines'.setItem mem w
  refine ⟨t'.setItem o (key, w), ?_, ?_⟩
  · rw [Table.assign, index]
    simp only [Option.bind_eq_bind, Option.bind_some, item]
    rfl
  · by_cases there : key ∈ m
    · rwa [if_pos there] at new
    · rwa [if_neg there, Finmap.insert_insert] at new

theorem Refines.eraseIterator (mem : (o, x) ∈ slotsOf t t.offsets) :
    ∃ it t', t.eraseIterator P o = some (it, t') ∧ Refines P t' (m.erase x.1) := by
  obtain ⟨pos, le, used, item⟩ := node_of_mem_slots mem
  obtain ⟨x', it, t', item', erase, erased⟩ := refines.wellFormed.eraseIterator pos le used
  obtain rfl : x = x' := Option.some.inj (item.symm.trans item')
  exact ⟨it, t', erase, refines.of_within erased.wellFormed erased.within (refines.lists.perm (erased.contents le)).tail⟩

theorem Refines.eraseKey (key : K) :
    ∃ t', t.eraseKey P key = some (if key ∈ m then 1 else 0, t') ∧ Refines P t' (m.erase key) := by
  obtain ⟨o, find, found⟩ := refines.find key
  rw [Table.eraseKey, find, Option.bind_eq_bind, Option.bind_some]
  rcases found with ⟨rfl, absent⟩ | ⟨w, mem, lookup⟩
  · refine ⟨t, ?_, ?_⟩
    · rw [if_neg (by simp), if_neg absent]
      rfl
    · rwa [erase_of_notMem absent]
  · have some_ : o ≠ 0 := Nat.ne_of_gt (node_of_mem_slots mem).1
    obtain ⟨it, t', erase, refines'⟩ := refines.eraseIterator mem
    refine ⟨t', ?_, refines'⟩
    rw [if_pos some_, erase, if_pos (Finmap.mem_iff.2 ⟨w, lookup⟩)]
    rfl

theorem Refines.prioritise (key : K) : ∃ o t', t.prioritise P key = some (o, t') ∧
    Refines P t' m ∧ (o = 0 ∧ key ∉ m ∨ ∃ v, (o, (key, v)) ∈ slotsOf t' t'.offsets ∧ m.lookup key = some v) := by
  obtain ⟨o, t', moved, wellFormed, within, perm, found⟩ := refines.wellFormed.prioritise key
  have refines' := refines.of_within wellFormed within (refines.lists.perm perm.symm)
  refine ⟨o, t', moved, refines', ?_⟩
  rcases found with ⟨none_, absent⟩ | ⟨v, mem⟩
  · refine .inl ⟨none_, fun mem => ?_⟩
    obtain ⟨x, there, same⟩ := refines.lists.mem_iff.1 mem
    exact absent x there same
  · exact .inr ⟨v, mem, refines'.lookup_of_mem mem⟩

end

omit [DecidableEq K] in
theorem Arranged.refit {free : List Nat} {chain : Nat → List (Slot K V)} (arranged : Arranged P t free chain)
    (mem : t'.mem = t.mem) (nodes : t'.numNodes = t.numNodes) (count : t'.numItems = t.numItems) :
    Arranged P t' free chain := by
  obtain ⟨mem', nodes', factor, count', limit⟩ := t'
  obtain rfl : mem' = t.mem := mem
  obtain rfl : nodes' = t.numNodes := nodes
  obtain rfl : count' = t.numItems := count
  have layout := arranged.layout
  exact ⟨⟨layout.cover, layout.ring, layout.idle, fun h le => (layout.chains h le).congr rfl fun _ _ => rfl,
    layout.waits⟩, arranged.pos, arranged.count, arranged.stale⟩

theorem Refines.setMaxLoadFactor (refines : Refines P t m) (factor : ℚ) : Refines P (t.setMaxLoadFactor factor) m := by
  obtain ⟨free, chain, arranged⟩ := refines.wellFormed
  exact ⟨⟨free, chain, arranged.refit rfl rfl rfl⟩, min_le_left .., refines.lists⟩

theorem Arranged.refines {free : List Nat} (arranged : Arranged P t free fun _ => [])
    (limit : t.maxNumItems ≤ t.numNodes) : Refines P t ∅ := by
  refine ⟨⟨_, _, arranged⟩, limit, ?_⟩
  rw [arranged.contents_nil]
  exact Lists.nil

theorem initializeNodes_refines (pos : 0 < t.numNodes) (stale : ∀ o, t.numNodes < o → t.tag o = .empty)
    (limit : t.maxNumItems ≤ t.numNodes) : Refines P t.initializeNodes ∅ := by
  obtain ⟨nodes, -, limit'⟩ := initializeNodes_fields P t
  refine (initializeNodes_arranged pos stale).refines ?_
  rw [nodes, limit']
  exact limit

theorem construct_refines (P : Params K V) : Refines P (construct P) ∅ :=
  initializeNodes_refines Nat.one_pos (fun _ _ => rfl) (Nat.zero_le _)

theorem Refines.clear (refines : Refines P t m) : Refines P t.clear ∅ := by
  obtain ⟨free, chain, arranged⟩ := refines.wellFormed
  exact initializeNodes_refines arranged.pos arranged.stale refines.limit

theorem movedFrom_refines (P : Params K V) (t : Table K V d) : Refines P t.movedFrom ∅ := by
  let u : Table K V d := { t with mem := fun _ => Node.zero, numNodes := 1 }
  have arranged : Arranged P u.initializeNodes [1] fun _ => [] := initializeNodes_arranged Nat.one_pos fun _ _ => rfl
  have none_ : u.initializeNodes.numItems = 0 := by
    have count := arranged.count
    rw [(initializeNodes_fields P u).1] at count
    exact add_eq_right.1 count
  exact Arranged.refines (arranged.refit rfl rfl none_.symm) (Nat.zero_le _)

theorem Refines.insert_all {xs l : List (K × V)} {m' : Finmap fun _ : K => V} (refines : Refines P t m)
    (lists : Lists Prod.fst Prod.snd l m) (target : Lists Prod.fst Prod.snd (xs ++ l) m') :
    ∃ t', xs.foldlM (fun t x => do return (← t.insert P x).2) t = some t' ∧ Refines P t' m' := by
  induction xs generalizing t m l with
  | nil =>
    obtain rfl := lists.unique target
    exact ⟨t, rfl, refines⟩
  | cons x xs ih =>
    have fresh : x.1 ∉ m := by
      intro mem
      obtain ⟨x', mem', same⟩ := lists.mem_iff.1 mem
      have nodup := target.nodup
      rw [List.cons_append, List.map_cons, List.nodup_cons] at nodup
      exact nodup.1 (List.mem_map.2 ⟨x', List.mem_append_right _ mem', same⟩)
    obtain ⟨o, t₁, inserted, refines₁, -⟩ := refines.emplace x.1 x.2
    rw [if_neg fresh] at refines₁
    obtain ⟨t', rest, refines'⟩ := ih refines₁ (lists.cons fresh) (target.perm List.perm_middle.symm)
    refine ⟨t', ?_, refines'⟩
    rw [List.foldlM_cons, Table.insert, inserted]
    exact rest

theorem Refines.copyConstruct (refines : Refines P t m) : ∃ t', t.copyConstruct P = some t' ∧ Refines P t' m := by
  obtain ⟨free, chain, arranged⟩ := refines.wellFormed
  have empty : Refines P (Table.initializeNodes (d := d)
      ⟨fun _ => Node.zero, t.numNodes, t.maxLoadFactor, 0, t.maxNumItems⟩) ∅ :=
    initializeNodes_refines arranged.pos (fun _ _ => rfl) refines.limit
  obtain ⟨t₁, reserved, resized⟩ := empty.wellFormed.reserve empty.limit t.size.toNat
  have target : Lists Prod.fst Prod.snd (contents t ++ []) m := by
    rw [List.append_nil]
    exact refines.lists
  obtain ⟨t', inserted, refines'⟩ := (resized.refines empty).insert_all Lists.nil target
  refine ⟨t', ?_, refines'⟩
  rw [Table.copyConstruct, reserved, refines.wellFormed.entries]
  exact inserted

end Prpc.PoolHashTable
