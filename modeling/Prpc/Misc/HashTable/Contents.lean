import Mathlib.Data.List.TakeWhile
import Prpc.Misc.HashTable.Layout

namespace Prpc.HashTable
open Lib
open Function (update update_idem update_self update_of_ne)

variable {K V F : Type} {P : Params K V F} {t t' : Table K V F} {chain : Nat → Chain K V}
  {slack : Nat}

structure Holds (P : Params K V F) (t : Table K V F) (chain : Nat → Chain K V) (slack : Nat) : Prop
    extends View t chain slack where
  placed : ∀ i < t.bucketCount, ∀ e ∈ chain i, e.hashCode = P.hash e.key ∧ t.hashToBucket e.hashCode = i

abbrev contents (t : Table K V F) (chain : Nat → Chain K V) : List (Entry K V) := inChains t.bucketCount chain

variable {i : Nat}

theorem Holds.setBucket (holds : Holds P t chain slack) (lt : i < t.bucketCount)
    {new : Chain K V}
    (placed : ∀ e ∈ new, e.hashCode = P.hash e.key ∧ t.hashToBucket e.hashCode = i) :
    ∃ news olds, t.setBucket i new = some { t with newBuckets := news, oldBuckets := olds } ∧
      Holds P { t with newBuckets := news, oldBuckets := olds } (update chain i new)
        slack := by
  obtain ⟨news, olds, eq, view⟩ := holds.toView.setBucket lt new
  refine ⟨news, olds, eq, view, fun j ltj e mem => ?_⟩
  by_cases same : j = i
  · subst same
    rw [update_self] at mem
    exact placed e mem
  · rw [update_of_ne same] at mem
    exact holds.placed j ltj e mem

theorem Holds.moveBucket (holds : Holds P t chain slack) (small : slack ≤ 1) : ∃ newBegin news olds,
      t.moveBucket = some { t with newBegin := newBegin, newBuckets := news, oldBuckets := olds } ∧
      Holds P { t with newBegin := newBegin, newBuckets := news, oldBuckets := olds } chain 0 := by
  obtain ⟨newBegin, news, olds, eq, view⟩ := holds.toView.moveBucket small
  exact ⟨newBegin, news, olds, eq, view, holds.placed⟩

theorem Holds.addBucket (holds : Holds P t chain 0) : ∃ t' chain',
    t.addBucket = some t' ∧ Holds P t' chain' 1 ∧ t'.size = t.size ∧
    t'.maxLoadFactor = t.maxLoadFactor ∧ (contents t chain).Perm (contents t' chain') := by
  obtain ⟨t', fromI, eq, grown, view⟩ := holds.toView.addBucket
  have ne : fromI ≠ t.bucketCount := grown.inside.ne
  refine ⟨t', _, eq, ⟨view, fun i lt e mem => ?_⟩, grown.size, grown.factor, ?_⟩
  · rw [grown.address]
    by_cases new : i = t.bucketCount
    · subst new
      rw [update_self, List.mem_filter] at mem
      have goes := of_decide_eq_true mem.2
      exact ⟨(holds.placed fromI grown.inside e mem.1).1, if_pos goes⟩
    · have old : i < t.bucketCount := by
        rw [grown.count] at lt
        omega
      rw [update_of_ne new] at mem
      by_cases source : i = fromI
      · subst source
        rw [update_self, List.mem_filter] at mem
        have stays := of_decide_eq_true mem.2
        rw [if_neg stays]
        exact holds.placed i old e mem.1
      · rw [update_of_ne source] at mem
        obtain ⟨code, address⟩ := holds.placed i old e mem
        refine ⟨code, ?_⟩
        rw [if_neg, address]
        intro goes
        exact source (address.symm.trans (grown.source _ goes))
  · rw [contents, contents, grown.count]
    simp only [decide_not]
    exact inChains_split_perm chain grown.inside _

theorem Holds.insertPostprocess (holds : Holds P t chain 0) : ∃ t' chain',
    t.insertPostprocess P = some t' ∧ Holds P t' chain' 0 ∧ t'.size = t.size + 1 ∧
    (contents t chain).Perm (contents t' chain') := by
  have holds₀ : Holds P { t with size := t.size + 1 } chain 0 := ⟨holds.toView.withSize _, holds.placed⟩
  by_cases grows : P.exceeds (t.size + 1) t.maxLoadFactor t.bucketCount = true
  · obtain ⟨t₁, chain₁, add₁, holds₁, size₁, -, perm₁⟩ := holds₀.addBucket
    obtain ⟨_, _, _, move₂, holds₂⟩ := holds₁.moveBucket (le_refl 1)
    obtain ⟨t₃, chain₃, add₃, holds₃, size₃, -, perm₃⟩ := holds₂.addBucket
    obtain ⟨_, _, _, move₄, holds₄⟩ := holds₃.moveBucket (le_refl 1)
    refine ⟨_, chain₃, ?_, holds₄, size₃.trans size₁, perm₁.trans perm₃⟩
    simp [Table.insertPostprocess, if_pos grows, add₁, move₂, add₃, move₄]
  · obtain ⟨_, _, _, move, holds₁⟩ := holds₀.moveBucket (Nat.zero_le 1)
    refine ⟨_, chain, ?_, holds₁, rfl, .refl _⟩
    simp [Table.insertPostprocess, if_neg grows, move]

section
variable [DecidableEq K] {m : Finmap fun _ : K => V} {k : K}

structure Refines (P : Params K V F) (t : Table K V F) (m : Finmap fun _ : K => V)
    (chain : Nat → Chain K V) : Prop extends Holds P t chain 0 where
  lists : Lists Entry.key Entry.value (contents t chain) m
  size : t.size = (contents t chain).length

variable {e : Entry K V}

theorem Holds.found_iff (holds : Holds P t chain slack) (lt : i < t.bucketCount) (mem : e ∈ chain i) : Entry.found (P.hash k) k e = true ↔ e.key = k := by
  have code := (holds.placed i lt e mem).1
  simp only [Entry.found, Bool.and_eq_true, decide_eq_true_eq, code]
  exact ⟨And.right, fun eq => ⟨by rw [eq], eq⟩⟩

abbrev home (P : Params K V F) (t : Table K V F) (k : K) : Nat := t.hashToBucket (P.hash k)

omit [DecidableEq K] in
theorem Holds.mem_home (holds : Holds P t chain slack)
    (mem : e ∈ contents t chain) : e ∈ chain (home P t e.key) :=
  mem_chain_of_mem (fun i lt e mem => by
    obtain ⟨code, address⟩ := holds.placed i lt e mem
    rw [home, ← code, address]) mem

section
variable (refines : Refines P t m chain)
include refines

theorem Refines.lt_home (k : K) : home P t k < t.bucketCount := refines.toView.hashToBucket_lt _

theorem Refines.not_found (lt : i < t.bucketCount)
    {a b : Chain K V} (split : chain i = a ++ e :: b) :
    home P t e.key = i ∧ Entry.found (P.hash e.key) e.key e = true ∧
      (∀ x ∈ a, Entry.found (P.hash e.key) e.key x = false) ∧
      ∀ x ∈ b, Entry.found (P.hash e.key) e.key x = false := by
  have mem : e ∈ chain i := by simp [split]
  have home_eq : home P t e.key = i := by
    obtain ⟨code, address⟩ := refines.placed i lt e mem
    rw [home, ← code, address]
  have nodup : ((chain i).map Entry.key).Nodup := refines.lists.nodup.sublist ((sublist_inChains lt).map _)
  rw [split, List.map_append, List.map_cons, List.nodup_append, List.nodup_cons] at nodup
  have other : ∀ x ∈ chain i, x.key ≠ e.key → Entry.found (P.hash e.key) e.key x = false :=
    fun x memX ne => by
      rw [Bool.eq_false_iff, ne_eq, refines.toHolds.found_iff lt memX]
      exact ne
  refine ⟨home_eq, (refines.toHolds.found_iff lt mem).2 rfl, fun x memX => ?_, fun x memX => ?_⟩
  · refine other x (by simp [split, memX]) ?_
    exact nodup.2.2 _ (List.mem_map_of_mem memX) _ (List.mem_cons_self ..)
  · refine other x (by simp [split, memX]) fun eq => nodup.2.1.1 ?_
    rw [← eq]
    exact List.mem_map_of_mem memX

theorem Refines.find (k : K) : (k ∉ m ∧ ∀ e ∈ chain (home P t k), Entry.found (P.hash k) k e = false) ∨
    ∃ a e b, chain (home P t k) = a ++ e :: b ∧ e.key = k ∧ m.lookup k = some e.value ∧
      Entry.found (P.hash k) k e = true ∧
      (∀ x ∈ a, Entry.found (P.hash k) k x = false) ∧
      ∀ x ∈ b, Entry.found (P.hash k) k x = false := by
  have lt := refines.lt_home k
  by_cases mem : k ∈ m
  · right
    obtain ⟨e, memE, rfl⟩ := refines.lists.mem_iff.1 mem
    obtain ⟨a, b, split⟩ := List.append_of_mem (refines.toHolds.mem_home memE)
    obtain ⟨-, stops, before, after⟩ := refines.not_found lt split
    exact ⟨a, e, b, split, rfl, (refines.lists.lookup _ _).2 ⟨e, memE, rfl, rfl⟩, stops, before, after⟩
  · left
    refine ⟨mem, fun e memE => ?_⟩
    rw [Bool.eq_false_iff, ne_eq, refines.toHolds.found_iff lt memE]
    intro eq
    exact mem (refines.lists.mem_iff.2 ⟨e, mem_inChains.2 ⟨_, lt, memE⟩, eq⟩)

theorem Refines.findEntry (k : K) : ∃ it, t.findEntry P k = some it ∧ it.head?.map Entry.value = m.lookup k ∧
      (it = [] ↔ k ∉ m) ∧ ∀ e ∈ it.head?, e.key = k := by
  have bucket := refines.chains _ (refines.lt_home k)
  rcases refines.find k with ⟨absent, passed⟩ | ⟨a, e, b, split, rfl, lookup, stops, passed, -⟩
  · refine ⟨[], ?_, ?_, by simp [absent], by simp⟩
    · simp only [Table.findEntry, bucket, Option.bind_eq_bind, Option.bind_some, Option.pure_def,
        Option.some.injEq, List.dropWhile_eq_nil_iff]
      intro x mem
      rw [passed x mem]
      rfl
    · rw [Finmap.lookup_eq_none.2 absent]
      rfl
  · have present : e.key ∈ m := Finmap.mem_of_lookup_eq_some lookup
    refine ⟨e :: b, ?_, by rw [lookup]; rfl, by simp [present], by simp⟩
    simp only [Table.findEntry, bucket, split, Option.bind_eq_bind, Option.bind_some,
      Option.pure_def, Option.some.injEq]
    rw [List.dropWhile_append_of_pos fun x mem => by rw [passed x mem]; rfl, List.dropWhile_cons, stops]
    rfl

end

theorem construct_refines (P : Params K V F) {capacity : Nat} (pos : 0 < capacity) :
    ∃ t, construct P capacity = some t ∧ Refines P t ∅ fun _ => [] := by
  set buckets : Buckets K V := List.replicate capacity none with hb
  have inside : 0 < buckets.length := by rwa [hb, List.length_replicate]
  refine ⟨⟨0, 0, 1, capacity, 0, P.maxLoadFactor, buckets.set 0 (some []), []⟩, ?_,
    ⟨⟨Nat.one_pos, Nat.zero_le _, by simp only; omega, pos, ?_, Nat.zero_le _, ⟨0, by simp⟩, ?_⟩, ?_⟩, ?_, ?_⟩
  · rw [construct, ← hb, Buckets.write_ok [] inside]
    rfl
  · rw [List.length_set, hb, List.length_replicate]
  · intro i lt
    obtain rfl : i = 0 := by simp only at lt; omega
    rw [Table.bucket, if_neg (by simp), Buckets.read_set _ inside, if_pos rfl]
  · intro i lt e mem
    simp at mem
  · exact Lists.nil
  · rfl

theorem Refines.insertEntry (refines : Refines P t m chain) (k : K) (v : V) : ∃ t' chain',
    t.insertEntry P k v = some (t', decide (k ∉ m)) ∧
    Refines P t' (if k ∈ m then m else m.insert k v) chain' := by
  have lt := refines.lt_home k
  have bucket := refines.chains _ lt
  rcases refines.find k with ⟨absent, passed⟩ | ⟨a, e, b, split, rfl, lookup, stops, -⟩
  · have placed : ∀ e ∈ chain (home P t k) ++ [newEntry P k v],
        e.hashCode = P.hash e.key ∧ t.hashToBucket e.hashCode = home P t k := by
      intro e mem
      rcases List.mem_append.1 mem with mem | mem
      · exact refines.placed _ lt e mem
      · rw [List.mem_singleton.1 mem]
        exact ⟨rfl, rfl⟩
    obtain ⟨news, olds, set_, holds₁⟩ := refines.toHolds.setBucket lt placed
    obtain ⟨t', chain', post, holds', size, perm⟩ := holds₁.insertPostprocess
    have added : (contents t chain ++ [newEntry P k v]).Perm (contents t' chain') := by
      refine .trans ?_ perm
      have moved : (contents t chain ++ [newEntry P k v]).Perm (inChains t.bucketCount
          (update chain (home P t k) (chain (home P t k) ++ [newEntry P k v])) ++ []) :=
        inChains_update_perm lt (by rw [List.append_nil])
      rwa [List.append_nil] at moved
    have none : (chain (home P t k)).any (Entry.found (P.hash k) k) = false := by
      rw [List.any_eq_false]
      intro x mem
      rw [passed x mem]
      exact Bool.false_ne_true
    refine ⟨t', chain', ?_, holds', ?_, ?_⟩
    · simp only [Table.insertEntry, bucket, Option.bind_eq_bind, Option.bind_some, none, set_, post,
        Bool.false_eq_true, if_false, absent, not_false_eq_true, decide_true, Option.pure_def]
    · rw [if_neg absent]
      have fresh : (newEntry P k v).key ∉ m := absent
      exact (refines.lists.cons fresh).perm ((List.perm_append_singleton _ _).symm.trans added)
    · have length := added.length_eq
      rw [List.length_append, List.length_singleton] at length
      rw [size, ← length]
      exact congrArg (· + 1) refines.size
  · have present : e.key ∈ m := Finmap.mem_of_lookup_eq_some lookup
    refine ⟨t, chain, ?_, by rwa [if_pos present]⟩
    have any : (chain (home P t e.key)).any (Entry.found (P.hash e.key) e.key) = true := by
      rw [List.any_eq_true]
      exact ⟨e, by simp [split], stops⟩
    simp only [Table.insertEntry, bucket, Option.bind_eq_bind, Option.bind_some, any, if_true,
      present, not_true_eq_false, decide_false, Option.pure_def]

omit [DecidableEq K] in
theorem contents_split (lt : i < t.bucketCount) {a b : Chain K V}
    (split : chain i = a ++ e :: b) :
    (contents t chain).Perm (e :: contents t (update chain i (a ++ b))) := by
  have moved : (contents t chain ++ []).Perm
      (inChains t.bucketCount (update chain i (a ++ b)) ++ [e]) := by
    refine inChains_update_perm lt ?_
    rw [split, List.append_nil]
    exact List.perm_middle.trans (List.perm_append_singleton _ _).symm
  rw [List.append_nil] at moved
  exact moved.trans (List.perm_append_singleton _ _)

section
variable (refines : Refines P t m chain)
include refines

theorem Refines.eraseEntry (lt : i < t.bucketCount)
    {a b : Chain K V} (split : chain i = a ++ e :: b) : ∃ t',
    t.eraseEntry P e.key = some t' ∧ t'.bucketCount = t.bucketCount ∧
    Refines P t' (m.erase e.key) (update chain i (a ++ b)) := by
  obtain ⟨home_eq, stops, passed, -⟩ := refines.not_found lt split
  have perm := contents_split lt split
  have lists := (refines.lists.perm perm).tail
  have placed : ∀ x ∈ a ++ b, x.hashCode = P.hash x.key ∧ t.hashToBucket x.hashCode = i := by
    intro x mem
    refine refines.placed i lt x ?_
    rw [split]
    rcases List.mem_append.1 mem with mem | mem
    · exact List.mem_append_left _ mem
    · exact List.mem_append_right _ (List.mem_cons_of_mem _ mem)
  obtain ⟨news, olds, set_, holds⟩ := refines.toHolds.setBucket lt placed
  have holds₁ : Holds P { t with size := t.size - 1, newBuckets := news, oldBuckets := olds }
      (update chain i (a ++ b)) 0 := ⟨holds.toView.withSize _, holds.placed⟩
  obtain ⟨newBegin, news', olds', move, holds₂⟩ := holds₁.moveBucket (Nat.zero_le 1)
  refine ⟨{ t with
      size := t.size - 1, newBegin := newBegin, newBuckets := news', oldBuckets := olds' }, ?_, rfl,
    holds₂, lists, ?_⟩
  · have removed : (chain i).eraseP (Entry.found (P.hash e.key) e.key) = a ++ b := by
      rw [split, List.eraseP_append_right _ fun x mem => by simp [passed x mem],
        List.eraseP_cons_of_pos stops]
    simp [Table.eraseEntry, home_eq, refines.chains i lt, removed, set_, move]
  · have length := perm.length_eq
    rw [List.length_cons, ← refines.size] at length
    rw [length]
    rfl

theorem Refines.eraseKey (k : K) : ∃ t' chain',
    t.eraseKey P k = some (t', if k ∈ m then 1 else 0) ∧ Refines P t' (m.erase k) chain' := by
  obtain ⟨it, found, -, nil, -⟩ := refines.findEntry k
  by_cases mem : k ∈ m
  · have ne : it ≠ [] := fun eq => nil.1 eq mem
    rcases refines.find k with ⟨absent, -⟩ | ⟨a, e, b, split, rfl, -⟩
    · exact absurd mem absent
    · obtain ⟨t', erased, -, refines'⟩ := refines.eraseEntry (refines.lt_home e.key) split
      refine ⟨t', _, ?_, refines'⟩
      simp [Table.eraseKey, found, ne, erased, mem]
  · refine ⟨t, chain, ?_, ?_⟩
    · simp [Table.eraseKey, found, nil.2 mem, mem]
    · rwa [erase_of_notMem mem]

theorem Refines.assign (k : K) (v : V) : ∃ t' chain',
    t.assign P k v = some t' ∧ Refines P t' (m.insert k v) chain' := by
  obtain ⟨t₁, chain₁, inserted, refines₁⟩ := refines.insertEntry k P.value
  have lt := refines₁.lt_home k
  set m₁ := if k ∈ m then m else m.insert k P.value with hm₁
  have mem : k ∈ m₁ := by
    rw [hm₁]
    split
    · assumption
    · exact Finmap.mem_insert.2 (.inl rfl)
  have same : m₁.insert k v = m.insert k v := by
    rw [hm₁]
    split
    · rfl
    · exact Finmap.insert_insert _
  rcases refines₁.find k with ⟨absent, -⟩ | ⟨a, e, b, split, rfl, -, stops, before, after⟩
  · exact absurd mem absent
  · have changed : (chain₁ (home P t₁ e.key)).map (fun x =>
        if Entry.found (P.hash e.key) e.key x then { x with value := v } else x) =
        a ++ { e with value := v } :: b := by
      have keep : ∀ l : Chain K V, (∀ x ∈ l, Entry.found (P.hash e.key) e.key x = false) →
          l.map (fun x => if Entry.found (P.hash e.key) e.key x then { x with value := v } else x) =
            l := by
        intro l other
        conv_rhs => rw [← List.map_id l]
        refine List.map_congr_left fun x mem => ?_
        rw [other x mem]
        rfl
      rw [split, List.map_append, List.map_cons, keep a before, keep b after, if_pos stops]
    have placed : ∀ x ∈ a ++ { e with value := v } :: b,
        x.hashCode = P.hash x.key ∧ t₁.hashToBucket x.hashCode = home P t₁ e.key := by
      intro x mem
      have old := refines₁.placed _ lt
      rw [split] at old
      rcases List.mem_append.1 mem with mem | mem
      · exact old x (List.mem_append_left _ mem)
      · rcases List.mem_cons.1 mem with rfl | mem
        · exact old e (List.mem_append_right _ (List.mem_cons_self ..))
        · exact old x (List.mem_append_right _ (List.mem_cons_of_mem _ mem))
    obtain ⟨news, olds, set_, holds⟩ := refines₁.toHolds.setBucket lt placed
    have perm := contents_split lt split
    have perm' : (contents t₁ (update chain₁ (home P t₁ e.key)
        (a ++ { e with value := v } :: b))).Perm ({ e with value := v } ::
          contents t₁ (update chain₁ (home P t₁ e.key) (a ++ b))) := by
      have cut : update chain₁ (home P t₁ e.key) (a ++ { e with value := v } :: b)
          (home P t₁ e.key) = a ++ { e with value := v } :: b := update_self ..
      have split' := contents_split lt cut
      rwa [update_idem] at split'
    refine ⟨{ t₁ with newBuckets := news, oldBuckets := olds }, _, ?_, holds, ?_, ?_⟩
    · simp [Table.assign, Table.index, inserted, refines₁.chains _ lt, changed, set_]
    · rw [← same]
      have replaced : Lists Entry.key Entry.value ({ e with value := v } ::
          contents t₁ (update chain₁ (home P t₁ e.key) (a ++ b))) (m₁.insert e.key v) :=
        (refines₁.lists.perm perm).replace rfl
      exact replaced.perm perm'.symm
    · have length := perm.length_eq.trans perm'.length_eq.symm
      exact refines₁.size.trans length

end

end

end Prpc.HashTable
