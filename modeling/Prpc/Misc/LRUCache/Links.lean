import Prpc.Lib.LinkedNodes
import Prpc.Misc.LRUCache.Model

namespace Prpc.LRUCache
open Lib
open Function (update update_comm update_self update_of_ne update_eq_self)

variable {K V : Type} {c c' c'' : Cache K V} {a : Nat} {v : Ptr} {N N' B B' : Ptr → Ptr}
  {l before after : List Nat}

namespace Cache

def next (c : Cache K V) : Ptr → Ptr
  | none => c.head
  | some a => (c.heap.lookup a).bind Node.next

def prev (c : Cache K V) : Ptr → Ptr
  | none => c.tail
  | some a => (c.heap.lookup a).bind Node.prev

def payload (c : Cache K V) (a : Nat) : Option (K × Nat) :=
  (c.heap.lookup a).map fun node => (node.key, node.valueMemoryUsage)

end Cache

structure Kept (c c' : Cache K V) : Prop where
  payload : c'.payload = c.payload
  hashmap : c'.hashmap = c.hashmap
  itemCount : c'.itemCount = c.itemCount
  itemMemoryUsage : c'.itemMemoryUsage = c.itemMemoryUsage

theorem Kept.trans (first : Kept c c') (second : Kept c' c'') : Kept c c'' where
  payload := second.payload.trans first.payload
  hashmap := second.hashmap.trans first.hashmap
  itemCount := second.itemCount.trans first.itemCount
  itemMemoryUsage := second.itemMemoryUsage.trans first.itemMemoryUsage

structure Relinked (c c' : Cache K V) (next prev : Ptr → Ptr) : Prop extends Kept c c' where
  next : c'.next = next
  prev : c'.prev = prev

theorem Relinked.refl (c : Cache K V) : Relinked c c c.next c.prev := ⟨⟨rfl, rfl, rfl, rfl⟩, rfl, rfl⟩

theorem exists_node (there : c.payload a ≠ none) : ∃ node, c.heap.lookup a = some node := by
  cases found : c.heap.lookup a with
  | none => simp [Cache.payload, found] at there
  | some node => exact ⟨node, rfl⟩

section
variable (relinked : Relinked c c' N B)
include relinked

theorem Relinked.setHead (v : Ptr) : Relinked c { c' with head := v } (update N none v) B := by
  obtain ⟨kept, rfl, rfl⟩ := relinked
  refine ⟨kept.trans ⟨rfl, rfl, rfl, rfl⟩, ?_, ?_⟩ <;> funext p <;> cases p <;> rfl

theorem Relinked.setTail (v : Ptr) : Relinked c { c' with tail := v } N (update B none v) := by
  obtain ⟨kept, rfl, rfl⟩ := relinked
  refine ⟨kept.trans ⟨rfl, rfl, rfl, rfl⟩, ?_, ?_⟩ <;> funext p <;> cases p <;> rfl

theorem Relinked.write {node : Node K} (node' : Node K)
    (found : c'.heap.lookup a = some node) (key : node'.key = node.key)
    (usage : node'.valueMemoryUsage = node.valueMemoryUsage) :
    Relinked c { c' with heap := c'.heap.insert a node' } (update N (some a) node'.next)
      (update B (some a) node'.prev) := by
  obtain ⟨kept, rfl, rfl⟩ := relinked
  refine ⟨kept.trans ⟨funext fun b => ?_, rfl, rfl, rfl⟩, funext fun p => ?_, funext fun p => ?_⟩
  · rcases eq_or_ne b a with rfl | other
    · simp [Cache.payload, found, key, usage]
    · simp [Cache.payload, other]
  · cases p with
    | none => rfl
    | some b =>
      rcases eq_or_ne b a with rfl | other
      · simp [Cache.next]
      · simp [Cache.next, other]
  · cases p with
    | none => rfl
    | some b =>
      rcases eq_or_ne b a with rfl | other
      · simp [Cache.prev]
      · simp [Cache.prev, other]

theorem Relinked.setNext (there : c.payload a ≠ none) (v : Ptr) :
    ∃ c'', c'.setNext a v = some c'' ∧ Relinked c c'' (update N (some a) v) B := by
  obtain ⟨node, found⟩ := exists_node (relinked.payload ▸ there)
  have same : B (some a) = node.prev := by simp [← relinked.prev, Cache.prev, found]
  refine ⟨{ c' with heap := c'.heap.insert a { node with next := v } }, by simp [Cache.setNext, found], ?_⟩
  simpa [← same] using relinked.write { node with next := v } found rfl rfl

theorem Relinked.setPrev (there : c.payload a ≠ none) (v : Ptr) :
    ∃ c'', c'.setPrev a v = some c'' ∧ Relinked c c'' N (update B (some a) v) := by
  obtain ⟨node, found⟩ := exists_node (relinked.payload ▸ there)
  have same : N (some a) = node.next := by simp [← relinked.next, Cache.next, found]
  refine ⟨{ c' with heap := c'.heap.insert a { node with prev := v } }, by simp [Cache.setPrev, found], ?_⟩
  simpa [← same] using relinked.write { node with prev := v } found rfl rfl

end

structure Listed (c : Cache K V) (l : List Nat) : Prop where
  ring : Ring c.next c.prev none (l.map some)
  nodup : l.Nodup
  there : ∀ a ∈ l, c.payload a ≠ none

theorem Listed.root_nodup (listed : Listed c l) : (none :: l.map some).Nodup := by
  refine List.nodup_cons.2 ⟨by simp, listed.nodup.map (Option.some_injective _)⟩

theorem Listed.there_of_mem (listed : Listed c l) {b : Nat} (mem : some b ∈ none :: l.map some) :
    c.payload b ≠ none := by
  refine listed.there b ?_
  simpa using mem

theorem Listed.delink (listed : Listed c (before ++ a :: after)) : ∃ c', c.delinkNode a = some c' ∧
    Relinked c c'
      (update (update c.next (c.prev (some a)) (c.next (some a))) (some a) none)
      (update (update c.prev (c.next (some a)) (c.prev (some a))) (some a) none) := by
  have here : some a ∈ none :: (before ++ a :: after).map some := by simp
  have there : c.payload a ≠ none := listed.there a (by simp)
  obtain ⟨inNext, backNext⟩ := listed.ring.prev_next here
  obtain ⟨inPrev, forthPrev⟩ := listed.ring.next_prev here
  have last := (listed.ring.next_prev (List.mem_cons_self ..)).2
  have first := (listed.ring.prev_next (List.mem_cons_self ..)).2
  obtain ⟨node, found⟩ := exists_node there
  have prev_eq : c.prev (some a) = node.prev := by simp [Cache.prev, found]
  have next_eq : c.next (some a) = node.next := by simp [Cache.next, found]
  rw [prev_eq] at inPrev forthPrev
  rw [next_eq] at inNext backNext
  rw [prev_eq, next_eq]
  have tail_iff : c.tail = some a ↔ node.next = none := by
    constructor
    · intro eq
      rw [← next_eq, ← eq]
      exact last
    · intro eq
      rw [eq] at backNext
      exact backNext
  have head_iff : c.head = some a ↔ node.prev = none := by
    constructor
    · intro eq
      rw [← prev_eq, ← eq]
      exact first
    · intro eq
      rw [eq] at forthPrev
      exact forthPrev
  -- the two ends
  obtain ⟨c₁, tail_, head₁, heap₁, relinked₁⟩ : ∃ c₁, c.retractTail a = some c₁ ∧
      c₁.head = c.head ∧ c₁.heap = c.heap ∧ Relinked c c₁ c.next
        (if node.next = none then update c.prev none node.prev else c.prev) := by
    by_cases eq : node.next = none
    · refine ⟨{ c with tail := node.prev }, ?_, rfl, rfl, ?_⟩
      · simp [Cache.retractTail, tail_iff.2 eq, found]
      · rw [if_pos eq]
        exact (Relinked.refl c).setTail node.prev
    · refine ⟨c, if_neg (fun at_ => eq (tail_iff.1 at_)), rfl, rfl, ?_⟩
      rw [if_neg eq]
      exact Relinked.refl c
  obtain ⟨c₂, head_, heap₂, relinked₂⟩ : ∃ c₂, c₁.advanceHead a = some c₂ ∧ c₂.heap = c.heap ∧ Relinked c c₂
        (if node.prev = none then update c.next none node.next else c.next)
        (if node.next = none then update c.prev none node.prev else c.prev) := by
    by_cases eq : node.prev = none
    · refine ⟨{ c₁ with head := node.next }, ?_, heap₁, ?_⟩
      · simp [Cache.advanceHead, head₁, heap₁, head_iff.2 eq, found]
      · rw [if_pos eq]
        exact relinked₁.setHead node.next
    · refine ⟨c₁, if_neg (fun at_ => eq (head_iff.1 (head₁ ▸ at_))), heap₁, ?_⟩
      rwa [if_neg eq]
  -- the two neighbours
  obtain ⟨c₃, forth, relinked₃⟩ : ∃ c₃, c₂.setNextOf node.prev node.next = some c₃ ∧
      Relinked c c₃ (update c.next node.prev node.next)
        (if node.next = none then update c.prev none node.prev else c.prev) := by
    cases eq : node.prev with
    | none =>
      rw [eq, if_pos rfl] at relinked₂
      exact ⟨c₂, rfl, relinked₂⟩
    | some p =>
      rw [eq, if_neg (by simp)] at relinked₂
      exact relinked₂.setNext (listed.there_of_mem (eq ▸ inPrev)) node.next
  obtain ⟨c₄, back, relinked₄⟩ : ∃ c₄, c₃.setPrevOf node.next node.prev = some c₄ ∧
      Relinked c c₄ (update c.next node.prev node.next)
        (update c.prev node.next node.prev) := by
    cases eq : node.next with
    | none =>
      rw [eq, if_pos rfl] at relinked₃
      exact ⟨c₃, rfl, relinked₃⟩
    | some n =>
      rw [eq, if_neg (by simp)] at relinked₃
      exact relinked₃.setPrev (listed.there_of_mem (eq ▸ inNext)) node.prev
  -- the node itself
  obtain ⟨c₅, clear₅, relinked₅⟩ := relinked₄.setPrev there none
  obtain ⟨c₆, clear₆, relinked₆⟩ := relinked₅.setNext there none
  refine ⟨c₆, ?_, relinked₆⟩
  rw [← heap₂] at found
  simp [Cache.delinkNode, tail_, head_, found, forth, back, clear₅, clear₆]

structure Loose (c : Cache K V) (l : List Nat) (a : Nat) : Prop where
  there : c.payload a ≠ none
  out : a ∉ l
  next : c.next (some a) = none
  prev : c.prev (some a) = none

theorem Listed.delinkNode (listed : Listed c (before ++ a :: after)) : ∃ c', c.delinkNode a = some c' ∧
    Kept c c' ∧ Listed c' (before ++ after) ∧ Loose c' (before ++ after) a ∧
    ∀ b, Loose c (before ++ a :: after) b → Loose c' (before ++ after) b := by
  obtain ⟨c', delinked, relinked⟩ := listed.delink
  have nodup := listed.nodup
  have fresh : a ∉ before ++ after := by grind
  have ring := listed.ring
  have root_nodup := listed.root_nodup
  rw [List.map_append, List.map_cons] at ring root_nodup
  obtain ⟨-, -, shorter⟩ := ring.remove root_nodup
  rw [← List.map_append] at shorter
  have here : some a ∈ none :: (before ++ a :: after).map some := by simp
  have inNext := (listed.ring.prev_next here).1
  have inPrev := (listed.ring.next_prev here).1
  refine ⟨c', delinked, relinked.toKept, ⟨?_, by grind, fun b mem => ?_⟩, ⟨?_, fresh, ?_, ?_⟩,
    fun b loose => ?_⟩
  · rw [relinked.next, relinked.prev]
    refine shorter.congr fun b mem => ?_
    have other : b ≠ some a := by
      rintro rfl
      exact fresh (by simpa using mem)
    exact ⟨update_of_ne other .., update_of_ne other ..⟩
  · rw [relinked.payload]
    exact listed.there b (by grind)
  · rw [relinked.payload]
    exact listed.there a (by simp)
  · rw [relinked.next, update_self]
  · rw [relinked.prev, update_self]
  · have out : some b ∉ none :: (before ++ a :: after).map some := by simpa using loose.out
    have other : ∀ x ∈ none :: (before ++ a :: after).map some, some b ≠ x := fun x mem eq => out (eq ▸ mem)
    refine ⟨by rw [relinked.payload]; exact loose.there, by grind [loose.out], ?_, ?_⟩
    · rw [relinked.next, update_of_ne (other _ here), update_of_ne (other _ inPrev)]
      exact loose.next
    · rw [relinked.prev, update_of_ne (other _ here), update_of_ne (other _ inNext)]
      exact loose.prev

theorem Listed.delinkNode_loose (listed : Listed c l) (loose : Loose c l a) : ∃ c',
    c.delinkNode a = some c' ∧ Kept c c' ∧ Listed c' l ∧ Loose c' l a := by
  have out : some a ∉ none :: l.map some := by simpa using loose.out
  have inTail : c.tail ∈ none :: l.map some := (listed.ring.next_prev (List.mem_cons_self ..)).1
  have inHead : c.head ∈ none :: l.map some := (listed.ring.prev_next (List.mem_cons_self ..)).1
  have tail_ : c.retractTail a = some c := if_neg fun eq => out (by rwa [eq] at inTail)
  have head_ : c.advanceHead a = some c := if_neg fun eq => out (by rwa [eq] at inHead)
  obtain ⟨node, found⟩ := exists_node loose.there
  have prev_eq : node.prev = none := by simpa [Cache.prev, found] using loose.prev
  have next_eq : node.next = none := by simpa [Cache.next, found] using loose.next
  obtain ⟨c₁, clear₁, relinked₁⟩ := (Relinked.refl c).setPrev loose.there none
  obtain ⟨c₂, clear₂, relinked⟩ := relinked₁.setNext loose.there none
  have next_ : c₂.next = c.next := by
    rw [relinked.next, ← loose.next, update_eq_self]
  have prev_ : c₂.prev = c.prev := by
    rw [relinked.prev, ← loose.prev, update_eq_self]
  refine ⟨c₂, ?_, relinked.toKept, ⟨?_, listed.nodup, ?_⟩, ⟨?_, loose.out, ?_, ?_⟩⟩
  · simp [Cache.delinkNode, tail_, head_, found, prev_eq, next_eq, Cache.setNextOf, Cache.setPrevOf,
      clear₁, clear₂]
  · rw [next_, prev_]
    exact listed.ring
  · rw [relinked.payload]
    exact listed.there
  · rw [relinked.payload]
    exact loose.there
  · rw [next_]
    exact loose.next
  · rw [prev_]
    exact loose.prev

theorem Listed.pushNodeToFront (listed : Listed c l) (loose : Loose c l a) : ∃ c',
    c.pushNodeToFront a = some c' ∧ Kept c c' ∧ Listed c' (a :: l) := by
  have out : some a ∉ none :: l.map some := by simpa using loose.out
  obtain ⟨inHead, backHead⟩ := listed.ring.prev_next (List.mem_cons_self ..)
  obtain ⟨-, forthTail⟩ := listed.ring.next_prev (List.mem_cons_self ..)
  have ring := listed.ring.pushFront listed.root_nodup out
  obtain ⟨c₁, first, tail₁, relinked₁⟩ : ∃ c₁, c.setPrevOf c.head (some a) = some c₁ ∧
      c₁.tail = c.tail ∧ Relinked c c₁ c.next
        (if c.head = none then c.prev else update c.prev c.head (some a)) := by
    cases eq : c.head with
    | none => exact ⟨c, rfl, rfl, by simpa using Relinked.refl c⟩
    | some h =>
      have there : c.payload h ≠ none := listed.there_of_mem (by rw [← eq]; exact inHead)
      obtain ⟨c₁, set_, relinked⟩ := (Relinked.refl c).setPrev there (some a)
      refine ⟨c₁, set_, ?_, by simpa using relinked⟩
      have tail_ := congrFun relinked.prev none
      exact tail_.trans (update_of_ne (by simp) ..)
  obtain ⟨c₂, second, relinked₂⟩ := relinked₁.setPrev loose.there none
  have head₂ : c₂.head = c.head := congrFun relinked₂.next none
  have tail₂ : c₂.tail = c.tail := by
    have tail_ := congrFun relinked₂.prev none
    rw [← relinked₁.prev] at tail_
    exact (tail_.trans (update_of_ne (by simp) ..)).trans tail₁
  obtain ⟨c₃, third, relinked₃⟩ := relinked₂.setNext loose.there c₂.head
  have tail₃ : c₃.tail = c.tail := (congrFun (relinked₃.prev.trans relinked₂.prev.symm) none).trans tail₂
  have relinked₄ := relinked₃.setHead (some a)
  rw [head₂] at relinked₄
  have nodup : (a :: l).Nodup := List.nodup_cons.2 ⟨loose.out, listed.nodup⟩
  have there : ∀ b ∈ a :: l, c.payload b ≠ none := by
    intro b mem
    rcases List.mem_cons.1 mem with rfl | mem
    · exact loose.there
    · exact listed.there b mem
  by_cases empty : c.head = none
  · have noTail : c.tail = none := by
      have back := backHead
      change c.prev c.head = none at back
      rwa [empty] at back
    have relinked₅ := relinked₄.setTail (some a)
    rw [if_pos empty] at relinked₅
    refine ⟨_, ?_, relinked₅.toKept, ⟨?_, nodup, by rw [relinked₅.payload]; exact there⟩⟩
    · simp [Cache.pushNodeToFront, first, second, third, tail₃, noTail]
    · rw [relinked₅.next, relinked₅.prev]
      have head_ : c.next none = none := empty
      rw [head_] at ring
      rw [empty]
      exact ring
  · have someTail : c.tail ≠ none := by
      intro noTail
      have forth := forthTail
      change c.next c.tail = none at forth
      rw [noTail] at forth
      exact empty forth
    rw [if_neg empty] at relinked₄
    refine ⟨_, ?_, relinked₄.toKept, ⟨?_, nodup, by rw [relinked₄.payload]; exact there⟩⟩
    · simp [Cache.pushNodeToFront, first, second, third, tail₃, someTail]
    · rw [relinked₄.next, relinked₄.prev]
      have other : some a ≠ c.head := fun eq => out (eq ▸ inHead)
      rw [update_comm other.symm]
      exact ring

end Prpc.LRUCache
