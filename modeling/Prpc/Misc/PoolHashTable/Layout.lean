import Prpc.Lib.Chaining
import Prpc.Misc.PoolHashTable.Model

/-!
The nodes are divided between the free list, the chains, the items that wait for a rehash to settle
them, and the nodes that an operation has in hand.
-/

namespace Prpc.PoolHashTable
open Lib
open Function (update update_self update_apply update_of_ne)

variable {K V : Type} {d : Doubles} {P : Params K V} {t t' : Table K V d}

abbrev Slot (K V : Type) := Nat × (K × V)

namespace Table

@[simp] theorem tag_setWord (o : Nat) (g : Tag) (n : Nat) : (t.setWord o g n).tag = update t.tag o g := by
  funext o'
  by_cases eq : o' = o <;> simp [tag, setWord, eq]

@[simp] theorem next_setWord (o : Nat) (g : Tag) (n : Nat) : (t.setWord o g n).next = update t.next o n := by
  funext o'
  by_cases eq : o' = o <;> simp [next, setWord, eq]

@[simp] theorem body_setWord (o : Nat) (g : Tag) (n : Nat) : (t.setWord o g n).body = t.body := by
  funext o'
  by_cases eq : o' = o <;> simp [body, setWord, eq]

@[simp] theorem tag_setBody (o : Nat) (b : Body K V) : (t.setBody o b).tag = t.tag := by
  funext o'
  by_cases eq : o' = o <;> simp [tag, setBody, eq]

@[simp] theorem next_setBody (o : Nat) (b : Body K V) : (t.setBody o b).next = t.next := by
  funext o'
  by_cases eq : o' = o <;> simp [next, setBody, eq]

@[simp] theorem body_setBody (o : Nat) (b : Body K V) : (t.setBody o b).body = update t.body o b := by
  funext o'
  by_cases eq : o' = o <;> simp [body, setBody, eq]

variable {o o' : Nat}

theorem mem_setWord (g : Tag) (n : Nat) (ne : o' ≠ o) :
    (t.setWord o g n).mem o' = t.mem o' := update_of_ne ne ..

theorem mem_setBody (b : Body K V) (ne : o' ≠ o) : (t.setBody o b).mem o' = t.mem o' := update_of_ne ne ..

theorem prev_of_body (t : Table K V d) : t.prev = Body.offset ∘ t.body := rfl

theorem item_of_body (t : Table K V d) : t.item = Body.value ∘ t.body := rfl

@[simp] theorem prev_setWord (o : Nat) (g : Tag) (n : Nat) : (t.setWord o g n).prev = t.prev := by
  simp [prev_of_body]

@[simp] theorem prev_setPrev (o p : Nat) : (t.setPrev o p).prev = update t.prev o p := by
  simp [prev_of_body, setPrev, Function.comp_update, Body.offset]

@[simp] theorem item_setWord (o : Nat) (g : Tag) (n : Nat) : (t.setWord o g n).item = t.item := by
  simp [item_of_body]

@[simp] theorem item_setItem (o : Nat) (x : K × V) : (t.setItem o x).item = update t.item o (some x) := by
  simp [item_of_body, setItem, Function.comp_update, Body.value]

@[simp] theorem item_moveFrom (o other : Nat) :
    (t.moveFrom o other).item = update t.item o (t.item other) := by
  simp [item_of_body, moveFrom, Function.comp_update]

@[simp] theorem tag_setPrev (o p : Nat) : (t.setPrev o p).tag = t.tag := tag_setBody ..
@[simp] theorem next_setPrev (o p : Nat) : (t.setPrev o p).next = t.next := next_setBody ..
@[simp] theorem tag_setItem (o : Nat) (x : K × V) : (t.setItem o x).tag = t.tag := tag_setBody ..
@[simp] theorem next_setItem (o : Nat) (x : K × V) : (t.setItem o x).next = t.next := next_setBody ..
@[simp] theorem tag_moveFrom (o other : Nat) : (t.moveFrom o other).tag = t.tag := tag_setBody ..
@[simp] theorem next_moveFrom (o other : Nat) : (t.moveFrom o other).next = t.next := next_setBody ..

@[simp] theorem next_setNext (o n : Nat) : (t.setNext o n).next = update t.next o n := next_setWord ..

@[simp] theorem item_setNext (o n : Nat) : (t.setNext o n).item = t.item := item_setWord ..

@[simp] theorem tag_setNext (o n : Nat) : (t.setNext o n).tag = t.tag := by
  simp [setNext]

theorem same_of_mem {o : Nat} (same : t'.mem o = t.mem o) : t'.tag o = t.tag o ∧
    t'.next o = t.next o ∧ t'.prev o = t.prev o ∧ t'.item o = t.item o := by
  simp [tag, next, prev, item, body, same]

theorem hashHead_congr (nodes : t'.numNodes = t.numNodes) : t'.hashHead P = t.hashHead P := by
  funext key
  simp [hashHead, mask, nodes]

theorem hashHead_pos (key : K) : 0 < t.hashHead P key := Nat.succ_pos _

theorem hashHead_le (some : 0 < t.numNodes) (key : K) : t.hashHead P key ≤ t.numNodes := by
  have low : P.hash key &&& t.mask ≤ t.mask := Nat.and_le_right
  have high : 2 ^ Nat.log2 t.numNodes ≤ t.numNodes := Nat.log2_self_le (by omega)
  have pos : 0 < 2 ^ Nat.log2 t.numNodes := Nat.two_pow_pos _
  simp only [hashHead, mask] at low ⊢
  omega

theorem next_allocateNode (o : Nat) : (t.allocateNode o).next =
    update (update t.next (t.prev o) (t.next o)) o 0 := by
  have again : update t.prev (t.next o) (t.prev o) o = t.prev o := by
    by_cases eq : o = t.next o
    · rw [← eq, update_self]
    · rw [update_of_ne eq]
  simp only [allocateNode, next_setWord, next_setPrev, prev_setPrev]
  exact congrArg (fun p => update (update t.next p (t.next o)) o 0) again

theorem prev_allocateNode (o : Nat) : (t.allocateNode o).prev = update t.prev (t.next o) (t.prev o) := by
  simp only [allocateNode, prev_setWord, prev_setPrev]
  rfl

theorem tag_allocateNode (o : Nat) : (t.allocateNode o).tag =
    update (update t.tag (t.prev o) (t.tag o)) o .probe := by
  have again : update t.prev (t.next o) (t.prev o) o = t.prev o := by
    by_cases eq : o = t.next o
    · rw [← eq, update_self]
    · rw [update_of_ne eq]
  simp only [allocateNode, tag_setWord, tag_setPrev, prev_setPrev]
  exact congrArg (fun p => update (update t.tag p (t.tag o)) o .probe) again

theorem mem_allocateNode (ne : o' ≠ o) (ne_next : o' ≠ t.next o) (ne_prev : o' ≠ t.prev o) :
    (t.allocateNode o).mem o' = t.mem o' := by
  have again : update t.prev (t.next o) (t.prev o) o = t.prev o := by
    by_cases eq : o = t.next o
    · rw [← eq, update_self]
    · rw [update_of_ne eq]
  refine (mem_setWord _ _ ne).trans ((mem_setWord _ _ fun eq => ?_).trans (mem_setBody _ ne_next))
  simp only [prev_setPrev] at eq
  exact ne_prev (eq.trans again)

theorem next_deallocateNode (o : Nat) : (t.deallocateNode o).next =
    update (update t.next o 0) (t.prev 0) o := by
  simp only [deallocateNode, next_setWord, next_setPrev]
  rfl

theorem prev_deallocateNode (o : Nat) : (t.deallocateNode o).prev =
    update (update t.prev o (t.prev 0)) 0 o := by
  simp only [deallocateNode, prev_setWord, prev_setPrev]
  rfl

theorem tag_deallocateNode (o : Nat) : (t.deallocateNode o).tag =
    update (update t.tag o .empty) (t.prev 0) .empty := by
  simp only [deallocateNode, tag_setWord, tag_setPrev]
  rfl

theorem mem_deallocateNode (ne : o' ≠ o) (ne_root : o' ≠ 0) (ne_prev : o' ≠ t.prev 0) :
    (t.deallocateNode o).mem o' = t.mem o' :=
  (mem_setWord _ _ ne_prev).trans <| (mem_setBody _ ne_root).trans <| (mem_setBody _ ne).trans <|
    mem_setWord _ _ ne

end Table

structure Chained (P : Params K V) (t : Table K V d) (h : Nat) (c : List (Slot K V)) : Prop where
  path : c ≠ [] → Path t.next t.item h c 0
  first : ∀ s ∈ c.head?, t.tag s.1 = .head
  rest : ∀ s ∈ c.tail, t.tag s.1 = .probe
  placed : ∀ s ∈ c, t.hashHead P s.2.1 = h

variable {h : Nat} {c c' : List (Slot K V)}

theorem Chained.congr (chained : Chained P t h c) (nodes : t'.numNodes = t.numNodes)
    (same : ∀ s ∈ c, t'.mem s.1 = t.mem s.1) : Chained P t' h c where
  path ne := (chained.path ne).congr fun s mem =>
    ⟨(Table.same_of_mem (same s mem)).2.1, (Table.same_of_mem (same s mem)).2.2.2⟩
  first s mem := by
    rw [(Table.same_of_mem (same s (List.mem_of_mem_head? mem))).1]
    exact chained.first s mem
  rest s mem := by
    rw [(Table.same_of_mem (same s (List.mem_of_mem_tail mem))).1]
    exact chained.rest s mem
  placed s mem := by
    rw [Table.hashHead_congr nodes]
    exact chained.placed s mem

theorem Chained.nil (P : Params K V) (t : Table K V d) (h : Nat) : Chained P t h [] where
  path ne := absurd rfl ne
  first _ mem := by cases mem
  rest _ mem := by cases mem
  placed _ mem := by cases mem

theorem Chained.item_eq (chained : Chained P t h c) {s : Slot K V} (mem : s ∈ c) :
    t.item s.1 = some s.2 := (chained.path (List.ne_nil_of_mem mem)).item_eq mem

structure Layout (P : Params K V) (t : Table K V d) (free hand : List Nat)
    (chain : Nat → List (Slot K V)) (waiting : List (Slot K V)) : Prop where
  cover : ((inChains (t.numNodes + 1) chain).map Prod.fst ++
    (waiting.map Prod.fst ++ (hand ++ free))).Perm t.offsets
  ring : Ring t.next t.prev 0 free
  idle : ∀ o ∈ free, t.tag o = .empty
  chains : ∀ h ≤ t.numNodes, Chained P t h (chain h)
  waits : ∀ s ∈ waiting, t.tag s.1 = .rehash ∧ t.item s.1 = some s.2

namespace Layout

variable {free hand hand' : List Nat} {chain : Nat → List (Slot K V)} {waiting waiting' : List (Slot K V)}
  {o : Nat} {s s' : Slot K V}

theorem nodup (layout : Layout P t free hand chain waiting) :
    ((inChains (t.numNodes + 1) chain).map Prod.fst ++ (waiting.map Prod.fst ++ (hand ++ free))).Nodup :=
  layout.cover.nodup_iff.2 List.nodup_range'

theorem mem_offsets {o : Nat} : o ∈ t.offsets ↔ 1 ≤ o ∧ o ≤ t.numNodes := by
  rw [Table.offsets, List.mem_range'_1]
  omega

theorem pos (layout : Layout P t free hand chain waiting)
    (mem : o ∈ (inChains (t.numNodes + 1) chain).map Prod.fst ++ (waiting.map Prod.fst ++ (hand ++ free))) :
    1 ≤ o ∧ o ≤ t.numNodes := mem_offsets.1 (layout.cover.mem_iff.1 mem)

theorem mem_nodes (le : h ≤ t.numNodes) (mem : s ∈ chain h) :
    s.1 ∈ (inChains (t.numNodes + 1) chain).map Prod.fst :=
  List.mem_map_of_mem (mem_inChains.2 ⟨h, by omega, mem⟩)

section
variable (layout : Layout P t free hand chain waiting)
include layout

theorem node_pos (le : h ≤ t.numNodes) (mem : s ∈ chain h) :
    1 ≤ s.1 ∧ s.1 ≤ t.numNodes := layout.pos (List.mem_append_left _ (mem_nodes le mem))

theorem chain_apart (le : h ≤ t.numNodes)
    (mem : s ∈ chain h) : s.1 ≠ 0 ∧ s.1 ∉ free ∧ s.1 ∉ hand ∧ s.1 ∉ waiting.map Prod.fst := by
  have inside := mem_nodes le mem
  have pos := layout.pos (List.mem_append_left _ inside)
  have nodup := layout.nodup
  refine ⟨by omega, ?_, ?_, ?_⟩ <;> grind

theorem waiting_apart (mem : s ∈ waiting) : s.1 ≠ 0 ∧ s.1 ∉ free ∧ s.1 ∉ hand := by
  have inside : s.1 ∈ waiting.map Prod.fst := List.mem_map_of_mem mem
  have pos := layout.pos (List.mem_append_right _ (List.mem_append_left _ inside))
  have nodup := layout.nodup
  refine ⟨by omega, ?_, ?_⟩ <;> grind

theorem hand_apart (mem : o ∈ hand) : o ≠ 0 ∧ o ∉ free := by
  have pos := layout.pos (o := o) (by simp [mem])
  have nodup := layout.nodup
  refine ⟨by omega, ?_⟩
  grind

theorem root_nodup : (0 :: free).Nodup := by
  have nodup := layout.nodup
  refine List.nodup_cons.2 ⟨fun mem => ?_, by grind⟩
  have pos := layout.pos (o := 0) (by simp [mem])
  omega

theorem slot_unique {h' : Nat} (le : h ≤ t.numNodes)
    (le' : h' ≤ t.numNodes) (mem : s ∈ chain h) (mem' : s' ∈ chain h') (same : s.1 = s'.1) :
    s = s' ∧ h = h' := by
  have here := (layout.chains h le).item_eq mem
  have there := (layout.chains h' le').item_eq mem'
  rw [same, there] at here
  have eq : s = s' := Prod.ext same (Option.some.inj here).symm
  refine ⟨eq, ?_⟩
  rw [← (layout.chains h le).placed s mem, eq, (layout.chains h' le').placed s' mem']

theorem chain_nodup (le : h ≤ t.numNodes) : ((chain h).map Prod.fst).Nodup :=
  ((sublist_inChains (by omega : h < t.numNodes + 1)).map Prod.fst).nodup layout.nodup.of_append_left

theorem length_le (le : h ≤ t.numNodes) : (chain h).length ≤ t.numNodes := by
  have short : (chain h).length ≤ (inChains (t.numNodes + 1) chain).length :=
    (sublist_inChains (by omega)).length_le
  have total := layout.cover.length_eq
  simp only [List.length_append, List.length_map, Table.offsets, List.length_range'] at total
  omega

theorem node_cases (pos : 1 ≤ o) (le : o ≤ t.numNodes) :
    o ∈ free ∨ o ∈ hand ∨ (∃ s ∈ waiting, s.1 = o) ∨ ∃ h ≤ t.numNodes, ∃ s ∈ chain h, s.1 = o := by
  have mem := layout.cover.mem_iff.2 (mem_offsets.2 ⟨pos, le⟩)
  simp only [List.mem_append, List.mem_map, mem_inChains] at mem
  rcases mem with ⟨s, ⟨h, lt, mem⟩, eq⟩ | ⟨s, mem, eq⟩ | mem | mem
  · exact .inr (.inr (.inr ⟨h, by omega, s, mem, eq⟩))
  · exact .inr (.inr (.inl ⟨s, mem, eq⟩))
  · exact .inr (.inl mem)
  · exact .inl mem

theorem root_apart (le : h ≤ t.numNodes)
    (mem : o ∈ (chain h).map Prod.fst ∨ o ∈ hand ∨ o ∈ waiting.map Prod.fst) : o ∉ 0 :: free := by
  rw [List.mem_cons, not_or]
  rcases mem with chained | held | waits
  · obtain ⟨s, mem, rfl⟩ := List.mem_map.1 chained
    exact ⟨(layout.chain_apart le mem).1, (layout.chain_apart le mem).2.1⟩
  · exact layout.hand_apart held
  · obtain ⟨s, mem, rfl⟩ := List.mem_map.1 waits
    exact ⟨(layout.waiting_apart mem).1, (layout.waiting_apart mem).2.1⟩

theorem rechain (le : h ≤ t.numNodes)
    (nodes : t'.numNodes = t.numNodes) (touched : List Nat)
    (same : ∀ o ∉ touched, t'.mem o = t.mem o)
    (inside : ∀ o ∈ touched, o ∈ (chain h).map Prod.fst ∨ o ∈ hand ∨ o ∈ waiting.map Prod.fst)
    (chained : Chained P t' h c)
    (waits : ∀ s ∈ waiting', (t'.tag s.1 = .rehash ∧ t'.item s.1 = some s.2) ∨ s ∈ waiting ∧ s.1 ∉ touched)
    (perm : ((chain h).map Prod.fst ++ (waiting.map Prod.fst ++ hand)).Perm
      (c.map Prod.fst ++ (waiting'.map Prod.fst ++ hand'))) :
    Layout P t' free hand' (update chain h c) waiting' where
  cover := by
    rw [nodes, show t'.offsets = t.offsets by simp [Table.offsets, nodes]]
    refine List.Perm.trans ?_ layout.cover
    rw [← List.append_assoc (waiting'.map _), ← List.append_assoc (waiting.map _)]
    refine (map_inChains_update_perm (by omega) Prod.fst ?_).symm
    simpa only [List.append_assoc] using perm.append_right free
  ring := by
    refine layout.ring.congr fun a mem => ?_
    have kept := Table.same_of_mem (same a fun at_ => layout.root_apart le (inside a at_) mem)
    exact ⟨kept.2.1, kept.2.2.1⟩
  idle o mem := by
    have out : o ∉ touched := fun at_ =>
      layout.root_apart le (inside o at_) (List.mem_cons_of_mem _ mem)
    rw [(Table.same_of_mem (same o out)).1]
    exact layout.idle o mem
  chains h' le' := by
    rw [nodes] at le'
    by_cases eq : h' = h
    · subst eq
      rwa [update_self]
    · rw [update_of_ne eq]
      refine (layout.chains h' le').congr nodes fun s mem => same _ fun mem' => ?_
      obtain ⟨-, -, notHand, notWaiting⟩ := layout.chain_apart le' mem
      rcases inside _ mem' with mem' | mem' | mem'
      · obtain ⟨s', mem', same'⟩ := List.mem_map.1 mem'
        exact eq (layout.slot_unique le' le mem mem' same'.symm).2
      · exact notHand mem'
      · exact notWaiting mem'
  waits s mem := by
    rcases waits s mem with new | ⟨mem, notTouched⟩
    · exact new
    · have kept := Table.same_of_mem (same _ notTouched)
      rw [kept.1, kept.2.2.2]
      exact layout.waits s mem

theorem reframe (nodes : t'.numNodes = t.numNodes)
    {free' : List Nat} (ring : Ring t'.next t'.prev 0 free') (idle : ∀ o ∈ free', t'.tag o = .empty)
    (same : ∀ o ∉ 0 :: (hand ++ free), t'.mem o = t.mem o)
    (perm : (hand ++ free).Perm (hand' ++ free')) : Layout P t' free' hand' chain waiting where
  cover := by
    rw [nodes, show t'.offsets = t.offsets by simp [Table.offsets, nodes]]
    exact ((perm.symm.append_left _).append_left _).trans layout.cover
  ring := ring
  idle := idle
  chains h le := by
    rw [nodes] at le
    refine (layout.chains h le).congr nodes fun s mem => same _ ?_
    obtain ⟨notRoot, notFree, notHand, -⟩ := layout.chain_apart le mem
    simp [notRoot, notFree, notHand]
  waits s mem := by
    obtain ⟨notRoot, notFree, notHand⟩ := layout.waiting_apart mem
    have kept := Table.same_of_mem (same s.1 (by simp [notRoot, notFree, notHand]))
    rw [kept.1, kept.2.2.2]
    exact layout.waits s mem

theorem mem_deallocate {o' : Nat} (ne : o' ≠ o)
    (out : o' ∉ 0 :: free) : (t.deallocateNode o).mem o' = t.mem o' := by
  refine Table.mem_deallocateNode ne (fun eq => out (by simp [eq])) fun eq => out ?_
  rw [eq]
  exact layout.ring.prev_root_mem

end

theorem deallocate (layout : Layout P t free (o :: hand) chain waiting) :
    Layout P (t.deallocateNode o) (free ++ [o]) hand chain waiting := by
  obtain ⟨notRoot, notFree⟩ := layout.hand_apart (List.mem_cons_self ..)
  have nodes : (t.deallocateNode o).numNodes = t.numNodes := rfl
  refine layout.reframe nodes ?_ (fun o' mem => ?_) (fun o' out => ?_) ?_
  · rw [Table.next_deallocateNode, Table.prev_deallocateNode]
    exact layout.ring.push layout.root_nodup (by simp [notRoot, notFree])
  · rw [Table.tag_deallocateNode]
    rcases List.mem_append.1 mem with old | new
    · rw [update_apply]
      split
      · rfl
      · rw [update_of_ne (by rintro rfl; exact notFree old)]
        exact layout.idle o' old
    · rw [List.mem_singleton.1 new, update_apply, update_self, ite_self]
  · simp only [List.cons_append, List.mem_cons, List.mem_append, not_or] at out
    exact layout.mem_deallocate out.2.1 (by simp [out.1, out.2.2.2])
  · rw [← List.append_assoc]
    exact (List.perm_append_singleton o (hand ++ free)).symm

theorem allocate (layout : Layout P t free hand chain waiting) (mem : o ∈ free) : ∃ free',
    free.Perm (o :: free') ∧ Layout P (t.allocateNode o) free' (o :: hand) chain waiting ∧
    ∀ o' ∉ 0 :: free, (t.allocateNode o).mem o' = t.mem o' := by
  obtain ⟨before, after, rfl⟩ := List.append_of_mem mem
  have nodup := layout.root_nodup
  obtain ⟨prev_mem, next_mem, ring⟩ := layout.ring.remove nodup
  have kept : ∀ o' ∉ 0 :: (before ++ o :: after), (t.allocateNode o).mem o' = t.mem o' := by
    intro o' out
    refine Table.mem_allocateNode ?_ ?_ ?_ <;>
    · rintro rfl
      grind
  have fresh : o ∉ 0 :: (before ++ after) := by grind
  have nodes : (t.allocateNode o).numNodes = t.numNodes := rfl
  refine ⟨before ++ after, List.perm_middle,
    layout.reframe nodes ?_ (fun o' left => ?_) (fun o' out => kept o' ?_) ?_, kept⟩
  · rw [Table.next_allocateNode, Table.prev_allocateNode]
    refine ring.congr fun a left => ⟨update_of_ne ?_ .., rfl⟩
    rintro rfl
    exact fresh left
  · have ne : o' ≠ o := by
      rintro rfl
      exact fresh (List.mem_cons_of_mem _ left)
    rw [Table.tag_allocateNode, update_of_ne ne, update_apply]
    split
    · exact layout.idle o (by simp)
    · exact layout.idle o' (by grind)
  · grind
  · rw [List.cons_append, ← List.append_assoc, ← List.append_assoc]
    exact List.perm_middle

end Layout
end Prpc.PoolHashTable
