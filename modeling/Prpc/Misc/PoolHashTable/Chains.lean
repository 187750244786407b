import Prpc.Misc.PoolHashTable.Layout

namespace Prpc.PoolHashTable
open Lib

variable {K V : Type} {d : Doubles} {P : Params K V} {t t' : Table K V d} {c : List (Slot K V)}
  {n o : Nat}

namespace Table

theorem walk_path (path : Path t.next t.item o c 0) (ne : c ≠ []) (nonzero : ∀ s ∈ c, s.1 ≠ 0)
    (enough : c.length ≤ n) : t.walk n o = some (c.map Prod.fst) := by
  induction c generalizing n o with
  | nil => exact absurd rfl ne
  | cons s c ih =>
    obtain ⟨rfl, -, rest⟩ := path
    cases n with
    | zero => simp at enough
    | succ n =>
      cases c with
      | nil =>
        have last : t.next s.1 = 0 := rest
        simp [walk, last]
      | cons s' c =>
        have more : t.next s.1 ≠ 0 := by
          rw [rest.1]
          exact nonzero s' (by simp)
        rw [walk, if_neg more, ih rest (by simp) (fun s mem => nonzero s (List.mem_cons_of_mem _ mem))
          (by simpa using enough)]
        rfl

theorem nodeBefore_path {b : Slot K V} {target : Nat}
    (path : Path t.next t.item o (c ++ [b]) target) (fresh : target ∉ (c ++ [b]).map Prod.fst)
    (enough : (c ++ [b]).length ≤ n) : t.nodeBefore target n o = some b.1 := by
  induction c generalizing n o with
  | nil =>
    obtain ⟨rfl, -, last⟩ := path
    cases n with
    | zero => simp at enough
    | succ n => exact if_pos last
  | cons s c ih =>
    obtain ⟨rfl, -, rest⟩ := path
    have more : t.next s.1 ≠ target := by
      rintro rfl
      apply fresh
      cases c with
      | nil => simp [rest.1]
      | cons s' c => simp [rest.1]
    cases n with
    | zero => simp at enough
    | succ n =>
      rw [nodeBefore, if_neg more]
      exact ih rest (fun mem => fresh (List.mem_cons_of_mem _ mem)) (by simpa using enough)

theorem findFrom_path [DecidableEq K] {key : K} (path : Path t.next t.item o c 0) (ne : c ≠ [])
    (nonzero : ∀ s ∈ c, s.1 ≠ 0) (enough : c.length ≤ n) :
    t.findFrom key n o = some (((c.find? fun s => s.2.1 = key).map Prod.fst).getD 0) := by
  induction c generalizing n o with
  | nil => exact absurd rfl ne
  | cons s c ih =>
    obtain ⟨rfl, item, rest⟩ := path
    cases n with
    | zero => simp at enough
    | succ n =>
      rw [findFrom, item, Option.bind_eq_bind, Option.bind_some]
      by_cases same : s.2.1 = key
      · simp [same]
      · cases c with
        | nil =>
          have last : t.next s.1 = 0 := rest
          simp [same, last]
        | cons s' c =>
          have more : t.next s.1 ≠ 0 := by
            rw [rest.1]
            exact nonzero s' (by simp)
          rw [if_neg same, if_neg more, ih rest (by simp)
            (fun s mem => nonzero s (List.mem_cons_of_mem _ mem)) (by simpa using enough)]
          simp [same]

theorem body_of_item {x : K × V} (item : t.item o = some x) : t.body o = .item x := by
  cases eq : t.body o with
  | prev p => simp [Table.item, eq, Body.value] at item
  | item y =>
    simp only [Table.item, eq, Body.value, Option.some.injEq] at item
    rw [item]

theorem moveFrom_eq {other : Nat} {x : K × V} (item : t.item other = some x) :
    t.moveFrom o other = t.setItem o x := by
  rw [moveFrom, body_of_item item, setItem]

end Table

namespace Layout
variable {free hand : List Nat} {chain : Nat → List (Slot K V)} {waiting : List (Slot K V)}
  {h : Nat} {s : Slot K V}

section
variable (layout : Layout P t free hand chain waiting) (le : h ≤ t.numNodes)
include layout le

theorem cut (mem : s ∈ chain h) :
    ∃ before after, chain h = before ++ s :: after ∧ Path t.next t.item h before s.1 ∧
      Path t.next t.item s.1 (s :: after) 0 := by
  obtain ⟨before, after, eq⟩ := List.append_of_mem mem
  have path := (layout.chains h le).path (List.ne_nil_of_mem mem)
  rw [eq] at path
  obtain ⟨m, first, rfl, rest⟩ := path_append.1 path
  exact ⟨before, after, eq, first, rfl, rest⟩

theorem nonzero : ∀ s ∈ chain h, s.1 ≠ 0 := fun _ mem => (layout.chain_apart le mem).1

theorem chain_of_empty
    (empty : t.tag h ≠ .head) : chain h = [] := by
  cases eq : chain h with
  | nil => rfl
  | cons s c =>
    have chained := layout.chains h le
    rw [eq] at chained
    obtain ⟨rfl, -⟩ := chained.path (by simp)
    exact absurd (chained.first s rfl) empty

theorem tag_of_mem (mem : s ∈ chain h) :
    t.tag s.1 = .head ∧ s.1 = h ∨ t.tag s.1 = .probe ∧ s ∈ (chain h).tail := by
  have chained := layout.chains h le
  cases eq : chain h with
  | nil => simp [eq] at mem
  | cons s' c =>
    rw [eq] at mem chained
    rcases List.mem_cons.1 mem with rfl | mem
    · exact .inl ⟨chained.first s rfl, (chained.path (by simp)).1.symm⟩
    · exact .inr ⟨chained.rest s mem, mem⟩

end

section
variable (layout : Layout P t free [] chain []) (pos : 1 ≤ o) (le : o ≤ t.numNodes)
include layout pos le

theorem free_of_empty
    (empty : t.tag o = .empty) : o ∈ free := by
  rcases layout.node_cases pos le with mem | mem | ⟨s, mem, -⟩ | ⟨h, le', s, mem, rfl⟩
  · exact mem
  · cases mem
  · cases mem
  · rcases layout.tag_of_mem le' mem with ⟨tag, -⟩ | ⟨tag, -⟩ <;> simp [tag] at empty

theorem slot_of_tag
    (used : t.tag o ≠ .empty) : ∃ h ≤ t.numNodes, ∃ s ∈ chain h, s.1 = o := by
  rcases layout.node_cases pos le with mem | mem | ⟨s, mem, -⟩ | slot
  · exact absurd (layout.idle o mem) used
  · cases mem
  · cases mem
  · exact slot

end

variable [DecidableEq K]

section
variable (layout : Layout P t free [] chain []) (some_ : 0 < t.numNodes) (key : K)
include layout some_ key

theorem findFrom
    (used : t.tag (t.hashHead P key) ≠ .empty) :
    t.findFrom key (t.numNodes + 1) (t.hashHead P key) =
      some ((((chain (t.hashHead P key)).find? fun s => s.2.1 = key).map Prod.fst).getD 0) := by
  have le : t.hashHead P key ≤ t.numNodes := Table.hashHead_le some_ key
  obtain ⟨h, le', s, mem, at_⟩ := layout.slot_of_tag (Table.hashHead_pos key) le used
  obtain ⟨before, after, eq, -, path⟩ := layout.cut le' mem
  have length := layout.length_le le'
  rw [eq, List.length_append] at length
  rw [← at_, Table.findFrom_path path (by simp)
    (fun s mem => layout.nonzero le' s (by rw [eq]; exact List.mem_append_right _ mem)) (by omega), at_]
  congr 3
  by_cases own : h = t.hashHead P key
  · -- Its own chain starts here.
    subst own
    have chained := layout.chains _ le'
    rw [eq] at chained
    cases before with
    | nil => rw [eq, List.nil_append]
    | cons s' before =>
      have nodup := layout.chain_nodup le'
      have first := (chained.path (by simp)).1
      rw [eq] at nodup
      simp [← first, at_] at nodup
  · -- Another chain passes through the hash head.
    have foreign : t.tag (t.hashHead P key) ≠ .head := by
      rw [← at_]
      rcases layout.tag_of_mem le' mem with ⟨-, same⟩ | ⟨tag, -⟩
      · exact absurd (same.symm.trans at_) own
      · simp [tag]
    rw [layout.chain_of_empty le foreign, List.find?_nil, List.find?_eq_none]
    intro s' mem' same
    refine own ?_
    rw [← of_decide_eq_true same, (layout.chains h le').placed s' (by rw [eq]; exact List.mem_append_right _ mem')]

theorem innerFind : t.innerFind P key =
      some ((((chain (t.hashHead P key)).find? fun s => s.2.1 = key).map Prod.fst).getD 0) := by
  have le : t.hashHead P key ≤ t.numNodes := Table.hashHead_le some_ key
  by_cases empty : t.tag (t.hashHead P key) = .empty
  · rw [layout.chain_of_empty le (by simp [empty])]
    simp [Table.innerFind, Table.isEmpty, empty]
  · rw [← layout.findFrom some_ key empty]
    simp [Table.innerFind, Table.isEmpty, empty]

end

end Layout

structure Within (t t' : Table K V d) : Prop where
  nodes : t'.numNodes = t.numNodes
  factor : t'.maxLoadFactor = t.maxLoadFactor
  limit : t'.maxNumItems = t.maxNumItems
  beyond : ∀ o, t.numNodes < o → t'.mem o = t.mem o

namespace Within

theorem refl (t : Table K V d) : Within t t := ⟨rfl, rfl, rfl, fun _ _ => rfl⟩

theorem trans {t'' : Table K V d} (first : Within t t') (second : Within t' t'') : Within t t'' where
  nodes := second.nodes.trans first.nodes
  factor := second.factor.trans first.factor
  limit := second.limit.trans first.limit
  beyond o lt := (second.beyond o (by rw [first.nodes]; exact lt)).trans (first.beyond o lt)

section
variable (within : Within t t') (le : o ≤ t.numNodes)
include within le

theorem setWord (g : Tag) (next : Nat) : Within t (t'.setWord o g next) where
  nodes := within.nodes
  factor := within.factor
  limit := within.limit
  beyond _ lt := (Table.mem_setWord g next (by omega)).trans (within.beyond _ lt)

theorem setNext (next : Nat) : Within t (t'.setNext o next) := within.setWord le _ next

theorem setItem (x : K × V) : Within t (t'.setItem o x) where
  nodes := within.nodes
  factor := within.factor
  limit := within.limit
  beyond _ lt := (Table.mem_setBody _ (by omega)).trans (within.beyond _ lt)

end

end Within

namespace Layout
variable {free hand hand' : List Nat} {chain : Nat → List (Slot K V)} {waiting waiting' : List (Slot K V)}
  {h : Nat} {s : Slot K V} {x : K × V}

section
variable (layout : Layout P t free hand chain waiting)
include layout

theorem free_le (mem : o ∈ 0 :: free) : o ≤ t.numNodes := by
  rcases List.mem_cons.1 mem with rfl | mem
  · omega
  · exact (layout.pos (by simp [mem])).2

theorem within_allocate (mem : o ∈ free) : Within t (t.allocateNode o) := by
  obtain ⟨-, -, -, kept⟩ := layout.allocate mem
  refine ⟨rfl, rfl, rfl, fun o' lt => kept o' fun mem' => ?_⟩
  have le := layout.free_le mem'
  omega

theorem within_deallocate (le : o ≤ t.numNodes) : Within t (t.deallocateNode o) := by
  refine ⟨rfl, rfl, rfl, fun o' lt => layout.mem_deallocate (by omega) fun mem' => ?_⟩
  have le := layout.free_le mem'
  omega

end

theorem probeNode_mem (layout : Layout P t free [] chain []) (room : free ≠ []) : t.probeNode P o ∈ free := by
  rw [Table.probeNode, Table.probeWhere]
  cases found : ((t.offsetsFrom o).takeWhile (Table.near P o)).find? t.isEmpty with
  | none => exact layout.ring.prev_root_mem_of_ne room
  | some probe =>
    have mem := (List.takeWhile_sublist _).subset (List.mem_of_find?_eq_some found)
    have empty := List.find?_some found
    simp only [Table.offsetsFrom] at mem
    split at mem
    · cases mem
    · rw [List.mem_range'_1] at mem
      have le : probe ≤ t.numNodes := by omega
      have pos : 1 ≤ probe := by omega
      exact layout.free_of_empty pos le (of_decide_eq_true empty)

theorem rewait (layout : Layout P t free hand chain waiting) (nodes : t'.numNodes = t.numNodes)
    (same : ∀ o ∉ hand, t'.mem o = t.mem o)
    (waits : ∀ s ∈ waiting', (t'.tag s.1 = .rehash ∧ t'.item s.1 = some s.2) ∨ s ∈ waiting)
    (perm : (waiting.map Prod.fst ++ hand).Perm (waiting'.map Prod.fst ++ hand')) :
    Layout P t' free hand' chain waiting' := by
  have changed := layout.rechain (Nat.zero_le _) nodes hand same (fun o mem => .inr (.inl mem))
    ((layout.chains 0 (Nat.zero_le _)).congr nodes fun s mem =>
      same _ (layout.chain_apart (Nat.zero_le _) mem).2.2.1)
    (fun s mem => (waits s mem).imp_right fun mem => ⟨mem, (layout.waiting_apart mem).2.2⟩)
    (perm.append_left _)
  rwa [Function.update_eq_self] at changed

theorem seat (layout : Layout P t free (o :: hand) chain waiting) (vacant : chain o = [])
    (placed : t.hashHead P x.1 = o) :
    Layout P ((t.setWord o .head 0).setItem o x) free hand (Function.update chain o [(o, x)]) waiting := by
  have le : o ≤ t.numNodes := (layout.pos (by simp)).2
  have nodes : ((t.setWord o .head 0).setItem o x).numNodes = t.numNodes := rfl
  refine layout.rechain le nodes [o] (fun o' out => ?_) (by simp) ⟨fun _ => ?_, ?_, ?_, ?_⟩
    (fun s mem => .inr ⟨mem, ?_⟩) ?_
  · have ne : o' ≠ o := by simpa using out
    exact (Table.mem_setBody _ ne).trans (Table.mem_setWord _ _ ne)
  · exact ⟨rfl, by simp, by simp [Lib.Path]⟩
  · simp
  · simp
  · intro s mem
    rw [List.mem_singleton.1 mem]
    exact placed
  · have apart := (layout.waiting_apart mem).2.2
    simp only [List.mem_cons, not_or] at apart
    simp [apart.1]
  · rw [vacant]
    exact List.perm_middle

theorem attach (layout : Layout P t free (o :: hand) chain waiting) (le : h ≤ t.numNodes)
    {b : Slot K V} (eq : chain h = c ++ [b]) (tag : t.tag o = .probe) (last : t.next o = 0)
    (placed : t.hashHead P x.1 = h) : Layout P ((t.setNext b.1 o).setItem o x) free hand
      (Function.update chain h (chain h ++ [(o, x)])) waiting := by
  have nodes : ((t.setNext b.1 o).setItem o x).numNodes = t.numNodes := rfl
  have chained := layout.chains h le
  have nodup := layout.chain_nodup le
  have apart : ∀ s ∈ chain h, s.1 ≠ o := by
    rintro s mem rfl
    exact (layout.chain_apart le mem).2.2.1 (List.mem_cons_self ..)
  have b_mem : b ∈ chain h := by simp [eq]
  refine layout.rechain le nodes [b.1, o] (fun o' out => ?_) ?_ ⟨fun _ => ?_, ?_, ?_, ?_⟩
    (fun s mem => .inr ⟨mem, ?_⟩) ?_
  · simp only [List.mem_cons, List.not_mem_nil, or_false, not_or] at out
    exact (Table.mem_setBody _ out.2).trans (Table.mem_setWord _ _ out.1)
  · simp only [List.mem_cons, List.not_mem_nil, or_false, forall_eq_or_imp, forall_eq]
    exact ⟨.inl (List.mem_map_of_mem b_mem), .inr (.inl (.inl trivial))⟩
  · refine path_append.2 ⟨o, ?_, rfl, by simp, ?_⟩
    · rw [eq] at chained nodup apart ⊢
      refine ((chained.path (by simp)).redirect nodup).congr fun s mem => ⟨by simp, ?_⟩
      simp [apart s mem]
    · simp [Lib.Path, (apart b b_mem).symm, last]
  · intro s mem
    rw [eq] at chained mem
    refine (congrFun (Table.tag_setItem ..) _).trans ((congrFun (Table.tag_setNext ..) _).trans
      (chained.first s ?_))
    simpa using mem
  · intro s mem
    rw [List.tail_append_of_ne_nil (by simp [eq])] at mem
    refine (congrFun (Table.tag_setItem ..) _).trans ((congrFun (Table.tag_setNext ..) _).trans ?_)
    rcases List.mem_append.1 mem with mem | mem
    · exact chained.rest s mem
    · rw [List.mem_singleton.1 mem]
      exact tag
  · intro s mem
    rcases List.mem_append.1 mem with mem | mem
    · exact chained.placed s mem
    · rw [List.mem_singleton.1 mem]
      exact placed
  · have notHand := (layout.waiting_apart mem).2.2
    have notChain : s.1 ≠ b.1 := by
      intro same
      exact (layout.chain_apart le b_mem).2.2.2 (same ▸ List.mem_map_of_mem mem)
    simp only [List.mem_cons, not_or] at notHand
    simp [notHand.1, notChain]
  · rw [List.map_append, List.append_assoc]
    exact List.perm_middle.append_left _

end Layout

end Prpc.PoolHashTable
