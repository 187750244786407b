import Prpc.Misc.PoolHashTable.Chains

/-!
The three scans of `inner_remap_rehash`.
-/

namespace Prpc.PoolHashTable
open Lib

variable {K V : Type} {d : Doubles} {P : Params K V} {t t' : Table K V d} {o : Nat}
  {free hand : List Nat} {chain : Nat → List (Slot K V)} {waiting : List (Slot K V)} {s : Slot K V}
  {x y : K × V}

namespace Table

theorem setItem_self (item : t.item o = some x) : t.setItem o x = t := by
  have same : { t.mem o with body := .item x } = t.mem o := by
    rw [← body_of_item item]
    rfl
  rw [setItem, setBody, same, Function.update_eq_self]

theorem exchangeItems_eq {other : Nat} (item : t.item o = some x) (item' : t.item other = some y) :
    t.exchangeItems o other = (t.setItem other x).setItem o y := by
  rw [exchangeItems, body_of_item item, body_of_item item', setItem, setItem]

end Table

namespace Layout

theorem take (layout : Layout P t free hand chain waiting) (mem : s ∈ waiting) : ∃ rest,
    waiting.Perm (s :: rest) ∧ Layout P t free (s.1 :: hand) chain rest ∧
    ∀ e ∈ rest, e ∈ waiting ∧ e.1 ≠ s.1 := by
  obtain ⟨before, after, rfl⟩ := List.append_of_mem mem
  have perm : (before ++ s :: after).Perm (s :: (before ++ after)) := List.perm_middle
  have taken : Layout P t free (s.1 :: hand) chain (before ++ after) := by
    refine layout.rewait rfl (fun _ _ => rfl) (fun e left => .inr ?_) ?_
    · exact perm.mem_iff.2 (List.mem_cons_of_mem _ left)
    · simp only [List.map_append, List.map_cons, List.append_assoc, List.cons_append]
      exact List.perm_middle.symm.append_left _
  refine ⟨before ++ after, perm, taken, fun e left => ⟨perm.mem_iff.2 (List.mem_cons_of_mem _ left), ?_⟩⟩
  intro same
  exact (taken.waiting_apart left).2.2 (same ▸ List.mem_cons_self ..)

section
variable (layout : Layout P t free [] chain waiting) (pos : 1 ≤ o) (le : o ≤ t.numNodes)
include layout pos le

theorem waiting_of_rehash (rehashing : t.tag o = .rehash) : ∃ x, (o, x) ∈ waiting := by
  rcases layout.node_cases pos le with mem | mem | ⟨s, mem, rfl⟩ | ⟨h, le', s, mem, rfl⟩
  · simp [layout.idle o mem] at rehashing
  · cases mem
  · exact ⟨s.2, mem⟩
  · rcases layout.tag_of_mem le' mem with ⟨tag, -⟩ | ⟨tag, -⟩ <;> simp [tag] at rehashing

theorem free_of_tag
    (empty : t.tag o = .empty) : o ∈ free := by
  rcases layout.node_cases pos le with mem | mem | ⟨s, mem, rfl⟩ | ⟨h, le', s, mem, rfl⟩
  · exact mem
  · cases mem
  · simp [(layout.waits s mem).1] at empty
  · rcases layout.tag_of_mem le' mem with ⟨tag, -⟩ | ⟨tag, -⟩ <;> simp [tag] at empty

end

end Layout

structure Settles (P : Params K V) (t : Table K V d) (free : List Nat) (chain : Nat → List (Slot K V))
    (waiting : List (Slot K V)) (o : Nat) (s : Slot K V) (next : Bool) (t' : Table K V d)
    (free' : List Nat) (chain' : Nat → List (Slot K V)) (waiting' : List (Slot K V)) : Prop where
  layout : Layout P t' free' [] chain' waiting'
  within : Within t t'
  count : t'.numItems = t.numItems
  room : free'.length = free.length
  home : t.hashHead P s.2.1 ≤ t.numNodes
  joins : chain' = Function.update chain (t.hashHead P s.2.1) (chain (t.hashHead P s.2.1) ++ [s])
  leaves : (waiting.map Prod.snd).Perm (s.2 :: waiting'.map Prod.snd)
  stays : ∀ e ∈ waiting', e ∈ waiting ∧ e.1 ≠ o ∨ e.1 = o ∧ next = false

theorem Layout.waiting_le (layout : Layout P t free hand chain waiting) (mem : s ∈ waiting) :
    s.1 ≤ t.numNodes :=
  (layout.pos (List.mem_append_right _ (List.mem_append_left _ (List.mem_map_of_mem mem)))).2

theorem Layout.leave_waiting (layout : Layout P t free (o :: hand) chain waiting)
    (rehashing : t.tag o = .rehash) (y : K × V) :
    Layout P (t.setItem o y) free hand chain ((o, y) :: waiting) := by
  have nodes : (t.setItem o y).numNodes = t.numNodes := rfl
  refine layout.rewait nodes (fun o' out => ?_) (fun e mem => ?_) ?_
  · exact Table.mem_setBody _ fun same => out (same ▸ List.mem_cons_self ..)
  · rcases List.mem_cons.1 mem with rfl | mem
    · exact .inl ⟨by simpa using rehashing, by simp⟩
    · exact .inr mem
  · exact List.perm_middle

structure Joins (P : Params K V) (t : Table K V d) (chain : Nat → List (Slot K V)) (p : Nat) (x : K × V)
    (u : Table K V d) (chain' : Nat → List (Slot K V)) : Prop where
  layout : ∀ {free hand waiting}, Layout P t free (p :: hand) chain waiting →
    Layout P (u.setItem p x) free hand chain' waiting
  within : Within t u
  count : u.numItems = t.numItems
  items : u.item = t.item
  tags : ∀ o ≠ p, u.tag o = t.tag o
  home : t.hashHead P x.1 ≤ t.numNodes
  joins : chain' = Function.update chain (t.hashHead P x.1) (chain (t.hashHead P x.1) ++ [(p, x)])

theorem joins_head {p : Nat} (le : p ≤ t.numNodes) (home : t.hashHead P x.1 = p) (vacant : chain p = []) :
    Joins P t chain p x (t.setWord p .head 0) (Function.update chain p [(p, x)]) where
  layout layout := layout.seat vacant home
  within := (Within.refl t).setWord le _ _
  count := rfl
  items := by simp
  tags o ne := by simp [ne]
  home := home ▸ le
  joins := by simp [home, vacant]

variable {c : List (Slot K V)} {b : Slot K V}

theorem joins_allocated {p h : Nat} (le : h ≤ t.numNodes)
    (le' : b.1 ≤ t.numNodes) (home : t.hashHead P x.1 = h) (eq : chain h = c ++ [b])
    (tag : t.tag p = .probe) (last : t.next p = 0) :
    Joins P t chain p x (t.setNext b.1 p) (Function.update chain h (chain h ++ [(p, x)])) where
  layout layout := layout.attach le eq tag last home
  within := (Within.refl t).setNext le' _
  count := rfl
  items := by simp
  tags o ne := by simp
  home := home ▸ le
  joins := by simp [home]

theorem joins_probe {p h : Nat} (le : h ≤ t.numNodes)
    (le' : b.1 ≤ t.numNodes) (le'' : p ≤ t.numNodes) (home : t.hashHead P x.1 = h)
    (eq : chain h = c ++ [b]) : Joins P t chain p x ((t.setWord p .probe 0).setNext b.1 p)
      (Function.update chain h (chain h ++ [(p, x)])) := by
  have nodes : (t.setWord p .probe 0).numNodes = t.numNodes := rfl
  refine ⟨fun layout => ?_, ((Within.refl t).setWord le'' _ _).setNext le' _, rfl, by simp,
    fun o ne => by simp [ne], home ▸ le, by simp only [home]⟩
  refine Layout.attach (layout.rewait nodes (fun o out => ?_) (fun e mem => .inr mem) (List.Perm.refl _))
    le eq (by simp) (by simp) home
  exact Table.mem_setWord _ _ fun same => out (same ▸ List.mem_cons_self ..)

variable {u : Table K V d} {chain' : Nat → List (Slot K V)} {p : Nat}

section
variable (layout : Layout P t free [] chain waiting) (mem : (o, x) ∈ waiting)
include layout mem

theorem Layout.keep
    (joins : Joins P t chain o x u chain') : ∃ waiting',
    Settles P t free chain waiting o (o, x) true u free chain' waiting' := by
  obtain ⟨rest, perm, taken, left⟩ := layout.take mem
  have joined := joins.layout taken
  rw [Table.setItem_self (by rw [joins.items]; exact (layout.waits _ mem).2)] at joined
  refine ⟨rest, joined, joins.within, joins.count, rfl, joins.home, joins.joins, perm.map Prod.snd,
    fun e mem => .inl (left e mem)⟩

theorem Layout.swap
    (mem' : (p, y) ∈ waiting) (ne : p ≠ o) (joins : Joins P t chain p x u chain') : ∃ waiting',
    Settles P t free chain waiting o (p, x) false (u.exchangeItems o p) free chain' waiting' := by
  have le : o ≤ t.numNodes := layout.waiting_le mem
  have le' : p ≤ t.numNodes := layout.waiting_le mem'
  obtain ⟨rest, perm, taken, left⟩ := layout.take mem
  have other : (p, y) ∈ rest := by
    rcases List.mem_cons.1 (perm.mem_iff.1 mem') with same | other
    · exact absurd (congrArg Prod.fst same) ne
    · exact other
  obtain ⟨rest', perm', taken', left'⟩ := taken.take other
  have rehashing : (u.setItem p x).tag o = .rehash := by
    rw [Table.tag_setItem, joins.tags o ne.symm]
    exact (layout.waits _ mem).1
  have waits := (joins.layout taken').leave_waiting rehashing y
  rw [Table.exchangeItems_eq (by rw [joins.items]; exact (layout.waits _ mem).2)
    (by rw [joins.items]; exact (layout.waits _ mem').2)]
  refine ⟨_, waits, (joins.within.setItem le' _).setItem le _, joins.count, rfl, joins.home, joins.joins, ?_, ?_⟩
  · exact (perm.map Prod.snd).trans ((perm'.map Prod.snd).cons x)
  · intro e at_
    rcases List.mem_cons.1 at_ with rfl | at_
    · exact .inr ⟨rfl, rfl⟩
    · exact .inl (left e (left' e at_).1)

theorem Layout.move
    (empty : p ∈ free) (joins : Joins P (t.allocateNode p) chain p x u chain') : ∃ free' waiting',
    Settles P t free chain waiting o (p, x) true ((u.moveFrom p o).deallocateNode o) free' chain'
      waiting' := by
  have le : o ≤ t.numNodes := layout.waiting_le mem
  have le' : p ≤ t.numNodes := layout.free_le (List.mem_cons_of_mem _ empty)
  obtain ⟨notRoot, notFree, -⟩ := layout.waiting_apart mem
  obtain ⟨free', permFree, allocated, kept⟩ := layout.allocate empty
  have item : u.item o = some x := by
    rw [joins.items, (Table.same_of_mem (kept o (by simp [notRoot, notFree]))).2.2.2]
    exact (layout.waits _ mem).2
  have within : Within t (u.setItem p x) := (layout.within_allocate empty).trans (joins.within.setItem le' _)
  obtain ⟨rest, perm, taken, left⟩ := (joins.layout allocated).take mem
  rw [Table.moveFrom_eq item]
  refine ⟨_, rest, taken.deallocate, within.trans (taken.within_deallocate (within.nodes ▸ le)), ?_, ?_,
    joins.home, joins.joins, perm.map Prod.snd, fun e mem => .inl (left e mem)⟩
  · have count : u.numItems = t.numItems + 1 := joins.count
    change u.numItems - 1 = t.numItems
    omega
  · rw [permFree.length_eq, List.length_append, List.length_cons]
    simp

end

def headTarget (P : Params K V) (t : Table K V d) (o : Nat) : Option (Slot K V) :=
  if t.isRehashing o then do
    let x ← t.item o
    let p := t.hashHead P x.1
    if t.isRehashing p || t.isEmpty p then some (p, x) else none
  else none

def probeTarget (P : Params K V) (t : Table K V d) (o : Nat) : Option (Slot K V) :=
  if t.isRehashing o then do
    let x ← t.item o
    let prev ← t.chainEnd (t.hashHead P x.1)
    return (t.probeNodeRehash P prev, x)
  else none

inductive Pass (P : Params K V) (t : Table K V d) (free : List Nat) (chain : Nat → List (Slot K V))
    (waiting : List (Slot K V)) (o : Nat) (target : Option (Slot K V)) (next : Bool) (t' : Table K V d) : Prop
  | idle (none : target = none) (on : next = true) (same : t' = t)
  | settles (s : Slot K V) (some : target = some s) (free' : List Nat) (chain' : Nat → List (Slot K V))
      (waiting' : List (Slot K V))
      (settles : Settles P t free chain waiting o s next t' free' chain' waiting')

theorem Layout.settleHead (layout : Layout P t free [] chain waiting) (pos : 1 ≤ o) (le : o ≤ t.numNodes) :
    ∃ next t', Table.settleHead P t o = some (next, t') ∧
      Pass P t free chain waiting o (headTarget P t o) next t' := by
  have some_ : 0 < t.numNodes := by omega
  by_cases rehashing : t.tag o = .rehash
  · obtain ⟨x, mem⟩ := layout.waiting_of_rehash pos le rehashing
    have item := (layout.waits _ mem).2
    have home : t.hashHead P x.1 ≤ t.numNodes := Table.hashHead_le some_ x.1
    by_cases there : t.tag (t.hashHead P x.1) = .rehash
    · have joins := joins_head home rfl (layout.chain_of_empty home (by simp [there]))
      obtain ⟨y, mem'⟩ := layout.waiting_of_rehash (Table.hashHead_pos _) home there
      have target : headTarget P t o = some (t.hashHead P x.1, x) := by
        simp [headTarget, Table.isRehashing, rehashing, item, there]
      by_cases same : t.hashHead P x.1 = o
      · rw [same] at joins target there
        obtain ⟨waiting', settles⟩ := layout.keep mem joins
        refine ⟨true, _, ?_, .settles _ target _ _ _ settles⟩
        simp [Table.settleHead, Table.isRehashing, rehashing, item, same]
      · obtain ⟨waiting', settles⟩ := layout.swap mem mem' same joins
        refine ⟨false, _, ?_, .settles _ target _ _ _ settles⟩
        simp [Table.settleHead, Table.isRehashing, rehashing, item, there, same]
    · by_cases empty : t.tag (t.hashHead P x.1) = .empty
      · have free_ := layout.free_of_tag (Table.hashHead_pos _) home empty
        obtain ⟨free', waiting', settles⟩ := layout.move mem free_
          (joins_head (t := t.allocateNode _) home rfl (layout.chain_of_empty home (by simp [empty])))
        refine ⟨true, _, ?_, .settles _ ?_ _ _ _ settles⟩
        · simp [Table.settleHead, Table.isRehashing, Table.isEmpty, rehashing, item, empty]
        · simp [headTarget, Table.isRehashing, Table.isEmpty, rehashing, item, empty]
      · refine ⟨true, t, ?_, .idle ?_ rfl rfl⟩
        · simp [Table.settleHead, Table.isRehashing, Table.isEmpty, rehashing, item, there, empty]
        · simp [headTarget, Table.isRehashing, Table.isEmpty, rehashing, item, there, empty]
  · refine ⟨true, t, ?_, .idle ?_ rfl rfl⟩
    · simp [Table.settleHead, Table.isRehashing, rehashing]
    · simp [headTarget, Table.isRehashing, rehashing]

theorem Layout.chainEnd (layout : Layout P t free hand chain waiting) {h : Nat} (le : h ≤ t.numNodes) (eq : chain h = c ++ [b]) : t.chainEnd h = some b.1 := by
  have path := (layout.chains h le).path (by simp [eq])
  have walk := Table.walk_path path (by simp [eq]) (layout.nonzero le)
    ((layout.length_le le).trans (Nat.le_succ _))
  simp [Table.chainEnd, walk, eq]

section
variable (layout : Layout P t free [] chain waiting) (room : free ≠ [])
include layout room

theorem Layout.probeNodeRehash (prev : Nat) :
    t.probeNodeRehash P prev ∈ free ∨ ∃ y, (t.probeNodeRehash P prev, y) ∈ waiting := by
  rw [Table.probeNodeRehash, Table.probeWhere]
  cases found : ((t.offsetsFrom prev).takeWhile (Table.near P prev)).find?
      fun probe => t.isEmpty probe || t.isRehashing probe with
  | none => exact .inl (layout.ring.prev_root_mem_of_ne room)
  | some probe =>
    have mem := (List.takeWhile_sublist _).subset (List.mem_of_find?_eq_some found)
    have wanted := List.find?_some found
    simp only [Table.offsetsFrom] at mem
    split at mem
    · cases mem
    · rw [List.mem_range'_1] at mem
      have pos : 1 ≤ probe := by omega
      have le : probe ≤ t.numNodes := by omega
      rcases Bool.or_eq_true_iff.1 wanted with empty | rehashing
      · exact .inl (layout.free_of_tag pos le (of_decide_eq_true empty))
      · exact .inr (layout.waiting_of_rehash pos le (of_decide_eq_true rehashing))

theorem Layout.settleProbe (pos : 1 ≤ o)
    (le : o ≤ t.numNodes) (headed : ∀ e ∈ waiting, chain (t.hashHead P e.2.1) ≠ []) :
    ∃ next t', Table.settleProbe P t o = some (next, t') ∧
      Pass P t free chain waiting o (probeTarget P t o) next t' := by
  have some_ : 0 < t.numNodes := by omega
  by_cases rehashing : t.tag o = .rehash
  · obtain ⟨x, mem⟩ := layout.waiting_of_rehash pos le rehashing
    have item := (layout.waits _ mem).2
    have home : t.hashHead P x.1 ≤ t.numNodes := Table.hashHead_le some_ x.1
    obtain ⟨c, b, eq⟩ : ∃ c b, chain (t.hashHead P x.1) = c ++ [b] :=
      ⟨_, _, (List.dropLast_append_getLast (headed _ mem)).symm⟩
    have last : t.chainEnd (t.hashHead P x.1) = some b.1 := layout.chainEnd home eq
    have b_mem : b ∈ chain (t.hashHead P x.1) := by simp [eq]
    have b_le : b.1 ≤ t.numNodes := (layout.pos (List.mem_append_left _ (Layout.mem_nodes home b_mem))).2
    have target : probeTarget P t o = some (t.probeNodeRehash P b.1, x) := by
      simp [probeTarget, Table.isRehashing, rehashing, item, last]
    rcases layout.probeNodeRehash room b.1 with free_ | ⟨y, mem'⟩
    · have empty := layout.idle _ free_
      obtain ⟨free', waiting', settles⟩ := layout.move mem free_ (joins_allocated (t := t.allocateNode _)
        home b_le rfl eq (by simp [Table.tag_allocateNode]) (by simp [Table.next_allocateNode]))
      refine ⟨true, _, ?_, .settles _ target _ _ _ settles⟩
      simp [Table.settleProbe, Table.isRehashing, rehashing, item, last, empty]
    · have there := (layout.waits _ mem').1
      have joins := joins_probe home b_le (layout.waiting_le mem') rfl eq
      by_cases same : t.probeNodeRehash P b.1 = o
      · rw [same] at joins target
        obtain ⟨waiting', settles⟩ := layout.keep mem joins
        refine ⟨true, _, ?_, .settles _ target _ _ _ settles⟩
        simp [Table.settleProbe, Table.isRehashing, rehashing, item, last, same]
      · obtain ⟨waiting', settles⟩ := layout.swap mem mem' same joins
        refine ⟨false, _, ?_, .settles _ target _ _ _ settles⟩
        simp [Table.settleProbe, Table.isRehashing, rehashing, item, last, there, same]
  · refine ⟨true, t, ?_, .idle ?_ rfl rfl⟩
    · simp [Table.settleProbe, Table.isRehashing, rehashing]
    · simp [probeTarget, Table.isRehashing, rehashing]

end

def awaiting (t : Table K V d) : List (K × V) :=
  t.offsets.filterMap fun o => if t.isRehashing o then t.item o else none

theorem Layout.read_perm {A : Type} (layout : Layout P t free [] chain waiting) (read : Nat → Option A)
    (chained waits : Slot K V → Option A) (idle : ∀ o ∈ free, read o = none)
    (chains : ∀ s ∈ inChains (t.numNodes + 1) chain, read s.1 = chained s)
    (waiting_ : ∀ s ∈ waiting, read s.1 = waits s) : (t.offsets.filterMap read).Perm
      ((inChains (t.numNodes + 1) chain).filterMap chained ++ waiting.filterMap waits) := by
  have perm := layout.cover.symm.filterMap read
  rw [List.nil_append, List.filterMap_append, List.filterMap_append, List.filterMap_map,
    List.filterMap_map, List.filterMap_eq_nil_iff.2 idle, List.append_nil] at perm
  rwa [← List.filterMap_congr chains, ← List.filterMap_congr waiting_]

theorem Layout.awaiting_perm (layout : Layout P t free [] chain waiting) :
    (awaiting t).Perm (waiting.map Prod.snd) := by
  refine (layout.read_perm (fun o => if t.isRehashing o then t.item o else none)
    (fun _ => none) (fun s => some s.2) (fun o mem => ?_) (fun s mem => ?_) fun s mem => ?_).trans ?_
  · simp [Table.isRehashing, layout.idle o mem]
  · obtain ⟨h, lt, mem⟩ := mem_inChains.1 mem
    rcases layout.tag_of_mem (by omega) mem with ⟨tag, -⟩ | ⟨tag, -⟩ <;> simp [Table.isRehashing, tag]
  · simp [Table.isRehashing, layout.waits s mem]
  · simp

def Takes (step : Table K V d → Nat → Option (Bool × Table K V d))
    (target : Table K V d → Nat → Option (Slot K V)) (t : Table K V d) (o : Nat) : Prop :=
  ∃ next t', step t o = some (next, t') ∧
    (awaiting t).Perm ((target t o).toList.map Prod.snd ++ awaiting t') ∧
    ∀ s ∈ target t o, t'.item s.1 = some s.2 ∧ t'.isRehashing s.1 = false

variable {step : Table K V d → Nat → Option (Bool × Table K V d)}

theorem Pass.takes
    {target : Table K V d → Nat → Option (Slot K V)} {next : Bool}
    (layout : Layout P t free [] chain waiting) (moved : step t o = some (next, t'))
    (pass : Pass P t free chain waiting o (target t o) next t') : Takes step target t o := by
  refine ⟨next, t', moved, ?_, ?_⟩
  · cases pass with
    | idle none on same => simp [none, same]
    | settles s some free' chain' waiting' settles =>
      rw [some]
      exact layout.awaiting_perm.trans (settles.leaves.trans (settles.layout.awaiting_perm.symm.cons s.2))
  · intro s mem
    cases pass with
    | idle none on same => simp [none] at mem
    | settles s' some free' chain' waiting' settles =>
      obtain rfl : s' = s := by simpa [some] using mem
      have home : t.hashHead P s'.2.1 ≤ t'.numNodes := settles.within.nodes ▸ settles.home
      have there : s' ∈ chain' (t.hashHead P s'.2.1) := by simp [settles.joins]
      refine ⟨(settles.layout.chains _ home).item_eq there, ?_⟩
      rcases settles.layout.tag_of_mem home there with ⟨tag, -⟩ | ⟨tag, -⟩ <;> simp [Table.isRehashing, tag]

def scanPasses (step : Table K V d → Nat → Option (Bool × Table K V d)) :
    Nat → Nat → Table K V d → Option (List (Table K V d × Nat) × Table K V d)
  | _, 0, t => some ([], t)
  | 0, _ + 1, _ => none
  | n + 1, o + 1, t => do
    let (next, t₁) ← step t (o + 1)
    let (passes, t') ← scanPasses step n (if next then t₁.probeOffset (o + 1) else o + 1) t₁
    return ((t, o + 1) :: passes, t')

theorem scan_of_passes {n : Nat}
    {passes : List (Table K V d × Nat)} (run : scanPasses step n o t = some (passes, t')) :
    Table.scan step n o t = some t' := by
  induction n generalizing o t passes with
  | zero =>
    cases o with
    | zero =>
      cases run
      rfl
    | succ o => cases run
  | succ n ih =>
    cases o with
    | zero =>
      cases run
      rfl
    | succ o =>
      simp only [scanPasses, Option.bind_eq_bind, Option.bind_eq_some_iff, Option.pure_def,
        Option.some.injEq] at run
      obtain ⟨⟨next, t₁⟩, first, ⟨passes', t₂⟩, rest, eq⟩ := run
      cases eq
      simp only [Table.scan, first, Option.bind_eq_bind, Option.bind_some]
      exact ih rest

structure Settled (P : Params K V) (t : Table K V d) (free : List Nat) (chain : Nat → List (Slot K V))
    (waiting placed : List (Slot K V)) (t' : Table K V d) (free' : List Nat)
    (chain' : Nat → List (Slot K V)) (waiting' : List (Slot K V)) : Prop where
  layout : Layout P t' free' [] chain' waiting'
  within : Within t t'
  count : t'.numItems = t.numItems
  room : free'.length = free.length
  joins : (inChains (t.numNodes + 1) chain').Perm (inChains (t.numNodes + 1) chain ++ placed)
  leaves : (waiting.map Prod.snd).Perm (placed.map Prod.snd ++ waiting'.map Prod.snd)

theorem Settles.settled {next : Bool} {free' : List Nat} {waiting' : List (Slot K V)}
    (settles : Settles P t free chain waiting o s next t' free' chain' waiting') :
    Settled P t free chain waiting [s] t' free' chain' waiting' where
  layout := settles.layout
  within := settles.within
  count := settles.count
  room := settles.room
  joins := by
    rw [settles.joins]
    exact inChains_append_perm chain (Nat.lt_succ_of_le settles.home) [s]
  leaves := settles.leaves

theorem Settled.trans {placed placed' : List (Slot K V)} {t₁ : Table K V d} {free₁ free' : List Nat}
    {chain₁ : Nat → List (Slot K V)} {waiting₁ waiting' : List (Slot K V)}
    (first : Settled P t free chain waiting placed t₁ free₁ chain₁ waiting₁)
    (second : Settled P t₁ free₁ chain₁ waiting₁ placed' t' free' chain' waiting') :
    Settled P t free chain waiting (placed ++ placed') t' free' chain' waiting' where
  layout := second.layout
  within := first.within.trans second.within
  count := second.count.trans first.count
  room := second.room.trans first.room
  joins := by
    have joins := second.joins
    rw [first.within.nodes] at joins
    rw [← List.append_assoc]
    exact joins.trans (first.joins.append_right _)
  leaves := by
    rw [List.map_append, List.append_assoc]
    exact first.leaves.trans (second.leaves.append_left _)

theorem Layout.settled (layout : Layout P t free [] chain waiting) :
    Settled P t free chain waiting [] t free chain waiting :=
  ⟨layout, Within.refl t, rfl, rfl, by rw [List.append_nil], List.Perm.refl _⟩

/-- A loop invariant `inv` of a scan by `step`, which settles the items that `target` names; `seen` is
what holds of every pass. -/
structure ScanRule (P : Params K V) (step : Table K V d → Nat → Option (Bool × Table K V d))
    (target : Table K V d → Nat → Option (Slot K V))
    (inv : Nat → Table K V d → (Nat → List (Slot K V)) → List (Slot K V) → Prop)
    (seen : Table K V d → Nat → Prop) : Prop where
  seen : ∀ {t free chain waiting o next t'}, Layout P t free [] chain waiting → free ≠ [] →
    step t o = some (next, t') → Pass P t free chain waiting o (target t o) next t' → seen t o
  pass : ∀ {t free chain waiting o}, Layout P t free [] chain waiting → free ≠ [] → 1 ≤ o →
    o ≤ t.numNodes → inv o t chain waiting → ∃ next t', step t o = some (next, t') ∧
      Pass P t free chain waiting o (target t o) next t'
  idle : ∀ {t free chain waiting o}, Layout P t free [] chain waiting → 1 ≤ o → o ≤ t.numNodes →
    inv o t chain waiting → target t o = none → inv (o + 1) t chain waiting
  settles : ∀ {t free chain waiting o s next t' free' chain' waiting'},
    Layout P t free [] chain waiting → inv o t chain waiting → target t o = some s →
    Settles P t free chain waiting o s next t' free' chain' waiting' →
    inv (if next then o + 1 else o) t' chain' waiting'

theorem ScanRule.run
    {target : Table K V d → Nat → Option (Slot K V)}
    {inv : Nat → Table K V d → (Nat → List (Slot K V)) → List (Slot K V) → Prop}
    {seen : Table K V d → Nat → Prop} (rule : ScanRule P step target inv seen) {n : Nat}
    (layout : Layout P t free [] chain waiting) (room : free ≠ []) (pos : 1 ≤ o)
    (holds : inv o t chain waiting) (enough : t.numNodes + 1 - o + waiting.length ≤ n)
    (le : o ≤ t.numNodes + 1) : ∃ passes t' free' chain' waiting',
    scanPasses step n (if o ≤ t.numNodes then o else 0) t = some (passes, t') ∧
    Settled P t free chain waiting (passes.filterMap fun pass => target pass.1 pass.2) t' free' chain'
      waiting' ∧
    inv (t.numNodes + 1) t' chain' waiting' ∧ ∀ pass ∈ passes, seen pass.1 pass.2 := by
  induction n generalizing o t free chain waiting with
  | zero =>
    obtain rfl : o = t.numNodes + 1 := by omega
    exact ⟨[], t, free, chain, waiting, by simp [scanPasses], layout.settled, holds, by simp⟩
  | succ n ih =>
    rcases Nat.lt_or_ge t.numNodes o with done | more
    · obtain rfl : o = t.numNodes + 1 := by omega
      exact ⟨[], t, free, chain, waiting, by simp [scanPasses], layout.settled, holds, by simp⟩
    obtain ⟨next, t₁, moved, pass⟩ := rule.pass layout room pos more holds
    have here := rule.seen layout room moved pass
    obtain ⟨i, rfl⟩ : ∃ i, o = i + 1 := ⟨o - 1, by omega⟩
    cases pass with
    | idle none on same =>
      subst on same
      obtain ⟨passes, t', free', chain', waiting', run, settled, holds', all⟩ :=
        ih layout room (by omega) (rule.idle layout pos more holds none) (by omega) (by omega)
      refine ⟨(t₁, i + 1) :: passes, t', free', chain', waiting', ?_, ?_, holds', ?_⟩
      · rw [if_pos more, scanPasses, moved]
        simp only [Option.bind_eq_bind, Option.bind_some, if_true]
        rw [show t₁.probeOffset (i + 1) = if i + 1 + 1 ≤ t₁.numNodes then i + 1 + 1 else 0 from rfl, run]
        rfl
      · simpa [none] using settled
      · simpa [here] using all
    | settles s some free₁ chain₁ waiting₁ settles =>
      have shorter : waiting.length = waiting₁.length + 1 := by simpa using settles.leaves.length_eq
      have room₁ : free₁ ≠ [] := by
        rw [← List.length_pos_iff, settles.room]
        exact List.length_pos_iff.2 room
      have nodes := settles.within.nodes
      have holds₁ := rule.settles layout holds some settles
      have onward : (if next = true then t₁.probeOffset (i + 1) else i + 1) =
          if (if next = true then i + 1 + 1 else i + 1) ≤ t₁.numNodes then
            (if next = true then i + 1 + 1 else i + 1) else 0 := by
        cases next
        · simp [nodes, more]
        · rfl
      obtain ⟨passes, t', free', chain', waiting', run, settled, holds', all⟩ :=
        ih settles.layout room₁ (by split <;> omega) holds₁ (by split <;> omega) (by split <;> omega)
      refine ⟨(t, i + 1) :: passes, t', free', chain', waiting', ?_, ?_, nodes ▸ holds', ?_⟩
      · rw [if_pos more, scanPasses, moved]
        simp only [Option.bind_eq_bind, Option.bind_some]
        rw [onward, run]
        rfl
      · simpa [some] using settles.settled.trans settled
      · simpa [here] using all

/-- The second scan: chains of heads only, and a head for every item that it has passed. -/
structure Heading (P : Params K V) (o : Nat) (t : Table K V d) (chain : Nat → List (Slot K V))
    (waiting : List (Slot K V)) : Prop where
  short : ∀ h ≤ t.numNodes, (chain h).length ≤ 1
  passed : ∀ e ∈ waiting, e.1 < o → chain (t.hashHead P e.2.1) ≠ []

theorem home_of_headTarget (layout : Layout P t free [] chain waiting)
    (le : t.hashHead P s.2.1 ≤ t.numNodes) (target : headTarget P t o = some s) :
    t.item o = some s.2 ∧ chain (t.hashHead P s.2.1) = [] := by
  rw [headTarget] at target
  split at target
  · obtain ⟨x, item, found⟩ := Option.bind_eq_some_iff.1 target
    dsimp only at found
    split at found
    · cases found
      refine ⟨item, layout.chain_of_empty le fun head => ?_⟩
      simp_all [Table.isRehashing, Table.isEmpty]
    · cases found
  · cases target

theorem Layout.headed_of_idle (layout : Layout P t free [] chain waiting)
    (short : ∀ h ≤ t.numNodes, (chain h).length ≤ 1) {e : Slot K V} (mem : e ∈ waiting)
    (none : headTarget P t e.1 = none) : chain (t.hashHead P e.2.1) ≠ [] := by
  obtain ⟨rehashing, item⟩ := layout.waits e mem
  have home : t.hashHead P e.2.1 ≤ t.numNodes := by
    have le := layout.waiting_le mem
    have pos := (layout.waiting_apart mem).1
    exact Table.hashHead_le (by omega) _
  simp only [headTarget, Table.isRehashing, rehashing, decide_true, if_true, item, Option.bind_eq_bind,
    Option.bind_some, Table.isEmpty] at none
  rcases layout.node_cases (Table.hashHead_pos _) home with free_ | held | ⟨s, waits, same⟩ | ⟨h, le, s, at_, same⟩
  · simp [layout.idle _ free_] at none
  · cases held
  · simp [← same, (layout.waits s waits).1] at none
  · have first : s.1 = h := by
      rcases layout.tag_of_mem le at_ with ⟨-, first⟩ | ⟨-, rest⟩
      · exact first
      · have length := short h le
        have more := List.length_pos_of_mem rest
        rw [List.length_tail] at more
        omega
    rw [← same, first]
    exact List.ne_nil_of_mem at_

theorem headRule : ScanRule P (Table.settleHead P) (headTarget P) (Heading (d := d) P)
    (Takes (Table.settleHead P) (headTarget P)) where
  seen layout _ moved pass := pass.takes layout moved
  pass layout _ pos le _ := layout.settleHead pos le
  idle := by
    intro t free chain waiting o layout pos le inv none
    refine ⟨inv.short, fun e mem lt => ?_⟩
    rcases Nat.lt_succ_iff_lt_or_eq.1 lt with lt | rfl
    · exact inv.passed e mem lt
    · exact layout.headed_of_idle inv.short mem none
  settles := by
    intro t free chain waiting o s next t' free' chain' waiting' layout inv target settles
    obtain ⟨item, vacant⟩ := home_of_headTarget layout settles.home target
    have nodes := settles.within.nodes
    refine ⟨fun h le => ?_, fun e mem lt => ?_⟩
    · rw [settles.joins, Function.update_apply]
      split
      · simp [vacant]
      · exact inv.short h (nodes ▸ le)
    · rw [Table.hashHead_congr nodes, settles.joins, Function.update_apply]
      split
      · simp
      · rcases settles.stays e mem with ⟨old, ne⟩ | ⟨rfl, rfl⟩
        · refine inv.passed e old ?_
          split at lt <;> omega
        · simp at lt

structure Probing (P : Params K V) (o : Nat) (t : Table K V d) (chain : Nat → List (Slot K V))
    (waiting : List (Slot K V)) : Prop where
  headed : ∀ e ∈ waiting, chain (t.hashHead P e.2.1) ≠ []
  ahead : ∀ e ∈ waiting, o ≤ e.1

def FallsBack (P : Params K V) (t : Table K V d) (prev : Nat) : Prop :=
  ∀ probe ∈ (t.offsetsFrom prev).takeWhile (Table.near P prev),
    ¬ (t.isEmpty probe || t.isRehashing probe) = true

theorem Layout.falls_back (layout : Layout P t free [] chain waiting) (room : free ≠ []) {prev : Nat}
    (falls : FallsBack P t prev) : t.probeNodeRehash P prev = t.prev 0 ∧
      t.probeNodeRehash P prev ≠ 0 ∧ t.isEmpty (t.probeNodeRehash P prev) := by
  have last : t.probeNodeRehash P prev = t.prev 0 := by
    rw [Table.probeNodeRehash, Table.probeWhere, List.find?_eq_none.2 falls, Option.getD_none]
  have mem := layout.ring.prev_root_mem_of_ne room
  refine ⟨last, ?_, ?_⟩
  · rw [last]
    have pos := layout.pos (o := t.prev 0) (by simp [mem])
    omega
  · rw [last]
    simpa [Table.isEmpty] using layout.idle _ mem

theorem probeRule : ScanRule P (Table.settleProbe P) (probeTarget P) (Probing (d := d) P)
    fun t o => Takes (Table.settleProbe P) (probeTarget P) t o ∧
      ∀ prev, FallsBack P t prev → t.probeNodeRehash P prev = t.prev 0 ∧
        t.probeNodeRehash P prev ≠ 0 ∧ t.isEmpty (t.probeNodeRehash P prev) where
  seen layout room moved pass := ⟨pass.takes layout moved, fun _ falls => layout.falls_back room falls⟩
  pass layout room pos le inv := layout.settleProbe room pos le inv.headed
  idle := by
    intro t free chain waiting o layout pos le inv none
    refine ⟨inv.headed, fun e mem => ?_⟩
    have ahead := inv.ahead e mem
    rcases Nat.eq_or_lt_of_le ahead with rfl | lt
    · obtain ⟨rehashing, item⟩ := layout.waits e mem
      obtain ⟨c, b, eq⟩ : ∃ c b, chain (t.hashHead P e.2.1) = c ++ [b] :=
        ⟨_, _, (List.dropLast_append_getLast (inv.headed e mem)).symm⟩
      have last := layout.chainEnd (Table.hashHead_le (by omega) e.2.1) eq
      simp [probeTarget, Table.isRehashing, rehashing, item, last] at none
    · exact lt
  settles := by
    intro t free chain waiting o s next t' free' chain' waiting' layout inv target settles
    have nodes := settles.within.nodes
    refine ⟨fun e mem => ?_, fun e mem => ?_⟩
    · rw [Table.hashHead_congr nodes, settles.joins, Function.update_apply]
      split
      · simp
      · have kept : e.2 ∈ waiting.map Prod.snd :=
          settles.leaves.mem_iff.2 (List.mem_cons_of_mem _ (List.mem_map_of_mem mem))
        obtain ⟨e', mem', same⟩ := List.mem_map.1 kept
        rw [← same]
        exact inv.headed e' mem'
    · rcases settles.stays e mem with ⟨old, ne⟩ | ⟨rfl, rfl⟩
      · have ahead := inv.ahead e old
        split <;> omega
      · simp

end Prpc.PoolHashTable
