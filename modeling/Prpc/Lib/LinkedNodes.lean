import Mathlib.Data.List.Chain
import Mathlib.Data.List.Nodup
import Mathlib.Logic.Function.Basic
import Mathlib.Logic.Relation

namespace Prpc.Lib

open Function (update update_self update_of_ne)

variable {α β : Type*} {next next' prev prev' : α → α} {root o : α}

def Linked (next prev : α → α) (l : List α) : Prop := l.IsChain fun a b => next a = b ∧ prev b = a

def Ring (next prev : α → α) (root : α) (l : List α) : Prop := Linked next prev (root :: l ++ [root])

variable {l : List α}

theorem Linked.congr (linked : Linked next prev l)
    (sameNext : ∀ a ∈ l.dropLast, next' a = next a) (samePrev : ∀ b ∈ l.tail, prev' b = prev b) :
    Linked next' prev' l := by
  induction l with
  | nil => exact .nil
  | cons a l ih =>
    cases l with
    | nil => exact .singleton a
    | cons b l =>
      obtain ⟨⟨forth, back⟩, rest⟩ := List.isChain_cons_cons.1 linked
      refine List.isChain_cons_cons.2 ⟨⟨?_, ?_⟩, ih rest (fun c mem => ?_) fun c mem => ?_⟩
      · rw [sameNext a (by simp), forth]
      · rw [samePrev b (by simp), back]
      · exact sameNext c (by simp only [List.dropLast_cons_cons]; exact List.mem_cons_of_mem _ mem)
      · exact samePrev c (List.mem_cons_of_mem _ mem)

theorem Ring.congr (ring : Ring next prev root l)
    (same : ∀ a ∈ root :: l, next' a = next a ∧ prev' a = prev a) : Ring next' prev' root l := by
  refine Linked.congr ring (fun a mem => ?_) fun a mem => ?_
  · rw [List.dropLast_concat] at mem
    exact (same a mem).1
  · rw [List.cons_append, List.tail_cons] at mem
    refine (same a ?_).2
    simpa [or_comm] using mem

theorem Ring.nil (forth : next root = root) (back : prev root = root) : Ring next prev root [] :=
  List.isChain_pair.2 ⟨forth, back⟩

theorem Ring.last (ring : Ring next prev root l) : ∃ init, root :: l = init ++ [prev root] := by
  obtain ⟨init, last, eq⟩ : ∃ init last, root :: l = init ++ [last] :=
    ⟨_, _, (List.dropLast_append_getLast (List.cons_ne_nil root l)).symm⟩
  rw [Ring, eq, Linked, List.append_assoc, List.singleton_append, List.isChain_append_cons_cons] at ring
  exact ⟨init, by rw [eq, ring.2.1.2]⟩

theorem Ring.prev_root_mem (ring : Ring next prev root l) : prev root ∈ root :: l := by
  obtain ⟨init, eq⟩ := ring.last
  rw [eq]
  simp

theorem Ring.prev_root_mem_of_ne (ring : Ring next prev root l) (ne : l ≠ []) : prev root ∈ l := by
  obtain ⟨init, eq⟩ := ring.last
  cases init with
  | nil =>
    rw [List.nil_append, List.cons.injEq] at eq
    exact absurd eq.2 ne
  | cons a init =>
    rw [List.cons_append, List.cons.injEq] at eq
    rw [eq.2]
    simp

theorem Ring.reverse (ring : Ring next prev root l) : Ring prev next root l.reverse := by
  have turned : root :: l.reverse ++ [root] = (root :: l ++ [root]).reverse := by simp
  rw [Ring, turned, Linked, List.isChain_reverse]
  refine List.IsChain.imp (fun a b link => ?_) ring
  exact ⟨link.2, link.1⟩

theorem Ring.prev_next (ring : Ring next prev root l) (mem : o ∈ root :: l) :
    next o ∈ root :: l ∧ prev (next o) = o := by
  obtain ⟨before, after, eq⟩ := List.append_of_mem mem
  obtain ⟨q, rest, right⟩ : ∃ q rest, after ++ [root] = q :: rest := List.exists_cons_of_ne_nil (by simp)
  have shape : root :: l ++ [root] = before ++ o :: q :: rest := by
    rw [eq, List.append_assoc, List.cons_append, right]
  rw [Ring, shape, Linked, List.isChain_append_cons_cons] at ring
  obtain ⟨-, ⟨forth, back⟩, -⟩ := ring
  have inside : q ∈ root :: l := by
    have found : q ∈ after ++ [root] := by rw [right]; simp
    rcases List.mem_append.1 found with found | found
    · rw [eq]
      simp [found]
    · simp [List.mem_singleton.1 found]
  rw [forth]
  exact ⟨inside, back⟩

theorem Ring.next_prev (ring : Ring next prev root l) (mem : o ∈ root :: l) :
    prev o ∈ root :: l ∧ next (prev o) = o := by
  have turned := ring.reverse.prev_next (o := o) (by simpa using mem)
  simpa using turned

variable [DecidableEq α]

theorem Ring.remove {before after : List α} (ring : Ring next prev root (before ++ o :: after))
    (nodup : (root :: (before ++ o :: after)).Nodup) :
    prev o ∈ root :: before ∧ next o ∈ after ++ [root] ∧
    Ring (update next (prev o) (next o)) (update prev (next o) (prev o)) root
      (before ++ after) := by
  obtain ⟨init, p, left⟩ : ∃ init p, root :: before = init ++ [p] :=
    ⟨_, _, (List.dropLast_append_getLast (List.cons_ne_nil root before)).symm⟩
  obtain ⟨q, rest, right⟩ : ∃ q rest, after ++ [root] = q :: rest := List.exists_cons_of_ne_nil (by simp)
  have shape : root :: (before ++ o :: after) ++ [root] = init ++ p :: o :: q :: rest :=
    calc root :: (before ++ o :: after) ++ [root] = root :: before ++ o :: (after ++ [root]) := by simp
      _ = init ++ p :: o :: q :: rest := by rw [left, right, List.append_assoc, List.singleton_append]
  have shape' : root :: (before ++ after) ++ [root] = init ++ p :: q :: rest :=
    calc root :: (before ++ after) ++ [root] = root :: before ++ (after ++ [root]) := by simp
      _ = init ++ p :: q :: rest := by rw [left, right, List.append_assoc, List.singleton_append]
  rw [Ring, shape, Linked, List.isChain_append_cons_cons, List.isChain_cons_cons] at ring
  obtain ⟨front, ⟨-, back⟩, ⟨forth, -⟩, rear⟩ := ring
  rw [back, forth]
  have distinct : (init ++ [p] ++ o :: after).Nodup := by
    rw [← left]
    exact nodup
  have distinct' : (before ++ o :: (q :: rest)).Nodup := by
    rw [← right]
    refine (List.Perm.nodup_iff ?_).1 nodup
    simpa using (List.perm_append_singleton root (before ++ o :: after)).symm
  refine ⟨by rw [left]; simp, by rw [right]; simp, ?_⟩
  rw [Ring, shape', Linked, List.isChain_append_cons_cons]
  refine ⟨Linked.congr front (fun a mem => ?_) fun b mem => ?_, ⟨by simp, by simp⟩,
    Linked.congr rear (fun a mem => ?_) fun b mem => ?_⟩
  · rw [List.dropLast_concat] at mem
    refine update_of_ne ?_ ..
    rintro rfl
    grind
  · rw [← left, List.tail_cons] at mem
    refine update_of_ne ?_ ..
    rintro rfl
    grind
  · rw [← right, List.dropLast_concat] at mem
    refine update_of_ne ?_ ..
    rintro rfl
    grind
  · rw [List.tail_cons] at mem
    refine update_of_ne ?_ ..
    rintro rfl
    grind

theorem Ring.push (ring : Ring next prev root l) (nodup : (root :: l).Nodup)
    (fresh : o ∉ root :: l) :
    Ring (update (update next o root) (prev root) o)
      (update (update prev o (prev root)) root o) root (l ++ [o]) := by
  obtain ⟨init, eq⟩ := ring.last
  generalize prev root = p at eq ⊢
  have shape : root :: l ++ [root] = init ++ p :: [root] := by rw [eq]; simp
  have shape' : root :: (l ++ [o]) ++ [root] = init ++ p :: o :: [root] := by
    rw [← List.cons_append, eq]
    simp
  rw [Ring, shape, Linked, List.isChain_append_cons_cons] at ring
  rw [Ring, shape', Linked, List.isChain_append_cons_cons, List.isChain_pair]
  have distinct : (init ++ [p]).Nodup := eq ▸ nodup
  have apart : o ∉ init ++ [p] := eq ▸ fresh
  have other : o ≠ root := fun same => fresh (by simp [same])
  refine ⟨Linked.congr ring.1 (fun a mem => ?_) fun b mem => ?_, ⟨by simp, by simp [other]⟩, ?_, by simp⟩
  · rw [List.dropLast_concat] at mem
    rw [update_of_ne, update_of_ne]
    · rintro rfl
      grind
    · rintro rfl
      grind
  · rw [← eq, List.tail_cons] at mem
    rw [update_of_ne, update_of_ne]
    · rintro rfl
      grind
    · rintro rfl
      grind
  · rw [update_of_ne, update_self]
    rintro rfl
    grind

theorem Ring.pushFront (ring : Ring next prev root l) (nodup : (root :: l).Nodup)
    (fresh : o ∉ root :: l) :
    Ring (update (update next o (next root)) root o)
      (update (update prev o root) (next root) o) root (o :: l) := by
  have nodup' : (root :: l.reverse).Nodup := by simpa using nodup
  have fresh' : o ∉ root :: l.reverse := by simpa using fresh
  simpa using (ring.reverse.push nodup' fresh').reverse

/-- From node `o` along `next` through the nodes of `c`, with their items, up to `stop`. -/
def Path (next : α → α) (item : α → Option β) : α → List (α × β) → α → Prop
  | o, [], stop => o = stop
  | o, s :: c, stop => o = s.1 ∧ item s.1 = some s.2 ∧ Path next item (next s.1) c stop

variable {item item' : α → Option β} {c d : List (α × β)} {s : α × β} {stop stop' : α}

omit [DecidableEq α] in
theorem Path.congr (path : Path next item o c stop)
    (same : ∀ s ∈ c, next' s.1 = next s.1 ∧ item' s.1 = item s.1) : Path next' item' o c stop := by
  induction c generalizing o with
  | nil => exact path
  | cons s c ih =>
    obtain ⟨at_, holds, rest⟩ := path
    obtain ⟨sameNext, sameItem⟩ := same s (List.mem_cons_self ..)
    refine ⟨at_, sameItem.trans holds, ?_⟩
    rw [sameNext]
    exact ih rest fun s mem => same s (List.mem_cons_of_mem _ mem)

omit [DecidableEq α] in
theorem path_append : Path next item o (c ++ d) stop ↔
    ∃ m, Path next item o c m ∧ Path next item m d stop := by
  induction c generalizing o with
  | nil => simp [Path]
  | cons s c ih =>
    simp only [List.cons_append, Path, ih]
    constructor
    · rintro ⟨at_, holds, m, first, second⟩
      exact ⟨m, ⟨at_, holds, first⟩, second⟩
    · rintro ⟨m, ⟨at_, holds, first⟩, second⟩
      exact ⟨at_, holds, m, first, second⟩

omit [DecidableEq α] in
theorem Path.item_eq (path : Path next item o c stop) (mem : s ∈ c) : item s.1 = some s.2 := by
  induction c generalizing o with
  | nil => cases mem
  | cons s' c ih =>
    rcases List.mem_cons.1 mem with rfl | mem
    · exact path.2.1
    · exact ih path.2.2 mem

theorem Path.redirect (path : Path next item o (c ++ [s]) stop)
    (nodup : ((c ++ [s]).map Prod.fst).Nodup) :
    Path (update next s.1 stop') item o (c ++ [s]) stop' := by
  obtain ⟨m, first, at_, holds, -⟩ := path_append.1 path
  refine path_append.2 ⟨m, first.congr fun s' mem => ⟨update_of_ne ?_ .., rfl⟩, at_, holds, update_self ..⟩
  intro same
  rw [List.map_append, List.nodup_append] at nodup
  exact nodup.2.2 s'.1 (List.mem_map_of_mem mem) s.1 (by simp) same

def Chain (next : α → Option α) : List α → Prop
  | [] => True
  | [a] => next a = none
  | a :: b :: l => next a = some b ∧ Chain next (b :: l)

section
variable {next next' : α → Option α} {l l' : List α} {a b : α}

omit [DecidableEq α] in
theorem Chain.congr (chain : Chain next l) (same : ∀ a ∈ l, next' a = next a) : Chain next' l := by
  induction l with
  | nil => trivial
  | cons a l ih =>
    cases l with
    | nil => exact (same a (List.mem_cons_self ..)).trans chain
    | cons b l =>
      exact ⟨(same a (List.mem_cons_self ..)).trans chain.1,
        ih chain.2 fun c mem => same c (List.mem_cons_of_mem _ mem)⟩

omit [DecidableEq α] in
theorem Chain.tail (chain : Chain next (a :: l)) : Chain next l := by
  cases l with
  | nil => trivial
  | cons b l => exact chain.2

omit [DecidableEq α] in
theorem Chain.of_append (chain : Chain next (l ++ l')) : Chain next l' := by
  induction l with
  | nil => exact chain
  | cons a l ih => exact ih chain.tail

omit [DecidableEq α] in
theorem Chain.next_eq (chain : Chain next (a :: l)) : next a = l.head? := by
  cases l with
  | nil => exact chain
  | cons b l => exact chain.1

theorem Chain.concat (chain : Chain next (l ++ [a])) (nodup : (l ++ [a]).Nodup) (fresh : b ∉ l ++ [a])
    (last : next b = none) : Chain (update next a (some b)) (l ++ [a] ++ [b]) := by
  induction l with
  | nil =>
    have ne : b ≠ a := by simpa using fresh
    exact ⟨update_self .., (update_of_ne ne ..).trans last⟩
  | cons c l ih =>
    obtain ⟨notMem, nodup⟩ := List.nodup_cons.1 nodup
    have ne : c ≠ a := by
      rintro rfl
      simp at notMem
    have rest := ih chain.tail nodup fun mem => fresh (List.mem_cons_of_mem _ mem)
    have head := chain.next_eq
    cases l with
    | nil => exact ⟨(update_of_ne ne ..).trans head, rest⟩
    | cons d l => exact ⟨(update_of_ne ne ..).trans head, rest⟩

omit [DecidableEq α] in
theorem Chain.reaches_iff (chain : Chain next (a :: l)) :
    Relation.ReflTransGen (fun a b => next a = some b) a b ↔ b ∈ a :: l := by
  induction l generalizing a with
  | nil =>
    rw [Relation.reflTransGen_iff_eq (by simp [chain.next_eq]), List.mem_singleton]
  | cons c l ih =>
    rw [Relation.ReflTransGen.cases_head_iff, List.mem_cons, ← ih chain.2]
    simp [chain.1, eq_comm]

end

end Prpc.Lib
