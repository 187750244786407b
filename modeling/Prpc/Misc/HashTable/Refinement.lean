import Prpc.Misc.HashTable.Iteration

namespace Prpc.HashTable
open Lib
open Function (update update_idem update_self update_of_ne)

variable {K V F : Type} [DecidableEq K] {P : Params K V F} {t t' : Table K V F}
  {chain : Nat → Chain K V} {m : Finmap fun _ : K => V}

omit [DecidableEq K] in
theorem View.clearBuckets {slack i k : Nat} (view : View t chain slack) (left : i + k = t.bucketCount)
    (size : t.size = (later t.bucketCount chain i).length) : ∃ news olds,
    t.clearBuckets k i = some { t with size := 0, newBuckets := news, oldBuckets := olds } ∧
    news.length = t.bucketCapacity := by
  induction k generalizing t chain i with
  | zero =>
    obtain rfl : i = t.bucketCount := by omega
    rw [later_end] at size
    refine ⟨t.newBuckets, t.oldBuckets, ?_, view.news⟩
    rw [Table.clearBuckets, ← show t.size = 0 from size]
  | succ k ih =>
    have lt : i < t.bucketCount := by omega
    rw [later_eq chain lt, List.length_append] at size
    obtain ⟨news, olds, set_, view₁⟩ := (view.withSize (t.size - (chain i).length)).setBucket lt []
    have rest : t.size - (chain i).length = (later t.bucketCount (update chain i []) (i + 1)).length := by
      rw [later_update (show i < i + 1 by omega)]
      omega
    obtain ⟨news', olds', cleared, length⟩ := ih view₁ (by simp only; omega) rest
    refine ⟨news', olds', ?_, length⟩
    simp [Table.clearBuckets, view.chains i lt,
      if_neg (show ¬ t.size < (chain i).length by omega), set_, cleared]

theorem Refines.clear (refines : Refines P t m chain) :
    ∃ t', t.clear = some t' ∧ Refines P t' ∅ fun _ => [] := by
  have pos := refines.pos
  have capacity := refines.capacity
  have size : t.size = (later t.bucketCount chain 0).length := by
    rw [later_zero]
    exact refines.size
  obtain ⟨news, olds, cleared, length⟩ := refines.toView.clearBuckets (Nat.zero_add _) size
  have inside : 0 < news.length := by omega
  refine ⟨{ t with
      size := 0, newBegin := 0, bucketCount := 1, newBuckets := news.set 0 (some []), mask := 0,
      oldBuckets := [] }, ?_,
    ⟨⟨Nat.one_pos, Nat.zero_le _, by simp only; omega, by simp only; omega, ?_, Nat.zero_le _,
      ⟨0, by simp⟩, fun i lt => ?_⟩, fun i lt e mem => ?_⟩, Lists.nil, rfl⟩
  · simp [Table.clear, cleared, Buckets.write_ok [] inside]
  · rwa [List.length_set]
  · obtain rfl : i = 0 := by simp only at lt; omega
    rw [Table.bucket, if_neg (by simp), Buckets.read_set _ inside, if_pos rfl]
  · simp at mem

theorem Refines.insertAll {es l : List (Entry K V)} {m' : Finmap fun _ : K => V}
    (refines : Refines P t m chain) (lists : Lists Entry.key Entry.value l m)
    (target : Lists Entry.key Entry.value (es ++ l) m') : ∃ t' chain',
    t.insertAll P es = some t' ∧ Refines P t' m' chain' := by
  induction es generalizing t chain m l with
  | nil =>
    obtain rfl := lists.unique target
    exact ⟨t, chain, rfl, refines⟩
  | cons e es ih =>
    have fresh : e.key ∉ m := by
      intro mem
      obtain ⟨e', mem', eq⟩ := lists.mem_iff.1 mem
      have nodup := target.nodup
      rw [List.cons_append, List.map_cons, List.nodup_cons] at nodup
      exact nodup.1 (List.mem_map.2 ⟨e', List.mem_append_right _ mem', eq⟩)
    obtain ⟨t₁, chain₁, inserted, refines₁⟩ := refines.insertEntry e.key e.value
    rw [if_neg fresh] at refines₁
    obtain ⟨t', chain', rest, refines'⟩ := ih refines₁ (lists.cons fresh)
      (target.perm List.perm_middle.symm)
    refine ⟨t', chain', ?_, refines'⟩
    rw [Table.insertAll, List.foldlM_cons, Table.insert, inserted]
    exact rest

/-- Tables and maps are known by a number. An iterator is the number of steps from `begin()`. -/
inductive Op (K V F : Type)
  | construct (i capacity : Nat)
  | copyConstruct (i other : Nat)
  | moveConstruct (i other : Nat)
  | insert (i : Nat) (key : K) (value : V)
  | emplace (i : Nat) (key : K) (value : V)
  | index (i : Nat) (key : K)
  | assign (i : Nat) (key : K) (value : V)
  | eraseKey (i : Nat) (key : K)
  | eraseIterator (i pos : Nat)
  | eraseRange (i first last : Nat)
  | clear (i : Nat)
  | swap (i other : Nat)
  | copyAssign (i other : Nat)
  | moveAssign (i other : Nat)
  | maxLoadFactor (i : Nat) (ml : F)

inductive Out
  | unit
  | inserted (yes : Bool)
  | erased (count : Nat)
  deriving DecidableEq

abbrev Tables (K V F : Type) := Nat → Option (Table K V F)
abbrev Maps (K V : Type) := Nat → Option (Finmap fun _ : K => V)

def Tables.modify (s : Tables K V F) (i : Nat) (f : Table K V F → Option (Table K V F × Out)) :
    Option (Tables K V F × Out) := do
  let (t, out) ← f (← s i)
  return (update s i (some t), out)

def Tables.swap (s : Tables K V F) (i j : Nat) : Option (Tables K V F) := do
  let t ← s i
  let other ← s j
  return update (update s i (some other)) j (some t)

def apply (P : Params K V F) (s : Tables K V F) : Op K V F → Option (Tables K V F × Out)
  | .construct i capacity => do
    return (update s i (some (← construct P capacity)), .unit)
  | .copyConstruct i other => do
    let es ← (← s other).entries
    return (update s i (some (← (← construct P 1).insertAll P es)), .unit)
  | .moveConstruct i other => do
    let s : Tables K V F := update s i (some (← construct P 1))
    return (← s.swap i other, .unit)
  | .insert i key value => s.modify i fun t => do
    let (t, yes) ← t.insert P key value
    return (t, .inserted yes)
  | .emplace i key value => s.modify i fun t => do
    let (t, yes) ← t.emplace P key value
    return (t, .inserted yes)
  | .index i key => s.modify i fun t => do return (← t.index P key, .unit)
  | .assign i key value => s.modify i fun t => do return (← t.assign P key value, .unit)
  | .eraseKey i key => s.modify i fun t => do
    let (t, count) ← t.eraseKey P key
    return (t, .erased count)
  | .eraseIterator i pos => s.modify i fun t => do
    return (← t.eraseIterator P (← t.iterator pos), .unit)
  | .eraseRange i first last => s.modify i fun t => do
    return (← t.eraseRange P t.size (← t.iterator first) (← t.iterator last), .unit)
  | .clear i => s.modify i fun t => do return (← t.clear, .unit)
  | .swap i other => do return (← s.swap i other, .unit)
  | .copyAssign i other => do
    -- `other` may be this table, and is then read after the `clear`.
    let t ← (← s i).clear
    let s := update s i (some t)
    let es ← (← s other).entries
    return (update s i (some (← t.insertAll P es)), .unit)
  | .moveAssign i other => do
    let s : Tables K V F := update s i (some (← (← s i).clear))
    let s ← s.swap i other
    return (update s other (some (← construct P 1)), .unit)
  | .maxLoadFactor i ml => s.modify i fun t => some ({ t with maxLoadFactor := ml }, .unit)

def Maps.modify (s : Maps K V) (i : Nat) (f : Finmap (fun _ : K => V) → Finmap (fun _ : K => V) × Out) :
    Maps K V × Out :=
  match s i with
  | none => (s, .unit)
  | some m => (update s i (some (f m).1), (f m).2)

def refer (P : Params K V F) (order : Nat → List K) (s : Maps K V) : Op K V F → Maps K V × Out
  | .construct i _ => (update s i (some ∅), .unit)
  | .copyConstruct i other => (update s i (s other), .unit)
  | .moveConstruct i other =>
    (update (update s i (s other)) other (some ∅), .unit)
  | .insert i key value | .emplace i key value => s.modify i fun m =>
    (if key ∈ m then m else m.insert key value, .inserted (decide (key ∉ m)))
  | .index i key => s.modify i fun m => (if key ∈ m then m else m.insert key P.value, .unit)
  | .assign i key value => s.modify i fun m => (m.insert key value, .unit)
  | .eraseKey i key => s.modify i fun m => (m.erase key, .erased (if key ∈ m then 1 else 0))
  | .eraseIterator i pos => s.modify i fun m =>
    ((((order i).drop pos).take 1).foldl (fun m k => m.erase k) m, .unit)
  | .eraseRange i first last => s.modify i fun m =>
    ((((order i).drop first).take (last - first)).foldl (fun m k => m.erase k) m, .unit)
  | .clear i => s.modify i fun _ => (∅, .unit)
  | .swap i other => (update (update s i (s other)) other (s i), .unit)
  | .copyAssign i other => (update s i (s other), .unit)
  | .moveAssign i other =>
    (update (update s i (s other)) other (some ∅), .unit)
  | .maxLoadFactor i _ => s.modify i fun m => (m, .unit)

/-- What the caller has to see to: a table is constructed once and before it is used, with room for
a bucket, and iterators are valid. -/
def Legal (s : Maps K V) : Op K V F → Prop
  | .construct i capacity => s i = none ∧ 1 ≤ capacity
  | .copyConstruct i other | .moveConstruct i other => s i = none ∧ s other ≠ none
  | .insert i _ _ | .emplace i _ _ | .index i _ | .assign i _ _ | .eraseKey i _ | .clear i
  | .maxLoadFactor i _ => s i ≠ none
  | .eraseIterator i pos => ∃ m, s i = some m ∧ pos < m.keys.card
  | .eraseRange i first last => ∃ m, s i = some m ∧ first ≤ last ∧ last ≤ m.keys.card
  | .swap i other | .copyAssign i other | .moveAssign i other => s i ≠ none ∧ s other ≠ none

def NoSelfCopy (s : Maps K V) : Op K V F → Prop
  | .copyAssign i other => i = other → s i = some ∅
  | _ => True

def iterationOrder (s : Tables K V F) (i : Nat) : List K := (((s i).bind Table.entries).getD []).map Entry.key

inductive TableStep (P : Params K V F) (allowed : Maps K V → Op K V F → Prop) :
    Tables K V F × Maps K V → Tables K V F × Maps K V → Prop
  | op {s s' : Tables K V F} {r : Maps K V} {out : Out} (op : Op K V F) (legal : Legal r op)
      (guard : allowed r op) (applied : apply P s op = some (s', out)) :
      TableStep P allowed (s, r) (s', (refer P (iterationOrder s) r op).1)

abbrev TableReachable (P : Params K V F) (allowed : Maps K V → Op K V F → Prop) :
    Tables K V F × Maps K V → Prop :=
  Reachable (· = (fun _ => none, fun _ => none)) (TableStep P allowed)

def Sim (P : Params K V F) (s : Tables K V F) (r : Maps K V) : Prop :=
  ∀ i, s i = none ∧ r i = none ∨ ∃ t m chain, s i = some t ∧ r i = some m ∧ Refines P t m chain

variable {s s' : Tables K V F} {r : Maps K V} {i : Nat}

theorem Sim.get (sim : Sim P s r) (built : r i ≠ none) :
    ∃ t m chain, s i = some t ∧ r i = some m ∧ Refines P t m chain :=
  (sim i).resolve_left fun h => built h.2

theorem Sim.put (sim : Sim P s r) (refines : Refines P t m chain) :
    Sim P (update s i (some t)) (update r i (some m)) := by
  intro j
  by_cases eq : j = i
  · subst eq
    exact .inr ⟨t, m, chain, update_self .., update_self .., refines⟩
  · rw [update_of_ne eq, update_of_ne eq]
    exact sim j

theorem Sim.modify (sim : Sim P s r) (built : r i ≠ none)
    {f : Table K V F → Option (Table K V F × Out)}
    {g : Finmap (fun _ : K => V) → Finmap (fun _ : K => V) × Out}
    (follows : ∀ t m chain, s i = some t → r i = some m → Refines P t m chain → ∃ t' chain',
      f t = some (t', (g m).2) ∧ Refines P t' (g m).1 chain') :
    ∃ s', s.modify i f = some (s', (r.modify i g).2) ∧ Sim P s' (r.modify i g).1 := by
  obtain ⟨t, m, chain, ht, hm, refines⟩ := sim.get built
  obtain ⟨t', chain', eq, refines'⟩ := follows t m chain ht hm refines
  refine ⟨update s i (some t'), ?_, ?_⟩
  · simp [Tables.modify, Maps.modify, ht, hm, eq]
  · simp only [Maps.modify, hm]
    exact sim.put refines'

theorem Sim.order (refines : Refines P t m chain) (ht : s i = some t) :
    iterationOrder s i = (contents t chain).map Entry.key := by
  rw [iterationOrder, ht, Option.bind_some, refines.entries, Option.getD_some]

theorem Sim.construct (sim : Sim P s r) (i : Nat) {capacity : Nat} (pos : 0 < capacity) :
    ∃ t, HashTable.construct P capacity = some t ∧ Sim P (update s i (some t)) (update r i (some ∅)) := by
  obtain ⟨t, eq, refines⟩ := construct_refines P pos
  exact ⟨t, eq, sim.put refines⟩

theorem Sim.swap (sim : Sim P s r) {i j : Nat} (hi : r i ≠ none) (hj : r j ≠ none) :
    ∃ s', s.swap i j = some s' ∧ Sim P s' (update (update r i (r j)) j (r i)) := by
  obtain ⟨t, m, chain, ht, hm, refines⟩ := sim.get hi
  obtain ⟨t', m', chain', ht', hm', refines'⟩ := sim.get hj
  refine ⟨update (update s i (some t')) j (some t), ?_, ?_⟩
  · simp [Tables.swap, ht, ht']
  · rw [hm, hm']
    exact (sim.put refines').put refines

theorem Sim.copy (sim : Sim P s r) {t₀ : Table K V F} (refines : Refines P t₀ ∅ chain) {i j : Nat}
    (built : r j ≠ none) : ∃ t es t', s j = some t ∧ t.entries = some es ∧
      t₀.insertAll P es = some t' ∧ Sim P (update s i (some t')) (update r i (r j)) := by
  obtain ⟨t, m, chain', ht, hm, refines'⟩ := sim.get built
  have target : Lists Entry.key Entry.value (contents t chain' ++ []) m := by
    rw [List.append_nil]
    exact refines'.lists
  obtain ⟨t', chain'', inserted, refines''⟩ := refines.insertAll Lists.nil target
  refine ⟨t, _, t', ht, refines'.entries, inserted, ?_⟩
  rw [hm]
  exact sim.put refines''

theorem Refines.eraseSlice (refines : Refines P t m chain) {first last : Nat} (le : first ≤ last)
    (le' : last ≤ m.keys.card) : ∃ it it' t' chain', t.iterator first = some it ∧
    t.iterator last = some it' ∧ t.eraseRange P t.size it it' = some t' ∧
    Refines P t' (((((contents t chain).map Entry.key).drop first).take (last - first)).foldl
      (fun m k => m.erase k) m) chain' := by
  rw [← refines.lists.length] at le'
  obtain ⟨it, eq, at_⟩ := refines.toHolds.iterator (le.trans le')
  obtain ⟨it', eq', at'⟩ := refines.toHolds.iterator le'
  have cut : (contents t chain).drop first =
      ((contents t chain).drop first).take (last - first) ++ (contents t chain).drop last := by
    conv_lhs => rw [← List.take_append_drop (last - first) ((contents t chain).drop first)]
    rw [List.drop_drop, Nat.add_sub_cancel' le]
  rw [cut] at at_
  have enough : (((contents t chain).drop first).take (last - first)).length ≤ t.size := by
    rw [refines.size, List.length_take, List.length_drop]
    omega
  obtain ⟨t', chain', erased, refines'⟩ := refines.eraseRange at_ at'.head enough
  refine ⟨it, it', t', chain', eq, eq', erased, ?_⟩
  rwa [List.map_take, List.map_drop] at refines'

theorem Sim.apply (sim : Sim P s r) {op : Op K V F} (legal : Legal r op) (guard : NoSelfCopy r op) :
    ∃ s', apply P s op = some (s', (refer P (iterationOrder s) r op).2) ∧
      Sim P s' (refer P (iterationOrder s) r op).1 := by
  cases op with
  | construct i capacity =>
    obtain ⟨t, eq, sim'⟩ := sim.construct i legal.2
    refine ⟨_, ?_, sim'⟩
    simp [HashTable.apply, eq, refer]
  | copyConstruct i other =>
    obtain ⟨t₀, built, refines⟩ := construct_refines P Nat.one_pos
    obtain ⟨t, es, t', ht, entries, inserted, sim'⟩ := sim.copy refines (i := i) legal.2
    refine ⟨_, ?_, sim'⟩
    simp [HashTable.apply, ht, entries, built, inserted, refer]
  | moveConstruct i other =>
    obtain ⟨t₀, built, sim₁⟩ := sim.construct i Nat.one_pos
    have ne : other ≠ i := fun eq => legal.2 (eq ▸ legal.1)
    have kept : update r i (some ∅) other = r other := update_of_ne ne ..
    obtain ⟨s', swapped, sim'⟩ := sim₁.swap (i := i) (j := other)
      (by simp only [update_self]; exact nofun) (kept ▸ legal.2)
    rw [kept, update_self, update_idem] at sim'
    refine ⟨s', ?_, sim'⟩
    simp [HashTable.apply, built, swapped, refer]
  | insert i key value =>
    refine sim.modify legal fun t m chain _ _ refines => ?_
    obtain ⟨t', chain', inserted, refines'⟩ := refines.insertEntry key value
    refine ⟨t', chain', ?_, refines'⟩
    simp [Table.insert, inserted]
  | emplace i key value =>
    refine sim.modify legal fun t m chain _ _ refines => ?_
    obtain ⟨t', chain', inserted, refines'⟩ := refines.insertEntry key value
    refine ⟨t', chain', ?_, refines'⟩
    simp [Table.emplace, inserted]
  | index i key =>
    refine sim.modify legal fun t m chain _ _ refines => ?_
    obtain ⟨t', chain', inserted, refines'⟩ := refines.insertEntry key P.value
    refine ⟨t', chain', ?_, refines'⟩
    simp [Table.index, inserted]
  | assign i key value =>
    refine sim.modify legal fun t m chain _ _ refines => ?_
    obtain ⟨t', chain', assigned, refines'⟩ := refines.assign key value
    refine ⟨t', chain', ?_, refines'⟩
    simp [assigned]
  | eraseKey i key =>
    refine sim.modify legal fun t m chain _ _ refines => ?_
    obtain ⟨t', chain', erased, refines'⟩ := refines.eraseKey key
    refine ⟨t', chain', ?_, refines'⟩
    simp [erased]
  | eraseIterator i pos =>
    obtain ⟨m₀, hm₀, lt⟩ := legal
    refine sim.modify (by simp [hm₀]) fun t m chain ht hm refines => ?_
    obtain rfl : m₀ = m := Option.some.inj (hm₀.symm.trans hm)
    rw [← refines.lists.length] at lt
    obtain ⟨it, eq, at_⟩ := refines.toHolds.iterator lt.le
    rw [List.drop_eq_getElem_cons lt] at at_
    obtain ⟨t', chain', first, -, erased, refines', -⟩ := refines.eraseIterator at_
    refine ⟨t', chain', ?_, ?_⟩
    · simp [eq, erased]
    · rw [Sim.order refines ht, ← List.map_drop, List.drop_eq_getElem_cons lt]
      exact refines'
  | eraseRange i first last =>
    obtain ⟨m₀, hm₀, le, le'⟩ := legal
    refine sim.modify (by simp [hm₀]) fun t m chain ht hm refines => ?_
    obtain rfl : m₀ = m := Option.some.inj (hm₀.symm.trans hm)
    obtain ⟨it, it', t', chain', eq, eq', erased, refines'⟩ := refines.eraseSlice le le'
    refine ⟨t', chain', ?_, ?_⟩
    · simp [eq, eq', erased]
    · rwa [Sim.order refines ht]
  | clear i =>
    refine sim.modify legal fun t m chain _ _ refines => ?_
    obtain ⟨t', cleared, refines'⟩ := refines.clear
    refine ⟨t', _, ?_, refines'⟩
    simp [cleared]
  | swap i other =>
    obtain ⟨s', swapped, sim'⟩ := sim.swap legal.1 legal.2
    refine ⟨s', ?_, sim'⟩
    simp [HashTable.apply, swapped, refer]
  | copyAssign i other =>
    obtain ⟨t, m, chain, ht, hm, refines⟩ := sim.get legal.1
    obtain ⟨t₀, cleared, refines₀⟩ := refines.clear
    have sim₁ := sim.put (i := i) refines₀
    have same : update r i (some ∅) other = r other := by
      by_cases eq : other = i
      · subst eq
        rw [update_self, guard rfl]
      · exact update_of_ne eq ..
    obtain ⟨t', es, t'', ht', entries, inserted, sim'⟩ :=
      sim₁.copy refines₀ (i := i) (j := other) (by rw [same]; exact legal.2)
    rw [same, update_idem, update_idem] at sim'
    refine ⟨_, ?_, sim'⟩
    simp [HashTable.apply, ht, cleared, ht', entries, inserted, refer]
  | moveAssign i other =>
    obtain ⟨t, m, chain, ht, hm, refines⟩ := sim.get legal.1
    obtain ⟨t₀, cleared, refines₀⟩ := refines.clear
    have sim₁ := sim.put (i := i) refines₀
    have built : update r i (some ∅) other ≠ none := by
      by_cases eq : other = i
      · subst eq
        simp
      · rw [update_of_ne eq]
        exact legal.2
    obtain ⟨s₂, swapped, sim₂⟩ := sim₁.swap (i := i) (by simp) built
    obtain ⟨t₁, constructed, sim'⟩ := sim₂.construct other Nat.one_pos
    have same : update (update (update (update r i (some ∅)) i
        (update r i (some ∅) other)) other (update r i (some ∅) i)) other
        (some ∅) = update (update r i (r other)) other (some ∅) := by
      rw [update_idem, update_idem]
      by_cases eq : other = i
      · subst eq
        rw [update_idem, update_idem]
      · rw [update_of_ne eq]
    rw [same] at sim'
    refine ⟨_, ?_, sim'⟩
    simp [HashTable.apply, ht, cleared, swapped, constructed, refer]
  | maxLoadFactor i ml =>
    exact sim.modify legal fun t m chain _ _ refines => ⟨{ t with maxLoadFactor := ml }, chain, rfl,
      ⟨⟨⟨refines.pos, refines.migrated, refines.room, refines.capacity, refines.news, refines.olds,
        refines.mask, refines.chains⟩, refines.placed⟩, refines.lists, refines.size⟩⟩

theorem Sim.step {x y : Tables K V F × Maps K V} (sim : Sim P x.1 x.2) (step : TableStep P NoSelfCopy x y) :
    Sim P y.1 y.2 := by
  obtain ⟨op, legal, guard, applied⟩ := step
  obtain ⟨s', eq, sim'⟩ := sim.apply legal guard
  rw [eq] at applied
  cases applied
  exact sim'

theorem sim_reachable {x : Tables K V F × Maps K V} (reachable : TableReachable P NoSelfCopy x) :
    Sim P x.1 x.2 := by
  refine Reachable.invariant (fun x => Sim P x.1 x.2) ?_ (fun x y sim step => sim.step step) reachable
  rintro x rfl i
  exact .inl ⟨rfl, rfl⟩

structure Shows (P : Params K V F) (t : Table K V F) (m : Finmap fun _ : K => V) : Prop where
  placed : ∀ i < t.bucketCount, ∃ c, t.bucket i = some c ∧
    ∀ e ∈ c, e.hashCode = P.hash e.key ∧ t.hashToBucket e.hashCode = i
  iteration : ∃ es, t.entries = some es ∧ (es.map Entry.key).Nodup ∧
    (∀ e, e ∈ es ↔ ∃ i < t.bucketCount, ∃ c, t.bucket i = some c ∧ e ∈ c) ∧
    (∀ k v, m.lookup k = some v ↔ ∃ e ∈ es, e.key = k ∧ e.value = v) ∧ t.size = es.length
  size : t.size = m.keys.card
  find : ∀ k, ∃ it, t.find P k = some it ∧ it.head?.map Entry.value = m.lookup k ∧ ∀ e ∈ it.head?, e.key = k
  at_ : ∀ k, t.at? P k = some (m.lookup k)

theorem Refines.shows (refines : Refines P t m chain) : Shows P t m where
  placed i lt := ⟨chain i, refines.chains i lt, refines.placed i lt⟩
  iteration := by
    refine ⟨_, refines.entries, refines.lists.nodup, fun e => ?_, refines.lists.lookup, refines.size⟩
    constructor
    · intro mem
      obtain ⟨i, lt, mem⟩ := mem_inChains.1 mem
      exact ⟨i, lt, chain i, refines.chains i lt, mem⟩
    · rintro ⟨i, lt, c, bucket, mem⟩
      obtain rfl : chain i = c := Option.some.inj ((refines.chains i lt).symm.trans bucket)
      exact mem_inChains.2 ⟨i, lt, mem⟩
  size := refines.size.trans refines.lists.length
  find k := by
    obtain ⟨it, eq, value, -, key⟩ := refines.findEntry k
    exact ⟨it, eq, value, key⟩
  at_ k := by
    obtain ⟨it, eq, value, -, -⟩ := refines.findEntry k
    simp [Table.at?, eq, value]

/-- In every program that assigns no filled table to itself, each table shows its map, and the next
operation goes through and returns what it returns on the maps. -/
theorem tables_refine_maps (P : Params K V F) {s : Tables K V F} {r : Maps K V}
    (reachable : TableReachable P NoSelfCopy (s, r)) :
    (∀ i, s i = none ∧ r i = none ∨ ∃ t m, s i = some t ∧ r i = some m ∧ Shows P t m) ∧
    ∀ op, Legal r op → NoSelfCopy r op → ∃ s',
      apply P s op = some (s', (refer P (iterationOrder s) r op).2) := by
  have sim : Sim P s r := sim_reachable reachable
  constructor
  · intro i
    rcases sim i with unbuilt | ⟨t, m, chain, ht, hm, refines⟩
    · exact .inl unbuilt
    · exact .inr ⟨t, m, ht, hm, refines.shows⟩
  · intro op legal guard
    obtain ⟨s', applied, -⟩ := sim.apply legal guard
    exact ⟨s', applied⟩

def plainParams : Params Nat Nat Unit := ⟨id, fun size _ count => decide (count < size), (), 0⟩

theorem reachable_one (allowed : Maps Nat Nat → Op Nat Nat Unit → Prop)
    (construct : allowed (fun _ => none) (.construct 0 1))
    (insert : ∀ r, allowed r (.insert 0 7 1)) : ∃ s r t m,
    TableReachable plainParams allowed (s, r) ∧ s 0 = some t ∧ r 0 = some m ∧
    t.clear = some ⟨0, 0, 1, 1, 0, (), [some []], []⟩ ∧ m = (∅ : Finmap fun _ : Nat => Nat).insert 7 1 := by
  have first : TableReachable plainParams allowed (_, _) :=
    .next (.initial rfl) (.op (.construct 0 1) ⟨rfl, le_refl 1⟩ construct rfl)
  have second : TableReachable plainParams allowed (_, _) :=
    .next first (.op (.insert 0 7 1) (by simp [Legal, refer]) (insert _) rfl)
  exact ⟨_, _, _, _, second, rfl, rfl, rfl, rfl⟩

theorem self_copy_loses : ∃ s r t m,
    TableReachable plainParams (fun _ _ => True) (s, r) ∧ s 0 = some t ∧ r 0 = some m ∧
    t.find plainParams 7 = some [] ∧ t.size = 0 ∧ m.lookup 7 = some 1 := by
  obtain ⟨s, r, t, m, reachable, ht, hm, cleared, eq⟩ :=
    reachable_one (fun _ _ => True) trivial fun _ => trivial
  have copied : apply plainParams s (.copyAssign 0 0) =
      some (update (update s 0 (some ⟨0, 0, 1, 1, 0, (), [some []], []⟩)) 0
        (some ⟨0, 0, 1, 1, 0, (), [some []], []⟩), .unit) := by
    simp only [apply, ht, cleared, Option.bind_eq_bind, Option.bind_some, update_self]
    rfl
  refine ⟨_, _, _, m, reachable.next (.op (.copyAssign 0 0) ⟨by simp [hm], by simp [hm]⟩ trivial copied),
    update_self .., ?_, rfl, rfl, ?_⟩
  · simp [refer, hm]
  · rw [eq, Finmap.lookup_insert]

theorem tables_refine_maps_one : ∃ s r t m,
    TableReachable plainParams NoSelfCopy (s, r) ∧ s 0 = some t ∧ r 0 = some m ∧
    m.lookup 7 = some 1 ∧ Shows plainParams t m := by
  obtain ⟨s, r, t, m, reachable, ht, hm, -, eq⟩ := reachable_one NoSelfCopy trivial fun _ => trivial
  refine ⟨s, r, t, m, reachable, ht, hm, by rw [eq, Finmap.lookup_insert], ?_⟩
  rcases (tables_refine_maps plainParams reachable).1 0 with ⟨unbuilt, -⟩ | ⟨t', m', ht', hm', shows⟩
  · simp [ht] at unbuilt
  · obtain rfl : t = t' := Option.some.inj (ht.symm.trans ht')
    obtain rfl : m = m' := Option.some.inj (hm.symm.trans hm')
    exact shows

end Prpc.HashTable
