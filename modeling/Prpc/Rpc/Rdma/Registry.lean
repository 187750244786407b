import Mathlib.Order.Interval.Finset.Nat
import Prpc.Lib.Spans
import Prpc.Lib.Transition

/-!
`RdmaContext::get`, `insert` and `remove`, which hold `_lock` for their whole length. Registering and
deregistering with the verbs layer succeeds.
-/

namespace Prpc.Rdma
open Lib Function

structure Mr where
  start : Nat
  len : Nat
  cnt : Nat
  deriving DecidableEq

structure Context where
  initialized : Bool
  mp : List Mr

/-- The arguments of a call: bytes that end within the address space. -/
structure Range where
  start : Nat
  len : Nat
  fits : start + len < wordSpace

def Range.bytes (r : Range) : Finset Nat := .Ico r.start (r.start + r.len)

def Mr.bytes (mr : Mr) : Finset Nat := .Ico mr.start (mr.start + mr.len)

def Mr.Contains (mr : Mr) (r : Range) : Prop := mr.start ≤ r.start ∧ r.start + r.len ≤ mr.start + mr.len

def insertMr (new : Mr) : List Mr → List Mr
  | [] => [new]
  | mr :: mp =>
    if new.start < mr.start then mr :: insertMr new mp
    else if new.start = mr.start then mr :: mp
    else new :: mr :: mp

namespace Context

/-- `none` is a failed check and `some none` the null pointer. -/
def get (c : Context) (r : Range) : Option (Option Mr) :=
  if !c.initialized then some none
  else if c.mp = [] then some none
  else
    -- the keys are in descending order, so that `lower_bound` finds the greatest one up to the start
    match c.mp.find? (·.start ≤ r.start) with
    | none => some none
    | some ret =>
      if ret.start ≤ r.start then
        some (if address r.start r.len ≤ address ret.start ret.len then some ret else none)
      else none

def insert (c : Context) (r : Range) : Context :=
  if !c.initialized then c else { c with mp := insertMr ⟨r.start, r.len, r.len⟩ c.mp }

def remove (c : Context) (r : Range) : Option (Bool × Option (Nat × Nat) × Context) :=
  if !c.initialized then some (true, none, c)
  else
    match c.get r with
    | none | some none => none
    | some (some mr) =>
      let cnt := address mr.cnt (wordSpace - r.len)
      if cnt = 0 then
        some (true, some (mr.start, mr.len), { c with mp := c.mp.filter (·.start ≠ mr.start) })
      else
        some (false, none,
          { c with mp := c.mp.map fun m => if m.start = mr.start then { m with cnt := cnt } else m })

def regions (c : Context) : List (Nat × Nat) := c.mp.map fun mr => (mr.start, mr.len)

end Context

/-- For each registered region, by its start, the bytes that were not yet removed. -/
structure Registry where
  context : Context
  left : Nat → Finset Nat

inductive Registry.Step : Registry → Registry → Prop
  | insert {s : Registry} (r : Range) (nonempty : 0 < r.len)
    (disjoint : ∀ mr ∈ s.context.mp, Disjoint mr.bytes r.bytes) :
    Step s ⟨s.context.insert r, update s.left r.start r.bytes⟩
  | remove {s : Registry} {r : Range} {mr : Mr} {released : Bool} {out : Option (Nat × Nat)}
    {context : Context} (registered : mr ∈ s.context.mp) (inside : mr.Contains r)
    (unremoved : r.bytes ⊆ s.left mr.start)
    (removed : s.context.remove r = some (released, out, context)) :
    Step s ⟨context, update s.left mr.start (s.left mr.start \ r.bytes)⟩

abbrev RegistryReachable : Registry → Prop := Reachable (fun s => s.context = ⟨true, []⟩) Registry.Step

variable {mp : List Mr}

theorem insertMr_mem {new : Mr} (fresh : ∀ mr ∈ mp, mr.start ≠ new.start) (x : Mr) :
    x ∈ insertMr new mp ↔ x = new ∨ x ∈ mp := by
  induction mp with
  | nil => simp [insertMr]
  | cons mr mp ih =>
    have others := ih fun mr mem => fresh mr (List.mem_cons_of_mem _ mem)
    rw [insertMr]
    split
    · rw [List.mem_cons, others, List.mem_cons]
      exact or_left_comm
    · rw [if_neg (fresh mr (List.mem_cons_self ..)).symm, List.mem_cons]

def Descending (mp : List Mr) : Prop := mp.Pairwise fun a b => b.start + b.len ≤ a.start

theorem Descending.insertMr {new : Mr} (sorted : Descending mp)
    (apart : ∀ mr ∈ mp, new.start + new.len ≤ mr.start ∨ mr.start + mr.len ≤ new.start)
    (fresh : ∀ mr ∈ mp, mr.start ≠ new.start) : Descending (insertMr new mp) := by
  induction mp with
  | nil => exact List.pairwise_singleton ..
  | cons mr mp ih =>
    obtain ⟨first, rest⟩ := List.pairwise_cons.1 sorted
    have freshRest := fun mr mem => fresh mr (List.mem_cons_of_mem _ mem)
    have head := apart mr (List.mem_cons_self ..)
    have ne := fresh mr (List.mem_cons_self ..)
    rw [Rdma.insertMr]
    split
    · refine List.pairwise_cons.2 ⟨fun x mem => ?_,
        ih rest (fun mr mem => apart mr (List.mem_cons_of_mem _ mem)) freshRest⟩
      rcases (insertMr_mem freshRest x).1 mem with rfl | mem
      · omega
      · exact first x mem
    · rw [if_neg ne.symm]
      refine List.pairwise_cons.2 ⟨fun x mem => ?_, sorted⟩
      rcases List.mem_cons.1 mem with rfl | mem
      · omega
      · have := first x mem
        omega

theorem Descending.find (sorted : Descending mp) {p : Nat} {ret : Mr}
    (found : mp.find? (·.start ≤ p) = some ret) :
    ret ∈ mp ∧ ret.start ≤ p ∧ ∀ mr ∈ mp, mr.start ≤ p → mr = ret ∨ mr.start + mr.len ≤ ret.start := by
  obtain ⟨le, before, after, rfl, fails⟩ := List.find?_eq_some_iff_append.1 found
  refine ⟨by simp, by simpa using le, fun mr mem below => ?_⟩
  rcases List.mem_append.1 mem with mem | mem
  · have above := fails mr mem
    simp only [Bool.not_eq_true', decide_eq_false_iff_not] at above
    exact absurd below above
  rcases List.mem_cons.1 mem with rfl | mem
  · exact .inl rfl
  · exact .inr ((List.pairwise_cons.1 (List.pairwise_append.1 sorted).2.1).1 mr mem)

structure Registry.Inv (s : Registry) : Prop where
  initialized : s.context.initialized = true
  sorted : Descending s.context.mp
  fits : ∀ mr ∈ s.context.mp, 0 < mr.len ∧ mr.start + mr.len < wordSpace
  count : ∀ mr ∈ s.context.mp, mr.cnt = (s.left mr.start).card
  left : ∀ mr ∈ s.context.mp, (s.left mr.start).Nonempty ∧ s.left mr.start ⊆ mr.bytes

section
variable {s s' : Registry} (inv : s.Inv) (r : Range)

theorem Range.card_bytes : r.bytes.card = r.len := by
  rw [Range.bytes, Nat.card_Ico, Nat.add_sub_cancel_left]

include inv

theorem Registry.Inv.eq_of_start {a b : Mr} (memA : a ∈ s.context.mp) (memB : b ∈ s.context.mp)
    (same : a.start = b.start) : a = b := by
  have eq_found {x ret : Mr} (mem : x ∈ s.context.mp)
      (found : s.context.mp.find? (·.start ≤ x.start) = some ret) : x = ret := by
    obtain ⟨-, below, greatest⟩ := inv.sorted.find found
    have := (inv.fits x mem).1
    rcases greatest x mem (Nat.le_refl _) with eq | before
    · exact eq
    · omega
  cases found : s.context.mp.find? (·.start ≤ a.start) with
  | none => exact absurd (List.find?_eq_none.1 found a memA) (by simp)
  | some ret => rw [eq_found memA found, eq_found memB (same ▸ found)]

variable {mr : Mr}

theorem Registry.Inv.get_of_contains (mem : mr ∈ s.context.mp) (inside : mr.Contains r) :
    ∃ ret ∈ s.context.mp, s.context.get r = some (some ret) ∧ ret.Contains r ∧ (ret = mr ∨ r.len = 0) := by
  cases found : s.context.mp.find? (·.start ≤ r.start) with
  | none =>
    have none := List.find?_eq_none.1 found mr mem
    exact absurd inside.1 (by simpa using none)
  | some ret =>
    obtain ⟨retMem, below, greatest⟩ := inv.sorted.find found
    have fits := (inv.fits ret retMem).2
    have shape : ret.Contains r ∧ (ret = mr ∨ r.len = 0) := by
      rcases greatest mr mem inside.1 with rfl | before
      · exact ⟨inside, .inl rfl⟩
      · have := inside.2
        exact ⟨⟨below, by omega⟩, .inr (by omega)⟩
    refine ⟨ret, retMem, ?_, shape⟩
    rw [Context.get, inv.initialized]
    simp only [found, List.ne_nil_of_mem mem, if_false, Bool.not_true, Bool.false_eq_true, if_pos below,
      address_of_lt r.fits, address_of_lt fits, if_pos shape.1.2]

theorem Registry.Inv.get_cases : (s.context.get r = some none ∧ ∀ mr ∈ s.context.mp, ¬mr.Contains r) ∨
      ∃ ret ∈ s.context.mp, s.context.get r = some (some ret) ∧ ret.Contains r := by
  by_cases any : ∃ mr ∈ s.context.mp, mr.Contains r
  · obtain ⟨mr, mem, inside⟩ := any
    obtain ⟨ret, retMem, got, retInside, -⟩ := inv.get_of_contains r mem inside
    exact .inr ⟨ret, retMem, got, retInside⟩
  · refine .inl ⟨?_, fun mr mem inside => any ⟨mr, mem, inside⟩⟩
    rw [Context.get, inv.initialized]
    cases found : s.context.mp.find? (·.start ≤ r.start) with
    | none => simp
    | some ret =>
      obtain ⟨retMem, below, -⟩ := inv.sorted.find found
      have outside : ¬r.start + r.len ≤ ret.start + ret.len := fun above => any ⟨ret, retMem, below, above⟩
      simp [List.ne_nil_of_mem retMem, below, address_of_lt r.fits,
        address_of_lt (inv.fits ret retMem).2, outside]

theorem Registry.Inv.count_sub (mem : mr ∈ s.context.mp)
    (unremoved : r.bytes ⊆ s.left mr.start) :
    address mr.cnt (wordSpace - r.len) = (s.left mr.start \ r.bytes).card := by
  have count := inv.count mr mem
  have small : (s.left mr.start).card ≤ mr.len := by
    have le := Finset.card_le_card (inv.left mr mem).2
    rwa [Mr.bytes, Nat.card_Ico, Nat.add_sub_cancel_left] at le
  have part : r.len ≤ (s.left mr.start).card := r.card_bytes ▸ Finset.card_le_card unremoved
  have fits := (inv.fits mr mem).2
  rw [Finset.card_sdiff_of_subset unremoved, r.card_bytes, ← count, address,
    ← Nat.add_sub_assoc (by omega), Nat.sub_add_comm (by omega), Nat.add_mod_right,
    Nat.mod_eq_of_lt (by omega)]

theorem Registry.Inv.remove_eq (mem : mr ∈ s.context.mp) (inside : mr.Contains r)
    (unremoved : r.bytes ⊆ s.left mr.start) :
    ∃ ret ∈ s.context.mp, (ret = mr ∨ r.bytes = ∅) ∧ r.bytes ⊆ s.left ret.start ∧ s.context.remove r =
        if s.left ret.start \ r.bytes = ∅ then
          some (true, some (ret.start, ret.len),
            { s.context with mp := s.context.mp.filter (·.start ≠ ret.start) })
        else
          some (false, none, { s.context with mp := s.context.mp.map fun m =>
            if m.start = ret.start then { m with cnt := (s.left ret.start \ r.bytes).card } else m }) := by
  obtain ⟨ret, retMem, got, -, which⟩ := inv.get_of_contains r mem inside
  have which : ret = mr ∨ r.bytes = ∅ := by
    rcases which with rfl | empty
    · exact .inl rfl
    · exact .inr (by simp [Range.bytes, empty])
  have part : r.bytes ⊆ s.left ret.start := by
    rcases which with rfl | empty
    · exact unremoved
    · simp [empty]
  refine ⟨ret, retMem, which, part, ?_⟩
  simp only [Context.remove, inv.initialized, got, inv.count_sub r retMem part, Finset.card_eq_zero,
    Bool.not_true, Bool.false_eq_true, if_false]

section
variable (nonempty : 0 < r.len) (disjoint : ∀ mr ∈ s.context.mp, Disjoint mr.bytes r.bytes)
include nonempty disjoint

theorem Registry.Inv.apart :
    ∀ mr ∈ s.context.mp, r.start + r.len ≤ mr.start ∨ mr.start + mr.len ≤ r.start := by
  intro mr mem
  have := (inv.fits mr mem).1
  by_contra overlap
  have inMr : max mr.start r.start ∈ mr.bytes := Finset.mem_Ico.2 (by omega)
  have inRange : max mr.start r.start ∈ r.bytes := Finset.mem_Ico.2 (by omega)
  exact Finset.disjoint_left.1 (disjoint mr mem) inMr inRange

theorem Registry.Inv.fresh : ∀ mr ∈ s.context.mp, mr.start ≠ r.start := by
  intro mr mem
  have := (inv.fits mr mem).1
  have := inv.apart r nonempty disjoint mr mem
  omega

end

theorem Registry.Inv.insert_mp : (s.context.insert r).mp = insertMr ⟨r.start, r.len, r.len⟩ s.context.mp := by
  simp [Context.insert, inv.initialized]

section
variable (nonempty : 0 < r.len) (disjoint : ∀ mr ∈ s.context.mp, Disjoint mr.bytes r.bytes)
include nonempty disjoint

theorem Registry.Inv.mem_insert (mr : Mr) :
    mr ∈ (s.context.insert r).mp ↔ mr = ⟨r.start, r.len, r.len⟩ ∨ mr ∈ s.context.mp := by
  rw [inv.insert_mp]
  exact insertMr_mem (inv.fresh r nonempty disjoint) mr

theorem Registry.Inv.insert : Registry.Inv ⟨s.context.insert r, update s.left r.start r.bytes⟩ := by
  have fresh := inv.fresh r nonempty disjoint
  have members {P : Mr → Prop} (new : P ⟨r.start, r.len, r.len⟩) (old : ∀ mr ∈ s.context.mp, P mr) :
      ∀ mr ∈ (s.context.insert r).mp, P mr := by
    intro mr mem
    rcases (inv.mem_insert r nonempty disjoint mr).1 mem with rfl | mem
    · exact new
    · exact old mr mem
  refine ⟨?_, ?_, members ⟨nonempty, r.fits⟩ inv.fits, members ?_ fun mr mem => ?_,
    members ?_ fun mr mem => ?_⟩
  · simp [Context.insert, inv.initialized]
  · rw [inv.insert_mp]
    exact inv.sorted.insertMr (inv.apart r nonempty disjoint) fresh
  · simp only [update_self, r.card_bytes]
  · simp only [update_of_ne (fresh mr mem)]
    exact inv.count mr mem
  · simp only [update_self]
    exact ⟨Finset.nonempty_Ico.2 (by omega), subset_rfl⟩
  · simp only [update_of_ne (fresh mr mem)]
    exact inv.left mr mem

end

theorem Registry.Inv.remove {released : Bool} {out : Option (Nat × Nat)} {context : Context}
    (mem : mr ∈ s.context.mp) (inside : mr.Contains r) (unremoved : r.bytes ⊆ s.left mr.start)
    (removed : s.context.remove r = some (released, out, context)) :
    Registry.Inv ⟨context, update s.left mr.start (s.left mr.start \ r.bytes)⟩ := by
  obtain ⟨ret, retMem, which, part, eq⟩ := inv.remove_eq r mem inside unremoved
  have same : update s.left mr.start (s.left mr.start \ r.bytes) =
      update s.left ret.start (s.left ret.start \ r.bytes) := by
    rcases which with rfl | empty
    · rfl
    · simp [empty]
  rw [same]
  rw [eq] at removed
  split at removed
  · simp only [Option.some.injEq, Prod.mk.injEq] at removed
    obtain ⟨-, -, rfl⟩ := removed
    have kept {m : Mr} (mem : m ∈ s.context.mp.filter (·.start ≠ ret.start)) :
        m ∈ s.context.mp ∧ m.start ≠ ret.start := by simpa using List.mem_filter.1 mem
    refine ⟨inv.initialized, inv.sorted.filter _, fun m mem => inv.fits m (kept mem).1,
      fun m mem => ?_, fun m mem => ?_⟩
    · simp only [update_of_ne (kept mem).2]
      exact inv.count m (kept mem).1
    · simp only [update_of_ne (kept mem).2]
      exact inv.left m (kept mem).1
  · rename_i some_left
    simp only [Option.some.injEq, Prod.mk.injEq] at removed
    obtain ⟨-, -, rfl⟩ := removed
    refine ⟨inv.initialized, ?_, ?_, ?_, ?_⟩
    · refine List.pairwise_map.2 (inv.sorted.imp fun {a b} below => ?_)
      split <;> split <;> exact below
    all_goals
      refine List.forall_mem_map.2 fun m mem => ?_
      by_cases hit : m.start = ret.start
    · obtain rfl := inv.eq_of_start mem retMem hit
      simpa using inv.fits m mem
    · simpa [hit] using inv.fits m mem
    · obtain rfl := inv.eq_of_start mem retMem hit
      simp
    · simpa [hit] using inv.count m mem
    · obtain rfl := inv.eq_of_start mem retMem hit
      simp only [if_true, update_self]
      exact ⟨Finset.nonempty_iff_ne_empty.2 some_left, Finset.sdiff_subset.trans (inv.left m mem).2⟩
    · simpa [hit] using inv.left m mem

theorem Registry.Inv.regions_filter (mem : mr ∈ s.context.mp) :
    (s.context.mp.filter (·.start ≠ mr.start)).map (fun m => (m.start, m.len)) =
      s.context.regions.filter (· ≠ (mr.start, mr.len)) := by
  rw [Context.regions, List.filter_map]
  congr 1
  refine List.filter_congr fun m other => ?_
  simp only [comp_apply, ne_eq, Prod.mk.injEq, decide_eq_decide]
  constructor
  · exact fun ne eq => ne eq.1
  · intro ne eq
    obtain rfl := inv.eq_of_start other mem eq
    exact ne ⟨rfl, rfl⟩

end

theorem regions_map (mp : List Mr) (start cnt : Nat) :
    (mp.map fun m => if m.start = start then { m with cnt := cnt } else m).map
      (fun m => (m.start, m.len)) = mp.map fun m => (m.start, m.len) := by
  rw [List.map_map]
  refine List.map_congr_left fun m _ => ?_
  simp only [comp_apply]
  split <;> rfl

theorem RegistryReachable.inv {s : Registry} (reachable : RegistryReachable s) : s.Inv := by
  refine reachable.invariant _ (fun s start => ?_) fun s s' inv step => ?_
  · obtain ⟨context, left⟩ := s
    subst start
    exact ⟨rfl, .nil, nofun, nofun, nofun⟩
  · cases step with
    | insert r nonempty disjoint => exact inv.insert r nonempty disjoint
    | remove registered inside unremoved removed =>
      exact inv.remove _ registered inside unremoved removed

theorem registry_exact {s : Registry} (reachable : RegistryReachable s) (r : Range) :
    (∃ found, s.context.get r = some found ∧ (found = none ↔ ∀ mr ∈ s.context.mp, ¬mr.Contains r) ∧
      ∀ ret, found = some ret → ret ∈ s.context.mp ∧ ret.Contains r ∧
        (0 < r.len → ∀ mr ∈ s.context.mp, mr.Contains r → mr = ret)) ∧
    (0 < r.len → (∀ mr ∈ s.context.mp, Disjoint mr.bytes r.bytes) →
      ∀ x, x ∈ (s.context.insert r).regions ↔ x = (r.start, r.len) ∨ x ∈ s.context.regions) ∧
    ∀ mr ∈ s.context.mp, (s.left mr.start).Nonempty ∧ (mr.Contains r → r.bytes ⊆ s.left mr.start →
        ∃ released out context, s.context.remove r = some (released, out, context) ∧
          (released = true ↔ s.left mr.start ⊆ r.bytes) ∧
          (released = true → out = some (mr.start, mr.len) ∧
            context.regions = s.context.regions.filter (· ≠ (mr.start, mr.len))) ∧
          (released = false → context.regions = s.context.regions)) := by
  have inv := reachable.inv
  refine ⟨?_, ?_, fun mr mem => ⟨(inv.left mr mem).1, fun inside unremoved => ?_⟩⟩
  · rcases inv.get_cases r with ⟨got, without⟩ | ⟨ret, mem, got, inside⟩
    · exact ⟨none, got, by simpa using without, nofun⟩
    · refine ⟨some ret, got, ?_, ?_⟩
      · simpa using ⟨ret, mem, inside⟩
      · rintro _ ⟨⟩
        refine ⟨mem, inside, fun nonempty mr mrMem mrInside => ?_⟩
        obtain ⟨ret', -, got', -, which⟩ := inv.get_of_contains r mrMem mrInside
        rw [got, Option.some.injEq, Option.some.injEq] at got'
        subst got'
        rcases which with rfl | empty
        · rfl
        · omega
  · intro nonempty disjoint x
    simp only [Context.regions, List.mem_map, inv.mem_insert r nonempty disjoint]
    constructor
    · rintro ⟨mr, rfl | mem, rfl⟩
      · exact .inl rfl
      · exact .inr ⟨mr, mem, rfl⟩
    · rintro (rfl | ⟨mr, mem, rfl⟩)
      · exact ⟨_, .inl rfl, rfl⟩
      · exact ⟨mr, .inr mem, rfl⟩
  · obtain ⟨ret, retMem, which, -, removed⟩ := inv.remove_eq r mem inside unremoved
    -- an empty range releases nothing, whichever region it was counted for
    have last : s.left ret.start \ r.bytes = ∅ ↔ s.left mr.start ⊆ r.bytes := by
      rw [Finset.sdiff_eq_empty_iff_subset]
      rcases which with rfl | empty
      · rfl
      · simp [empty, (inv.left ret retMem).1.ne_empty, (inv.left mr mem).1.ne_empty]
    by_cases done : s.left ret.start \ r.bytes = ∅
    · rw [if_pos done] at removed
      obtain rfl : ret = mr := by
        rcases which with eq | empty
        · exact eq
        · simp [empty, (inv.left ret retMem).1.ne_empty] at done
      exact ⟨_, _, _, removed, by simpa using last.1 done, fun _ => ⟨rfl, inv.regions_filter mem⟩, nofun⟩
    · rw [if_neg done] at removed
      exact ⟨_, _, _, removed, by simpa using fun all => done (last.2 all), nofun, fun _ => regions_map ..⟩

theorem registry_exact_inserted :
    ∃ found, (Context.insert ⟨true, []⟩ ⟨16, 8, by decide⟩).get ⟨16, 4, by decide⟩ = some found ∧
      found ≠ none := by
  have reachable : RegistryReachable ⟨Context.insert ⟨true, []⟩ ⟨16, 8, by decide⟩,
      update (fun _ => ∅) 16 (Range.bytes ⟨16, 8, by decide⟩)⟩ :=
    Reachable.next (.initial rfl)
      (.insert (s := ⟨⟨true, []⟩, fun _ => ∅⟩) ⟨16, 8, by decide⟩ (by decide) (by simp))
  obtain ⟨⟨found, got, absent, -⟩, -⟩ := registry_exact reachable ⟨16, 4, by decide⟩
  refine ⟨found, got, fun none => ?_⟩
  exact absent.1 none ⟨16, 8, 8⟩ (by decide) ⟨by decide, by decide⟩

end Prpc.Rdma
