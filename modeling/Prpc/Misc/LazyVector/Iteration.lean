import Prpc.Misc.LazyVector.Contents

/-!
An iterator goes through the views of a vector.
-/

namespace Prpc.LazyVectors
open Lib

def View.final (w : View) : Place := ⟨w.lazyData, w.end_⟩

def Iterator.onView (view : View) (rest : List View) (offset idx globalIdx : Nat) : Iterator :=
  ⟨view, rest, ⟨view.lazyData, offset⟩, idx, globalIdx⟩

section
variable {T : Type} {h : List (List T)} {back : View} {total : Nat}

def Walks (h : List (List T)) (back : View) (total : Nat) (it : Iterator) (places : List Place) : Prop :=
  ∃ fuel, LazyVector.walk h (.onView back [] back.end_ back.end_ total) fuel it = some places

section
variable {w : View} {rest : List View} {offset idx globalIdx : Nat}

theorem same_iff : (Iterator.onView w rest offset idx globalIdx).same (.onView back [] back.end_ back.end_ total) = true ↔
    ⟨w.lazyData, offset⟩ = back.final := by
  rw [Iterator.same, Bool.and_eq_true, decide_eq_true_eq, decide_eq_true_eq, View.final, Place.mk.injEq]
  simp [Iterator.onView, Place.mk.injEq]

theorem walks_nil : Walks h back total (.onView w rest offset idx globalIdx) [] ↔ ⟨w.lazyData, offset⟩ = back.final := by
  constructor
  · rintro ⟨fuel, walk⟩
    cases fuel with
    | zero => cases walk
    | succ fuel =>
      by_contra other
      rw [LazyVector.walk, if_neg (same_iff.not.2 other)] at walk
      simp only [Option.bind_eq_bind, Option.bind_eq_some_iff, Option.pure_def, Option.some.injEq, List.cons_ne_nil,
        and_false, exists_false] at walk
  · intro same
    exact ⟨1, by rw [LazyVector.walk, if_pos (same_iff.2 same)]⟩

variable {p : Place} {places : List Place}

theorem walks_cons : Walks h back total (.onView w rest offset idx globalIdx) (p :: places) ↔ p ≠ back.final ∧
      ⟨w.lazyData, offset⟩ = p ∧ (readAt h p).isSome ∧
      Walks h back total (Iterator.onView w rest offset idx globalIdx).next places := by
  constructor
  · rintro ⟨fuel, walk⟩
    cases fuel with
    | zero => cases walk
    | succ fuel =>
      have other : ¬ ⟨w.lazyData, offset⟩ = back.final := by
        intro same
        rw [LazyVector.walk, if_pos (same_iff.2 same)] at walk
        cases walk
      rw [LazyVector.walk, if_neg (same_iff.not.2 other)] at walk
      simp only [Option.bind_eq_bind, Option.bind_eq_some_iff, Option.pure_def, Option.some.injEq,
        List.cons.injEq] at walk
      obtain ⟨x, read, places', rest, rfl, rfl⟩ := walk
      exact ⟨other, rfl, Option.isSome_iff_exists.2 ⟨x, read⟩, fuel, rest⟩
  · rintro ⟨other, rfl, readable, fuel, walk⟩
    obtain ⟨x, read⟩ := Option.isSome_iff_exists.1 readable
    refine ⟨fuel + 1, ?_⟩
    rw [LazyVector.walk, if_neg (same_iff.not.2 other), walk,
      show readAt h (Iterator.onView w rest offset idx globalIdx).cursor = some x from read]
    rfl

theorem next_inside (inside : w.begin + idx + 1 < w.end_) :
    (Iterator.onView w rest offset idx globalIdx).next = .onView w rest (offset + 1) (idx + 1) (globalIdx + 1) := by
  cases rest with
  | nil => rfl
  | cons w' rest => exact if_neg (Nat.not_le.2 inside)

theorem next_last : (Iterator.onView w [] offset idx globalIdx).next = .onView w [] (offset + 1) (idx + 1) (globalIdx + 1) :=
  rfl

def enter (w : View) (rest : List View) (globalIdx : Nat) : Iterator := .skip w rest ⟨w.lazyData, 0⟩ 0 globalIdx

theorem next_over {w' : View} (past : w.end_ ≤ w.begin + idx + 1) :
    (Iterator.onView w (w' :: rest) offset idx globalIdx).next = enter w' rest (globalIdx + 1) := if_pos past

theorem enter_empty {w' : View} (empty : w.end_ ≤ w.begin) :
    enter w (w' :: rest) globalIdx = enter w' rest globalIdx := if_pos empty

theorem enter_last : enter w [] globalIdx = .onView w [] 0 0 globalIdx := rfl

theorem enter_some (some_ : w.begin < w.end_) : enter w rest globalIdx = .onView w rest 0 0 globalIdx := by
  cases rest with
  | nil => rfl
  | cons w' rest => exact if_neg (Nat.not_le.2 some_)

def Straight (back : View) (views : List View) : Prop :=
  (∀ w ∈ views, w.begin < w.end_ → w.begin = 0) ∧ (back.begin < back.end_ ∨ back.end_ = 0)

instance (back : View) (views : List View) : Decidable (Straight back views) := inferInstanceAs (Decidable (_ ∧ _))

theorem straight_cons {views : List View} :
    Straight back (w :: views) ↔ (w.begin < w.end_ → w.begin = 0) ∧ Straight back views := by
  rw [Straight, Straight, List.forall_mem_cons, and_assoc]

theorem walks_step {ok : Prop} (readable : (readAt h ⟨w.lazyData, offset⟩).isSome)
    (next : Walks h back total (Iterator.onView w rest offset idx globalIdx).next places ↔ ok ∧ back.final ∉ places) :
    Walks h back total (.onView w rest offset idx globalIdx) (⟨w.lazyData, offset⟩ :: places) ↔
      ok ∧ back.final ∉ (⟨w.lazyData, offset⟩ :: places : List Place) := by
  rw [walks_cons, List.mem_cons, not_or, next]
  constructor
  · rintro ⟨other, -, -, fine, out⟩
    exact ⟨fine, other.symm, out⟩
  · rintro ⟨fine, other, out⟩
    exact ⟨Ne.symm other, rfl, readable, fine, out⟩

section
variable (within : w.Within h) (ends : (w :: rest).getLast? = some back)
include within ends

theorem walks_inside
    (after : ∀ w' rest' globalIdx, rest = w' :: rest' →
      (Walks h back total (enter w' rest' globalIdx) (placesIn rest) ↔
        Straight back rest ∧ back.final ∉ placesIn rest))
    (inside : w.begin + idx < w.end_) :
    Walks h back total (.onView w rest (w.begin + idx) idx globalIdx)
      (placesOf w.lazyData (w.begin + idx) w.end_ ++ placesIn rest) ↔
    Straight back rest ∧ back.final ∉ placesOf w.lazyData (w.begin + idx) w.end_ ++ placesIn rest := by
  obtain ⟨forward, data, there, fits⟩ := within
  obtain ⟨left, length⟩ : ∃ left, w.end_ = w.begin + idx + 1 + left := Nat.exists_eq_add_of_le inside
  have readable : (readAt h ⟨w.lazyData, w.begin + idx⟩).isSome := by
    simp [readAt, there, Nat.lt_of_lt_of_le inside fits]
  induction left generalizing idx globalIdx with
  | zero =>
    -- the last place of the view
    have past : w.end_ ≤ w.begin + idx + 1 := Nat.le_of_eq length
    rw [placesOf_cons inside, placesOf_nil past, List.cons_append, List.nil_append]
    refine walks_step readable ?_
    cases rest with
    | nil =>
      obtain rfl : w = back := Option.some.inj ends
      rw [next_last, placesIn_nil, walks_nil, View.final, length]
      have some_ : w.begin < w.begin + idx + 1 := by omega
      simp [Straight, length, some_]
    | cons w' rest =>
      rw [next_over past]
      exact after w' rest _ rfl
  | succ left ih =>
    have more : w.begin + idx + 1 < w.end_ := by omega
    rw [placesOf_cons inside, List.cons_append]
    refine walks_step readable ?_
    rw [next_inside more]
    refine @ih (idx + 1) (globalIdx + 1) more (by omega) ?_
    simp [readAt, there]
    omega

theorem walks_enter_some (some_ : w.begin < w.end_)
    (after : ∀ w' rest' globalIdx, rest = w' :: rest' →
      (Walks h back total (enter w' rest' globalIdx) (placesIn rest) ↔
        Straight back rest ∧ back.final ∉ placesIn rest)) :
    Walks h back total (enter w rest globalIdx) (placesIn (w :: rest)) ↔
      Straight back (w :: rest) ∧ back.final ∉ placesIn (w :: rest) := by
  rw [enter_some some_, straight_cons, placesIn_cons]
  by_cases aligned : w.begin = 0
  · have inside := @walks_inside _ _ _ total _ _ 0 globalIdx within ends after some_
    rw [Nat.add_zero, ← View.places, aligned] at inside
    rw [inside]
    simp [aligned]
  · rw [View.places_cons some_, List.cons_append, walks_cons]
    constructor
    · rintro ⟨-, place, -⟩
      exact absurd (congrArg Place.offset place).symm aligned
    · rintro ⟨⟨begins, -⟩, -⟩
      exact absurd (begins some_) aligned

end

theorem walks_enter (within : ∀ x ∈ w :: rest, x.Within h) (ends : (w :: rest).getLast? = some back) :
    Walks h back total (enter w rest globalIdx) (placesIn (w :: rest)) ↔
      Straight back (w :: rest) ∧ back.final ∉ placesIn (w :: rest) := by
  induction rest generalizing w globalIdx with
  | nil =>
    by_cases some_ : w.begin < w.end_
    · exact walks_enter_some (within w (List.mem_cons_self ..)) ends some_ nofun
    · obtain rfl : w = back := Option.some.inj ends
      have empty := Nat.not_lt.1 some_
      rw [enter_last, placesIn_cons, View.places_nil empty, placesIn_nil, List.append_nil, walks_nil, View.final]
      simp [Straight, some_, eq_comm]
  | cons w' rest ih =>
    have after := fun globalIdx => @ih w' globalIdx (fun x mem => within x (List.mem_cons_of_mem _ mem)) ends
    by_cases some_ : w.begin < w.end_
    · refine walks_enter_some (within w (List.mem_cons_self ..)) ends some_ ?_
      rintro _ _ globalIdx ⟨⟩
      exact after globalIdx
    · have empty := Nat.not_lt.1 some_
      have same := straight_cons.trans (and_iff_right fun lt => absurd lt some_ : _ ↔ Straight back (w' :: rest))
      rw [enter_empty empty, placesIn_cons, View.places_nil empty, List.nil_append, after globalIdx, same]

theorem walks_behind_some (some_ : w.begin < w.end_)
    (after : ∀ w' rest' globalIdx q qs, rest = w' :: rest' → placesIn rest = q :: qs →
      (Walks h back total (enter w' rest' globalIdx) qs ↔ qs = [] ∧ ⟨q.chunk, 0⟩ = back.final))
    (all : placesIn (w :: rest) = p :: places) :
    Walks h back total (enter w rest globalIdx) places ↔ places = [] ∧ ⟨p.chunk, 0⟩ = back.final := by
  rw [placesIn_cons, View.places_cons some_, List.cons_append] at all
  obtain ⟨rfl, tail⟩ := List.cons.inj all
  rw [enter_some some_]
  cases places with
  | nil => rw [walks_nil, and_iff_right rfl]
  | cons q qs =>
    rw [walks_cons]
    refine ⟨fun ⟨other, place, _, walks⟩ => ?_, fun ⟨none_, _⟩ => by cases none_⟩
    subst place
    exfalso
    by_cases more : w.begin + 1 < w.end_
    · rw [placesOf_cons more, List.cons_append] at tail
      exact absurd (congrArg Place.offset (List.cons.inj tail).1) (Nat.succ_ne_zero _)
    · have past := Nat.not_lt.1 more
      rw [placesOf_nil past, List.nil_append] at tail
      cases rest with
      | nil => cases tail
      | cons w' rest' =>
        rw [next_over past] at walks
        exact other ((after w' rest' _ _ _ rfl tail).1 walks).2

theorem walks_behind (all : placesIn (w :: rest) = p :: places) :
    Walks h back total (enter w rest globalIdx) places ↔ places = [] ∧ ⟨p.chunk, 0⟩ = back.final := by
  induction rest generalizing w globalIdx p places with
  | nil =>
    by_cases some_ : w.begin < w.end_
    · exact walks_behind_some some_ nofun all
    · rw [placesIn_cons, View.places_nil (Nat.not_lt.1 some_)] at all
      cases all
  | cons w' rest ih =>
    by_cases some_ : w.begin < w.end_
    · refine walks_behind_some some_ ?_ all
      rintro _ _ globalIdx q qs ⟨⟩ all'
      exact ih all'
    · have empty := Nat.not_lt.1 some_
      rw [placesIn_cons, View.places_nil empty, List.nil_append] at all
      rw [enter_empty empty]
      exact ih all

end

/-- The views of a vector that can be iterated over. An iterator starts in the first view even if it is empty, and then
is right only if the one item of the vector is where the first view begins and the last view ends where the chunk of
the item begins. -/
def LazyVector.Iterable (v : LazyVector) : Prop :=
  ∃ first rest back, v.lazyViews = first :: rest ∧ v.lazyViews.getLast? = some back ∧ (v.totalItemNum = 0 ∨
      first.begin < first.end_ ∧ Straight back rest ∧ back.final ∉ v.places ∨
      first.end_ ≤ first.begin ∧ v.places = [⟨first.lazyData, first.begin⟩] ∧ first.begin ≠ 0 ∧
        back.final = ⟨first.lazyData, 0⟩)

variable {v : LazyVector}

theorem iterable_iff {first : View} {rest : List View} (views : v.lazyViews = first :: rest)
    (ends : v.lazyViews.getLast? = some back) : v.Iterable ↔ v.totalItemNum = 0 ∨
      first.begin < first.end_ ∧ Straight back rest ∧ back.final ∉ v.places ∨
      first.end_ ≤ first.begin ∧ v.places = [⟨first.lazyData, first.begin⟩] ∧ first.begin ≠ 0 ∧
        back.final = ⟨first.lazyData, 0⟩ := by
  constructor
  · rintro ⟨first', rest', back', views', ends', fine⟩
    cases views.symm.trans views'
    cases ends.symm.trans ends'
    exact fine
  · exact fun fine => ⟨first, rest, back, views, ends, fine⟩

variable {items : List T}

theorem LazyVector.Shows.readable (shows_ : v.Shows h items) {p : Place}
    (mem : p ∈ v.places) : (readAt h p).isSome := by
  have known : readAt h p ∈ items.map some := shows_.read ▸ List.mem_map_of_mem mem
  obtain ⟨x, -, read⟩ := List.mem_map.1 known
  rw [← read]
  rfl

theorem walks_first {first : View} {rest : List View} (shows_ : v.Shows h items)
    (views : v.lazyViews = first :: rest) (ends : v.lazyViews.getLast? = some back) (some_ : v.totalItemNum ≠ 0) :
    Walks h back total (.onView first rest first.begin 0 0) v.places ↔
      first.begin < first.end_ ∧ Straight back rest ∧ back.final ∉ v.places ∨
      first.end_ ≤ first.begin ∧ v.places = [⟨first.lazyData, first.begin⟩] ∧ first.begin ≠ 0 ∧
        back.final = ⟨first.lazyData, 0⟩ := by
  have places : v.places = first.places ++ placesIn rest := by rw [LazyVector.places, views, placesIn_cons]
  have within : ∀ x ∈ first :: rest, x.Within h := views ▸ shows_.intact.views
  rw [views] at ends
  rcases Nat.lt_or_ge first.begin first.end_ with full | empty
  · have inside := @walks_inside _ h back total first rest 0 0 (within first (List.mem_cons_self ..)) ends
      (fun w' rest' globalIdx eq => by
        subst eq
        exact walks_enter (fun x mem => within x (List.mem_cons_of_mem _ mem)) ends) full
    rw [Nat.add_zero, ← View.places, ← places] at inside
    rw [inside, or_iff_left fun empty => absurd empty.1 (Nat.not_le.2 full), and_iff_right full]
  · rw [View.places_nil empty, List.nil_append] at places
    cases all : v.places with
    | nil =>
      rw [shows_.intact.total, all] at some_
      exact absurd rfl some_
    | cons p ps =>
      rw [or_iff_right fun full => absurd full.1 (Nat.not_lt.2 empty), and_iff_right empty, walks_cons]
      cases rest with
      | nil =>
        rw [places] at all
        cases all
      | cons w' rest' =>
        rw [next_over (Nat.le_succ_of_le empty), walks_behind (places ▸ all)]
        constructor
        · rintro ⟨other, rfl, -, rfl, final⟩
          refine ⟨rfl, ?_, final.symm⟩
          intro zero
          rw [zero] at other
          exact other final
        · rintro ⟨one, other, final⟩
          obtain ⟨rfl, rfl⟩ := List.cons.inj one
          refine ⟨?_, rfl, shows_.readable (by rw [all]; exact List.mem_cons_self ..), rfl, final.symm⟩
          rw [final]
          exact fun same => other (congrArg Place.offset same)

theorem iterate_places (shows_ : v.Shows h items) :
    (∃ fuel, v.iterate h fuel = some v.places) ↔ v.Iterable := by
  cases views : v.lazyViews with
  | nil =>
    have none_ (fuel : Nat) : v.iterate h fuel = none := by rw [LazyVector.iterate, LazyVector.last, views]; rfl
    constructor
    · rintro ⟨fuel, done⟩
      cases (none_ fuel).symm.trans done
    · rintro ⟨first, rest, back, views', -⟩
      cases views.symm.trans views'
  | cons first rest =>
    obtain ⟨back, ends⟩ : ∃ back, v.lazyViews.getLast? = some back := by
      rw [views]
      exact ⟨_, List.getLast?_cons⟩
    have last : v.last = some (.onView back [] back.end_ back.end_ v.totalItemNum) := by
      rw [LazyVector.last, ends]
      rfl
    rw [iterable_iff views ends]
    by_cases none_ : v.totalItemNum = 0
    · have empty : v.places = [] := List.length_eq_zero_iff.1 (shows_.intact.total.symm.trans none_)
      refine iff_of_true ⟨1, ?_⟩ (.inl none_)
      rw [LazyVector.iterate, LazyVector.first, if_pos none_, last, empty]
      exact if_pos (same_iff.2 rfl)
    · have start : v.first = some (.onView first rest first.begin 0 0) := by
        rw [LazyVector.first, if_neg none_, views]
        rfl
      have loop : (∃ fuel, v.iterate h fuel = some v.places) ↔
          Walks h back v.totalItemNum (.onView first rest first.begin 0 0) v.places := by
        simp only [LazyVector.iterate, last, start, Option.bind_eq_bind, Option.bind_some]
        rfl
      rw [loop, walks_first shows_ views ends none_, or_iff_right none_]

end

/-- Iterating comes to an end and gives the items at the indices in their order exactly for these views. -/
theorem iterate_iff {ι T : Type} [DecidableEq ι] {w : World ι T} (reached : Reached w) (i : ι) :
    (∃ fuel places, (w.vectors i).iterate w.heap fuel = some places ∧ places.length = (w.vectors i).size ∧
      ∀ k < (w.vectors i).size, places[k]? = (w.vectors i).index k) ↔ (w.vectors i).Iterable := by
  obtain ⟨c, all⟩ := reached.shows
  have intact := (all i).intact
  rw [← iterate_places (all i)]
  constructor
  · rintro ⟨fuel, places, done, length, index⟩
    refine ⟨fuel, done.trans (congrArg some (List.ext_getElem? fun k => ?_))⟩
    by_cases small : k < (w.vectors i).size
    · rw [index k small, LazyVector.index_eq intact]
    · rw [List.getElem?_eq_none (by omega), List.getElem?_eq_none]
      rw [← intact.total]
      exact Nat.not_lt.1 small
  · rintro ⟨fuel, done⟩
    exact ⟨fuel, _, done, intact.total.symm, fun k _ => (LazyVector.index_eq intact k).symm⟩

def cutAndBack : List (Op Nat Nat) :=
  [.new 0, .new 1, .pushBack 0 1, .pushBack 0 2, .pushBack 0 3, .cut 0 1 1, .merge 0 1]

theorem cutAndBack_legal : LegalRun (fun _ => []) cutAndBack :=
  ⟨trivial, trivial, trivial, trivial, trivial, ⟨Nat.zero_ne_one, by decide⟩, Nat.zero_ne_one, trivial⟩

def twoChunks : List (Op Nat Nat) := [.new 0, .pushBack 0 1, .pushBackVector 0 [2, 3]]

theorem iterate_iff_chunks : ∃ w : World Nat Nat, Reached w ∧ (w.vectors 0).Iterable ∧
    ∃ fuel places, (w.vectors 0).iterate w.heap fuel = some places ∧ places.length = (w.vectors 0).size ∧
      ∀ k < (w.vectors 0).size, places[k]? = (w.vectors 0).index k := by
  have reached : Reached ((twoChunks.foldlM World.apply (.initial Nat Nat)).get rfl) :=
    ⟨twoChunks, ⟨trivial, trivial, trivial, trivial⟩, (Option.some_get _).symm⟩
  have iterable : (((twoChunks.foldlM World.apply (.initial Nat Nat)).get rfl).vectors 0).Iterable :=
    ⟨_, _, _, rfl, rfl, .inr (.inl ⟨by decide, by decide, by decide⟩)⟩
  exact ⟨_, reached, iterable, (iterate_iff reached 0).2 iterable⟩

/-- The second view begins in the middle of the chunk, and the iterator goes through the chunk from its beginning. -/
theorem iterates_from_chunk_start : ∃ w : World Nat Nat, Reached w ∧
    (List.range (w.vectors 0).size).map (w.at_ 0) = [some 1, some 2, some 3] ∧
    ((w.vectors 0).iterate w.heap 5).map (List.map (readAt w.heap)) = some [some 1, some 1, some 2, some 3] :=
  ⟨_, ⟨cutAndBack, cutAndBack_legal, rfl⟩, by decide, by decide⟩

end Prpc.LazyVectors
