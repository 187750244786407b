import Prpc.Misc.LazyVector.Views
import Mathlib.Logic.Function.Basic

namespace Prpc.LazyVectors
open Lib
open Function (update update_self update_of_ne update_eq_self)

section
variable {T : Type} {h h' : List (List T)}

theorem View.Within.grow {w : View} (within : w.Within h) (grows : Extends h h') : w.Within h' := by
  obtain ⟨forward, data, there, fits⟩ := within
  obtain ⟨more, there'⟩ := grows _ data there
  refine ⟨forward, data ++ more, there', ?_⟩
  rw [List.length_append]
  exact Nat.le_add_right_of_le fits

namespace LazyVector
variable {v : LazyVector}

theorem Intact.grow (intact : Intact h v) (grows : Extends h h') : Intact h' v :=
  ⟨fun w mem => (intact.views w mem).grow grows, intact.total⟩

theorem Intact.append (intact : Intact h v) : Intact (h ++ [[]]) (v.appendANewLazyData h).2 ∧
    (v.appendANewLazyData h).2.places = v.places := by
  have places : (v.appendANewLazyData h).2.places = v.places := by
    simp [LazyVector.places, appendANewLazyData, View.places_nil]
  refine ⟨⟨fun w mem => ?_, by rw [places, ← intact.total]; rfl⟩, places⟩
  rcases List.mem_append.1 mem with old | new
  · exact (intact.views w old).grow (Extends.alloc h [])
  · rw [List.mem_singleton.1 new]
    exact ⟨Nat.le_refl _, [], by simp, Nat.le_refl _⟩

theorem Intact.setBack {init : List View} {back : View} (views : v.lazyViews = init ++ [back]) (intact : Intact h v)
    (pushable : Bool) : Intact h (v.setBack { back with pushable }) ∧ (v.setBack { back with pushable }).places = v.places := by
  have views' : (v.setBack { back with pushable }).lazyViews = init ++ [{ back with pushable }] := by
    rw [LazyVector.setBack, views, List.dropLast_concat]
  have places : (v.setBack { back with pushable }).places = v.places := by
    rw [LazyVector.places, views', LazyVector.places, views, placesIn_append, placesIn_append]
    rfl
  refine ⟨⟨fun w mem => ?_, by rw [places, ← intact.total]; rfl⟩, places⟩
  rw [views'] at mem
  rcases List.mem_append.1 mem with old | new
  · exact intact.views w (by rw [views]; exact List.mem_append_left _ old)
  · rw [List.mem_singleton.1 new]
    obtain ⟨forward, there⟩ := intact.views back (by simp [views])
    exact ⟨forward, there⟩

structure Ready (h : List (List T)) (v : LazyVector) (init : List View) (back : View) (data : List T) : Prop where
  views : v.lazyViews = init ++ [back]
  there : h[back.lazyData]? = some data
  reaches : back.end_ = data.length

theorem ready_append (h : List (List T)) (v : LazyVector) :
    Ready (h ++ [[]]) (v.appendANewLazyData h).2 v.lazyViews ⟨0, 0, true, h.length⟩ [] := ⟨rfl, by simp, rfl⟩

def pushed (h : List (List T)) (v : LazyVector) (init : List View) (back : View) (data : List T) (item : T) :
    List (List T) × LazyVector :=
  (h.set back.lazyData (data ++ [item]), ⟨init ++ [{ back with end_ := (data ++ [item]).length }], v.totalItemNum + 1⟩)

theorem pushBack_eq (intact : Intact h v) (item : T) : ∃ h' v' init back data, Extends h h' ∧ Intact h' v' ∧
    v'.places = v.places ∧ Ready h' v' init back data ∧
      v.pushBack h item = some (pushed h' v' init back data item) := by
  obtain ⟨intact', places'⟩ := intact.append
  have ready' := ready_append h v
  rcases List.eq_nil_or_concat v.lazyViews with none_ | ⟨init, back, views⟩
  · refine ⟨_, _, _, _, _, .alloc h [], intact', places', ready', ?_⟩
    simp [LazyVector.pushBack, pushed, appendANewLazyData, LazyVector.setBack, none_]
  · rw [List.concat_eq_append] at views
    obtain ⟨-, data, there, -⟩ := intact.views back (by simp [views])
    cases pushable : back.pushable with
    | false =>
      refine ⟨_, _, _, _, _, .alloc h [], intact', places', ready', ?_⟩
      simp [LazyVector.pushBack, pushed, appendANewLazyData, LazyVector.setBack, views, pushable]
    | true =>
      by_cases reaches : back.end_ = data.length
      · refine ⟨h, v, init, back, data, .refl h, intact, rfl, ⟨views, there, reaches⟩, ?_⟩
        simp [LazyVector.pushBack, pushed, LazyVector.setBack, views, pushable, there, reaches]
      · obtain ⟨intact₁, places₁⟩ := intact.setBack views false
        obtain ⟨intact₂, places₂⟩ := intact₁.append
        refine ⟨_, _, _, _, _, .alloc h [], intact₂, places₂.trans places₁, ready_append h _, ?_⟩
        simp [LazyVector.pushBack, pushed, appendANewLazyData, LazyVector.setBack, views, pushable, there, reaches]

theorem Ready.pushed {init : List View} {back : View} {data : List T} (ready : Ready h v init back data)
    (intact : Intact h v) (item : T) : Extends h (pushed h v init back data item).1 ∧
      Intact (pushed h v init back data item).1 (pushed h v init back data item).2 ∧
      (pushed h v init back data item).2.places = v.places ++ [⟨back.lazyData, data.length⟩] ∧
      readAt (pushed h v init back data item).1 ⟨back.lazyData, data.length⟩ = some item := by
  obtain ⟨views, there, reaches⟩ := ready
  have grows : Extends h (LazyVector.pushed h v init back data item).1 := .push there [item]
  have there' : (LazyVector.pushed h v init back data item).1[back.lazyData]? = some (data ++ [item]) :=
    List.getElem?_set_self (List.getElem?_eq_some_iff.1 there).1
  have forward := (intact.views back (by simp [views])).forward
  have places : (LazyVector.pushed h v init back data item).2.places = v.places ++ [⟨back.lazyData, data.length⟩] := by
    have last : placesOf back.lazyData data.length (data.length + 1) = [⟨back.lazyData, data.length⟩] := by
      rw [placesOf_cons (Nat.lt_succ_self _), placesOf_nil (Nat.le_refl _)]
    have longer : placesOf back.lazyData back.begin data.length ++ placesOf back.lazyData data.length (data.length + 1) =
        placesOf back.lazyData back.begin (data.length + 1) := placesOf_append (reaches ▸ forward) (Nat.le_succ _)
    simp only [LazyVector.pushed, LazyVector.places, views, placesIn_append, placesIn_cons, placesIn_nil, List.append_nil,
      View.places, List.append_assoc, List.length_append, List.length_singleton, ← last, reaches]
    rw [longer]
  refine ⟨grows, ⟨fun w mem => ?_, ?_⟩, places, ?_⟩
  · rcases List.mem_append.1 mem with old | new
    · exact (intact.views w (by rw [views]; exact List.mem_append_left _ old)).grow grows
    · rw [List.mem_singleton.1 new]
      refine ⟨?_, data ++ [item], there', Nat.le_refl _⟩
      rw [List.length_append]
      exact Nat.le_add_right_of_le (reaches ▸ forward)
  · rw [places, List.length_append, ← intact.total]
    rfl
  · rw [readAt, there']
    simp

structure Shows (h : List (List T)) (v : LazyVector) (items : List T) : Prop where
  intact : Intact h v
  read : v.places.map (readAt h) = items.map some

section
variable {items : List T}

theorem Shows.size (shows_ : Shows h v items) : v.size = items.length := by
  have length := congrArg List.length shows_.read
  rw [List.length_map, List.length_map] at length
  exact shows_.intact.total.trans length

theorem Shows.at_ (shows_ : Shows h v items) (k : Nat) : (v.index k).bind (readAt h) = items[k]? := by
  have read := congrArg (·[k]?) shows_.read
  simp only [List.getElem?_map] at read
  rw [index_eq shows_.intact]
  cases place : v.places[k]? with
  | none =>
    rw [place] at read
    cases item : items[k]? with
    | none => rfl
    | some x =>
      rw [item] at read
      cases read
  | some p =>
    rw [place] at read
    cases item : items[k]? with
    | none =>
      rw [item] at read
      cases read
    | some x =>
      rw [item] at read
      exact Option.some.inj read

theorem Shows.grow (shows_ : Shows h v items) (grows : Extends h h') : Shows h' v items :=
  ⟨shows_.intact.grow grows, grows.map_readAt shows_.read⟩

theorem shows_empty (h : List (List T)) : Shows h clearWithoutAppend [] := ⟨.empty h, rfl⟩

theorem shows_new (h : List (List T)) : Extends h (new h).1 ∧ Shows (new h).1 (new h).2 [] := by
  obtain ⟨intact, places⟩ := (Intact.empty h).append
  exact ⟨.alloc h [], intact, by rw [new, ← clearWithoutAppend, places]; rfl⟩

section
variable (shows_ : Shows h v items)
include shows_

theorem Shows.pushBack (item : T) :
    ∃ h' v', v.pushBack h item = some (h', v') ∧ Extends h h' ∧ Shows h' v' (items ++ [item]) := by
  obtain ⟨h₁, v₁, init, back, data, grows, intact, places, ready, done⟩ := pushBack_eq shows_.intact item
  obtain ⟨grows', intact', places', read⟩ := ready.pushed intact item
  have shown : (pushed h₁ v₁ init back data item).2.places.map (readAt (pushed h₁ v₁ init back data item).1) =
      (items ++ [item]).map some := by
    rw [places', places, List.map_append, (shows_.grow (grows.trans grows')).read, List.map_singleton, read,
      List.map_append]
    rfl
  exact ⟨_, _, done, grows.trans grows', intact', shown⟩

theorem Shows.chunk (data : List T) : Shows (h ++ [data])
    ⟨v.lazyViews ++ [⟨0, data.length, true, h.length⟩], v.totalItemNum + data.length⟩ (items ++ data) := by
  have there : (h ++ [data])[h.length]? = some data := List.getElem?_concat_length
  have grows := Extends.alloc h data
  have places : LazyVector.places ⟨v.lazyViews ++ [⟨0, data.length, true, h.length⟩], v.totalItemNum + data.length⟩ =
      v.places ++ placesOf h.length 0 data.length := by simp [LazyVector.places, View.places]
  refine ⟨⟨fun w mem => ?_, ?_⟩, ?_⟩
  · rcases List.mem_append.1 mem with old | new
    · exact (shows_.intact.views w old).grow grows
    · rw [List.mem_singleton.1 new]
      exact ⟨Nat.zero_le _, data, there, Nat.le_refl _⟩
  · rw [places, List.length_append, length_placesOf, ← shows_.intact.total]
    rfl
  · rw [places, List.map_append, (shows_.grow grows).read, readAt_placesOf there 0 _ (Nat.le_refl _), List.take_length,
      List.drop_zero, List.map_append]

theorem Shows.pushBackVector (data : List T) : Extends h (v.pushBackVector h data).1 ∧
      Shows (v.pushBackVector h data).1 (v.pushBackVector h data).2 (items ++ data) := by
  rw [LazyVector.pushBackVector]
  by_cases some_ : data.length > 0
  · rw [if_pos some_]
    exact ⟨.alloc h data, shows_.chunk data⟩
  · rw [if_neg some_, List.length_eq_zero_iff.1 (Nat.eq_zero_of_not_pos some_), List.append_nil]
    exact ⟨.refl h, shows_⟩

theorem Shows.cut {idx : Nat} (small : idx < items.length) (tail : LazyVector) :
    ∃ v' tail', v.cut idx tail = some (v', tail') ∧ Shows h v' (items.take idx) ∧ Shows h tail' (items.drop idx) := by
  obtain ⟨v', tail', done, intact, intact', places, places'⟩ :=
    shows_.intact.cut (shows_.size.symm ▸ small : idx < v.size) tail
  refine ⟨v', tail', done, ⟨intact, ?_⟩, intact', ?_⟩
  · rw [places, List.map_take, shows_.read, List.map_take]
  · rw [places', List.map_drop, shows_.read, List.map_drop]

theorem Shows.merge {another : LazyVector} {items' : List T}
    (shows' : Shows h another items') : Shows h (v.merge another) (items ++ items') := by
  obtain ⟨intact, places⟩ := shows_.intact.merge shows'.intact
  refine ⟨intact, ?_⟩
  rw [places, List.map_append, shows_.read, shows'.read, List.map_append]

theorem Shows.sub {beginIdx endIdx : Nat} (lt : beginIdx < endIdx)
    (below : endIdx < items.length) : ∃ h' u, v.sub h beginIdx endIdx = some (h', u) ∧ Extends h h' ∧
      Shows h' u ((items.drop beginIdx).take (endIdx - beginIdx)) := by
  obtain ⟨u, done, intact, places⟩ := shows_.intact.sub lt (shows_.size.symm ▸ below : endIdx < v.size)
  have grows : Extends h (h ++ [[]] ++ [[]]) := (Extends.alloc h []).trans (.alloc _ [])
  refine ⟨_, u, done, grows, Shows.grow ⟨intact, ?_⟩ grows⟩
  rw [places, List.map_take, List.map_drop, shows_.read, List.map_take, List.map_drop]

theorem Shows.sub_outside {beginIdx endIdx : Nat}
    (outside : ¬ (beginIdx < endIdx ∧ endIdx ≤ items.length)) :
    ∃ h' u, v.sub h beginIdx endIdx = some (h', u) ∧ Extends h h' ∧ Shows h' u [] := by
  obtain ⟨grows, -⟩ := shows_new h
  obtain ⟨grows', new⟩ := shows_new (LazyVector.new h).1
  refine ⟨_, _, ?_, grows.trans grows', new⟩
  rw [← shows_.size] at outside
  exact if_neg outside

end

theorem gather_eq {views : List View} (within : ∀ w ∈ views, w.Within h)
    (read : (placesIn views).map (readAt h) = items.map some) (before : List T) (end_ : Nat) :
    views.foldlM (gather h) (before, end_) = some (before ++ items, end_ + items.length) := by
  induction views generalizing items before end_ with
  | nil =>
    cases items with
    | nil => simp
    | cons x items => cases read
  | cons w views ih =>
    obtain ⟨forward, data, there, fits⟩ := within w (List.mem_cons_self ..)
    have first : w.places.map (readAt h) = ((data.take w.end_).drop w.begin).map some := readAt_placesOf there _ _ fits
    rw [placesIn_cons, List.map_append, first] at read
    obtain ⟨left, right, rfl, same, rest⟩ := List.append_eq_map_iff.1 read
    have slice : left = (data.take w.end_).drop w.begin := (List.map_inj_right fun _ _ => Option.some.inj).1 same
    have length : left.length = w.end_ - w.begin := by
      rw [slice, List.length_drop, List.length_take, Nat.min_eq_left fits]
    have step : gather h (before, end_) w = some (before ++ left, end_ + left.length) := by
      rw [gather]
      by_cases some_ : w.end_ - w.begin > 0
      · rw [if_pos some_, there, length]
        simp [guard, fits, ← slice]
      · have none_ : left = [] := List.length_eq_zero_iff.1 (by omega)
        rw [if_neg some_, none_, List.append_nil, List.length_nil, Nat.add_zero]
    rw [List.foldlM_cons, step, Option.bind_eq_bind, Option.bind_some,
      ih (fun w' mem => within w' (List.mem_cons_of_mem _ mem)) rest.symm, List.append_assoc, List.length_append,
      Nat.add_assoc]

theorem Shows.shrink (shows_ : Shows h v items) :
    ∃ h' v', v.shrink h = some (h', v') ∧ Extends h h' ∧ Shows h' v' items := by
  refine ⟨_, _, ?_, .alloc h items, (shows_empty h).chunk items⟩
  have total : v.totalItemNum = items.length := shows_.size
  simp [LazyVector.shrink, gather_eq shows_.intact.views shows_.read [] 0, total, clearWithoutAppend]

end

end LazyVector

end

section
variable {ι T : Type} [DecidableEq ι]

def Op.replay (c : ι → List T) : Op ι T → ι → List T
  | .new i => update c i []
  | .ofSize i _ => update c i []
  | .pushBack i item => update c i (c i ++ [item])
  | .pushBackVector i data => update c i (c i ++ data)
  | .cut i idx tail => update (update c i ((c i).take idx)) tail ((c i).drop idx)
  | .merge i another => update c i (c i ++ c another)
  | .sub i beginIdx endIdx result => update c result
      (if beginIdx < endIdx ∧ endIdx ≤ (c i).length then ((c i).drop beginIdx).take (endIdx - beginIdx) else [])
  | .shrink _ => c
  | .clear i => update c i []

omit [DecidableEq ι] in
/-- The vectors of an operation are different, a cut is inside of the vector, and `sub` stays away from its end. -/
def Op.Legal (c : ι → List T) : Op ι T → Prop
  | .cut i idx tail => i ≠ tail ∧ idx < (c i).length
  | .merge i another => i ≠ another
  | .sub i beginIdx endIdx _ => ¬ (beginIdx < endIdx ∧ endIdx = (c i).length)
  | _ => True

def Op.changes : Op ι T → List ι
  | .new i | .ofSize i _ | .pushBack i _ | .pushBackVector i _ | .merge i _ | .shrink i | .clear i => [i]
  | .cut i _ tail => [i, tail]
  | .sub _ _ _ result => [result]

def World.Shows (w : World ι T) (c : ι → List T) : Prop := ∀ i, (w.vectors i).Shows w.heap (c i)

section
variable {w : World ι T} {c : ι → List T}

theorem World.Shows.put (shows_ : w.Shows c) {h : List (List T)} (grows : Extends w.heap h) {v : LazyVector}
    {items : List T} (new : v.Shows h items) (i : ι) : (w.put i (h, v)).Shows (update c i items) := by
  intro j
  rcases eq_or_ne j i with rfl | other
  · simpa only [World.put, update_self] using new
  · simpa only [World.put, update_of_ne other] using (shows_ j).grow grows

theorem World.Shows.apply (shows_ : w.Shows c) {op : Op ι T} (legal : op.Legal c) :
    ∃ w', w.apply op = some w' ∧ w'.Shows (op.replay c) := by
  cases op with
  | new i =>
    obtain ⟨grows, new⟩ := LazyVector.shows_new w.heap
    exact ⟨_, rfl, shows_.put grows new i⟩
  | ofSize i n => exact ⟨_, rfl, shows_.put (.refl _) (LazyVector.shows_empty w.heap) i⟩
  | pushBack i item =>
    obtain ⟨h, v, done, grows, new⟩ := (shows_ i).pushBack item
    exact ⟨_, by rw [World.apply, done]; rfl, shows_.put grows new i⟩
  | pushBackVector i data =>
    obtain ⟨grows, new⟩ := (shows_ i).pushBackVector data
    exact ⟨_, rfl, shows_.put grows new i⟩
  | cut i idx tail =>
    obtain ⟨v, t, done, new, new'⟩ := (shows_ i).cut legal.2 (w.vectors tail)
    exact ⟨_, by rw [World.apply, done]; rfl, (shows_.put (.refl _) new i).put (.refl _) new' tail⟩
  | merge i another => exact ⟨_, rfl, shows_.put (.refl _) ((shows_ i).merge (shows_ another)) i⟩
  | sub i beginIdx endIdx result =>
    by_cases slice : beginIdx < endIdx ∧ endIdx ≤ (c i).length
    · have below : endIdx < (c i).length := Nat.lt_of_le_of_ne slice.2 fun eq => legal ⟨slice.1, eq⟩
      obtain ⟨h, u, done, grows, new⟩ := (shows_ i).sub slice.1 below
      rw [Op.replay, if_pos slice]
      exact ⟨_, by rw [World.apply, done]; rfl, shows_.put grows new result⟩
    · obtain ⟨h, u, done, grows, new⟩ := (shows_ i).sub_outside slice
      rw [Op.replay, if_neg slice]
      exact ⟨_, by rw [World.apply, done]; rfl, shows_.put grows new result⟩
  | shrink i =>
    obtain ⟨h, v, done, grows, new⟩ := (shows_ i).shrink
    refine ⟨_, by rw [World.apply, done]; rfl, ?_⟩
    have same := shows_.put grows new i
    rwa [update_eq_self] at same
  | clear i =>
    obtain ⟨grows, new⟩ := LazyVector.shows_new w.heap
    exact ⟨_, rfl, shows_.put grows new i⟩

theorem Op.replay_other {op : Op ι T} {j : ι} (other : j ∉ op.changes) : op.replay c j = c j := by
  cases op with
  | cut i idx tail =>
    rw [Op.changes, List.mem_cons, List.mem_singleton, not_or] at other
    rw [Op.replay, update_of_ne other.2, update_of_ne other.1]
  | shrink i => rfl
  | _ =>
    rw [Op.changes, List.mem_singleton] at other
    rw [Op.replay, update_of_ne other]

end

def LegalRun : (ι → List T) → List (Op ι T) → Prop
  | _, [] => True
  | c, op :: ops => op.Legal c ∧ LegalRun (op.replay c) ops

def replay (ops : List (Op ι T)) : ι → List T := ops.foldl Op.replay fun _ => []

theorem shows_run {w : World ι T} {c : ι → List T} (shows_ : w.Shows c) {ops : List (Op ι T)} (legal : LegalRun c ops) :
    ∃ w', ops.foldlM World.apply w = some w' ∧ w'.Shows (ops.foldl Op.replay c) := by
  induction ops generalizing w c with
  | nil => exact ⟨w, rfl, shows_⟩
  | cons op ops ih =>
    obtain ⟨w₁, done, shows₁⟩ := shows_.apply legal.1
    obtain ⟨w', run, shows'⟩ := ih shows₁ legal.2
    refine ⟨w', ?_, shows'⟩
    rw [List.foldlM_cons, done]
    exact run

def Reached (w : World ι T) : Prop :=
  ∃ ops, LegalRun (fun _ => []) ops ∧ ops.foldlM World.apply (.initial ι T) = some w

omit [DecidableEq ι] in
theorem shows_initial : (World.initial ι T).Shows fun _ => [] := fun _ => LazyVector.shows_empty []

theorem Reached.shows {w : World ι T} (reached : Reached w) : ∃ c, w.Shows c := by
  obtain ⟨ops, legal, run⟩ := reached
  obtain ⟨w', run', shows_⟩ := shows_run shows_initial legal
  cases run.symm.trans run'
  exact ⟨_, shows_⟩

/-- The vectors agree with the lists after every run, and an operation does not change any other vector. -/
theorem refines_lists (ops : List (Op ι T)) (legal : LegalRun (fun _ => []) ops) :
    ∃ w, ops.foldlM World.apply (.initial ι T) = some w ∧
      (∀ i, (w.vectors i).size = (replay ops i).length ∧ ∀ k, w.at_ i k = (replay ops i)[k]?) ∧
      ∀ op : Op ι T, op.Legal (replay ops) → ∃ w', w.apply op = some w' ∧ ∀ j ∉ op.changes,
        (w'.vectors j).size = (w.vectors j).size ∧ ∀ k, w'.at_ j k = w.at_ j k := by
  obtain ⟨w, run, shows_⟩ := shows_run shows_initial legal
  refine ⟨w, run, fun i => ⟨(shows_ i).size, (shows_ i).at_⟩, fun op legal' => ?_⟩
  obtain ⟨w', done, shows'⟩ := shows_.apply legal'
  refine ⟨w', done, fun j other => ?_⟩
  have shown := shows' j
  rw [Op.replay_other other] at shown
  exact ⟨shown.size.trans (shows_ j).size.symm, fun k => (shown.at_ k).trans ((shows_ j).at_ k).symm⟩

end

def cutAndMerge : List (Op Nat Nat) :=
  [.new 0, .pushBackVector 0 [1, 2, 3], .cut 0 1 1, .pushBack 1 4, .pushBack 0 5, .merge 0 1, .pushBack 1 6]

theorem refines_lists_merged : replay cutAndMerge 0 = [1, 5, 2, 3, 4] ∧ ∃ w,
    cutAndMerge.foldlM World.apply (.initial Nat Nat) = some w ∧
      ∀ i, (w.vectors i).size = (replay cutAndMerge i).length ∧ ∀ k, w.at_ i k = (replay cutAndMerge i)[k]? := by
  have legal : LegalRun (fun _ => []) cutAndMerge :=
    ⟨trivial, trivial, ⟨Nat.zero_ne_one, by decide⟩, trivial, trivial, Nat.zero_ne_one, trivial, trivial⟩
  obtain ⟨w, run, agrees, -⟩ := refines_lists cutAndMerge legal
  exact ⟨by decide, w, run, agrees⟩

end Prpc.LazyVectors
