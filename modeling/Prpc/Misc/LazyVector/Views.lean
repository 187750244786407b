import Prpc.Misc.LazyVector.Model

namespace Prpc.LazyVectors
open Lib

def View.places (w : View) : List Place := placesOf w.lazyData w.begin w.end_

def placesIn (views : List View) : List Place := views.flatMap View.places

@[simp] theorem placesIn_nil : placesIn [] = [] := rfl

@[simp] theorem placesIn_cons (w : View) (views : List View) : placesIn (w :: views) = w.places ++ placesIn views := rfl

@[simp] theorem placesIn_append (views views' : List View) :
    placesIn (views ++ views') = placesIn views ++ placesIn views' := List.flatMap_append

@[simp] theorem View.length_places (w : View) : w.places.length = w.end_ - w.begin := length_placesOf

variable {w : View}

theorem View.places_nil (le : w.end_ ≤ w.begin) : w.places = [] := placesOf_nil le

theorem View.places_cons (lt : w.begin < w.end_) :
    w.places = ⟨w.lazyData, w.begin⟩ :: placesOf w.lazyData (w.begin + 1) w.end_ := placesOf_cons lt

def Forward (views : List View) : Prop := ∀ w ∈ views, w.begin ≤ w.end_

structure View.Within {T : Type} (h : List (List T)) (w : View) : Prop where
  forward : w.begin ≤ w.end_
  there : ∃ data, h[w.lazyData]? = some data ∧ w.end_ ≤ data.length

namespace LazyVector

def places (v : LazyVector) : List Place := placesIn v.lazyViews

structure Found.At (f : Found) (views : List View) (idx : Nat) : Prop where
  split : ∃ before, views = before ++ f.view :: f.rest ∧ before.length = f.dataId ∧
    idx = (placesIn before).length + f.idx
  inside : f.view.begin + f.idx < f.view.end_

variable {views : List View} {idx : Nat}

theorem seek_at (forward : Forward views) (small : idx < (placesIn views).length) :
    ∃ f, seek views idx = some f ∧ f.At views idx := by
  induction views generalizing idx with
  | nil => exact absurd small (Nat.not_lt_zero _)
  | cons w rest ih =>
    rw [placesIn_cons, List.length_append, w.length_places] at small
    have le := forward w (List.mem_cons_self ..)
    rw [seek]
    by_cases past : idx + w.begin ≥ w.end_
    · have shorter : idx - (w.end_ - w.begin) < (placesIn rest).length := by omega
      obtain ⟨f, found, ⟨before, rfl, count, position⟩, inside⟩ :=
        ih (fun w' mem => forward w' (List.mem_cons_of_mem _ mem)) shorter
      refine ⟨{ f with dataId := f.dataId + 1 }, ?_, ⟨w :: before, rfl, congrArg Nat.succ count, ?_⟩, inside⟩
      · rw [if_pos past, found]
        rfl
      · rw [placesIn_cons, List.length_append, w.length_places]
        dsimp only
        omega
    · rw [if_neg past]
      exact ⟨⟨0, idx, w, rest⟩, rfl, ⟨[], rfl, rfl, (Nat.zero_add _).symm⟩, by dsimp only; omega⟩

theorem seek_none (forward : Forward views) (large : (placesIn views).length ≤ idx) :
    seek views idx = none := by
  induction views generalizing idx with
  | nil => rfl
  | cons w rest ih =>
    rw [placesIn_cons, List.length_append, w.length_places] at large
    have le := forward w (List.mem_cons_self ..)
    rw [seek, if_pos (by omega), ih (fun w' mem => forward w' (List.mem_cons_of_mem _ mem)) (by omega)]
    rfl

section
variable {f : Found} {views : List View} {idx : Nat}

theorem Found.At.getElem? (found : f.At views idx) :
    (placesIn views)[idx]? = some ⟨f.view.lazyData, f.idx + f.view.begin⟩ := by
  obtain ⟨⟨before, rfl, -, rfl⟩, inside⟩ := found
  rw [placesIn_append, List.getElem?_append_right (Nat.le_add_right ..), Nat.add_sub_cancel_left, placesIn_cons,
    List.getElem?_append_left (by rw [View.length_places]; omega), View.places, getElem?_placesOf inside, Nat.add_comm]

theorem Found.At.halves (found : f.At views idx) : (placesIn views).take idx =
      placesIn (views.take f.dataId) ++ placesOf f.view.lazyData f.view.begin (f.view.begin + f.idx) ∧
    (placesIn views).drop idx =
      placesOf f.view.lazyData (f.view.begin + f.idx) f.view.end_ ++ placesIn f.rest := by
  obtain ⟨⟨before, rfl, count, rfl⟩, inside⟩ := found
  have parts : f.view.places = placesOf f.view.lazyData f.view.begin (f.view.begin + f.idx) ++
      placesOf f.view.lazyData (f.view.begin + f.idx) f.view.end_ :=
    (placesOf_append (Nat.le_add_right ..) (Nat.le_of_lt inside)).symm
  have length : (placesIn before).length + f.idx =
      (placesIn before ++ placesOf f.view.lazyData f.view.begin (f.view.begin + f.idx)).length := by
    rw [List.length_append, length_placesOf, Nat.add_sub_cancel_left]
  have whole : placesIn (before ++ f.view :: f.rest) =
      (placesIn before ++ placesOf f.view.lazyData f.view.begin (f.view.begin + f.idx)) ++
        (placesOf f.view.lazyData (f.view.begin + f.idx) f.view.end_ ++ placesIn f.rest) := by
    rw [placesIn_append, placesIn_cons, parts, List.append_assoc, List.append_assoc]
  rw [whole, length, List.take_left, List.drop_left, ← count, List.take_left]
  exact ⟨rfl, rfl⟩

end

section
variable {T : Type} {h : List (List T)} {v : LazyVector}

structure Intact (h : List (List T)) (v : LazyVector) : Prop where
  views : ∀ w ∈ v.lazyViews, w.Within h
  total : v.totalItemNum = v.places.length

theorem Intact.forward (intact : Intact h v) : Forward v.lazyViews := fun w mem => (intact.views w mem).forward

theorem index_eq (intact : Intact h v) (i : Nat) : v.index i = v.places[i]? := by
  rw [index, intact.total]
  by_cases small : i < v.places.length
  · obtain ⟨f, found, at_⟩ := seek_at intact.forward small
    rw [if_pos small, found, places, at_.getElem?]
    rfl
  · rw [if_neg small, List.getElem?_eq_none (Nat.not_lt.1 small)]

theorem Intact.empty (h : List (List T)) : Intact h clearWithoutAppend := ⟨fun _ mem => (List.not_mem_nil mem).elim, rfl⟩

theorem Intact.pushBackView (intact : Intact h v) (within : w.Within h) :
    Intact h (v.pushBackView w) ∧ (v.pushBackView w).places = v.places ++ w.places := by
  rw [LazyVector.pushBackView]
  by_cases some_ : w.end_ - w.begin > 0
  · have places : (⟨v.lazyViews ++ [w], v.totalItemNum + (w.end_ - w.begin)⟩ : LazyVector).places =
        v.places ++ w.places := by simp [LazyVector.places]
    rw [if_pos some_]
    refine ⟨⟨fun w' mem => ?_, ?_⟩, places⟩
    · rcases List.mem_append.1 mem with old | new
      · exact intact.views w' old
      · rw [List.mem_singleton.1 new]
        exact within
    · rw [places, List.length_append, w.length_places, ← intact.total]
  · rw [if_neg some_, w.places_nil (by omega), List.append_nil]
    exact ⟨intact, rfl⟩

theorem Intact.pushBackViews (intact : Intact h v) (within : ∀ w ∈ views, w.Within h) :
    Intact h (views.foldl LazyVector.pushBackView v) ∧
      (views.foldl LazyVector.pushBackView v).places = v.places ++ placesIn views := by
  induction views generalizing v with
  | nil => exact ⟨intact, (List.append_nil _).symm⟩
  | cons w views ih =>
    obtain ⟨intact', places⟩ := intact.pushBackView (within w (List.mem_cons_self ..))
    obtain ⟨intact'', places'⟩ := ih intact' fun w' mem => within w' (List.mem_cons_of_mem _ mem)
    exact ⟨intact'', by rw [List.foldl_cons, places', places, placesIn_cons, List.append_assoc]⟩

theorem Intact.merge {another : LazyVector} (intact : Intact h v) (intact' : Intact h another) :
    Intact h (v.merge another) ∧ (v.merge another).places = v.places ++ another.places := by
  have places : (v.merge another).places = v.places ++ another.places := placesIn_append ..
  refine ⟨⟨fun w mem => ?_, ?_⟩, places⟩
  · rcases List.mem_append.1 mem with old | new
    · exact intact.views w old
    · exact intact'.views w new
  · rw [places, List.length_append, ← intact.total, ← intact'.total]
    rfl

theorem truncate_eq (before rest : List View) (w : View) (change : View → View) :
    ((before ++ w :: rest).take (before.length + 1)).modify before.length change = before ++ [change w] := by
  induction before with
  | nil => rfl
  | cons first before ih =>
    rw [List.cons_append, List.length_cons, List.take_succ_cons, List.modify_succ_cons, ih]
    rfl

theorem Intact.cut (intact : Intact h v) (small : idx < v.totalItemNum) (tail : LazyVector) :
    ∃ v' tail', v.cut idx tail = some (v', tail') ∧ Intact h v' ∧ Intact h tail' ∧
      v'.places = v.places.take idx ∧ tail'.places = v.places.drop idx := by
  obtain ⟨f, found, at_⟩ := seek_at intact.forward (intact.total ▸ small)
  obtain ⟨before', after⟩ := at_.halves
  obtain ⟨⟨before, split, count, -⟩, inside⟩ := at_
  obtain ⟨-, data, there, fits⟩ := intact.views f.view (by simp [split])
  have rest : ∀ w ∈ f.rest, w.Within h := fun w mem => intact.views w (by simp [split, mem])
  obtain ⟨intact₁, places₁⟩ := (Intact.empty h).pushBackView
    (w := ⟨f.view.begin + f.idx, f.view.end_, true, f.view.lazyData⟩) ⟨Nat.le_of_lt inside, data, there, fits⟩
  obtain ⟨intact₂, places₂⟩ := intact₁.pushBackViews rest
  let views := before ++ [{ f.view with end_ := f.idx + f.view.begin, pushable := false }]
  have places' : LazyVector.places ⟨views, idx⟩ = v.places.take idx := by
    rw [LazyVector.places, LazyVector.places, before', split, ← count, List.take_left]
    simp [views, View.places, Nat.add_comm]
  refine ⟨⟨views, idx⟩, _, ?_, ⟨fun w mem => ?_, ?_⟩, intact₂, places', ?_⟩
  · simp only [LazyVector.cut, if_pos small, found, Option.bind_eq_bind, Option.bind_some, ← count]
    rw [split, truncate_eq]
    rfl
  · rcases List.mem_append.1 mem with old | new
    · exact intact.views w (by simp [split, old])
    · rw [List.mem_singleton.1 new]
      exact ⟨Nat.le_add_left .., data, there, by dsimp only; omega⟩
  · rw [places', List.length_take, ← intact.total]
    dsimp only
    omega
  · rw [places₂, places₁]
    exact after.symm

section
variable {beginIdx endIdx : Nat}

theorem Found.At.between {f g : Found} {i k : Nat} (found : f.At views i)
    (found' : g.At (f.view :: f.rest) (f.idx + k)) : ((placesIn views).drop i).take k =
      (placesIn ((f.view :: f.rest).take g.dataId) ++
        placesOf g.view.lazyData g.view.begin (g.view.begin + g.idx)).drop f.idx := by
  obtain ⟨⟨before, rfl, -, rfl⟩, -⟩ := found
  rw [← found'.halves.1, placesIn_append, ← List.drop_drop, List.drop_left, List.drop_take, Nat.add_sub_cancel_left]

theorem Intact.sub (intact : Intact h v) (lt : beginIdx < endIdx) (below : endIdx < v.totalItemNum) :
    ∃ u, v.sub h beginIdx endIdx = some (h ++ [[]] ++ [[]], u) ∧ Intact h u ∧
      u.places = (v.places.drop beginIdx).take (endIdx - beginIdx) := by
  have first : beginIdx < (placesIn v.lazyViews).length := by
    rw [← LazyVector.places, ← intact.total]
    omega
  obtain ⟨f, found, at_⟩ := seek_at intact.forward first
  obtain ⟨⟨before, split, -, position⟩, inside⟩ := id at_
  have within : ∀ w ∈ f.view :: f.rest, w.Within h := fun w mem =>
    intact.views w (by rw [split]; exact List.mem_append_right _ mem)
  have total : v.totalItemNum = (placesIn before).length + (placesIn (f.view :: f.rest)).length := by
    rw [intact.total, LazyVector.places, split, placesIn_append, List.length_append]
  have index : f.idx + endIdx - beginIdx = f.idx + (endIdx - beginIdx) := by omega
  have second : f.idx + (endIdx - beginIdx) < (placesIn (f.view :: f.rest)).length := by omega
  obtain ⟨g, found', at_'⟩ := seek_at (fun w mem => (within w mem).forward) second
  have between : (v.places.drop beginIdx).take (endIdx - beginIdx) = _ := at_.between at_'
  obtain ⟨⟨before', split', count, position'⟩, inside'⟩ := at_'
  obtain ⟨-, data, there, fits⟩ := within f.view (List.mem_cons_self ..)
  have legal : beginIdx < endIdx ∧ endIdx ≤ v.totalItemNum := ⟨lt, Nat.le_of_lt below⟩
  cases before' with
  | nil =>
    have same : f.view = g.view := (List.cons.inj split').1
    rw [List.length_nil] at count
    rw [placesIn_nil, List.length_nil, Nat.zero_add] at position'
    rw [← same] at inside'
    obtain ⟨intact', places⟩ := (Intact.empty h).pushBackView
      (w := ⟨f.view.begin + f.idx, f.view.begin + g.idx, false, f.view.lazyData⟩)
      ⟨by dsimp only; omega, data, there, by dsimp only; omega⟩
    refine ⟨_, ?_, intact', ?_⟩
    · simp [LazyVector.sub, if_pos legal, found, index, found', if_pos count.symm, new, clear,
        appendANewLazyData]
    · rw [places, between, ← count, ← same]
      simp only [List.take_zero, placesIn_nil, List.nil_append, drop_placesOf]
      rfl
  | cons first before' =>
    obtain ⟨rfl, rest⟩ := List.cons.inj split'
    rw [List.length_cons] at count
    obtain ⟨-, data', there', fits'⟩ := within g.view (by rw [split']; exact List.mem_append_right _ (List.mem_cons_self ..))
    obtain ⟨intact₁, places₁⟩ := (Intact.empty h).pushBackView
      (w := ⟨f.view.begin + f.idx, f.view.end_, f.view.pushable, f.view.lazyData⟩) ⟨Nat.le_of_lt inside, data, there, fits⟩
    have middle : ∀ w ∈ before', w.Within h := fun w mem =>
      within w (by rw [split']; exact List.mem_append_left _ (List.mem_cons_of_mem _ mem))
    obtain ⟨intact₂, places₂⟩ := intact₁.pushBackViews middle
    obtain ⟨intact₃, places₃⟩ := intact₂.pushBackView (w := ⟨g.view.begin, g.view.begin + g.idx, false, g.view.lazyData⟩)
      ⟨Nat.le_add_right .., data', there', by dsimp only; omega⟩
    refine ⟨_, ?_, intact₃, ?_⟩
    · have between : f.rest.take (g.dataId - 1) = before' := by
        rw [rest, ← count, Nat.add_sub_cancel]
        exact List.take_left
      have two : ¬ g.dataId = 0 := by omega
      simp [LazyVector.sub, if_pos legal, found, index, found', if_neg two, between, new, clear,
        appendANewLazyData]
    · have views : (f.view :: f.rest).take g.dataId = f.view :: before' := by
        rw [rest, ← count, List.take_succ_cons]
        exact congrArg _ List.take_left
      have reaches : f.idx ≤ f.view.places.length := by
        rw [View.length_places]
        omega
      rw [between, views, placesIn_cons, List.append_assoc, List.drop_append_of_le_length reaches, View.places,
        drop_placesOf, places₃, places₂, places₁]
      simp [LazyVector.places, clearWithoutAppend, View.places]

theorem sub_all (intact : Intact h v) (lt : beginIdx < v.totalItemNum) :
    v.sub h beginIdx v.totalItemNum = none := by
  obtain ⟨f, found, ⟨before, split, -, position⟩, inside⟩ := seek_at intact.forward (intact.total ▸ lt)
  have forward : Forward (f.view :: f.rest) := fun w mem => intact.forward w (by rw [split]; exact List.mem_append_right _ mem)
  have total : v.totalItemNum = (placesIn before).length + (placesIn (f.view :: f.rest)).length := by
    rw [intact.total, LazyVector.places, split, placesIn_append, List.length_append]
  have large : (placesIn (f.view :: f.rest)).length ≤ f.idx + v.totalItemNum - beginIdx := by omega
  have past := seek_none forward large
  simp only [LazyVector.sub, if_pos (And.intro lt (Nat.le_refl _)), found, past, Option.bind_eq_bind, Option.bind_some, Option.bind_none]

end

end

end LazyVector

end Prpc.LazyVectors
