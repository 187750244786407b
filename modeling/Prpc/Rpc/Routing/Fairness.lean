import Prpc.Lib.RoundRobin
import Prpc.Rpc.Routing.Balance

/-!
One index goes round the dealers of all sids.
-/

namespace Prpc.Routing.FairQueue
open Lib

variable {D Q : Type} {q q' : FairQueue D Q} {sid s : Int}

def turn (q : FairQueue D Q) (sid : Int) : Option (List (Int × D) × FairQueue D Q) :=
  match q.next sid, q.chooseSid sid with
  | some (some d, q'), some (some s, _) => some ([(s, d)], q')
  | some (_, q'), _ => some ([], q')
  | none, _ => none

def turns : FairQueue D Q → List Int → Option (List (Int × D) × FairQueue D Q)
  | q, [] => some ([], q)
  | q, sid :: sids => (q.turn sid).bind fun r => (turns r.2 sids).map fun rest => (r.1 ++ rest.1, rest.2)

def returned (s : Int) (log : List (Int × D)) : List D := (log.filter (·.1 = s)).map (·.2)

/-- Among as many consecutive calls resolved to one sid as it has dealers, each of them is returned once. -/
def Fair [DecidableEq D] (q : FairQueue D Q) (log : List (Int × D)) : Prop :=
  ∀ s window, window <:+: returned s log → window.length = (q.dealers s).length →
    ∀ d ∈ q.dealers s, window.count d = 1

def OneSid (q : FairQueue D Q) : Prop := ∀ s s', 2 ≤ (q.dealers s).length → s' ≠ s → q.dealers s' = []

theorem turns_append (q : FairQueue D Q) (xs ys : List Int) :
    q.turns (xs ++ ys) = (q.turns xs).bind fun r => (r.2.turns ys).map fun rest => (r.1 ++ rest.1, rest.2) := by
  induction xs generalizing q with
  | nil =>
    rw [List.nil_append, turns, Option.bind_some]
    exact (Option.map_id' ..).symm
  | cons sid xs ih =>
    rw [List.cons_append, turns, turns]
    cases q.turn sid with
    | none => rfl
    | some r =>
      rw [Option.bind_some, Option.bind_some, ih]
      cases r.2.turns xs with
      | none => rfl
      | some mid =>
        simp only [Option.bind_some, Option.map_some]
        cases mid.2.turns ys with
        | none => rfl
        | some rest => simp

def stepIndex (i n : Nat) : Nat := if i + 1 ≥ n then 0 else i + 1

def nextIndex (q : FairQueue D Q) (n : Nat) : Nat :=
  let index := q.counters.dealerIdRrIndex + 1
  if index.toNat ≥ n then 0 else index.toNat

theorem nextIndex_lt {n : Nat} (pos : 0 < n) : q.nextIndex n < n := by
  rw [nextIndex]
  split
  · exact pos
  · omega

theorem nextIndex_of_le_one {n : Nat} (le : n ≤ 1) : q.nextIndex n = 0 := by
  rw [nextIndex]
  split <;> omega

theorem nextIndex_congr (same : q'.counters.dealerIdRrIndex = q.counters.dealerIdRrIndex) (n : Nat) :
    q'.nextIndex n = q.nextIndex n := by
  rw [nextIndex, nextIndex, same]

theorem nextIndex_eq_stepIndex {i n : Nat} (index : q.counters.dealerIdRrIndex = BitVec.ofNat 64 i)
    (small : i + 1 < 2 ^ 64) : q.nextIndex n = stepIndex i n := by
  have value : (q.counters.dealerIdRrIndex + 1).toNat = i + 1 := by
    rw [index, BitVec.toNat_add, BitVec.toNat_ofNat, show (1 : BitVec 64).toNat = 1 from rfl, Nat.mod_add_mod]
    exact Nat.mod_eq_of_lt small
  rw [nextIndex, value, stepIndex]

theorem stepIndex_eq_mod {i n : Nat} (lt : i < n) : stepIndex i n = (i + 1) % n := by
  rw [stepIndex]
  split
  · rw [show i + 1 = n by omega, Nat.mod_self]
  · exact (Nat.mod_eq_of_lt (by omega)).symm

def Fits (q : FairQueue D Q) : Prop := ∀ s, (q.dealers s).length < 2 ^ 64

structure Took (q q' : FairQueue D Q) (s : Int) (d : D) : Prop where
  same : SameButCounters q q'
  some_dealer : 0 < (q.dealers s).length
  dealer : (q.dealers s)[q.nextIndex (q.dealers s).length]? = some d
  index : q'.counters.dealerIdRrIndex = BitVec.ofNat 64 (q.nextIndex (q.dealers s).length)

theorem takeDealer_eq {ds : List D} (some_dealer : 0 < ds.length) : ∃ d, ds[q.nextIndex ds.length]? = some d ∧
    q.takeDealer ds = some (some d,
      { q with counters := { q.counters with dealerIdRrIndex := BitVec.ofNat 64 (q.nextIndex ds.length) } }) := by
  have lt := nextIndex_lt (q := q) some_dealer
  refine ⟨_, List.getElem?_eq_getElem lt, ?_⟩
  have index : (if (q.counters.dealerIdRrIndex + 1).toNat ≥ ds.length then 0
      else q.counters.dealerIdRrIndex + 1) = BitVec.ofNat 64 (q.nextIndex ds.length) := by
    rw [nextIndex]
    split
    · rfl
    · rw [BitVec.ofNat_toNat, BitVec.setWidth_eq]
  have value : (BitVec.ofNat 64 (q.nextIndex ds.length)).toNat = q.nextIndex ds.length := by
    rw [← index, nextIndex]
    split <;> rfl
  rw [takeDealer, if_neg (List.ne_nil_of_length_pos some_dealer)]
  simp only [index]
  rw [value, List.getElem?_eq_getElem lt]
  rfl

theorem turn_cases (balanced : q.Balanced) (sid : Int) : ∃ log q', q.turn sid = some (log, q') ∧
    (log = [] ∧ SameButCounters q q' ∧ q'.counters.dealerIdRrIndex = q.counters.dealerIdRrIndex ∨
      ∃ s d, log = [(s, d)] ∧ Took q q' s d) ∧
    (sid ≠ -1 → q.dealers sid ≠ [] → ∃ d, log = [(sid, d)]) := by
  have chosen : ∃ r q₁, q.chooseSid sid = some (r, q₁) ∧ SameButCounters q q₁ ∧
      q₁.counters.dealerIdRrIndex = q.counters.dealerIdRrIndex ∧ (sid ≠ -1 → r = some sid) := by
    rw [chooseSid]
    split
    · rename_i any
      split
      · exact ⟨none, q, rfl, ⟨rfl, rfl, rfl⟩, rfl, fun one => absurd any one⟩
      · rename_i somebody
        have lt := Nat.mod_lt (q.counters.sidsRrIndex.signExtend 64).toNat (List.length_pos_iff.mpr somebody)
        rw [takeSid, List.getElem?_eq_getElem lt]
        exact ⟨_, _, rfl, sameButCounters q { q.counters with sidsRrIndex := q.counters.sidsRrIndex + 1 }, rfl,
          fun one => absurd any one⟩
    · exact ⟨some sid, q, rfl, ⟨rfl, rfl, rfl⟩, rfl, fun _ => rfl⟩
  obtain ⟨r, q₁, choose, same, index, direct⟩ := chosen
  rw [turn, next, choose]
  cases r with
  | none => exact ⟨[], q₁, rfl, .inl ⟨rfl, same, index⟩, fun one => by cases direct one⟩
  | some s =>
    simp only
    rw [same.sid2dealers]
    cases found : q.sid2dealers.lookup s with
    | none =>
      have nobody := balanced.lookup_eq_none.1 found
      refine ⟨[], q₁, rfl, .inl ⟨rfl, same, index⟩, fun one some_dealer => ?_⟩
      cases direct one
      exact absurd nobody some_dealer
    | some ds =>
      have here : q.dealers s = ds := by simp [dealers, found]
      have some_dealer : 0 < ds.length := List.length_pos_iff.2 fun none_ =>
        balanced.some_dealer s (none_ ▸ found)
      obtain ⟨d, dealer, took⟩ := takeDealer_eq (q := q₁) some_dealer
      rw [nextIndex_congr index] at dealer took
      refine ⟨[(s, d)], { q₁ with counters :=
          { q₁.counters with dealerIdRrIndex := BitVec.ofNat 64 (q.nextIndex ds.length) } },
        by simp only [took], .inr ⟨s, d, rfl, ?_⟩, fun one _ => ?_⟩
      · refine ⟨⟨same.sid2dealers, same.sids, same.sid2cache⟩, ?_, ?_, ?_⟩ <;> rw [here]
        · exact some_dealer
        · exact dealer
      · cases direct one
        exact ⟨d, rfl⟩

theorem turn_direct (balanced : q.Balanced) (one : s ≠ -1) (somebody : q.dealers s ≠ []) :
    ∃ d q', q.turn s = some ([(s, d)], q') ∧ Took q q' s d := by
  obtain ⟨log, q', turn, effect, direct⟩ := turn_cases balanced s
  obtain ⟨d, rfl⟩ := direct one somebody
  rcases effect with ⟨nothing, -⟩ | ⟨t, e, eq, took⟩
  · cases nothing
  · cases eq
    exact ⟨d, q', turn, took⟩

theorem Took.nextIndex_eq {d : D} (took : Took q q' s d) (fits : q.Fits) (n : Nat) :
    q'.nextIndex n = stepIndex (q.nextIndex (q.dealers s).length) n := by
  have lt := nextIndex_lt (q := q) took.some_dealer
  have small := fits s
  exact nextIndex_eq_stepIndex took.index (by omega)

theorem Took.nextIndex_self {d : D} (took : Took q q' s d) (fits : q.Fits) :
    q'.nextIndex (q.dealers s).length = (q.nextIndex (q.dealers s).length + 1) % (q.dealers s).length := by
  rw [took.nextIndex_eq fits, stepIndex_eq_mod (nextIndex_lt took.some_dealer)]

theorem SameButCounters.fits (same : SameButCounters q q') (fits : q.Fits) : q'.Fits := by
  intro s
  rw [same.dealers_eq]
  exact fits s

theorem SameButCounters.oneSid (same : SameButCounters q q') (one : q.OneSid) : q'.OneSid := by
  intro s s'
  rw [same.dealers_eq]
  exact one s s'

theorem OneSid.takesTurns (balanced : q.Balanced) (fits : q.Fits) (one : q.OneSid) (sids : List Int) :
    ∃ log q', q.turns sids = some (log, q') ∧
      ∀ s, TakesTurns (q.dealers s) (returned s log) (q.nextIndex (q.dealers s).length) := by
  induction sids generalizing q with
  | nil => exact ⟨[], q, rfl, fun s => takesTurns_nil _ _⟩
  | cons sid sids ih =>
    obtain ⟨log, q₁, turn, effect, -⟩ := turn_cases balanced sid
    have same : SameButCounters q q₁ := by
      rcases effect with ⟨-, same, -⟩ | ⟨s, d, -, took⟩
      · exact same
      · exact took.same
    obtain ⟨rest, q₂, run, rounds⟩ := ih (same.balanced balanced) (same.fits fits) (same.oneSid one)
    rw [same.dealers_eq] at rounds
    refine ⟨log ++ rest, q₂, by rw [turns, turn, Option.bind_some, run]; rfl, fun s => ?_⟩
    rcases effect with ⟨rfl, -, index⟩ | ⟨t, d, rfl, took⟩
    · rw [List.nil_append, ← nextIndex_congr index]
      exact rounds s
    · by_cases eq : t = s
      · subst eq
        have cons : returned t ([(t, d)] ++ rest) = d :: returned t rest := by simp [returned]
        rw [cons]
        refine TakesTurns.cons ?_ (TakesTurns.mod ?_)
        · rw [Nat.mod_eq_of_lt (nextIndex_lt took.some_dealer)]
          exact took.dealer
        · rw [← took.nextIndex_self fits]
          exact rounds t
      · -- Another sid has been served, so `s` has one dealer at most, whose turn it always is.
        have skip : returned s ([(t, d)] ++ rest) = returned s rest := by simp [returned, eq]
        have few : (q.dealers s).length ≤ 1 := by
          by_contra many
          have nobody := one s t (by omega) eq
          have some_dealer := took.some_dealer
          rw [nobody] at some_dealer
          exact absurd some_dealer (Nat.lt_irrefl 0)
        rw [skip, nextIndex_of_le_one few, ← nextIndex_of_le_one (q := q₁) few]
        exact rounds s

theorem turns_replicate (balanced : q.Balanced) (fits : q.Fits) (one : s ≠ -1) (somebody : q.dealers s ≠ [])
    (m : Nat) : ∃ log q', q.turns (List.replicate (m + 1) s) = some (log, q') ∧ SameButCounters q q' ∧
      (returned s log).length = m + 1 ∧
      TakesTurns (q.dealers s) (returned s log) (q.nextIndex (q.dealers s).length) ∧
      q'.counters.dealerIdRrIndex =
        BitVec.ofNat 64 ((q.nextIndex (q.dealers s).length + m) % (q.dealers s).length) := by
  induction m generalizing q with
  | zero =>
    obtain ⟨d, q₁, turn, took⟩ := turn_direct balanced one somebody
    have inside := nextIndex_lt (q := q) took.some_dealer
    refine ⟨[(s, d)], q₁, by simp [turns, turn], took.same, by simp [returned], ?_, ?_⟩
    · have single : returned s [(s, d)] = [d] := by simp [returned]
      rw [single]
      refine TakesTurns.cons ?_ (takesTurns_nil _ _)
      rw [Nat.mod_eq_of_lt inside]
      exact took.dealer
    · rw [Nat.add_zero, Nat.mod_eq_of_lt inside]
      exact took.index
  | succ m ih =>
    obtain ⟨d, q₁, turn, took⟩ := turn_direct balanced one somebody
    have inside := nextIndex_lt (q := q) took.some_dealer
    obtain ⟨rest, q₂, run, same, length, rounds, index⟩ := ih (took.same.balanced balanced)
      (took.same.fits fits) (by rwa [took.same.dealers_eq])
    rw [took.same.dealers_eq] at rounds index
    rw [took.nextIndex_self fits] at rounds index
    have cons : returned s ([(s, d)] ++ rest) = d :: returned s rest := by simp [returned]
    refine ⟨[(s, d)] ++ rest, q₂, ?_, ⟨same.sid2dealers.trans took.same.sid2dealers,
      same.sids.trans took.same.sids, same.sid2cache.trans took.same.sid2cache⟩, ?_, ?_, ?_⟩
    · rw [List.replicate_succ, turns, turn, Option.bind_some, run]
      rfl
    · rw [cons, List.length_cons, length]
    · rw [cons]
      refine TakesTurns.cons ?_ rounds.mod
      rw [Nat.mod_eq_of_lt inside]
      exact took.dealer
    · rw [index, Nat.mod_add_mod, Nat.add_assoc, Nat.add_comm 1]

theorem exists_stepIndex_ne {a n : Nat} (pos : 0 < a) (several : 2 ≤ n) :
    ∃ i < n, stepIndex (stepIndex i a) n ≠ (i + 1) % n := by
  rcases Nat.lt_or_ge n a with shorter | longer
  · refine ⟨0, by omega, ?_⟩
    have first : stepIndex 0 a = 1 := if_neg (by omega)
    rw [first, stepIndex, Nat.mod_eq_of_lt (by omega)]
    split <;> omega
  · refine ⟨n - 1, by omega, ?_⟩
    have back : stepIndex (n - 1) a = 0 := if_pos (by omega)
    rw [back, stepIndex, if_neg (by omega), show n - 1 + 1 = n by omega, Nat.mod_self]
    omega

theorem exists_unfair [DecidableEq D] (balanced : q.Balanced) (fits : q.Fits) {s' : Int} (one : s ≠ -1)
    (one' : s' ≠ -1) (other : s' ≠ s) (several : 2 ≤ (q.dealers s).length) (somebody : q.dealers s' ≠ []) :
    ∃ sids log q', q.turns sids = some (log, q') ∧ ¬ q.Fair log := by
  have some_dealer : q.dealers s ≠ [] := List.ne_nil_of_length_pos (by omega)
  have pos : 0 < (q.dealers s').length := List.length_pos_iff.2 somebody
  obtain ⟨i, inside, elsewhere⟩ := exists_stepIndex_ne pos several
  -- First the dealers of `s` take turns until the last index taken is `i`.
  have start := nextIndex_lt (q := q) (n := (q.dealers s).length) (by omega)
  obtain ⟨log, q₁, run, same, length, rounds, index⟩ := turns_replicate balanced fits one some_dealer
    (2 * (q.dealers s).length + i - q.nextIndex (q.dealers s).length)
  rw [show q.nextIndex (q.dealers s).length + (2 * (q.dealers s).length + i - q.nextIndex (q.dealers s).length) =
      i + (q.dealers s).length * 2 by omega, Nat.add_mul_mod_self_left, Nat.mod_eq_of_lt inside] at index
  obtain ⟨d', q₂, turn', took'⟩ := turn_direct (same.balanced balanced) one'
    (by rwa [same.dealers_eq])
  obtain ⟨d, q₃, turn, took⟩ := turn_direct (took'.same.balanced (same.balanced balanced)) one
    (by rwa [took'.same.dealers_eq, same.dealers_eq])
  have calls : q.turns (List.replicate (2 * (q.dealers s).length + i - q.nextIndex (q.dealers s).length + 1) s ++
      [s', s]) = some (log ++ [(s', d'), (s, d)], q₃) := by
    rw [turns_append, run, Option.bind_some, turns, turn', Option.bind_some, turns, turn]
    rfl
  refine ⟨_, _, _, calls, fun fair => ?_⟩
  -- Then the index for `s` is not where it is due.
  have small := fits s
  have small' := fits s'
  have step' : q₁.nextIndex (q.dealers s').length = stepIndex i (q.dealers s').length :=
    nextIndex_eq_stepIndex index (by omega)
  have step : q₂.nextIndex (q.dealers s).length = stepIndex (stepIndex i (q.dealers s').length) (q.dealers s).length := by
    rw [took'.nextIndex_eq (same.fits fits), same.dealers_eq, step']
  have dealer := took.dealer
  rw [took'.same.dealers_eq, same.dealers_eq, step] at dealer
  have due : (q.nextIndex (q.dealers s).length + (returned s log).length) % (q.dealers s).length =
      (i + 1) % (q.dealers s).length := by
    rw [length, show q.nextIndex (q.dealers s).length +
        (2 * (q.dealers s).length + i - q.nextIndex (q.dealers s).length + 1) =
      i + 1 + (q.dealers s).length * 2 by omega, Nat.add_mul_mod_self_left]
  have valid : (i + 1) % (q.dealers s).length < (q.dealers s).length := Nat.mod_lt _ (by omega)
  have skipped := List.getElem?_eq_getElem valid
  have ne : d ≠ (q.dealers s)[(i + 1) % (q.dealers s).length] := by
    intro eq
    rw [eq, ← skipped] at dealer
    exact elsewhere ((List.getElem?_inj valid (balanced.nodup s)).1 dealer.symm).symm
  obtain ⟨window, part, whole, missing⟩ := rounds.leaves_out (balanced.nodup s) (by omega) ne
    (by rw [due, skipped])
  have all : returned s (log ++ [(s', d'), (s, d)]) = returned s log ++ [d] := by
    simp [returned, other]
  have once := fair s window (all ▸ part) whole _ (List.getElem_mem valid)
  rw [List.count_eq_zero_of_not_mem missing] at once
  cases once

/-- If no sid has dealers next to one that has several, every run of calls is fair to the dealers of every
sid; and otherwise some run is not, unless the sid is `-1`, which no call can ask for. -/
theorem dealers_take_turns [DecidableEq D] (q : FairQueue D Q) (balanced : q.Balanced) (fits : q.Fits) :
    (q.OneSid → ∀ sids, ∃ log q', q.turns sids = some (log, q') ∧ q.Fair log) ∧
    (q.dealers (-1) = [] → (∀ sids, ∃ log q', q.turns sids = some (log, q') ∧ q.Fair log) → q.OneSid) := by
  constructor
  · intro one sids
    obtain ⟨log, q', run, rounds⟩ := one.takesTurns balanced fits sids
    refine ⟨log, q', run, fun s window part whole d mem => ?_⟩
    rw [((rounds s).window part whole).count_eq]
    exact List.count_eq_one_of_mem (balanced.nodup s) mem
  · intro named fair s s' several other
    by_contra somebody
    have one : s ≠ -1 := by
      rintro rfl
      rw [named] at several
      exact absurd several (by simp)
    have one' : s' ≠ -1 := fun eq => somebody (eq ▸ named)
    obtain ⟨sids, log, q', run, unfair⟩ := exists_unfair balanced fits one one' other several somebody
    obtain ⟨log', q'', run', fair'⟩ := fair sids
    rw [run] at run'
    cases run'
    exact unfair fair'

def twoDealers : FairQueue Nat Nat := (((new ⟨0, 0⟩).addServerDealer 0 10).1.addServerDealer 0 11).1

def threeDealers : FairQueue Nat Nat := (twoDealers.addServerDealer 1 20).1

theorem balanced_twoDealers : twoDealers.Balanced :=
  ((balanced_new ⟨0, 0⟩).addServerDealer (by decide +kernel)).addServerDealer (by decide +kernel)

theorem dealers_twoDealers (s : Int) : twoDealers.dealers s = if s = 0 then [10, 11] else [] := by
  by_cases eq : s = 0
  · subst eq
    decide +kernel
  · simp [twoDealers, addServerDealer, appendDealer, new, dealers, eq, Finmap.lookup_insert_of_ne]

theorem dealers_take_turns_two : twoDealers.Balanced ∧ ∀ sids, ∃ log q',
    twoDealers.turns sids = some (log, q') ∧ twoDealers.Fair log := by
  refine ⟨balanced_twoDealers,
    (dealers_take_turns twoDealers balanced_twoDealers fun s => ?_).1 fun s s' several other => ?_⟩
  · rw [dealers_twoDealers]
    split <;> decide
  · rw [dealers_twoDealers] at several ⊢
    split at several
    · rename_i eq
      exact if_neg (eq ▸ other)
    · exact absurd several (by decide)

/-- Each call for sid 1 puts the index back, so the two calls for sid 0 return one dealer. -/
theorem shared_index_unfair : threeDealers.Balanced ∧
    (threeDealers.turns [0, 1, 0]).map (·.1) = some [(0, 11), (1, 20), (0, 11)] ∧
    ¬ threeDealers.Fair [(0, 11), (1, 20), (0, 11)] := by
  refine ⟨balanced_twoDealers.addServerDealer (by decide +kernel), by decide +kernel, fun fair => ?_⟩
  have once := fair 0 [11, 11] ⟨[], [], by decide⟩ (by decide +kernel) 10 (by decide +kernel)
  exact absurd once (by decide)

end Prpc.Routing.FairQueue
