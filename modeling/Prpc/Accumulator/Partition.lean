import Prpc.Accumulator.Aggregators

namespace Prpc.Aggregator
open Lib

/-- How an aggregator goes through an archive: what is written is an object, with what it stands for. -/
structure Archived (S : Type) where
  Obj : Type
  val : Obj → S
  init : S
  serialize : Obj → List Byte
  deserialize : S → Reader (List Byte) S

namespace Archived
variable {S : Type} {a : Archived S} {s t : S}

def RoundTrips (a : Archived S) : Prop := ∀ x : a.Obj, Delimits (a.deserialize a.init) (a.serialize x ++ ·) (a.val x)

def Carried (a : Archived S) (s t : S) : Prop :=
  ∃ x rest left, a.val x = s ∧ a.deserialize a.init (a.serialize x ++ rest) = some (t, left)

theorem RoundTrips.carried (roundTrips : a.RoundTrips) (carried : a.Carried s t) : t = s := by
  obtain ⟨x, rest, left, rfl, read⟩ := carried
  rw [roundTrips x rest] at read
  cases read
  rfl

end Archived

def MergesAnywhere {VAL S : Type} (M : Merging VAL S) (a : Archived S) : Prop :=
  M.PartitionIndependent a.Carried ∧ a.RoundTrips

variable {signed : Bool} {width : Width}

theorem mergesAnywhere {VAL S : Type} {M : Merging VAL S} {a : Archived S} (roundTrips : a.RoundTrips)
    (add_comm : ∀ s v w, M.add (M.add s v) w = M.add (M.add s w) v) (join_empty : ∀ s, M.join s M.empty = s)
    (join_add : ∀ s t v, M.join s (M.add t v) = M.add (M.join s t) v) : MergesAnywhere M a :=
  ⟨Merging.Lawful.partitionIndependent ⟨add_comm, join_empty, join_add, fun _ _ => roundTrips.carried⟩, roundTrips⟩

namespace SumAggregator

def merging (VAL : Type) [Zero VAL] [Add VAL] : Merging VAL (SumAggregator VAL) := ⟨init, mergeValue, mergeAggregator⟩

def archived (signed : Bool) (width : Width) : Archived (SumAggregator (Integer signed width)) :=
  ⟨_, id, init, serialize, deserialize⟩

theorem anywhere : MergesAnywhere (merging (Integer signed width)) (archived signed width) := by
  refine mergesAnywhere (fun agg => (agg.value.delimits_get _).ret _) (fun s v w => ?_) (fun s => ?_) fun s t v => ?_
  · exact congrArg mk (add_right_comm ..)
  · exact congrArg mk (add_zero _)
  · exact congrArg mk (add_assoc ..).symm

end SumAggregator

namespace AvgAggregator

def merging (VAL : Type) [Zero VAL] [Add VAL] : Merging VAL (AvgAggregator VAL) := ⟨init, mergeValue, mergeAggregator⟩

def archived (signed : Bool) (width : Width) : Archived (AvgAggregator (Integer signed width)) :=
  ⟨_, id, init, serialize, deserialize⟩

theorem anywhere : MergesAnywhere (merging (Integer signed width)) (archived signed width) := by
  refine mergesAnywhere (fun agg => ?_) (fun s v w => ?_) (fun s => ?_) fun s t v => ?_
  · exact (agg.value.delimits_get _).append ((agg.count.delimits_get _).ret _)
  · exact congrArg₂ mk (add_right_comm ..) rfl
  · exact congrArg₂ mk (add_zero _) (add_zero _)
  · exact congrArg₂ mk (add_assoc ..).symm (add_assoc ..).symm

end AvgAggregator

namespace KeyedAvgAggregator
variable {VAL KEY : Type} [DecidableEq KEY] [AddCommMonoid VAL]

def merging (VAL KEY : Type) [DecidableEq KEY] [AddCommMonoid VAL] :
    Merging (KEY × VAL) (KeyedAvgAggregator VAL KEY) :=
  ⟨init, mergeValue, mergeAggregator⟩

theorem lookup_foldl_bump (entries : List ((_ : KEY) × VAL × Size)) (distinct : entries.NodupKeys)
    (value : Finmap fun _ : KEY => VAL × Size) (key : KEY) :
    (entries.foldl (fun value entry => bump value entry.1 entry.2) value).lookup key =
      match entries.dlookup key with
      | none => value.lookup key
      | some more => some ((value.lookup key).getD (0, 0) + more) := by
  induction entries generalizing value with
  | nil => rfl
  | cons entry entries ih =>
    obtain ⟨key', more⟩ := entry
    obtain ⟨new, distinct⟩ := List.nodupKeys_cons.1 distinct
    rw [List.foldl_cons, ih distinct, lookup_bump]
    rcases eq_or_ne key key' with rfl | ne
    · rw [List.dlookup_eq_none.2 new, List.dlookup_cons_eq, if_pos rfl]
    · have elsewhere : (⟨key', more⟩ :: entries).dlookup key = entries.dlookup key :=
        List.dlookup_cons_ne entries _ ne
      rw [elsewhere, if_neg ne]

theorem lookup_mergeAggregator (agg other : KeyedAvgAggregator VAL KEY) (key : KEY) :
    (agg.mergeAggregator other).value.lookup key = match other.value.lookup key with
      | none => agg.value.lookup key
      | some more => some ((agg.value.lookup key).getD (0, 0) + more) := by
  obtain ⟨value⟩ := other
  induction value using Finmap.induction_on with
  | _ table => exact lookup_foldl_bump table.entries table.nodupKeys agg.value key

theorem mergeAggregator_mergeValue (agg other : KeyedAvgAggregator VAL KEY) (val : KEY × VAL) :
    agg.mergeAggregator (other.mergeValue val) = (agg.mergeAggregator other).mergeValue val := by
  refine congrArg mk (Finmap.ext_lookup fun key => ?_)
  show (agg.mergeAggregator (other.mergeValue val)).value.lookup key = (bump _ val.1 (val.2, 1)).lookup key
  rw [lookup_bump, lookup_mergeAggregator, lookup_mergeAggregator, lookup_mergeAggregator, mergeValue, lookup_bump]
  rcases eq_or_ne key val.1 with rfl | ne
  · rw [if_pos rfl, if_pos rfl]
    cases other.value.lookup val.1 with
    | none => simp
    | some more => simp [add_assoc]
  · rw [if_neg ne, if_neg ne]

def archive (signed : Bool) (width : Width) (key : Archive.Ty) :
    Archived (KeyedAvgAggregator (Integer signed width) key.carrier.Val) :=
  ⟨(archived signed width key).carrier.Obj, fun table => ⟨(archived signed width key).carrier.val table⟩, init,
    serialize, deserialize⟩

theorem anywhere (key : Archive.Ty) :
    MergesAnywhere (merging (Integer signed width) key.carrier.Val) (archive signed width key) := by
  refine mergesAnywhere (fun table => ?_) (fun s v w => ?_) (fun s => rfl) mergeAggregator_mergeValue
  · exact ((archived signed width key).roundTrips .binary table _).ret _
  · exact congrArg mk (bump_comm ..)

end KeyedAvgAggregator

namespace ArithmeticMaxAggregator

def merging (VAL : Type) [NumericLimits VAL] [LinearOrder VAL] : Merging VAL (ArithmeticMaxAggregator VAL) :=
  ⟨init, mergeValue, mergeAggregator⟩

theorem mergeValue_eq {VAL : Type} [LinearOrder VAL] (agg : ArithmeticMaxAggregator VAL) (val : VAL) :
    agg.mergeValue val = ⟨max agg.value val⟩ := by
  rw [mergeValue]
  split
  · rename_i gt
    rw [max_eq_right (le_of_lt gt)]
  · rename_i le
    rw [max_eq_left (not_lt.1 le)]

def archived (signed : Bool) (width : Width) : Archived (ArithmeticMaxAggregator (Integer signed width)) :=
  ⟨_, id, init, serialize, deserialize⟩

theorem anywhere : MergesAnywhere (merging (Integer signed width)) (archived signed width) := by
  refine mergesAnywhere (fun agg => (agg.value.delimits_get _).ret _) (fun s v w => ?_) (fun s => ?_) fun s t v => ?_
  · simp [merging, mergeValue_eq, max_right_comm]
  · simp [merging, mergeAggregator, mergeValue_eq, init, max_eq_left s.value.min_le]
  · simp [merging, mergeAggregator, mergeValue_eq, max_assoc]

end ArithmeticMaxAggregator

namespace ArithmeticMinAggregator

def merging (VAL : Type) [NumericLimits VAL] [LinearOrder VAL] : Merging VAL (ArithmeticMinAggregator VAL) :=
  ⟨init, mergeValue, mergeAggregator⟩

theorem mergeValue_eq {VAL : Type} [LinearOrder VAL] (agg : ArithmeticMinAggregator VAL) (val : VAL) :
    agg.mergeValue val = ⟨min agg.value val⟩ := by
  rw [mergeValue]
  split
  · rename_i lt
    rw [min_eq_right (le_of_lt lt)]
  · rename_i le
    rw [min_eq_left (not_lt.1 le)]

def archived (signed : Bool) (width : Width) : Archived (ArithmeticMinAggregator (Integer signed width)) :=
  ⟨_, id, init, serialize, deserialize⟩

theorem anywhere : MergesAnywhere (merging (Integer signed width)) (archived signed width) := by
  refine mergesAnywhere (fun agg => (agg.value.delimits_get _).ret _) (fun s v w => ?_) (fun s => ?_) fun s t v => ?_
  · simp [merging, mergeValue_eq, min_right_comm]
  · simp [merging, mergeAggregator, mergeValue_eq, init, min_eq_left s.value.le_max]
  · simp [merging, mergeAggregator, mergeValue_eq, min_assoc]

end ArithmeticMinAggregator

namespace TimerAggregator

def merging (VAL : Type) [Zero VAL] [Add VAL] [Mul VAL] [NumericLimits VAL] [LinearOrder VAL] :
    Merging VAL (TimerAggregator VAL) :=
  ⟨init, mergeValue, mergeAggregator⟩

section
variable {VAL : Type} [Add VAL] [LinearOrder VAL]

theorem mergeValue_eq [Mul VAL] (agg : TimerAggregator VAL) (val : VAL) : agg.mergeValue val =
    ⟨agg.sum + val, agg.sum2 + val * val, Min.min agg.min val, Max.max agg.max val, agg.count + 1⟩ := by
  rw [mergeValue, min_comm, min_def_lt, max_def_lt]

theorem mergeAggregator_eq (agg other : TimerAggregator VAL) : agg.mergeAggregator other =
    ⟨agg.sum + other.sum, agg.sum2 + other.sum2, Min.min agg.min other.min, Max.max agg.max other.max,
      agg.count + other.count⟩ := by
  rw [mergeAggregator, min_comm, min_def_lt, max_def_lt]

end

def archived (signed : Bool) (width : Width) : Archived (TimerAggregator (Integer signed width)) :=
  ⟨_, id, init, serialize, deserialize⟩

theorem roundTrips : (archived signed width).RoundTrips := fun agg =>
  (agg.sum.delimits_get _).append ((agg.sum2.delimits_get _).append ((agg.min.delimits_get _).append
    ((agg.max.delimits_get _).append ((agg.count.delimits_get _).ret _))))

theorem anywhere : MergesAnywhere (merging (Integer signed width)) (archived signed width) := by
  refine mergesAnywhere roundTrips (fun s v w => ?_) (fun s => ?_) fun s t v => ?_
  · simp [merging, mergeValue_eq, add_right_comm, min_right_comm, max_right_comm]
  · simp [merging, mergeAggregator_eq, init, min_eq_left s.min.le_max, max_eq_left s.max.min_le]
  · simp [merging, mergeValue_eq, mergeAggregator_eq, add_assoc, min_assoc, max_assoc]

end TimerAggregator

theorem aggregators_partition_independent (signed : Bool) (width : Width) (key : Archive.Ty) :
    MergesAnywhere (SumAggregator.merging (Integer signed width)) (SumAggregator.archived signed width) ∧
    MergesAnywhere (AvgAggregator.merging (Integer signed width)) (AvgAggregator.archived signed width) ∧
    MergesAnywhere (KeyedAvgAggregator.merging (Integer signed width) key.carrier.Val)
      (KeyedAvgAggregator.archive signed width key) ∧
    MergesAnywhere (ArithmeticMaxAggregator.merging (Integer signed width))
      (ArithmeticMaxAggregator.archived signed width) ∧
    MergesAnywhere (ArithmeticMinAggregator.merging (Integer signed width))
      (ArithmeticMinAggregator.archived signed width) ∧
    MergesAnywhere (TimerAggregator.merging (Integer signed width)) (TimerAggregator.archived signed width) :=
  ⟨SumAggregator.anywhere, AvgAggregator.anywhere, KeyedAvgAggregator.anywhere key,
    ArithmeticMaxAggregator.anywhere, ArithmeticMinAggregator.anywhere, TimerAggregator.anywhere⟩

end Prpc.Aggregator
