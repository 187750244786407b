import Mathlib.Data.BitVec
import Mathlib.Data.Finmap
import Mathlib.Order.Basic
import Prpc.Lib.Merging
import Prpc.Rpc.Archive.RoundTrip

/-!
The classes derived from `Aggregator`: how they start, take a value and take in another aggregator, over
any type of values with the operations that they use. For the integer types also how they are written to
and read from a binary archive.
-/

namespace Prpc.Aggregator
open Lib

class NumericLimits (VAL : Type) where
  min : VAL
  max : VAL

def Integer (_signed : Bool) (width : Width) : Type := BitVec width.bits

namespace Integer
variable {signed : Bool} {width : Width}

instance : CommRing (Integer signed width) := inferInstanceAs (CommRing (BitVec width.bits))

def toInt (x : Integer signed width) : Int := Archive.intOf signed (x : BitVec width.bits)

theorem toInt_injective : Function.Injective (toInt : Integer signed width → Int) :=
  Function.LeftInverse.injective (g := BitVec.ofInt width.bits) (Archive.ofInt_intOf signed)

instance : LinearOrder (Integer signed width) := LinearOrder.lift' toInt toInt_injective

instance : NumericLimits (Integer signed width) where
  min := if signed then BitVec.intMin width.bits else 0#_
  max := if signed then BitVec.intMax width.bits else BitVec.allOnes width.bits

theorem min_le (x : Integer signed width) : NumericLimits.min ≤ x := by
  cases signed with
  | false => exact Int.natCast_nonneg _
  | true => exact BitVec.toInt_intMin_le x

theorem le_max (x : Integer signed width) : x ≤ NumericLimits.max := by
  cases signed with
  | false =>
    show ((x : BitVec width.bits).toNat : Int) ≤ (BitVec.allOnes width.bits).toNat
    rw [BitVec.toNat_allOnes]
    exact Int.ofNat_le.2 (Nat.le_sub_one_of_lt (BitVec.isLt _))
  | true =>
    show (x : BitVec width.bits).toInt ≤ (BitVec.intMax width.bits).toInt
    rw [BitVec.toInt_intMax]
    exact BitVec.toInt_le

def put (x : Integer signed width) : List Byte :=
  (Archive.arithmetic .binary (.int signed width)).picoSerialize x

def get (x : Integer signed width) : Reader (List Byte) (Integer signed width) :=
  (Archive.arithmetic .binary (.int signed width)).picoDeserialize x

theorem delimits_get (x y : Integer signed width) : Delimits y.get (x.put ++ ·) x :=
  Archive.arithmetic_roundTrips .binary (.int signed width) x y

end Integer

abbrev Size := Integer false .w64

variable {VAL : Type} {signed : Bool} {width : Width}

structure SumAggregator (VAL : Type) where
  value : VAL

namespace SumAggregator

def init [Zero VAL] : SumAggregator VAL := ⟨0⟩

def mergeValue [Add VAL] (agg : SumAggregator VAL) (val : VAL) : SumAggregator VAL := ⟨agg.value + val⟩

def mergeAggregator [Add VAL] (agg other : SumAggregator VAL) : SumAggregator VAL := agg.mergeValue other.value

def serialize (agg : SumAggregator (Integer signed width)) : List Byte := agg.value.put

def deserialize (agg : SumAggregator (Integer signed width)) :
    Reader (List Byte) (SumAggregator (Integer signed width)) := do
  let value ← agg.value.get
  return ⟨value⟩

end SumAggregator

structure AvgAggregator (VAL : Type) where
  value : VAL
  count : Size

namespace AvgAggregator

def init [Zero VAL] : AvgAggregator VAL := ⟨0, 0⟩

def mergeValueInternal [Add VAL] (agg : AvgAggregator VAL) (val : VAL) (cnt : Size) : AvgAggregator VAL :=
  ⟨agg.value + val, agg.count + cnt⟩

def mergeValue [Add VAL] (agg : AvgAggregator VAL) (val : VAL) : AvgAggregator VAL := agg.mergeValueInternal val 1

def mergeAggregator [Add VAL] (agg other : AvgAggregator VAL) : AvgAggregator VAL :=
  agg.mergeValueInternal other.value other.count

def serialize (agg : AvgAggregator (Integer signed width)) : List Byte := agg.value.put ++ agg.count.put

def deserialize (agg : AvgAggregator (Integer signed width)) :
    Reader (List Byte) (AvgAggregator (Integer signed width)) := do
  let value ← agg.value.get
  let count ← agg.count.get
  return ⟨value, count⟩

end AvgAggregator

structure KeyedAvgAggregator (VAL KEY : Type) where
  value : Finmap fun _ : KEY => VAL × Size

namespace KeyedAvgAggregator
variable {KEY : Type} [DecidableEq KEY]

def init : KeyedAvgAggregator VAL KEY := ⟨∅⟩

def bump [Zero VAL] [Add VAL] (value : Finmap fun _ : KEY => VAL × Size) (key : KEY) (more : VAL × Size) :
    Finmap fun _ : KEY => VAL × Size :=
  value.insert key ((value.lookup key).getD (0, 0) + more)

theorem lookup_bump [Zero VAL] [Add VAL] (value : Finmap fun _ : KEY => VAL × Size) (key other : KEY)
    (more : VAL × Size) : (bump value key more).lookup other =
      if other = key then some ((value.lookup key).getD (0, 0) + more) else value.lookup other := by
  rw [bump]
  split
  · rename_i same
    rw [same, Finmap.lookup_insert]
  · rename_i ne
    rw [Finmap.lookup_insert_of_ne _ ne]

theorem bump_comm [AddCommMonoid VAL] (value : Finmap fun _ : KEY => VAL × Size) (key : KEY) (more : VAL × Size)
    (key' : KEY) (more' : VAL × Size) :
    bump (bump value key more) key' more' = bump (bump value key' more') key more := by
  apply Finmap.ext_lookup
  intro other
  simp only [lookup_bump]
  by_cases same : key = key'
  · subst same
    split
    · rw [if_pos rfl, if_pos rfl, Option.getD_some, Option.getD_some, add_right_comm]
    · rfl
  · by_cases here : other = key'
    · rw [here, if_pos rfl, if_neg (Ne.symm same), if_neg (Ne.symm same), if_pos rfl]
    · rw [if_neg here, if_neg same]
      split <;> rfl

def mergeValue [Zero VAL] [Add VAL] (agg : KeyedAvgAggregator VAL KEY) (val : KEY × VAL) :
    KeyedAvgAggregator VAL KEY :=
  ⟨bump agg.value val.1 (val.2, 1)⟩

/-- The entries of the other one in the order of a walk over its table, which makes no difference. -/
def mergeAggregator [AddCommMonoid VAL] (agg other : KeyedAvgAggregator VAL KEY) : KeyedAvgAggregator VAL KEY :=
  ⟨other.value.foldl bump bump_comm agg.value⟩

def archived (signed : Bool) (width : Width) (key : Archive.Ty) : Archive.Ty :=
  .unorderedMap key (.pair (.arithmetic (.int signed width)) (.arithmetic (.int false .w64)))

variable {key : Archive.Ty}

/-- What is written depends on the order of the walk, so it is given by the table as an object. -/
def serialize (table : (archived signed width key).carrier.Obj) : List Byte :=
  ((archived signed width key).serializer .binary).picoSerialize table

def deserialize (agg : KeyedAvgAggregator (Integer signed width) key.carrier.Val) :
    Reader (List Byte) (KeyedAvgAggregator (Integer signed width) key.carrier.Val) := do
  let value ← ((archived signed width key).serializer .binary).picoDeserialize agg.value
  return ⟨value⟩

end KeyedAvgAggregator

structure ArithmeticMaxAggregator (VAL : Type) where
  value : VAL

namespace ArithmeticMaxAggregator

def init [NumericLimits VAL] : ArithmeticMaxAggregator VAL := ⟨NumericLimits.min⟩

def mergeValue [LinearOrder VAL] (agg : ArithmeticMaxAggregator VAL) (val : VAL) : ArithmeticMaxAggregator VAL :=
  if val > agg.value then ⟨val⟩ else agg

def mergeAggregator [LinearOrder VAL] (agg other : ArithmeticMaxAggregator VAL) : ArithmeticMaxAggregator VAL :=
  agg.mergeValue other.value

def serialize (agg : ArithmeticMaxAggregator (Integer signed width)) : List Byte := agg.value.put

def deserialize (agg : ArithmeticMaxAggregator (Integer signed width)) :
    Reader (List Byte) (ArithmeticMaxAggregator (Integer signed width)) := do
  let value ← agg.value.get
  return ⟨value⟩

end ArithmeticMaxAggregator

structure ArithmeticMinAggregator (VAL : Type) where
  value : VAL

namespace ArithmeticMinAggregator

def init [NumericLimits VAL] : ArithmeticMinAggregator VAL := ⟨NumericLimits.max⟩

def mergeValue [LinearOrder VAL] (agg : ArithmeticMinAggregator VAL) (val : VAL) : ArithmeticMinAggregator VAL :=
  if val < agg.value then ⟨val⟩ else agg

def mergeAggregator [LinearOrder VAL] (agg other : ArithmeticMinAggregator VAL) : ArithmeticMinAggregator VAL :=
  agg.mergeValue other.value

def serialize (agg : ArithmeticMinAggregator (Integer signed width)) : List Byte := agg.value.put

def deserialize (agg : ArithmeticMinAggregator (Integer signed width)) :
    Reader (List Byte) (ArithmeticMinAggregator (Integer signed width)) := do
  let value ← agg.value.get
  return ⟨value⟩

end ArithmeticMinAggregator

structure TimerAggregator (VAL : Type) where
  sum : VAL
  sum2 : VAL
  min : VAL
  max : VAL
  count : Size

namespace TimerAggregator

def init [Zero VAL] [NumericLimits VAL] : TimerAggregator VAL := ⟨0, 0, NumericLimits.max, NumericLimits.min, 0⟩

section
variable [Add VAL] [Mul VAL] [LinearOrder VAL]

def mergeValue (agg : TimerAggregator VAL) (val : VAL) : TimerAggregator VAL where
  sum := agg.sum + val
  sum2 := agg.sum2 + val * val
  min := if agg.min > val then val else agg.min
  max := if agg.max < val then val else agg.max
  count := agg.count + 1

def mergeAggregator (agg other : TimerAggregator VAL) : TimerAggregator VAL where
  sum := agg.sum + other.sum
  sum2 := agg.sum2 + other.sum2
  min := if agg.min > other.min then other.min else agg.min
  max := if agg.max < other.max then other.max else agg.max
  count := agg.count + other.count

end

def serialize (agg : TimerAggregator (Integer signed width)) : List Byte :=
  agg.sum.put ++ (agg.sum2.put ++ (agg.min.put ++ (agg.max.put ++ agg.count.put)))

def deserialize (agg : TimerAggregator (Integer signed width)) :
    Reader (List Byte) (TimerAggregator (Integer signed width)) := do
  let sum ← agg.sum.get
  let sum2 ← agg.sum2.get
  let min ← agg.min.get
  let max ← agg.max.get
  let count ← agg.count.get
  return ⟨sum, sum2, min, max, count⟩

end TimerAggregator

end Prpc.Aggregator
