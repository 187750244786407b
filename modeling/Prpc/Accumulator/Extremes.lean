import Mathlib.Order.Bounds.Basic
import Prpc.Accumulator.Partition

/-!
The extremes are taken over the values and the limit from which the aggregator starts.
-/

namespace Prpc.Aggregator
open Lib

variable {VAL : Type} {l : List VAL}

theorem isGreatest_iff_of_insert [LinearOrder VAL] {limit greatest : VAL} {vals : Set VAL}
    (isGreatest : IsGreatest (insert limit vals) greatest) :
    IsGreatest vals greatest ↔ ∃ v ∈ vals, limit ≤ v := by
  obtain ⟨mem, bound⟩ := isGreatest
  constructor
  · intro inside
    exact ⟨greatest, inside.1, bound (Set.mem_insert ..)⟩
  · rintro ⟨v, inside, reaches⟩
    refine ⟨?_, fun w mem => bound (Set.mem_insert_of_mem _ mem)⟩
    rcases mem with rfl | mem
    · rwa [le_antisymm reaches (bound (Set.mem_insert_of_mem _ inside))]
    · exact mem

theorem isLeast_iff_of_insert [LinearOrder VAL] {limit least : VAL} {vals : Set VAL}
    (isLeast : IsLeast (insert limit vals) least) : IsLeast vals least ↔ ∃ v ∈ vals, v ≤ limit :=
  @isGreatest_iff_of_insert VALᵒᵈ _ limit least vals isLeast

def Same {S : Type} (s t : S) : Prop := t = s

theorem setOf_mem_concat (l : List VAL) (limit v : VAL) :
    insert limit {w | w ∈ l ++ [v]} = insert v (insert limit {w | w ∈ l}) := by
  ext w
  simp [or_comm, or_left_comm]

theorem setOf_mem_append (l r : List VAL) (limit : VAL) :
    insert limit {w | w ∈ l ++ r} = insert limit {w | w ∈ l} ∪ insert limit {w | w ∈ r} := by
  ext w
  simp only [Set.mem_insert_iff, Set.mem_ofPred_eq, List.mem_append, Set.mem_union]
  tauto

section
variable [LinearOrder VAL] [NumericLimits VAL]

theorem isGreatest_of_built {agg : ArithmeticMaxAggregator VAL}
    (built : (ArithmeticMaxAggregator.merging VAL).Built Same l agg) :
    IsGreatest (insert NumericLimits.min {v | v ∈ l}) agg.value := by
  induction built with
  | empty =>
    refine ⟨Set.mem_insert .., fun v mem => ?_⟩
    rcases mem with rfl | mem
    · exact le_rfl
    · cases mem
  | add built v ih =>
    rw [setOf_mem_concat]
    simp only [ArithmeticMaxAggregator.merging, ArithmeticMaxAggregator.mergeValue_eq, max_comm]
    exact ih.insert v
  | join left right ihLeft ihRight =>
    rw [setOf_mem_append]
    simp only [ArithmeticMaxAggregator.merging, ArithmeticMaxAggregator.mergeAggregator,
      ArithmeticMaxAggregator.mergeValue_eq]
    exact ihLeft.union ihRight
  | carry built moved ih => exact moved ▸ ih

theorem isLeast_of_built {agg : ArithmeticMinAggregator VAL}
    (built : (ArithmeticMinAggregator.merging VAL).Built Same l agg) :
    IsLeast (insert NumericLimits.max {v | v ∈ l}) agg.value := by
  induction built with
  | empty =>
    refine ⟨Set.mem_insert .., fun v mem => ?_⟩
    rcases mem with rfl | mem
    · exact le_rfl
    · cases mem
  | add built v ih =>
    rw [setOf_mem_concat]
    simp only [ArithmeticMinAggregator.merging, ArithmeticMinAggregator.mergeValue_eq, min_comm]
    exact ih.insert v
  | join left right ihLeft ihRight =>
    rw [setOf_mem_append]
    simp only [ArithmeticMinAggregator.merging, ArithmeticMinAggregator.mergeAggregator,
      ArithmeticMinAggregator.mergeValue_eq]
    exact ihLeft.union ihRight
  | carry built moved ih => exact moved ▸ ih

variable [Zero VAL] [Add VAL] [Mul VAL]

theorem built_max {agg : TimerAggregator VAL} (built : (TimerAggregator.merging VAL).Built Same l agg) :
    (ArithmeticMaxAggregator.merging VAL).Built Same l ⟨agg.max⟩ := by
  refine Merging.Built.map (fun agg : TimerAggregator VAL => ArithmeticMaxAggregator.mk agg.max) rfl
    (fun s v => ?_) (fun s t => ?_) (fun s t same => ?_) built
  · simp [TimerAggregator.merging, ArithmeticMaxAggregator.merging, TimerAggregator.mergeValue_eq,
      ArithmeticMaxAggregator.mergeValue_eq]
  · simp only [TimerAggregator.merging, ArithmeticMaxAggregator.merging, TimerAggregator.mergeAggregator_eq,
      ArithmeticMaxAggregator.mergeAggregator, ArithmeticMaxAggregator.mergeValue_eq]
  · cases same
    exact rfl

theorem built_min {agg : TimerAggregator VAL} (built : (TimerAggregator.merging VAL).Built Same l agg) :
    (ArithmeticMinAggregator.merging VAL).Built Same l ⟨agg.min⟩ := by
  refine Merging.Built.map (fun agg : TimerAggregator VAL => ArithmeticMinAggregator.mk agg.min) rfl
    (fun s v => ?_) (fun s t => ?_) (fun s t same => ?_) built
  · simp [TimerAggregator.merging, ArithmeticMinAggregator.merging, TimerAggregator.mergeValue_eq,
      ArithmeticMinAggregator.mergeValue_eq]
  · simp only [TimerAggregator.merging, ArithmeticMinAggregator.merging, TimerAggregator.mergeAggregator_eq,
      ArithmeticMinAggregator.mergeAggregator, ArithmeticMinAggregator.mergeValue_eq]
  · cases same
    exact rfl

/-- Over any ordered type with any limits, and however the values were spread and merged, the maximum is
right if and only if some value is not below `min()`, and the minimum if and only if some value is not
above `max()`. -/
theorem extremes_exact_iff (VAL : Type) [LinearOrder VAL] [NumericLimits VAL] [Zero VAL] [Add VAL] [Mul VAL]
    (vals : List VAL) :
    (∀ agg, (ArithmeticMaxAggregator.merging VAL).Built Same vals agg →
      (IsGreatest {v | v ∈ vals} agg.value ↔ ∃ v ∈ vals, NumericLimits.min ≤ v)) ∧
    (∀ agg, (ArithmeticMinAggregator.merging VAL).Built Same vals agg →
      (IsLeast {v | v ∈ vals} agg.value ↔ ∃ v ∈ vals, v ≤ NumericLimits.max)) ∧
    (∀ agg, (TimerAggregator.merging VAL).Built Same vals agg →
      (IsGreatest {v | v ∈ vals} agg.max ↔ ∃ v ∈ vals, NumericLimits.min ≤ v) ∧
      (IsLeast {v | v ∈ vals} agg.min ↔ ∃ v ∈ vals, v ≤ NumericLimits.max)) := by
  refine ⟨fun agg built => ?_, fun agg built => ?_, fun agg built => ⟨?_, ?_⟩⟩
  · exact isGreatest_iff_of_insert (isGreatest_of_built built)
  · exact isLeast_iff_of_insert (isLeast_of_built built)
  · exact isGreatest_iff_of_insert (isGreatest_of_built (built_max built))
  · exact isLeast_iff_of_insert (isLeast_of_built (built_min built))

end

theorem extremes_exact_integers : ∃ agg : ArithmeticMaxAggregator (Integer true .w32),
    (ArithmeticMaxAggregator.merging _).Built Same [1, 3, 2] agg ∧
      IsGreatest {v | v ∈ ([1, 3, 2] : List (Integer true .w32))} agg.value := by
  have built : (ArithmeticMaxAggregator.merging (Integer true .w32)).Built Same [1, 3, 2] _ :=
    ((Merging.Built.empty.add 1).add 3).join (Merging.Built.empty.add 2)
  exact ⟨_, built, ((extremes_exact_iff (Integer true .w32) [1, 3, 2]).1 _ built).2
    ⟨1, List.mem_cons_self .., Integer.min_le 1⟩⟩

structure FloatFormat where
  exponent : Nat
  fraction : Nat
  exponent_pos : 0 < exponent

def FloatFormat.infinity (f : FloatFormat) : Int := (2 ^ f.exponent - 1) * 2 ^ f.fraction

theorem FloatFormat.normal_le_infinity (f : FloatFormat) : 2 ^ f.fraction ≤ f.infinity := by
  have one : (1 : Int) ≤ 2 ^ f.exponent - 1 := by
    have two : 2 ^ 1 ≤ 2 ^ f.exponent := Nat.pow_le_pow_right (by decide) f.exponent_pos
    have : ((2 ^ 1 : Nat) : Int) ≤ (2 ^ f.exponent : Nat) := Int.ofNat_le.2 two
    push_cast at this
    omega
  have pos : (0 : Int) ≤ 2 ^ f.fraction := by positivity
  calc (2 : Int) ^ f.fraction = 1 * 2 ^ f.fraction := (one_mul _).symm
    _ ≤ f.infinity := mul_le_mul_of_nonneg_right one pos

/-- The values of a floating point type other than the NaNs by their place in the order: above zero that is
the bit pattern, and the two zeros have one place. -/
def Floating (f : FloatFormat) : Type := {place : Int // -f.infinity ≤ place ∧ place ≤ f.infinity}

namespace Floating
variable {f : FloatFormat}

instance : LinearOrder (Floating f) :=
  inferInstanceAs (LinearOrder {place : Int // -f.infinity ≤ place ∧ place ≤ f.infinity})

/-- The least positive normal number has the first exponent and no fraction, and the greatest number comes
right before infinity. -/
instance : NumericLimits (Floating f) where
  min := ⟨2 ^ f.fraction, by
    have le := f.normal_le_infinity
    have pos : (0 : Int) < 2 ^ f.fraction := by positivity
    omega⟩
  max := ⟨f.infinity - 1, by
    have le := f.normal_le_infinity
    have pos : (0 : Int) < 2 ^ f.fraction := by positivity
    omega⟩

def zero : Floating f := ⟨0, by
  have le := f.normal_le_infinity
  have pos : (0 : Int) < 2 ^ f.fraction := by positivity
  omega⟩

theorem zero_lt_min : (zero : Floating f) < NumericLimits.min := by
  show (0 : Int) < 2 ^ f.fraction
  positivity

end Floating

def double : FloatFormat := ⟨11, 52, by decide⟩

theorem maximum_of_zero_missed : ∃ agg : ArithmeticMaxAggregator (Floating double),
    (ArithmeticMaxAggregator.merging _).Built Same [Floating.zero] agg ∧
      ¬ IsGreatest {v | v ∈ [(Floating.zero : Floating double)]} agg.value := by
  have built : (ArithmeticMaxAggregator.merging (Floating double)).Built Same [Floating.zero] _ :=
    Merging.Built.empty.add Floating.zero
  refine ⟨_, built, fun isGreatest => ?_⟩
  obtain ⟨v, mem, reaches⟩ := (isGreatest_iff_of_insert (isGreatest_of_built built)).1 isGreatest
  rw [List.mem_singleton.1 mem] at reaches
  exact absurd Floating.zero_lt_min (not_lt.2 reaches)

end Prpc.Aggregator
