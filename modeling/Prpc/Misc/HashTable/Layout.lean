import Prpc.Misc.HashTable.Model

/-!
The buckets of a table are spread over two arrays while they migrate.
-/

namespace Prpc.HashTable
open Lib

variable {K V F : Type} {t : Table K V F} {chain : Nat → Chain K V} {slack : Nat}

structure View (t : Table K V F) (chain : Nat → Chain K V) (slack : Nat) : Prop where
  pos : 0 < t.bucketCount
  migrated : t.newBegin ≤ t.bucketCount
  room : t.newBegin + t.bucketCount ≤ t.bucketCapacity + slack
  capacity : t.bucketCount ≤ t.bucketCapacity
  news : t.newBuckets.length = t.bucketCapacity
  olds : t.newBegin ≤ t.oldBuckets.length
  mask : ∃ k, t.mask + 1 = 2 ^ k ∧ t.bucketCount ≤ 2 ^ k ∧ 2 ^ k < 2 * t.bucketCount
  chains : ∀ i < t.bucketCount, t.bucket i = some (chain i)

theorem View.withSize (view : View t chain slack) (size : Nat) : View { t with size := size } chain slack :=
  ⟨view.pos, view.migrated, view.room, view.capacity, view.news, view.olds, view.mask, view.chains⟩

variable {i : Nat}

theorem Buckets.write_ok {buckets : Buckets K V} (new : Chain K V)
    (lt : i < buckets.length) : buckets.write i new = some (buckets.set i (some new)) := if_pos lt

theorem Buckets.read_set {buckets : Buckets K V} (new : Chain K V)
    (lt : i < buckets.length) (j : Nat) :
    Buckets.read (buckets.set i (some new)) j = if j = i then some new else buckets.read j := by
  unfold Buckets.read
  by_cases eq : j = i
  · subst eq
    simp [lt]
  · rw [List.getElem?_set_ne fun h => eq h.symm, if_neg eq]

theorem View.setBucket (view : View t chain slack) (lt : i < t.bucketCount)
    (new : Chain K V) : ∃ news olds,
      t.setBucket i new = some { t with newBuckets := news, oldBuckets := olds } ∧
      View { t with newBuckets := news, oldBuckets := olds } (Function.update chain i new) slack := by
  by_cases old : i < t.newBegin
  · have inside : i < t.oldBuckets.length := old.trans_le view.olds
    refine ⟨t.newBuckets, t.oldBuckets.set i (some new), ?_, view.pos, view.migrated, view.room,
      view.capacity, view.news, ?_, view.mask, fun j ltj => ?_⟩
    · rw [Table.setBucket, if_pos old, Buckets.write_ok new inside]
      rfl
    · rw [List.length_set]
      exact view.olds
    · have before := view.chains j ltj
      unfold Table.bucket at before ⊢
      dsimp only
      rw [Buckets.read_set new inside, Function.update_apply]
      by_cases eq : j = i
      · rw [if_pos eq, if_pos eq, if_pos (eq ▸ old)]
      · rw [if_neg eq, if_neg eq, before]
  · have inside : i < t.newBuckets.length := by
      rw [view.news]
      exact lt.trans_le view.capacity
    refine ⟨t.newBuckets.set i (some new), t.oldBuckets, ?_, view.pos, view.migrated, view.room,
      view.capacity, ?_, view.olds, view.mask, fun j ltj => ?_⟩
    · rw [Table.setBucket, if_neg old, Buckets.write_ok new inside]
      rfl
    · rw [List.length_set]
      exact view.news
    · have before := view.chains j ltj
      unfold Table.bucket at before ⊢
      dsimp only
      rw [Buckets.read_set new inside, Function.update_apply]
      by_cases eq : j = i
      · rw [if_pos eq, if_pos eq, if_neg (eq ▸ old)]
      · rw [if_neg eq, if_neg eq, before]

theorem View.moveBucket (view : View t chain slack) (small : slack ≤ 1) : ∃ newBegin news olds,
      t.moveBucket = some { t with newBegin := newBegin, newBuckets := news, oldBuckets := olds } ∧
      View { t with newBegin := newBegin, newBuckets := news, oldBuckets := olds } chain 0 := by
  have room := view.room
  by_cases moves : t.newBegin > 0
  · have lt : t.newBegin - 1 < t.bucketCount := by
      have migrated := view.migrated
      omega
    have inside : t.newBegin - 1 < t.newBuckets.length := by
      rw [view.news]
      exact lt.trans_le view.capacity
    have source : t.oldBuckets.read (t.newBegin - 1) = some (chain (t.newBegin - 1)) := by
      have h := view.chains _ lt
      rwa [Table.bucket, if_pos (by omega)] at h
    refine ⟨t.newBegin - 1, t.newBuckets.set (t.newBegin - 1) (some (chain (t.newBegin - 1))),
      if t.newBegin - 1 = 0 then [] else t.oldBuckets, ?_, view.pos, by simp only; omega,
      by simp only; omega, view.capacity, ?_, ?_, view.mask, fun j ltj => ?_⟩
    · simp [Table.moveBucket, if_pos moves, source, Buckets.write_ok _ inside]
    · rw [List.length_set]
      exact view.news
    · have olds := view.olds
      dsimp only
      split
      · simp only [List.length_nil]
        omega
      · omega
    · have before := view.chains j ltj
      unfold Table.bucket at before ⊢
      dsimp only
      by_cases below : j < t.newBegin - 1
      · rw [if_pos below, if_neg (by omega)]
        rwa [if_pos (by omega)] at before
      · rw [if_neg below, Buckets.read_set _ inside]
        by_cases eq : j = t.newBegin - 1
        · rw [if_pos eq, eq]
        · rw [if_neg eq]
          rwa [if_neg (by omega)] at before
  · refine ⟨t.newBegin, t.newBuckets, t.oldBuckets, ?_, view.pos, view.migrated, ?_, view.capacity,
      view.news, view.olds, view.mask, view.chains⟩
    · rw [Table.moveBucket, if_neg moves]
    · have capacity := view.capacity
      dsimp only
      omega

variable {mask k : Nat}

theorem and_of_succ_eq (succ : mask + 1 = 2 ^ k) (h : Nat) : h &&& mask = h % 2 ^ k := by
  rw [show mask = 2 ^ k - 1 by omega, Nat.and_two_pow_sub_one_eq_mod]

theorem and_half_of_succ_eq (succ : mask + 1 = 2 ^ (k + 1)) (h : Nat) : h &&& (mask >>> 1) = h % 2 ^ k := by
  apply and_of_succ_eq
  rw [Nat.shiftRight_one]
  omega

/-- The bucket of a hash code among `n` buckets, `2 ^ k` being the power that covers them. -/
def address (k n h : Nat) : Nat := if h % 2 ^ k < n then h % 2 ^ k else h % 2 ^ (k - 1)

theorem hashToBucket_eq {k : Nat} (succ : t.mask + 1 = 2 ^ k) (le : t.bucketCount ≤ 2 ^ k)
    (lt : 2 ^ k < 2 * t.bucketCount) (h : Nat) :
    t.hashToBucket h = address k t.bucketCount h := by
  unfold Table.hashToBucket address
  simp only [and_of_succ_eq succ]
  cases k with
  | zero =>
    have one : t.bucketCount = 1 := by omega
    simp [one, Nat.mod_one]
  | succ k => rw [and_half_of_succ_eq succ, Nat.add_sub_cancel]

variable {k n : Nat}

theorem address_lt (lt : 2 ^ k < 2 * n) (h : Nat) : address k n h < n := by
  unfold address
  split
  · assumption
  · have small := Nat.mod_lt h (Nat.two_pow_pos (k - 1))
    cases k with
    | zero =>
      simp only [Nat.zero_sub] at small ⊢
      omega
    | succ k =>
      simp only [Nat.add_sub_cancel] at small ⊢
      omega

theorem View.hashToBucket_lt (view : View t chain slack) (h : Nat) : t.hashToBucket h < t.bucketCount := by
  obtain ⟨k, succ, le, lt⟩ := view.mask
  rw [hashToBucket_eq succ le lt]
  exact address_lt lt h

theorem mod_two_pow_mod (h k : Nat) : h % 2 ^ (k + 1) % 2 ^ k = h % 2 ^ k :=
  Nat.mod_mod_of_dvd h (Nat.pow_dvd_pow 2 (Nat.le_succ k))

theorem address_succ (lt : 2 ^ k < 2 * n) (full : n < 2 ^ k) (h : Nat) :
    (address k (n + 1) h = if h % 2 ^ k = n then n else address k n h) ∧
      (h % 2 ^ k = n → address k n h = n % 2 ^ (k - 1)) := by
  unfold address
  by_cases eq : h % 2 ^ k = n
  · refine ⟨by rw [if_pos (by omega), if_pos eq, eq], fun _ => ?_⟩
    rw [if_neg (by omega), ← eq]
    cases k with
    | zero => simp only [pow_zero] at lt full; omega
    | succ k => rw [Nat.add_sub_cancel, mod_two_pow_mod]
  · refine ⟨?_, fun h => absurd h eq⟩
    rw [if_neg eq]
    by_cases below : h % 2 ^ k < n
    · rw [if_pos (by omega), if_pos below]
    · rw [if_neg (by omega), if_neg below]

theorem address_double {k : Nat} (h : Nat) :
    (address (k + 1) (2 ^ k + 1) h = if h % 2 ^ (k + 1) = 2 ^ k then 2 ^ k else address k (2 ^ k) h) ∧
      (h % 2 ^ (k + 1) = 2 ^ k → address k (2 ^ k) h = 2 ^ k % 2 ^ k) := by
  unfold address
  have small := Nat.mod_lt h (Nat.two_pow_pos k)
  have half := mod_two_pow_mod h k
  rw [if_pos small, Nat.add_sub_cancel]
  by_cases eq : h % 2 ^ (k + 1) = 2 ^ k
  · rw [if_pos (by omega), if_pos eq]
    exact ⟨eq, fun _ => by rw [← half, eq]⟩
  · refine ⟨?_, fun h => absurd h eq⟩
    rw [if_neg eq]
    by_cases below : h % 2 ^ (k + 1) < 2 ^ k + 1
    · have same : h % 2 ^ (k + 1) % 2 ^ k = h % 2 ^ (k + 1) := Nat.mod_eq_of_lt (by omega)
      rw [if_pos below, ← half, same]
    · rw [if_neg below]

theorem testBit_of_range {j n : Nat} (low : 2 ^ j ≤ n) (high : n < 2 ^ (j + 1)) : n.testBit j = true := by
  have one : n / 2 ^ j = 1 := Nat.div_eq_of_lt_le (by omega) (by omega)
  simp [Nat.testBit_eq_decide_div_mod_eq, one]

theorem and_pred_eq_zero_iff (le : n ≤ 2 ^ k) (lt : 2 ^ k < 2 * n) : n &&& (n - 1) = 0 ↔ n = 2 ^ k := by
  constructor
  · intro zero
    by_contra ne
    cases k with
    | zero => simp only [pow_zero] at le lt ne; omega
    | succ k =>
      have bit := testBit_of_range (n := n) (j := k) (by omega) (by omega)
      have bit' := testBit_of_range (n := n - 1) (j := k) (by omega) (by omega)
      have both : (n &&& (n - 1)).testBit k = true := by rw [Nat.testBit_and, bit, bit']; rfl
      rw [zero, Nat.zero_testBit] at both
      cases both
  · rintro rfl
    rw [Nat.and_two_pow_sub_one_eq_mod, Nat.mod_self]

theorem splitChain_eq (mask toI : Nat) (src : Chain K V) :
    Table.splitChain mask toI src = (src.filter fun e => ¬ e.hashCode &&& mask = toI,
      src.filter fun e => e.hashCode &&& mask = toI) := by
  induction src with
  | nil => rfl
  | cons e src ih =>
    by_cases goes : e.hashCode &&& mask = toI
    · simp [Table.splitChain, ih, goes]
    · simp [Table.splitChain, ih, goes]

/-- `reserve` has nothing to do, or nothing is left of the last migration and the next one can keep
ahead of the growth. -/
def Table.CanReserve (t : Table K V F) (size : Nat) : Prop :=
  size ≤ t.bucketCapacity ∨ t.newBegin = 0 ∧ 2 * t.bucketCount ≤ size

theorem View.reserve (view : View t chain 0) {size : Nat} (can : t.CanReserve size) :
    ∃ newBegin capacity news olds,
    t.reserve size = some { t with
      newBegin := newBegin, bucketCapacity := capacity, newBuckets := news, oldBuckets := olds } ∧
    size ≤ capacity ∧
    View { t with
      newBegin := newBegin, bucketCapacity := capacity, newBuckets := news, oldBuckets := olds }
      chain 0 := by
  have capacity := view.capacity
  have pos := view.pos
  by_cases fits : size ≤ t.bucketCapacity
  · exact ⟨t.newBegin, t.bucketCapacity, t.newBuckets, t.oldBuckets, if_pos fits, fits, view⟩
  · obtain ⟨done, twice⟩ := can.resolve_left fits
    refine ⟨t.bucketCount, size, List.replicate size none, t.newBuckets, ?_, le_refl _, pos, le_refl _,
      by simp only; omega, by simp only; omega, List.length_replicate, ?_, view.mask, fun i lt => ?_⟩
    · rw [Table.reserve, if_neg fits, if_pos done]
    · dsimp only
      rw [view.news]
      exact capacity
    · have before := view.chains i lt
      rw [Table.bucket, if_neg (by omega)] at before
      rw [Table.bucket, if_pos lt]
      exact before

theorem View.makeRoom (view : View t chain 0) : ∃ newBegin capacity news olds,
    (if t.bucketCount ≥ t.bucketCapacity then t.reserve (t.bucketCapacity * 2) else some t) = some { t with
        newBegin := newBegin, bucketCapacity := capacity, newBuckets := news, oldBuckets := olds } ∧
    t.bucketCount < capacity ∧
    View { t with
      newBegin := newBegin, bucketCapacity := capacity, newBuckets := news, oldBuckets := olds }
      chain 0 := by
  have room := view.room
  have capacity := view.capacity
  have pos := view.pos
  by_cases full : t.bucketCount ≥ t.bucketCapacity
  · have can : t.CanReserve (t.bucketCapacity * 2) := .inr ⟨by omega, by omega⟩
    obtain ⟨newBegin, capacity', news, olds, reserved, le, view'⟩ := view.reserve can
    exact ⟨newBegin, capacity', news, olds, by rw [if_pos full, reserved], by omega, view'⟩
  · exact ⟨t.newBegin, t.bucketCapacity, t.newBuckets, t.oldBuckets, if_neg full, by omega, view⟩

theorem View.openBucket (view : View t chain 0) (free : t.bucketCount < t.bucketCapacity) (succ : mask + 1 = 2 ^ k) (le : t.bucketCount + 1 ≤ 2 ^ k)
    (lt : 2 ^ k < 2 * (t.bucketCount + 1)) : ∃ news,
      { t with mask := mask, bucketCount := t.bucketCount + 1 }.setBucket t.bucketCount [] =
        some { t with mask := mask, bucketCount := t.bucketCount + 1, newBuckets := news } ∧
      View { t with mask := mask, bucketCount := t.bucketCount + 1, newBuckets := news }
        (Function.update chain t.bucketCount []) 1 := by
  have inside : t.bucketCount < t.newBuckets.length := by rwa [view.news]
  have migrated := view.migrated
  have room := view.room
  refine ⟨t.newBuckets.set t.bucketCount (some []), ?_, Nat.succ_pos _, by simp only; omega,
    by simp only; omega, free, ?_, view.olds, ⟨k, succ, le, lt⟩, fun i lti => ?_⟩
  · rw [Table.setBucket, if_neg (by simp only; omega), Buckets.write_ok [] inside]
    rfl
  · rw [List.length_set]
    exact view.news
  · unfold Table.bucket
    dsimp only at lti ⊢
    rw [Buckets.read_set [] inside, Function.update_apply]
    by_cases eq : i = t.bucketCount
    · rw [if_pos eq, if_pos eq, if_neg (by omega)]
    · rw [if_neg eq, if_neg eq]
      exact view.chains i (by omega)

structure Grown (t t' : Table K V F) (fromI : Nat) : Prop where
  count : t'.bucketCount = t.bucketCount + 1
  size : t'.size = t.size
  factor : t'.maxLoadFactor = t.maxLoadFactor
  inside : fromI < t.bucketCount
  address : ∀ h, t'.hashToBucket h = if h &&& t'.mask = t.bucketCount then t.bucketCount else t.hashToBucket h
  source : ∀ h, h &&& t'.mask = t.bucketCount → t.hashToBucket h = fromI

def maskAfter (t : Table K V F) : Nat :=
  if t.bucketCount &&& (t.bucketCount - 1) = 0 then t.bucketCount * 2 - 1 else t.mask

theorem View.maskAfter_spec (view : View t chain slack) : ∃ k, maskAfter t + 1 = 2 ^ k ∧
    t.bucketCount + 1 ≤ 2 ^ k ∧ 2 ^ k < 2 * (t.bucketCount + 1) ∧
    (t.bucketCount &&& (maskAfter t >>> 1)) < t.bucketCount ∧
    ∀ h, (address k (t.bucketCount + 1) h =
        if h &&& maskAfter t = t.bucketCount then t.bucketCount else t.hashToBucket h) ∧
      (h &&& maskAfter t = t.bucketCount → t.hashToBucket h = t.bucketCount &&& (maskAfter t >>> 1)) := by
  obtain ⟨k, succ, le, lt⟩ := view.mask
  have pos := view.pos
  unfold maskAfter
  by_cases power : t.bucketCount &&& (t.bucketCount - 1) = 0
  · have eq := (and_pred_eq_zero_iff le lt).1 power
    have succ' : t.bucketCount * 2 - 1 + 1 = 2 ^ (k + 1) := by omega
    rw [if_pos power]
    refine ⟨k + 1, succ', by omega, by omega, ?_, fun h => ?_⟩
    · rw [and_half_of_succ_eq succ', eq, Nat.mod_self]
      exact Nat.two_pow_pos k
    · rw [and_of_succ_eq succ', and_half_of_succ_eq succ', hashToBucket_eq succ le lt, eq]
      exact address_double h
  · have ne : t.bucketCount ≠ 2 ^ k := fun eq => power ((and_pred_eq_zero_iff le lt).2 eq)
    rw [if_neg power]
    refine ⟨k, succ, by omega, by omega, ?_⟩
    cases k with
    | zero => simp only [pow_zero] at le lt ne; omega
    | succ k =>
      rw [and_half_of_succ_eq succ]
      refine ⟨?_, fun h => ?_⟩
      · have small := Nat.mod_lt t.bucketCount (Nat.two_pow_pos k)
        omega
      · rw [and_of_succ_eq succ, hashToBucket_eq succ le lt]
        exact address_succ lt (by omega) h

theorem View.addBucket (view : View t chain 0) : ∃ t' fromI, t.addBucket = some t' ∧ Grown t t' fromI ∧
    View t' (Function.update (Function.update chain fromI
        ((chain fromI).filter fun e => ¬ e.hashCode &&& t'.mask = t.bucketCount))
      t.bucketCount ((chain fromI).filter fun e => e.hashCode &&& t'.mask = t.bucketCount)) 1 := by
  obtain ⟨newBegin, capacity, news, olds, made, free, view₁⟩ := view.makeRoom
  obtain ⟨k, succ, le, lt, inside, addresses⟩ := view.maskAfter_spec
  obtain ⟨news₁, opened, view₂⟩ := view₁.openBucket free succ le lt
  have ne : t.bucketCount &&& (maskAfter t >>> 1) ≠ t.bucketCount := inside.ne
  have source := view₂.chains (t.bucketCount &&& (maskAfter t >>> 1)) (Nat.lt_succ_of_lt inside)
  rw [Function.update_of_ne ne] at source
  obtain ⟨news₂, olds₂, first, view₃⟩ := view₂.setBucket (Nat.lt_succ_of_lt inside)
    ((chain (t.bucketCount &&& (maskAfter t >>> 1))).filter
      fun e => ¬ e.hashCode &&& maskAfter t = t.bucketCount)
  obtain ⟨news₃, olds₃, second, view₄⟩ := view₃.setBucket (Nat.lt_succ_self t.bucketCount)
    ((chain (t.bucketCount &&& (maskAfter t >>> 1))).filter
      fun e => e.hashCode &&& maskAfter t = t.bucketCount)
  refine ⟨{ t with
      newBegin := newBegin, bucketCapacity := capacity, mask := maskAfter t,
      bucketCount := t.bucketCount + 1, newBuckets := news₃, oldBuckets := olds₃ },
    t.bucketCount &&& (maskAfter t >>> 1), ?_, ⟨rfl, rfl, rfl, inside, fun h => ?_,
    fun h => (addresses h).2⟩, ?_⟩
  rotate_left
  · rw [← (addresses h).1]
    exact hashToBucket_eq succ le lt h
  · rw [Function.update_comm ne.symm, Function.update_idem] at view₄
    exact view₄
  · simp only [Table.addBucket, made, Option.bind_eq_bind, Option.bind_some]
    unfold maskAfter at opened source first second
    simp only [opened, Option.bind_some, source, splitChain_eq, first, second]
    rfl

end Prpc.HashTable
