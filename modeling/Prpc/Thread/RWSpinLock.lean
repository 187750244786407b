import Mathlib.Data.Fintype.Basic
import Mathlib.Data.Nat.Bitwise
import Prpc.Lib.Counting
import Prpc.Lib.Transition

/-!
Every atomic operation on the word is one step. The word counts what the threads hold: the writer
bit, the readers above it and the upgrading readers in the upper half.
-/

namespace Prpc.RWSpinLock
open Lib

abbrev Word := BitVec 32

def WRITER : Word := 1
def READER : Word := 2
def UPGRADE : Word := 1 <<< 16

def testLock (value : Word) : Bool := value == 0

def testLockShared (value : Word) : Bool := value &&& WRITER == 0

def testLockSharedLow (value : Word) : Bool := decide (value.toInt < UPGRADE.toInt) && value &&& WRITER == 0

def testUpgrade (value : Word) : Bool :=
  value &&& WRITER == 0 &&
    value.toInt.tdiv UPGRADE.toInt == (value.toInt.tmod UPGRADE.toInt).tdiv READER.toInt

inductive Want
  | lock
  | shared (low : Bool)
  deriving DecidableEq

def testShared : Bool → Word → Bool
  | false => testLockShared
  | true => testLockSharedLow

/-- Where a thread stands. A call with `again` is in the loop of `ttas`, one without it returns
`false` when it fails. -/
inductive Pc
  | idle
  | spin (want : Want)
  | casLock (value : { v // testLock v = true }) (again : Bool)
  | addShared (low again : Bool)
  | undoShared (low again : Bool)
  | shared
  | spinUpgrade
  | casUpgrade (value : { v // testUpgrade v = true })
  | exclusive
  | downgrading

def retry (want : Want) (again : Bool) : Pc := if again then .spin want else .idle

def observe (again : Bool) (value : Word) : Want → Pc
  | .lock =>
    if passed : testLock value = true then .casLock ⟨value, passed⟩ again else retry .lock again
  | .shared low => if testShared low value then .addShared low again else retry (.shared low) again

inductive Action
  | call (want : Want) (again : Bool)
  | unlock
  | unlockShared
  | upgrade
  | tryUpgrade (spurious : Bool)
  | downgrade
  | go (spurious : Bool)

def go (spurious : Bool) (word : Word) : Pc → Option (Pc × Word)
  | .spin want => some (observe true word want, word)
  | .casLock value again =>
    some (if word = value.1 ∧ spurious = false then (.exclusive, WRITER)
      else (retry .lock again, word))
  | .addShared low again =>
    some (if testShared low word then .shared else .undoShared low again, word + READER)
  | .undoShared low again => some (retry (.shared low) again, word - READER)
  | .spinUpgrade =>
    some (if passed : testUpgrade word = true then .casUpgrade ⟨word, passed⟩ else .spinUpgrade, word)
  | .casUpgrade value =>
    some (if word = value.1 ∧ spurious = false
      then (.exclusive, value.1 - UPGRADE - READER + WRITER) else (.spinUpgrade, word))
  | .downgrading => some (.shared, word ^^^ WRITER)
  | .idle | .shared | .exclusive => none

def act (word : Word) : Action → Pc → Option (Pc × Word)
  | .call want again, .idle => some (observe again word want, word)
  | .unlock, .exclusive => some (.idle, word ^^^ WRITER)
  | .unlockShared, .shared => some (.idle, word - READER)
  | .upgrade, .shared => some (.spinUpgrade, word + UPGRADE)
  | .tryUpgrade spurious, .shared =>
    some (if word = READER ∧ spurious = false then (.exclusive, WRITER) else (.shared, word))
  -- Without a shared lock only a failing `try_upgrade` keeps to the discipline.
  | .tryUpgrade spurious, .idle =>
    if word = READER ∧ spurious = false then none else some (.idle, word)
  | .downgrade, .exclusive => some (.downgrading, word + READER)
  | .go spurious, pc => go spurious word pc
  | _, _ => none

structure State (n : Nat) where
  word : Word
  threads : Fin n → Pc

def perform {n : Nat} (s : State n) (move : Fin n × Action) : Option (State n) := do
  let (pc, word) ← act s.word move.2 (s.threads move.1)
  return ⟨word, Function.update s.threads move.1 pc⟩

inductive LockStep {n : Nat} : State n → State n → Prop
  | perform {s s' : State n} (move : Fin n × Action) (performed : perform s move = some s') : LockStep s s'

abbrev LockReachable {n : Nat} : State n → Prop := Reachable (· = ⟨0, fun _ => .idle⟩) LockStep

inductive Role
  | none
  /-- counted itself in vain, and has not yet taken that back -/
  | failed
  | shared
  | upgrading
  | exclusive
  | downgrading
  deriving DecidableEq

def Pc.role : Pc → Role
  | .idle | .spin _ | .casLock .. | .addShared .. => .none
  | .undoShared .. => .failed
  | .shared => .shared
  | .spinUpgrade | .casUpgrade _ => .upgrading
  | .exclusive => .exclusive
  | .downgrading => .downgrading

namespace Role

def writer : Role → Bool
  | exclusive | downgrading => true
  | _ => false

def counted : Role → Bool
  | failed | shared | upgrading | downgrading => true
  | _ => false

def waiting : Role → Bool
  | upgrading => true
  | _ => false

def reading : Role → Bool
  | shared => true
  | _ => false

end Role

inductive Move : Role → Word → Role → Word → Prop
  | stay (role : Role) (word : Word) : Move role word role word
  | lock : Move .none 0 .exclusive WRITER
  | enter {word : Word} (free : word &&& WRITER = 0) : Move .none word .shared (word + READER)
  | fail (word : Word) : Move .none word .failed (word + READER)
  | undo (word : Word) : Move .failed word .none (word - READER)
  | leave (word : Word) : Move .shared word .none (word - READER)
  | ask (word : Word) : Move .shared word .upgrading (word + UPGRADE)
  | grant {word : Word} (passed : testUpgrade word = true) :
      Move .upgrading word .exclusive (word - UPGRADE - READER + WRITER)
  | tryUpgrade : Move .shared READER .exclusive WRITER
  | unlock (word : Word) : Move .exclusive word .none (word ^^^ WRITER)
  | downgrade (word : Word) : Move .exclusive word .downgrading (word + READER)
  | downgraded (word : Word) : Move .downgrading word .shared (word ^^^ WRITER)

theorem role_retry (want : Want) (again : Bool) : (retry want again).role = .none := by
  cases again <;> rfl

theorem role_observe (again : Bool) (value : Word) (want : Want) :
    (observe again value want).role = .none := by
  cases want with
  | lock =>
    rw [observe]
    split
    · rfl
    · exact role_retry ..
  | shared low =>
    rw [observe]
    split
    · rfl
    · exact role_retry ..

theorem testShared_free {low : Bool} {word : Word} (passed : testShared low word = true) :
    word &&& WRITER = 0 := by
  cases low with
  | false => simpa [testShared, testLockShared] using passed
  | true =>
    simp only [testShared, testLockSharedLow, Bool.and_eq_true, beq_iff_eq] at passed
    exact passed.2

theorem Move.of_go {spurious : Bool} {word word' : Word} {pc pc' : Pc}
    (acted : go spurious word pc = some (pc', word')) : Move pc.role word pc'.role word' := by
  cases pc with
  | idle => cases acted
  | shared => cases acted
  | exclusive => cases acted
  | spin want =>
    cases acted
    rw [role_observe]
    exact .stay ..
  | casLock value again =>
    obtain ⟨value, passed⟩ := value
    obtain rfl : value = 0 := by simpa [testLock] using passed
    simp only [go, Option.some.injEq] at acted
    split at acted
    · next same =>
        cases acted
        rw [same.1]
        exact .lock
    · cases acted
      rw [role_retry]
      exact .stay ..
  | addShared low again =>
    simp only [go, Option.some.injEq, Prod.mk.injEq] at acted
    obtain ⟨rfl, rfl⟩ := acted
    split
    · next passed => exact .enter (testShared_free passed)
    · exact .fail _
  | undoShared low again =>
    cases acted
    rw [role_retry]
    exact .undo _
  | spinUpgrade =>
    simp only [go, Option.some.injEq, Prod.mk.injEq] at acted
    obtain ⟨rfl, rfl⟩ := acted
    split <;> exact .stay ..
  | casUpgrade value =>
    simp only [go, Option.some.injEq] at acted
    split at acted
    · next same =>
        cases acted
        rw [same.1]
        exact .grant value.2
    · cases acted
      exact .stay ..
  | downgrading =>
    cases acted
    exact .downgraded _

theorem Move.of_act {word word' : Word} {a : Action} {pc pc' : Pc}
    (acted : act word a pc = some (pc', word')) : Move pc.role word pc'.role word' := by
  cases a with
  | go spurious =>
    exact .of_go (show go spurious word pc = some (pc', word') from acted)
  | call want again =>
    cases pc <;> cases acted
    rw [role_observe]
    exact .stay ..
  | unlock =>
    cases pc <;> cases acted
    exact .unlock _
  | unlockShared =>
    cases pc <;> cases acted
    exact .leave _
  | upgrade =>
    cases pc <;> cases acted
    exact .ask _
  | downgrade =>
    cases pc <;> cases acted
    exact .downgrade _
  | tryUpgrade spurious =>
    cases pc with
    | shared =>
      simp only [act, Option.some.injEq] at acted
      split at acted
      · next same =>
          cases acted
          rw [same.1]
          exact .tryUpgrade
      · cases acted
        exact .stay ..
    | idle =>
      simp only [act] at acted
      split at acted
      · cases acted
      · cases acted
        exact .stay ..
    | _ => cases acted

/-- The word is put together from three numbers that do not run into each other. -/
structure Fields (word : Word) (w r u : Nat) : Prop where
  sum : word.toNat = w + 2 * r + 65536 * u
  w_le : w ≤ 1
  r_lt : r < 2 ^ 15
  u_lt : u < 2 ^ 15

namespace Fields

variable {word : Word} {w r u w' r' u' : Nat}

section
variable (fields : Fields word w r u)
include fields

theorem cast (hw : w' = w) (hr : r' = r) (hu : u' = u) : Fields word w' r' u' := by
  rwa [hw, hr, hu]

theorem toInt : word.toInt = w + 2 * r + 65536 * u := by
  have := fields.sum
  have := fields.w_le
  have := fields.r_lt
  have := fields.u_lt
  rw [BitVec.toInt_eq_toNat_of_lt (by omega)]
  omega

theorem free_iff : word &&& WRITER = 0 ↔ w = 0 := by
  have sum := fields.sum
  have := fields.w_le
  rw [← BitVec.toNat_inj, BitVec.toNat_and]
  have mask : (WRITER).toNat = 1 := rfl
  rw [mask, Nat.and_one_is_mod]
  change word.toNat % 2 = 0 ↔ _
  omega

theorem of_testUpgrade (passed : testUpgrade word = true) : w = 0 ∧ u = r := by
  simp only [testUpgrade, Bool.and_eq_true, beq_iff_eq] at passed
  obtain ⟨free, equal⟩ := passed
  have none := fields.free_iff.1 free
  have := fields.r_lt
  have unitU : (UPGRADE).toInt = 65536 := rfl
  have unitR : (READER).toInt = 2 := rfl
  rw [fields.toInt, unitU, unitR, Int.tdiv_eq_ediv_of_nonneg (by omega),
    Int.tmod_eq_emod_of_nonneg (by omega), Int.tdiv_eq_ediv_of_nonneg (by omega)] at equal
  omega

theorem addReader (room : r + 1 < 2 ^ 15) : Fields (word + READER) w (r + 1) u := by
  obtain ⟨sum, w_le, r_lt, u_lt⟩ := fields
  have unit : (READER).toNat = 2 := rfl
  refine ⟨?_, w_le, room, u_lt⟩
  rw [BitVec.toNat_add, unit]
  omega

end

theorem subReader (fields : Fields word w (r + 1) u) : Fields (word - READER) w r u := by
  obtain ⟨sum, w_le, r_lt, u_lt⟩ := fields
  have unit : (READER).toNat = 2 := rfl
  refine ⟨?_, w_le, by omega, u_lt⟩
  rw [BitVec.toNat_sub, unit]
  omega

theorem addUpgrade (fields : Fields word w r u) (room : u + 1 < 2 ^ 15) :
    Fields (word + UPGRADE) w r (u + 1) := by
  obtain ⟨sum, w_le, r_lt, u_lt⟩ := fields
  have unit : (UPGRADE).toNat = 65536 := rfl
  refine ⟨?_, w_le, r_lt, room⟩
  rw [BitVec.toNat_add, unit]
  omega

theorem subUpgrade (fields : Fields word w r (u + 1)) : Fields (word - UPGRADE) w r u := by
  obtain ⟨sum, w_le, r_lt, u_lt⟩ := fields
  have unit : (UPGRADE).toNat = 65536 := rfl
  refine ⟨?_, w_le, r_lt, by omega⟩
  rw [BitVec.toNat_sub, unit]
  omega

theorem setWriter (fields : Fields word 0 r u) : Fields (word + WRITER) 1 r u := by
  obtain ⟨sum, w_le, r_lt, u_lt⟩ := fields
  have unit : (WRITER).toNat = 1 := rfl
  refine ⟨?_, le_refl 1, r_lt, u_lt⟩
  rw [BitVec.toNat_add, unit]
  omega

theorem clearWriter (fields : Fields word 1 r u) : Fields (word ^^^ WRITER) 0 r u := by
  obtain ⟨sum, w_le, r_lt, u_lt⟩ := fields
  have unit : (WRITER).toNat = 1 := rfl
  refine ⟨?_, Nat.zero_le 1, r_lt, u_lt⟩
  have odd : Odd word.toNat := Nat.odd_iff.2 (by omega)
  rw [BitVec.toNat_xor, unit, Nat.xor_one_of_odd odd]
  omega

end Fields

structure Counts {n : Nat} (word : Word) (roles : Fin n → Role) : Prop where
  fields : Fields word (count Role.writer roles) (count Role.counted roles)
    (count Role.waiting roles)
  alone : 0 < count Role.writer roles → count Role.reading roles = 0

section
variable {n : Nat} {word word' : Word} {roles : Fin n → Role} {i : Fin n} {role : Role}

theorem Counts.move (few : n < 2 ^ 15) (counts : Counts word roles)
    (move : Move (roles i) word role word') : Counts word' (Function.update roles i role) := by
  obtain ⟨fields, alone⟩ := counts
  have writers := count_update Role.writer roles i role
  have counted := count_update Role.counted roles i role
  have waiting := count_update Role.waiting roles i role
  have reading := count_update Role.reading roles i role
  have enough : count Role.counted (Function.update roles i role) < 2 ^ 15 :=
    lt_of_le_of_lt (count_le_card.trans_eq (Fintype.card_fin n)) few
  have enough' : count Role.waiting (Function.update roles i role) < 2 ^ 15 :=
    lt_of_le_of_lt (count_le_card.trans_eq (Fintype.card_fin n)) few
  have parts : count Role.reading roles + count Role.waiting roles ≤ count Role.counted roles :=
    count_add_le fun x => by cases x <;> decide
  have sum := fields.sum
  have one := fields.w_le
  generalize before : roles i = role' at move writers counted waiting reading
  cases move <;> try
    simp only [Role.writer, Role.counted, Role.waiting, Role.reading, Bool.toNat_true,
      Bool.toNat_false] at writers counted waiting reading
  case stay =>
      rw [← before, Function.update_eq_self]
      exact ⟨fields, alone⟩
  case lock =>
      have zero : (0 : Word).toNat = 0 := rfl
      have start : Fields (WRITER) 1 0 0 := ⟨rfl, le_refl 1, by omega, by omega⟩
      exact ⟨start.cast (by omega) (by omega) (by omega), by omega⟩
  case enter free =>
      have none := fields.free_iff.1 free
      exact ⟨(fields.addReader (by omega)).cast (by omega) (by omega) (by omega), by omega⟩
  case fail =>
      exact ⟨(fields.addReader (by omega)).cast (by omega) (by omega) (by omega), by omega⟩
  case undo | leave =>
      have fields' := fields.cast (rfl : count Role.writer roles = _) counted rfl
      exact ⟨fields'.subReader.cast (by omega) (by omega) (by omega), by omega⟩
  case ask =>
      exact ⟨(fields.addUpgrade (by omega)).cast (by omega) (by omega) (by omega), by omega⟩
  case grant passed =>
      -- The test counts as many upgrading threads as readers, so no reader is left.
      obtain ⟨none, all⟩ := fields.of_testUpgrade passed
      have fields' := (fields.cast none.symm counted waiting).subUpgrade.subReader.setWriter
      exact ⟨fields'.cast (by omega) (by omega) (by omega), by omega⟩
  case tryUpgrade =>
      have two : (READER).toNat = 2 := rfl
      have start : Fields (WRITER) 1 0 0 := ⟨rfl, le_refl 1, by omega, by omega⟩
      exact ⟨start.cast (by omega) (by omega) (by omega), by omega⟩
  case unlock | downgraded =>
      have fields' := fields.cast (show 1 = count Role.writer roles by omega) rfl rfl
      exact ⟨fields'.clearWriter.cast (by omega) (by omega) (by omega), by omega⟩
  case downgrade =>
      exact ⟨(fields.addReader (by omega)).cast (by omega) (by omega) (by omega), by omega⟩

theorem Counts.step (few : n < 2 ^ 15) {s s' : State n}
    (counts : Counts s.word fun i => (s.threads i).role) (step : LockStep s s') :
    Counts s'.word fun i => (s'.threads i).role := by
  obtain ⟨⟨i, a⟩, performed⟩ := step
  simp only [RWSpinLock.perform, Option.bind_eq_bind, Option.bind_eq_some_iff, Option.pure_def,
    Option.some.injEq] at performed
  obtain ⟨⟨pc, word⟩, acted, rfl⟩ := performed
  have roles : (fun j => (Function.update s.threads i pc j).role) =
      Function.update (fun j => (s.threads j).role) i pc.role := by
    funext j
    exact Function.apply_update (fun _ pc => Pc.role pc) s.threads i pc j
  simp only [roles]
  exact counts.move few (.of_act acted)

theorem counts_reachable (few : n < 2 ^ 15) {s : State n} (reachable : LockReachable s) :
    Counts s.word fun i => (s.threads i).role := by
  refine Reachable.invariant (fun s => Counts s.word fun i => (s.threads i).role) ?_
    (fun s t counts step => counts.step few step) reachable
  rintro s rfl
  have none : ∀ p : Role → Bool, p .none = false → count p (fun _ : Fin n => Role.none) = 0 :=
    fun p h => count_eq_zero.2 fun _ => h
  have fields : Fields 0 0 0 0 := ⟨rfl, Nat.zero_le 1, by omega, by omega⟩
  exact ⟨fields.cast (none _ rfl) (none _ rfl) (none _ rfl), fun _ => none _ rfl⟩

end

/-- At most one thread holds the lock exclusively. Whoever is counted beside it waits in `upgrade` or
has a failed attempt to take back. The word is made of the three counts, with no carry. -/
theorem rwSpinLock_exclusion {n : Nat} (few : n < 2 ^ 15) {s : State n} (reachable : LockReachable s) :
    (∀ i j, (s.threads i).role.writer = true → (s.threads j).role.writer = true → i = j) ∧
    (∀ i j, (s.threads i).role.writer = true → j ≠ i → (s.threads j).role.counted = true →
      (s.threads j).role = .upgrading ∨ (s.threads j).role = .failed) ∧
    ∃ w r u, w = count (fun pc : Pc => pc.role.writer) s.threads ∧
      r = count (fun pc : Pc => pc.role.counted) s.threads ∧
      u = count (fun pc : Pc => pc.role.waiting) s.threads ∧
      s.word.toNat = (WRITER).toNat * w + (READER).toNat * r + (UPGRADE).toNat * u ∧
      (WRITER).toNat * w < (READER).toNat ∧
      (WRITER).toNat * w + (READER).toNat * r < (UPGRADE).toNat ∧ s.word.toNat < 2 ^ 31 := by
  obtain ⟨fields, alone⟩ := counts_reachable few reachable
  have unique : ∀ i j, (s.threads i).role.writer = true → (s.threads j).role.writer = true → i = j :=
    fun i j hi hj => count_unique (f := fun i => (s.threads i).role) fields.w_le hi hj
  refine ⟨unique, fun i j hi ne hj => ?_, _, _, _, rfl, rfl, rfl, ?_⟩
  · have noReader := count_eq_zero.1 (alone (count_pos (i := i) hi)) j
    have other : (s.threads j).role.writer = false := Bool.eq_false_iff.2 fun h => ne (unique j i h hi)
    cases role : (s.threads j).role <;> simp_all [Role.reading, Role.writer, Role.counted]
  · have unitW : (WRITER).toNat = 1 := rfl
    have unitR : (READER).toNat = 2 := rfl
    have unitU : (UPGRADE).toNat = 65536 := rfl
    obtain ⟨sum, w_le, r_lt, u_lt⟩ := fields
    simp only [count] at sum w_le r_lt u_lt ⊢
    rw [unitW, unitR, unitU]
    omega

theorem rwSpinLock_exclusion_two : ∃ s : State 2, LockReachable s ∧ (s.threads 0).role = .exclusive ∧
    (s.threads 1).role = .upgrading ∧ s.word = WRITER + READER + UPGRADE ∧
    ∀ i, (s.threads i).role.writer = true → i = 0 := by
  let moves : List (Fin 2 × Action) :=
    [(0, .call (.shared true) true), (0, .go false), (1, .call (.shared false) false), (1, .go false),
      (1, .upgrade), (0, .upgrade), (1, .go false), (0, .go false), (1, .go true), (0, .go false)]
  have ran : (moves.foldlM perform ⟨0, fun _ => .idle⟩).any (fun s => decide
      ((s.threads 0).role = .exclusive ∧ (s.threads 1).role = .upgrading ∧
        s.word = WRITER + READER + UPGRADE)) = true := by
    decide +kernel
  obtain ⟨s, run, found⟩ := (Option.any_eq_true ..).1 ran
  have reachable : LockReachable s :=
    .foldlM (fun m _ _ _ performed => .perform m performed) (.initial rfl) run
  obtain ⟨first, second, word⟩ := of_decide_eq_true found
  refine ⟨s, reachable, first, second, word, fun i holds => ?_⟩
  exact (rwSpinLock_exclusion (by decide) reachable).1 i 0 holds (by rw [first]; rfl)

end Prpc.RWSpinLock
