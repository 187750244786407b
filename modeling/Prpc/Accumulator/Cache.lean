import Prpc.Accumulator.Model

/-!
An `Accumulator` merges the values written to it into `_agg` and hands it to the client when
`_flush_freq` of them are cached or on `flush`. Its mutex is held for a whole call. The client is the
one of the model, and accumulator `i` is its writer `i`.
-/

namespace Prpc.Accumulator
open Lib
open Function (update update_self update_of_ne)

inductive Call
  | cached
  | flushing
  /-- inside `AccumulatorClient::write` -/
  | writing
  | flushed (ret : Bool)
  deriving DecidableEq

structure Cache {N : Type} (V M : N → Type) (n : N) where
  agg : M n
  cachedCount : Nat
  call : Call
  /-- the values that were not yet passed to the client -/
  cached : List (V n)
  written : List (V n)
  /-- whether the client rejected any of them -/
  rejected : Bool

structure Process {ι N : Type} (V M : N → Type) (name : ι → N) where
  client : State ι M
  caches : ∀ i, Cache V M (name i)
  /-- the values of the writes that the client accepted -/
  flushed : List (Σ i, List (V (name i)))

inductive CacheAction {ι N : Type} (V M : N → Type) (name : ι → N)
  | write (i : ι) (value : V (name i))
  | flush (i : ι)
  | callClient (i : ι)
  | goWriter (i : ι)
  | finishFlush (i : ι)
  | client (a : Action ι M)

variable {ι N : Type} {V M : N → Type} {name : ι → N}

def Action.ofWriter : Action ι M → Bool
  | write .. | goWriter _ => true
  | _ => false

def Call.locks (call : Call) : Bool := call = .flushing ∨ call = .writing

section
variable [∀ n, CommMonoid (M n)] (mergeValue : ∀ n, M n → V n → M n) (flushFreq : ι → Nat)

namespace Cache
variable {n : N}

def init : Cache V M n := ⟨1, 0, .cached, [], [], false⟩

def flushNonlock (a : Cache V M n) : Cache V M n :=
  { a with call := if a.cachedCount = 0 then .flushed true else .flushing }

def cacheValue (a : Cache V M n) (value : V n) : Cache V M n where
  agg := mergeValue n a.agg value
  cachedCount := a.cachedCount + 1
  call := .cached
  cached := a.cached ++ [value]
  written := a.written ++ [value]
  rejected := a.rejected

def write (freq : Nat) (a : Cache V M n) (value : V n) : Cache V M n :=
  if 0 < freq ∧ freq ≤ (a.cacheValue mergeValue value).cachedCount then
    (a.cacheValue mergeValue value).flushNonlock
  else a.cacheValue mergeValue value

def finishFlush (a : Cache V M n) (ret : Bool) : Cache V M n :=
  { a with agg := 1, cachedCount := 0, call := .flushed ret }

end Cache

def aggOf {n : N} (values : List (V n)) : M n := values.foldl (mergeValue n) 1

namespace Process
variable [DecidableEq ι]

def init : Process V M name := ⟨initial, fun _ => .init, []⟩

def set_ (s : Process V M name) (i : ι) (a : Cache V M (name i)) : Process V M name :=
  { s with caches := update s.caches i a }

def settle (s : Process V M name) (i : ι) (client : State ι M) : Process V M name :=
  match client.writers i with
  | .returned ret =>
    { s.set_ i { s.caches i with
        call := .writing, cached := [], rejected := (s.caches i).rejected || !ret } with
      client
      flushed := if ret then s.flushed ++ [⟨i, (s.caches i).cached⟩] else s.flushed }
  | _ => { s.set_ i { s.caches i with call := .writing } with client }

variable [DecidableEq N]

def act (s : Process V M name) : CacheAction V M name → Option (Process V M name)
  | .write i value =>
    if (s.caches i).call.locks then none
    else some (s.set_ i ((s.caches i).write mergeValue (flushFreq i) value))
  | .flush i =>
    if (s.caches i).call.locks then none else some (s.set_ i (s.caches i).flushNonlock)
  | .callClient i => do
    guard ((s.caches i).call = .flushing)
    return s.settle i (← s.client.write i (name i) (s.caches i).agg)
  | .goWriter i => do
    guard ((s.caches i).call = .writing)
    return s.settle i (← s.client.goWriter i)
  | .finishFlush i =>
    match (s.caches i).call, s.client.writers i with
    | .writing, .returned ret => some (s.set_ i ((s.caches i).finishFlush ret))
    | _, _ => none
  | .client a => do
    guard (a.ofWriter = false)
    return { s with client := ← Accumulator.act s.client a }

inductive Step : Process V M name → Process V M name → Prop
  | act {s s' : Process V M name} (a : CacheAction V M name)
      (acted : s.act mergeValue flushFreq a = some s') : Step s s'

abbrev Reached : Process V M name → Prop := Reachable (· = init) (Step mergeValue flushFreq)

end Process

def valuesOf [DecidableEq ι] (flushed : List (Σ i, List (V (name i)))) (i : ι) : List (V (name i)) :=
  flushed.flatMap fun batch => if same : batch.1 = i then same ▸ batch.2 else []

@[simp] theorem valuesOf_append_self [DecidableEq ι]
    (flushed : List (Σ i, List (V (name i)))) (i : ι) (values : List (V (name i))) :
    valuesOf (flushed ++ [⟨i, values⟩]) i = valuesOf flushed i ++ values := by
  simp [valuesOf]

@[simp] theorem valuesOf_append_of_ne [DecidableEq ι]
    (flushed : List (Σ i, List (V (name i)))) {i j : ι} (ne : j ≠ i) (values : List (V (name i))) : valuesOf (flushed ++ [⟨i, values⟩]) j = valuesOf flushed j := by
  simp [valuesOf, ne.symm]

abbrev Process.delivered [DecidableEq ι] (s : Process V M name) (i : ι) : List (V (name i)) :=
  valuesOf s.flushed i

structure Cache.Kept {n : N} (writer : Writer M) (delivered : List (V n)) (a : Cache V M n) : Prop where
  written : a.rejected = false → a.written = delivered ++ a.cached
  cache : a.call ≠ .writing → a.agg = aggOf mergeValue a.cached ∧ a.cachedCount = a.cached.length
  flushed : ∀ ret, a.call = .flushed ret → a.cached = [] ∧ (ret = false → a.rejected = true)
  writing : a.call = .writing → writer = .found n (aggOf mergeValue a.cached) ∨
    ∃ ret, writer = .returned ret ∧ a.cached = [] ∧ (ret = false → a.rejected = true)

def batchOf (batch : Σ i, List (V (name i))) : Sigma M := ⟨name batch.1, aggOf mergeValue batch.2⟩

structure Process.Inv [DecidableEq ι] [DecidableEq N] (s : Process V M name) : Prop where
  kept : ∀ i, (s.caches i).Kept mergeValue (s.client.writers i) (s.delivered i)
  accepted : ∀ n, (s.client.accepted n).map (Sigma.mk n) =
    (s.flushed.map (batchOf mergeValue) : Multiset (Sigma M)).filter (·.1 = n)

section
variable {mergeValue} {n : N} {a : Cache V M n} {writer : Writer M} {delivered : List (V n)}

section
variable (kept : a.Kept mergeValue writer delivered)
include kept

theorem Cache.Kept.flushNonlock (free : ¬a.call.locks) : a.flushNonlock.Kept mergeValue writer delivered := by
  obtain ⟨agg, count⟩ := kept.cache fun eq => free (by simp [Call.locks, eq])
  rw [Cache.flushNonlock]
  split
  · next none =>
    refine ⟨kept.written, fun _ => ⟨agg, count⟩, ?_, nofun⟩
    rintro ret ⟨⟩
    exact ⟨List.length_eq_zero_iff.1 (count.symm.trans none), nofun⟩
  · exact ⟨kept.written, fun _ => ⟨agg, count⟩, nofun, nofun⟩

theorem Cache.Kept.cacheValue (free : ¬a.call.locks)
    (value : V n) : (a.cacheValue mergeValue value).Kept mergeValue writer delivered := by
  obtain ⟨agg, count⟩ := kept.cache fun eq => free (by simp [Call.locks, eq])
  refine ⟨fun all => ?_, fun _ => ⟨?_, ?_⟩, nofun, nofun⟩
  · simp only [Cache.cacheValue, kept.written all, List.append_assoc]
  · simp [Cache.cacheValue, agg, aggOf]
  · simp [Cache.cacheValue, count]

theorem Cache.Kept.write (free : ¬a.call.locks)
    (freq : Nat) (value : V n) : (a.write mergeValue freq value).Kept mergeValue writer delivered := by
  have cached := kept.cacheValue free value
  rw [Cache.write]
  split
  · exact cached.flushNonlock (by simp [Cache.cacheValue, Call.locks])
  · exact cached

theorem Cache.Kept.finishFlush (call : a.call = .writing)
    {ret : Bool} (returned : writer = .returned ret) :
    (a.finishFlush ret).Kept mergeValue writer delivered := by
  obtain ⟨empty, failed⟩ : a.cached = [] ∧ (ret = false → a.rejected = true) := by
    rcases kept.writing call with found | ⟨ret', returned', empty, failed⟩
    · cases returned.symm.trans found
    · cases returned.symm.trans returned'
      exact ⟨empty, failed⟩
  refine ⟨kept.written, fun _ => ?_, ?_, nofun⟩
  · simp [Cache.finishFlush, empty, aggOf]
  · rintro _ ⟨⟩
    exact ⟨empty, failed⟩

end

end

variable [DecidableEq ι] [DecidableEq N]

def Passed (s s' : State ι M) (i : ι) (n : N) (agg : M n) : Prop :=
  ∃ w, s'.writers = update s.writers i w ∧ (w = .found n agg ∧ s'.accepted = s.accepted ∨
      ∃ ret, w = .returned ret ∧ s'.accepted =
        if ret then update s.accepted n (agg ::ₘ s.accepted n) else s.accepted)

section
variable {s s' : State ι M} {i : ι} {n : N} {agg : M n}

omit [∀ n, CommMonoid (M n)] in
theorem passed_write (acted : s.write i n agg = some s') : Passed s s' i n agg := by
  have looked : Passed s { s with
      writers := update s.writers i (if n ∈ s.names then .found n agg else .returned false) } i n agg := by
    refine ⟨_, rfl, ?_⟩
    split
    · exact .inl ⟨rfl, rfl⟩
    · exact .inr ⟨false, rfl, rfl⟩
  rw [State.write] at acted
  split at acted
  · cases acted
  all_goals
    split at acted
    · cases acted
    · exact Option.some.inj acted ▸ looked

theorem passed_goWriter (found : s.writers i = .found n agg) (acted : s.goWriter i = some s') :
    Passed s s' i n agg := by
  simp only [State.goWriter, found, Option.ite_none_left_eq_some] at acted
  obtain ⟨-, acted⟩ := acted
  split at acted
  · cases acted
    exact ⟨_, rfl, .inr ⟨false, rfl, rfl⟩⟩
  · cases acted
    exact ⟨_, rfl, .inr ⟨true, rfl, rfl⟩⟩

theorem frame_of_act {a : Action ι M} (other : a.ofWriter = false) (acted : act s a = some s') :
    s'.writers = s.writers ∧ s'.accepted = s.accepted := by
  cases a with
  | write | goWriter => cases other
  | addAggregator n =>
    simp only [act, State.addAggregator, Option.ite_none_left_eq_some] at acted
    obtain ⟨-, acted⟩ := acted
    split at acted <;> cases acted <;> exact ⟨rfl, rfl⟩
  | goSendThread =>
    cases pc : s.sendThread with simp only [act, State.goSendThread, pc] at acted
    | absent | done | aborted => cases acted
    | waiting =>
      split at acted
      · cases acted
        exact ⟨rfl, rfl⟩
      · split at acted <;> cases acted
        exact ⟨rfl, rfl⟩
    | building => split at acted <;> cases acted <;> exact ⟨rfl, rfl⟩
    | calling | finishing =>
      cases acted
      exact ⟨rfl, rfl⟩
  | initializeWriter =>
    simp only [act, State.initializeWriter, Option.ite_none_left_eq_some] at acted
    obtain ⟨-, acted⟩ := acted
    split at acted <;> cases acted <;> exact ⟨rfl, rfl⟩
  | finalizeWriter =>
    simp only [act, State.finalizeWriter, Option.ite_none_left_eq_some] at acted
    obtain ⟨-, acted⟩ := acted
    split at acted <;> cases acted <;> exact ⟨rfl, rfl⟩
  | waitEmptyWriter =>
    simp only [act, State.waitEmptyWriter, Option.ite_none_left_eq_some] at acted
    obtain ⟨-, acted⟩ := acted
    cases acted
    exact ⟨rfl, rfl⟩
  | goControl =>
    cases control : s.control with simp only [act, State.goControl, control] at acted
    | idle | finalized | emptied => cases acted
    | joining =>
      split at acted <;> cases acted <;> exact ⟨rfl, rfl⟩
    | waitingEmpty =>
      simp only [Option.ite_none_left_eq_some, Option.ite_none_right_eq_some] at acted
      obtain ⟨-, -, acted⟩ := acted
      cases acted
      exact ⟨rfl, rfl⟩

end

namespace Process
variable {mergeValue} {flushFreq} {s s' : Process V M name}

theorem Inv.set_ (inv : s.Inv mergeValue) {i : ι} {a : Cache V M (name i)}
    (kept : a.Kept mergeValue (s.client.writers i) (s.delivered i)) :
    (s.set_ i a).Inv mergeValue := by
  refine ⟨fun j => ?_, inv.accepted⟩
  rcases eq_or_ne j i with rfl | ne
  · simpa only [Process.set_, update_self] using kept
  · simpa only [Process.set_, update_of_ne ne] using inv.kept j

theorem Inv.settle (inv : s.Inv mergeValue) {i : ι} {client : State ι M}
    (passed : Passed s.client client i (name i) (aggOf mergeValue (s.caches i).cached)) :
    (s.settle i client).Inv mergeValue := by
  obtain ⟨w, writers, step⟩ := passed
  have own : client.writers i = w := by rw [writers, update_self]
  have other (j : ι) (ne : j ≠ i) : client.writers j = s.client.writers j := by
    rw [writers, update_of_ne ne]
  have written := (inv.kept i).written
  rw [Process.settle, own]
  rcases step with ⟨rfl, accepted⟩ | ⟨ret, rfl, accepted⟩
  · refine ⟨fun j => ?_, fun n => accepted ▸ inv.accepted n⟩
    rcases eq_or_ne j i with rfl | ne
    · simp only [Process.set_, update_self]
      exact ⟨written, nofun, nofun, fun _ => .inl own⟩
    · simp only [Process.set_, update_of_ne ne, other j ne]
      exact inv.kept j
  · refine ⟨fun j => ?_, fun n => ?_⟩
    · rcases eq_or_ne j i with rfl | ne
      · simp only [Process.set_, update_self]
        refine ⟨fun all => ?_, nofun, nofun, fun _ => .inr ⟨ret, own, rfl, ?_⟩⟩
        · obtain ⟨kept, rfl⟩ : (s.caches j).rejected = false ∧ ret = true := by simpa using all
          simpa [Process.delivered] using written kept
        · rintro rfl
          simp
      · simp only [Process.set_, update_of_ne ne, other j ne]
        cases ret <;> simpa [Process.delivered, ne] using inv.kept j
    · rw [accepted]
      cases ret with
      | false => exact inv.accepted n
      | true =>
        have before := inv.accepted n
        simp only [if_true, List.map_append, List.map_singleton, ← Multiset.coe_add,
          Multiset.filter_add, ← before, Multiset.coe_singleton, Multiset.filter_singleton]
        rcases eq_or_ne n (name i) with rfl | ne
        · simp [batchOf, add_comm]
        · simp [batchOf, update_of_ne ne, ne.symm]

theorem Inv.keep (inv : s.Inv mergeValue) {a : CacheAction V M name}
    (acted : s.act mergeValue flushFreq a = some s') : s'.Inv mergeValue := by
  cases a with
  | write i value =>
    rw [act, Option.ite_none_left_eq_some, Option.some.injEq] at acted
    obtain ⟨free, rfl⟩ := acted
    exact inv.set_ ((inv.kept i).write free (flushFreq i) value)
  | flush i =>
    rw [act, Option.ite_none_left_eq_some, Option.some.injEq] at acted
    obtain ⟨free, rfl⟩ := acted
    exact inv.set_ ((inv.kept i).flushNonlock free)
  | callClient i =>
    simp only [act, Option.bind_eq_bind, Option.bind_eq_some_iff, Option.guard_eq_some', Option.pure_def,
      Option.some.injEq] at acted
    obtain ⟨-, call, client, wrote, rfl⟩ := acted
    refine inv.settle ?_
    rw [← ((inv.kept i).cache (by simp [call])).1]
    exact passed_write wrote
  | goWriter i =>
    simp only [act, Option.bind_eq_bind, Option.bind_eq_some_iff, Option.guard_eq_some', Option.pure_def,
      Option.some.injEq] at acted
    obtain ⟨-, call, client, went, rfl⟩ := acted
    rcases (inv.kept i).writing call with found | ⟨ret, returned, -⟩
    · exact inv.settle (passed_goWriter found went)
    · simp [State.goWriter, returned] at went
  | finishFlush i =>
    simp only [act] at acted
    split at acted
    · next call returned =>
      cases acted
      exact inv.set_ ((inv.kept i).finishFlush call returned)
    · cases acted
  | client a =>
    simp only [act, Option.bind_eq_bind, Option.bind_eq_some_iff, Option.guard_eq_some', Option.pure_def,
      Option.some.injEq] at acted
    obtain ⟨-, other, client, acted, rfl⟩ := acted
    obtain ⟨writers, accepted⟩ := frame_of_act other acted
    refine ⟨fun i => ?_, fun n => ?_⟩
    · rw [writers]
      exact inv.kept i
    · rw [accepted]
      exact inv.accepted n

theorem Inv.init : (init : Process V M name).Inv mergeValue :=
  ⟨fun _ => ⟨fun _ => rfl, fun _ => ⟨rfl, rfl⟩, nofun, nofun⟩, fun _ => rfl⟩

end Process

end

section
open CacheAction

end

end Prpc.Accumulator
