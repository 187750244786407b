import Prpc.Accumulator.Model

/-!
A ledger says where the accepted writes are: merged by the server, in the request that is on its way, or
in one of the buffers.
-/

namespace Prpc.Accumulator
open Lib
open Function (update update_self update_of_ne)

variable {ι N : Type} {M : N → Type} [DecidableEq N] [∀ n, CommMonoid (M n)]

theorem mergeWrite_getD (server : ∀ n, Option (M n)) (n : N) (delta : M n) (k : N) (f : ∀ n, M n)
    (same : f n = delta) :
    (mergeWrite server ⟨n, delta⟩ k).getD 1 = (server k).getD 1 * if k = n then f k else 1 := by
  subst same
  unfold mergeWrite
  by_cases eq : k = n
  · subst eq
    rw [update_self, if_pos rfl]
    cases server k with
    | none => rw [Option.getD_some, Option.getD_none, one_mul]
    | some agg => rfl
  · rw [update_of_ne eq, if_neg eq, mul_one]

theorem processWriteRequest_getD {ns : List N} (nodup : ns.Nodup) (f : ∀ n, M n)
    (server : ∀ n, Option (M n)) (k : N) :
    (processWriteRequest server (ns.map fun n => ⟨n, f n⟩) k).getD 1 =
      (server k).getD 1 * if k ∈ ns then f k else 1 := by
  induction ns generalizing server with
  | nil => simp [processWriteRequest]
  | cons n ns ih =>
    rw [List.nodup_cons] at nodup
    have rest := ih nodup.2 (mergeWrite server ⟨n, f n⟩)
    rw [mergeWrite_getD server n (f n) k f rfl, mul_assoc] at rest
    refine rest.trans ?_
    congr 1
    by_cases eq : k = n
    · subst eq
      simp [nodup.1]
    · simp [eq]

def SendThread.Carries (sent : ∀ n, Multiset (M n)) (held : Bool → ∀ n, Multiset (M n)) : SendThread M → Prop
  | calling idx _ request => (∀ n, held idx n = 0) ∧ ∃ (ns : List N) (f : ∀ n, M n), ns.Nodup ∧
      request = (ns.map fun n => ⟨n, f n⟩) ∧ ∀ n, (if n ∈ ns then f n else 1) = (sent n).prod
  | finishing idx _ => (∀ n, held idx n = 0) ∧ ∀ n, sent n = 0
  | _ => ∀ n, sent n = 0

structure Ledger (s : State ι M) (merged sent : ∀ n, Multiset (M n))
    (held : Bool → ∀ n, Multiset (M n)) : Prop where
  total : ∀ n, merged n + sent n + held true n + held false n = s.accepted n
  server : ∀ n, (s.server n).getD 1 = (merged n).prod
  aggs : ∀ b n, (s.buffers b).aggs n = (held b n).prod
  flags : ∀ b n, (s.buffers b).flags n = false → held b n = 0
  known : ∀ b n, (s.buffers b).flags n = true → n ∈ s.names
  empty : ∀ b, (s.buffers b).count = 0 → ∀ n, held b n = 0
  carries : s.sendThread.Carries sent held

def SendThread.Phase (idx closed : Bool) (counts : Bool → Nat) : SendThread M → Prop
  | absent | done => closed = true ∧ ∀ b, counts b = 0
  | waiting => counts (!idx) = 0
  | building i last | calling i last _ | finishing i last => 0 < counts i ∧
      if last then i = idx ∧ closed = true ∧ counts (!idx) = 0 else i = !idx
  | aborted => False

structure Phases (s : State ι M) : Prop where
  nodup : s.names.Nodup
  found : ∀ i n agg, s.writers i = .found n agg → n ∈ s.names
  joining : s.control = .joining → s.closed = true
  closed : s.closed = true → s.control = .joining ∨ s.sendThread = .absent
  phase : s.sendThread.Phase s.idx s.closed fun b => (s.buffers b).count

def Inv (s : State ι M) : Prop := Phases s ∧ ∃ merged sent held, Ledger s merged sent held

variable {s s' : State ι M} {merged sent : ∀ n, Multiset (M n)}
  {held : Bool → ∀ n, Multiset (M n)}

variable {idx closed : Bool}

theorem Ledger.thread (ledger : Ledger s merged sent held)
    {sendThread : SendThread M} {writers : ι → Writer M} {control : Control}
    (carries : sendThread.Carries sent held) :
    Ledger { s with idx, closed, sendThread, writers, control } merged sent held :=
  ⟨ledger.total, ledger.server, ledger.aggs, ledger.flags, ledger.known, ledger.empty, carries⟩

theorem Inv.initial : Inv (initial : State ι M) := by
  refine ⟨⟨List.nodup_nil, nofun, nofun, fun _ => .inr rfl, rfl, fun _ => rfl⟩, fun _ => 0,
    fun _ => 0, fun _ _ => 0, ?_⟩
  exact ⟨fun _ => rfl, fun _ => rfl, fun _ _ => rfl, fun _ _ _ => rfl, nofun, fun _ _ _ => rfl, fun _ => rfl⟩

section
variable (ledger : Ledger s merged sent held)
include ledger

theorem Ledger.all_merged (none : ∀ n, sent n = 0)
    (counts : ∀ b, (s.buffers b).count = 0) (n : N) : (s.server n).getD 1 = (s.accepted n).prod := by
  have total := ledger.total n
  rw [none, ledger.empty true (counts true), ledger.empty false (counts false), add_zero, add_zero,
    add_zero] at total
  rw [ledger.server, total]

theorem Ledger.build (nodup : s.names.Nodup) {idx last : Bool}
    (pc : s.sendThread = .building idx last) :
    Ledger { s.setBuffer idx ((s.buffers idx).sent s.names) with
        sendThread := .calling idx last ((s.buffers idx).request s.names) }
      merged (held idx) (update held idx fun _ => 0) := by
  have carries : ∀ n, sent n = 0 := by
    have := ledger.carries
    rw [pc] at this
    exact this
  have mem_iff : ∀ n, n ∈ s.names.filter (s.buffers idx).flags ↔ (s.buffers idx).flags n = true := by
    intro n
    rw [List.mem_filter]
    exact ⟨fun h => h.2, fun h => ⟨ledger.known idx n h, h⟩⟩
  have unflagged : ∀ n, (s.buffers idx).flags n ≠ true → (s.buffers idx).aggs n = 1 := by
    intro n h
    rw [ledger.aggs, ledger.flags idx n (Bool.eq_false_iff.2 h), Multiset.prod_zero]
  refine ⟨fun n => ?_, ledger.server, fun b n => ?_, fun b n h => ?_, fun b n h => ?_, fun b h n => ?_, ?_⟩
  · have total := ledger.total n
    rw [carries] at total
    cases idx <;> simp [update_self, update_of_ne, ← total, add_comm, add_left_comm, State.setBuffer]
  · by_cases eq : b = idx
    · subst eq
      simp only [State.setBuffer, update_self, Buffer.sent, mem_iff, Multiset.prod_zero]
      split
      · rfl
      · next h => exact unflagged n h
    · simp only [State.setBuffer, update_of_ne eq]
      exact ledger.aggs b n
  · by_cases eq : b = idx
    · subst eq
      rw [update_self]
    · simp only [State.setBuffer, update_of_ne eq] at h ⊢
      exact ledger.flags b n h
  · by_cases eq : b = idx
    · subst eq
      simp only [State.setBuffer, update_self, Buffer.sent, mem_iff] at h
      split at h
      · cases h
      · contradiction
    · simp only [State.setBuffer, update_of_ne eq] at h
      exact ledger.known b n h
  · by_cases eq : b = idx
    · subst eq
      rw [update_self]
    · simp only [State.setBuffer, update_of_ne eq] at h ⊢
      exact ledger.empty b h n
  · refine ⟨fun n => by rw [update_self], s.names.filter (s.buffers idx).flags,
      (s.buffers idx).aggs, nodup.filter _, rfl, fun n => ?_⟩
    rw [← ledger.aggs]
    simp only [mem_iff]
    split
    · rfl
    · next h => exact (unflagged n h).symm

theorem Ledger.finish {idx last : Bool} (pc : s.sendThread = .finishing idx last)
    {next : SendThread M} (quiet : next.Carries (fun _ => 0) held) :
    Ledger { s.setBuffer idx { s.buffers idx with count := 0 } with sendThread := next } merged
      (fun _ => 0) held := by
  have carries := ledger.carries
  rw [pc] at carries
  have same : ∀ b, (update s.buffers idx { s.buffers idx with count := 0 } b).aggs =
      (s.buffers b).aggs ∧ (update s.buffers idx { s.buffers idx with count := 0 } b).flags =
      (s.buffers b).flags := by
    intro b
    by_cases eq : b = idx
    · subst eq
      rw [update_self]
      exact ⟨rfl, rfl⟩
    · rw [update_of_ne eq]
      exact ⟨rfl, rfl⟩
  refine ⟨fun n => ?_, ledger.server, fun b n => ?_, fun b n h => ?_, fun b n h => ?_, fun b h n => ?_, quiet⟩
  · have total := ledger.total n
    rw [carries.2] at total
    exact total
  · simp only [State.setBuffer, (same b).1]
    exact ledger.aggs b n
  · simp only [State.setBuffer, (same b).2] at h
    exact ledger.flags b n h
  · simp only [State.setBuffer, (same b).2] at h
    exact ledger.known b n h
  · by_cases eq : b = idx
    · subst eq
      exact carries.1 n
    · simp only [State.setBuffer, update_of_ne eq] at h
      exact ledger.empty b h n

end

theorem Inv.goSendThread (inv : Inv s) (acted : s.goSendThread = some s') : Inv s' := by
  obtain ⟨⟨nodup, found, joining, closed, phase⟩, merged, sent, held, ledger⟩ := inv
  unfold State.goSendThread at acted
  have carries := ledger.carries
  cases pc : s.sendThread with rw [pc] at acted carries phase closed
  | absent | done | aborted => cases acted
  | waiting =>
    have joined := fun h => (closed h).resolve_right nofun
    simp only at acted
    split at acted
    · next some_ =>
        cases acted
        exact ⟨⟨nodup, found, joining, fun h => .inl (joined h), some_, (Bool.not_not s.idx).symm⟩,
          merged, sent, held, ledger.thread carries⟩
    · next none =>
        split at acted
        · next stop =>
            cases acted
            refine ⟨⟨nodup, found, joining, fun h => .inl (joined h), stop, fun b => ?_⟩, merged, sent,
              held, ledger.thread carries⟩
            have current : (s.buffers s.idx).count = 0 := by omega
            rcases Bool.eq_or_eq_not b s.idx with rfl | rfl
            · exact current
            · exact phase
        · cases acted
  | building idx last =>
    have joined := fun h => (closed h).resolve_right nofun
    simp only at acted
    split at acted
    · next nothing =>
        cases acted
        have unflagged : ∀ n, (s.buffers idx).flags n = false := by
          intro n
          refine Bool.eq_false_iff.2 fun h => ?_
          have mem : n ∈ s.names.filter (s.buffers idx).flags := List.mem_filter.2 ⟨ledger.known idx n h, h⟩
          rw [Buffer.request, List.map_eq_nil_iff] at nothing
          rw [nothing] at mem
          cases mem
        refine ⟨⟨nodup, found, joining, fun h => .inl (joined h), phase⟩, merged, sent, held,
          ledger.total, ledger.server, ledger.aggs, ledger.flags, ledger.known, ledger.empty,
          fun n => ledger.flags idx n (unflagged n), carries⟩
    · cases acted
      have counts : (fun b => (update s.buffers idx
          ((s.buffers idx).sent s.names) b).count) = fun b => (s.buffers b).count := by
        funext b
        by_cases eq : b = idx
        · subst eq
          rw [update_self]
          rfl
        · rw [update_of_ne eq]
      refine ⟨⟨nodup, found, joining, fun h => .inl (joined h), ?_⟩, merged, held idx, _,
        ledger.build nodup pc⟩
      simp only [State.setBuffer, counts]
      exact phase
  | calling idx last request =>
    have joined := fun h => (closed h).resolve_right nofun
    cases acted
    obtain ⟨drained, ns, f, once, rfl, products⟩ := carries
    refine ⟨⟨nodup, found, joining, fun h => .inl (joined h), phase⟩, fun n => merged n + sent n,
      fun _ => 0, held, fun n => ?_, fun n => ?_, ledger.aggs, ledger.flags, ledger.known,
      ledger.empty, drained, fun _ => rfl⟩
    · rw [add_zero]
      exact ledger.total n
    · rw [processWriteRequest_getD once, ledger.server, products, Multiset.prod_add]
  | finishing idx last =>
    have joined := fun h => (closed h).resolve_right nofun
    simp only [Option.some.injEq] at acted
    have zero : ∀ b, (s.buffers b).count = 0 ∨ b = idx →
        ((s.setBuffer idx { s.buffers idx with count := 0 }).buffers b).count = 0 := by
      intro b h
      by_cases eq : b = idx
      · subst eq
        simp [State.setBuffer, update_self]
      · simp only [State.setBuffer, update_of_ne eq]
        exact h.resolve_right eq
    subst acted
    refine ⟨⟨nodup, found, joining, fun h => .inl (joined h), ?_⟩, merged, _, held, ledger.finish pc ?_⟩
    · cases last with
      | true =>
        obtain ⟨-, rfl, stop, other⟩ := phase
        refine ⟨stop, fun b => zero b ?_⟩
        rcases Bool.eq_or_eq_not b s.idx with rfl | rfl
        · exact .inr rfl
        · exact .inl other
      | false =>
        obtain rfl : idx = !s.idx := phase.2
        simp only [Bool.false_eq_true, if_false]
        split
        · next stop =>
            split
            · next some_ => exact ⟨some_, rfl, stop, zero _ (.inr rfl)⟩
            · next none =>
                refine ⟨stop, fun b => ?_⟩
                rcases Bool.eq_or_eq_not b s.idx with rfl | rfl
                · exact Nat.eq_zero_of_not_pos none
                · exact zero _ (.inr rfl)
        · exact zero _ (.inr rfl)
    · split
      · exact fun _ => rfl
      · split
        · split <;> exact fun _ => rfl
        · exact fun _ => rfl

variable {n : N}

theorem Inv.addAggregator (inv : Inv s) (acted : s.addAggregator n = some s') : Inv s' := by
  obtain ⟨⟨nodup, found, joining, closed, phase⟩, merged, sent, held, ledger⟩ := inv
  unfold State.addAggregator at acted
  split at acted
  · cases acted
  · simp only [Option.some.injEq] at acted
    split at acted
    · subst acted
      exact ⟨⟨nodup, found, joining, closed, phase⟩, merged, sent, held, ledger⟩
    · next new =>
        subst acted
        refine ⟨⟨?_, fun i n agg h => List.mem_append_left _ (found i n agg h), joining, closed, phase⟩,
          merged, sent, held, ledger.total, ledger.server, ledger.aggs, ledger.flags,
          fun b n h => List.mem_append_left _ (ledger.known b n h), ledger.empty, ledger.carries⟩
        rw [List.nodup_append]
        exact ⟨nodup, List.nodup_singleton _, fun a ha b hb eq => by simp_all⟩

section
variable [DecidableEq ι]

omit [DecidableEq N] [∀ n, CommMonoid (M n)] in
theorem found_update {names : List N} {writers : ι → Writer M} {i : ι} {pc : Writer M}
    (found : ∀ i n agg, writers i = .found n agg → n ∈ names)
    (new : ∀ n agg, pc = .found n agg → n ∈ names) :
    ∀ j n agg, update writers i pc j = .found n agg → n ∈ names := by
  intro j n agg h
  by_cases eq : j = i
  · subst eq
    rw [update_self] at h
    exact new n agg h
  · rw [update_of_ne eq] at h
    exact found j n agg h

variable {i : ι}

theorem Inv.write (inv : Inv s) {agg : M n} (acted : s.write i n agg = some s') : Inv s' := by
  obtain ⟨⟨nodup, found, joining, closed, phase⟩, merged, sent, held, ledger⟩ := inv
  have next : s' = { s with
      writers := update s.writers i <| if n ∈ s.names then .found n agg else .returned false } := by
    unfold State.write at acted
    split at acted
    · cases acted
    all_goals
      split at acted
      · cases acted
      · cases acted
        rfl
  subst next
  refine ⟨⟨nodup, found_update found fun m agg' h => ?_, joining, closed, phase⟩, merged, sent, held,
    ledger.thread ledger.carries⟩
  split at h
  · next mem =>
      cases h
      exact mem
  · cases h

theorem Ledger.write (ledger : Ledger s merged sent held) (agg : M n) (known : n ∈ s.names)
    (carries : s.sendThread.Carries sent (update held s.idx (update (held s.idx) n (agg ::ₘ held s.idx n)))) :
    Ledger { s.setBuffer s.idx ((s.buffers s.idx).merge n agg) with
        accepted := update s.accepted n (agg ::ₘ s.accepted n)
        writers := update s.writers i (.returned true) }
      merged sent
      (update held s.idx (update (held s.idx) n (agg ::ₘ held s.idx n))) := by
  refine ⟨fun k => ?_, ledger.server, fun b k => ?_, fun b k h => ?_, fun b k h => ?_,
    fun b h k => ?_, carries⟩
  · change _ = update s.accepted n (agg ::ₘ s.accepted n) k
    have total := ledger.total k
    by_cases eq : k = n
    · subst eq
      rw [update_self, ← total]
      cases s.idx <;> simp
    · rw [update_of_ne eq, ← total]
      cases s.idx <;> simp [eq]
  · by_cases same : b = s.idx
    · subst same
      simp only [State.setBuffer, update_self, Buffer.merge]
      by_cases eq : k = n
      · subst eq
        rw [update_self, update_self, Multiset.prod_cons, ledger.aggs, mul_comm]
      · rw [update_of_ne eq, update_of_ne eq]
        exact ledger.aggs _ k
    · simp only [State.setBuffer, update_of_ne same]
      exact ledger.aggs b k
  · by_cases same : b = s.idx
    · subst same
      simp only [State.setBuffer, update_self, Buffer.merge] at h ⊢
      by_cases eq : k = n
      · subst eq
        rw [update_self] at h
        cases h
      · rw [update_of_ne eq] at h ⊢
        exact ledger.flags _ k h
    · simp only [State.setBuffer, update_of_ne same] at h ⊢
      exact ledger.flags b k h
  · by_cases same : b = s.idx
    · subst same
      simp only [State.setBuffer, update_self, Buffer.merge] at h
      by_cases eq : k = n
      · subst eq
        exact known
      · rw [update_of_ne eq] at h
        exact ledger.known _ k h
    · simp only [State.setBuffer, update_of_ne same] at h
      exact ledger.known b k h
  · by_cases same : b = s.idx
    · subst same
      simp only [State.setBuffer, update_self, Buffer.merge] at h
      cases h
    · simp only [State.setBuffer, update_of_ne same] at h ⊢
      exact ledger.empty b h k

theorem carries_update {thread : SendThread M} {counts : Bool → Nat} (new : ∀ n, Multiset (M n))
    (carries : thread.Carries sent held) (phase : thread.Phase idx closed counts)
    (free : thread.locks = false) : thread.Carries sent (update held idx new) := by
  have other : update held idx new (!idx) = held (!idx) := update_of_ne (by cases idx <;> decide) ..
  cases thread with
  | calling i last | finishing i last =>
    cases last with
    | true => cases free
    | false =>
      obtain rfl : i = !idx := phase.2
      exact ⟨other ▸ carries.1, carries.2⟩
  | _ => exact carries

omit [DecidableEq N] [∀ n, CommMonoid (M n)] in
theorem phase_open {thread : SendThread M} {counts counts' : Bool → Nat}
    (phase : thread.Phase idx false counts) (same : counts' (!idx) = counts (!idx)) :
    thread.Phase idx closed counts' := by
  cases thread with
  | absent | done => cases phase.1
  | aborted => exact phase
  | waiting => exact same.trans phase
  | building i last | calling i last request | finishing i last =>
    cases last with
    | true => cases phase.2.2.1
    | false =>
      obtain ⟨pos, rfl⟩ : 0 < counts i ∧ i = !idx := phase
      exact ⟨same ▸ pos, rfl⟩

theorem Inv.goWriter (inv : Inv s) (acted : s.goWriter i = some s') : Inv s' := by
  obtain ⟨⟨nodup, found, joining, closed, phase⟩, merged, sent, held, ledger⟩ := inv
  unfold State.goWriter at acted
  cases pc : s.writers i with rw [pc] at acted
  | idle | returned => cases acted
  | found n agg =>
    simp only at acted
    split at acted
    · cases acted
    · next free =>
        rw [Bool.not_eq_true] at free
        split at acted
        · cases acted
          exact ⟨⟨nodup, found_update found nofun, joining, closed, phase⟩, merged, sent, held,
            ledger.thread ledger.carries⟩
        · next open_ =>
            rw [Bool.not_eq_true] at open_
            cases acted
            have carries := carries_update (update (held s.idx) n (agg ::ₘ held s.idx n))
              ledger.carries phase free
            refine ⟨⟨nodup, found_update found nofun, joining, closed, ?_⟩, merged, sent, _,
              ledger.write agg (found i n agg pc) carries⟩
            rw [open_] at phase
            simp only [State.setBuffer, open_]
            refine phase_open phase ?_
            have other : update s.buffers s.idx ((s.buffers s.idx).merge n agg) (!s.idx) =
                s.buffers (!s.idx) := update_of_ne (by cases s.idx <;> decide) ..
            simp only [other]

end

theorem Inv.initializeWriter (inv : Inv s) (acted : s.initializeWriter = some s') : Inv s' := by
  obtain ⟨⟨nodup, found, joining, closed, phase⟩, merged, sent, held, ledger⟩ := inv
  unfold State.initializeWriter at acted
  split at acted
  · cases acted
  · next free =>
      have free' : s.control ≠ .joining := by
        rintro eq
        simp [eq, Control.locks] at free
      split at acted
      · cases acted
        exact ⟨⟨nodup, found, joining, closed, phase⟩, merged, sent, held, ledger⟩
      · next stopped =>
          -- Whoever closed the writer has joined the thread.
          have absent := (closed (by simpa using stopped)).resolve_left free'
          have carries := ledger.carries
          rw [absent] at carries phase
          simp only [absent] at acted
          cases acted
          exact ⟨⟨nodup, found, fun h => absurd h free', nofun, phase.2 _⟩, merged, sent, held,
            ledger.thread carries⟩

theorem Inv.finalizeWriter (inv : Inv s) (acted : s.finalizeWriter = some s') : Inv s' := by
  obtain ⟨⟨nodup, found, joining, closed, phase⟩, merged, sent, held, ledger⟩ := inv
  unfold State.finalizeWriter at acted
  split at acted
  · cases acted
  · next free =>
      have free' : s.control ≠ .joining := by
        rintro eq
        simp [eq, Control.locks] at free
      split at acted
      · cases acted
        exact ⟨⟨nodup, found, nofun, fun h => .inr ((closed h).resolve_left free'), phase⟩, merged, sent,
          held, ledger.thread ledger.carries⟩
      · next open_ =>
          rw [Bool.not_eq_true] at open_
          rw [open_] at phase
          cases acted
          exact ⟨⟨nodup, found, fun _ => rfl, fun _ => .inl rfl, phase_open phase rfl⟩, merged, sent, held,
            ledger.thread ledger.carries⟩

theorem Inv.waitEmptyWriter (inv : Inv s) (acted : s.waitEmptyWriter = some s') : Inv s' := by
  obtain ⟨⟨nodup, found, joining, closed, phase⟩, merged, sent, held, ledger⟩ := inv
  unfold State.waitEmptyWriter at acted
  split at acted
  · cases acted
  · next free =>
      have free' : s.control ≠ .joining := by
        rintro eq
        simp [eq, Control.locks] at free
      cases acted
      exact ⟨⟨nodup, found, nofun, fun h => .inr ((closed h).resolve_left free'), phase⟩, merged, sent,
        held, ledger.thread ledger.carries⟩

theorem Inv.goControl (inv : Inv s) (acted : s.goControl = some s') : Inv s' := by
  obtain ⟨⟨nodup, found, joining, closed, phase⟩, merged, sent, held, ledger⟩ := inv
  unfold State.goControl at acted
  have carries := ledger.carries
  cases control : s.control with rw [control] at acted
  | idle | finalized | emptied => cases acted
  | joining =>
    cases pc : s.sendThread <;> rw [pc] at acted carries phase <;> cases acted
    all_goals
      exact ⟨⟨nodup, found, nofun, fun _ => .inr rfl, phase⟩, merged, sent, held, ledger.thread carries⟩
  | waitingEmpty =>
    have absent : s.closed = true → s.sendThread = .absent := fun h =>
      (closed h).resolve_left (by rw [control]; exact nofun)
    simp only at acted
    split at acted
    · cases acted
    · split at acted
      · cases acted
        exact ⟨⟨nodup, found, nofun, fun h => .inr (absent h), phase⟩, merged, sent, held,
          ledger.thread ledger.carries⟩
      · cases acted

theorem inv_reachable [DecidableEq ι] (reachable : ClientReachable s) : Inv s := by
  refine Reachable.invariant Inv ?_ ?_ reachable
  · rintro s rfl
    exact .initial
  · rintro s s' inv ⟨a, acted⟩
    cases a with
    | addAggregator n => exact inv.addAggregator acted
    | write i n agg => exact inv.write acted
    | goWriter i => exact inv.goWriter acted
    | goSendThread => exact inv.goSendThread acted
    | initializeWriter => exact inv.initializeWriter acted
    | finalizeWriter => exact inv.finalizeWriter acted
    | waitEmptyWriter => exact inv.waitEmptyWriter acted
    | goControl => exact inv.goControl acted

def AllMerged (s : State ι M) : Prop := ∀ n, (s.server n).getD 1 = (s.accepted n).prod

theorem Inv.merged_of_absent (inv : Inv s) (absent : s.sendThread = .absent) : AllMerged s := by
  obtain ⟨⟨-, -, -, -, phase⟩, merged, sent, held, ledger⟩ := inv
  have carries := ledger.carries
  rw [absent] at carries phase
  exact ledger.all_merged carries phase.2

theorem Inv.merged_of_counts (inv : Inv s) (counts : ∀ b, (s.buffers b).count = 0) : AllMerged s := by
  obtain ⟨⟨-, -, -, -, phase⟩, merged, sent, held, ledger⟩ := inv
  have carries := ledger.carries
  have idle : ∀ idx, ¬ 0 < (s.buffers idx).count := fun idx => by rw [counts]; exact lt_irrefl 0
  refine ledger.all_merged ?_ counts
  cases pc : s.sendThread with
  | calling idx last request =>
    rw [pc] at phase
    exact absurd phase.1 (idle idx)
  | finishing idx last =>
    rw [pc] at carries
    exact carries.2
  | _ =>
    rw [pc] at carries
    exact carries

def Recorded (s s' : State ι M) (n : N) (agg : M n) : Writer M → Prop
  | .returned true => s'.accepted = update s.accepted n (agg ::ₘ s.accepted n)
  | .returned false => s'.accepted = s.accepted ∧ s'.buffers = s.buffers ∧ s'.server = s.server
  | _ => s'.accepted = s.accepted

theorem recorded_goWriter [DecidableEq ι] {i : ι} (acted : s.goWriter i = some s') :
    ∃ n agg, s.writers i = .found n agg ∧ Recorded s s' n agg (s'.writers i) := by
  unfold State.goWriter at acted
  cases pc : s.writers i with rw [pc] at acted
  | idle | returned => cases acted
  | found n agg =>
    refine ⟨n, agg, rfl, ?_⟩
    simp only at acted
    split at acted
    · cases acted
    · split at acted <;> cases acted <;> simp only [update_self]
      · exact ⟨rfl, rfl, rfl⟩
      · rfl

theorem absent_of_finalizeWriter (inv : Inv s) (acted : s.finalizeWriter = some s')
    (returned : s'.control = .finalized) : s'.sendThread = .absent := by
  have closed := (inv.finalizeWriter acted).1.closed
  unfold State.finalizeWriter at acted
  split at acted
  · cases acted
  · split at acted
    · next stopped =>
        cases acted
        exact (closed stopped).resolve_left nofun
    · cases acted
      cases returned

omit [DecidableEq N] [∀ n, CommMonoid (M n)] in
theorem absent_of_goControl (acted : s.goControl = some s') (returned : s'.control = .finalized) :
    s'.sendThread = .absent := by
  unfold State.goControl at acted
  cases control : s.control <;> rw [control] at acted
  case joining => cases pc : s.sendThread <;> rw [pc] at acted <;> cases acted <;> rfl
  case waitingEmpty =>
    simp only at acted
    split at acted
    · cases acted
    · split at acted <;> cases acted
      cases returned
  all_goals cases acted

omit [DecidableEq N] [∀ n, CommMonoid (M n)] in
theorem counts_of_goControl (acted : s.goControl = some s') (returned : s'.control = .emptied)
    (open_ : s'.closed = false) : ∀ b, (s'.buffers b).count = 0 := by
  unfold State.goControl at acted
  cases control : s.control <;> rw [control] at acted
  case joining => cases pc : s.sendThread <;> rw [pc] at acted <;> cases acted <;> cases returned
  case waitingEmpty =>
    simp only at acted
    split at acted
    · cases acted
    · split at acted
      · next reason =>
          cases acted
          have counts := reason.resolve_left (by rw [open_]; exact Bool.false_ne_true)
          rw [Bool.forall_bool]
          exact counts
      · cases acted
  all_goals cases acted

/-- The server's aggregate is at all times merged from accepted writes, each at most once. A rejected
write leaves no trace. When `finalize_writer` returns, or `wait_empty_writer` with the writer still
open, every accepted write is merged. -/
theorem accepted_once [DecidableEq ι] (reachable : ClientReachable s) :
    (∀ n, ∃ S ≤ s.accepted n, (s.server n).getD 1 = S.prod) ∧
    (∀ i n agg s', s.write i n agg = some s' → s'.accepted = s.accepted ∧ s'.buffers = s.buffers ∧
      s'.server = s.server) ∧
    (∀ i s', s.goWriter i = some s' → ∃ n agg, s.writers i = .found n agg ∧
      Recorded s s' n agg (s'.writers i)) ∧
    (∀ s', s.finalizeWriter = some s' ∨ s.goControl = some s' → s'.control = .finalized → AllMerged s') ∧
    (∀ s', s.goControl = some s' → s'.control = .emptied → s'.closed = false → AllMerged s') := by
  have inv := inv_reachable reachable
  refine ⟨fun n => ?_, fun i n agg s' acted => ?_, fun i s' acted => recorded_goWriter acted,
    fun s' acted returned => ?_, fun s' acted returned open_ => ?_⟩
  · obtain ⟨-, merged, sent, held, ledger⟩ := inv
    refine ⟨merged n, ?_, ledger.server n⟩
    rw [← ledger.total n, add_assoc, add_assoc]
    exact Multiset.le_add_right _ _
  · unfold State.write at acted
    split at acted
    · cases acted
    all_goals
      split at acted
      · cases acted
      · cases acted
        exact ⟨rfl, rfl, rfl⟩
  · rcases acted with acted | acted
    · exact (inv.finalizeWriter acted).merged_of_absent (absent_of_finalizeWriter inv acted returned)
    · exact (inv.goControl acted).merged_of_absent (absent_of_goControl acted returned)
  · exact (inv.goControl acted).merged_of_counts (counts_of_goControl acted returned open_)

theorem accepted_once_two : ∃ s s' : State (Fin 1) (fun _ : Unit => Nat), ClientReachable s ∧
    s.accepted () = {3, 2} ∧ s.goControl = some s' ∧ s'.control = .emptied ∧ AllMerged s' := by
  let actions : List (Action (Fin 1) fun _ : Unit => Nat) :=
    [.addAggregator (), .initializeWriter, .write 0 () 2, .goWriter 0, .goSendThread, .write 0 () 3,
      .goWriter 0, .goSendThread, .goSendThread, .waitEmptyWriter, .goSendThread, .goSendThread,
      .goSendThread, .goSendThread, .goSendThread]
  have ran : (actions.foldlM act initial).any (fun s => decide (s.accepted () = {3, 2}) &&
      s.goControl.any fun s' => decide (s'.control = .emptied ∧ s'.closed = false)) = true := by
    decide +kernel
  obtain ⟨s, run, found⟩ := (Option.any_eq_true ..).1 ran
  rw [Bool.and_eq_true] at found
  obtain ⟨s', acted, ended⟩ := (Option.any_eq_true ..).1 found.2
  obtain ⟨emptied, open_⟩ := of_decide_eq_true ended
  have reachable : ClientReachable s := .foldlM (fun a _ _ _ acted => .act a acted) (.initial rfl) run
  exact ⟨s, s', reachable, of_decide_eq_true found.1, acted, emptied,
    (accepted_once reachable).2.2.2.2 s' acted emptied open_⟩

end Prpc.Accumulator
