import Prpc.Rpc.FrontEnd.Model

/-!
`epipe` marks a client as broken and, when it is done, as disconnected, so that it can be tried again.
-/

namespace Prpc.FrontEnd
open Lib

variable {T : Type} {s s' : State T} {pc : Pc T} {k : Nat} {outcome : Outcome}

def Pc.repairs : Pc T → Bool
  | handing _ | draining _ | drainPopping | restoring => true
  | _ => false

def requests (_ : State T) : Action T → Prop
  | .send .. => False
  | _ => True

def eventsRepaired (s : State T) (a : Action T) : Prop :=
  requests s a ∧ match a with
    | .eventFails => ∃ pc ∈ s.threads, pc.repairs = true
    | _ => True

def Repaired (s : State T) : Prop :=
  s.has FRONTEND_EPIPE = true → s.has FRONTEND_DISCONNECT = false →
    ∃ (j : Nat) (pc : Pc T), s.threads[j]? = some pc ∧ pc.repairs = true

theorem step_state (at_ : s.threads[k]? = some pc) (stepped : s.step k outcome pc = some s') :
    (∀ j ≠ k, ∀ pc', s.threads[j]? = some pc' → s'.threads[j]? = some pc') ∧
    (s'.state = s.state ∧ (pc.repairs = true → ∃ pc', s'.threads[k]? = some pc' ∧ pc'.repairs = true) ∨
      s'.state = FRONTEND_CONNECT ∨ s'.state = FRONTEND_DISCONNECT ||| FRONTEND_EPIPE ∨
      ∃ pc', s'.threads[k]? = some pc' ∧ pc'.repairs = true) := by
  have lt : k < s.threads.length := (List.getElem?_eq_some_iff.1 at_).1
  have moved : ∀ pc', (s.threads.set k pc')[k]? = some pc' := fun pc' => List.getElem?_set_self lt
  have others : ∀ pc', ∀ j ≠ k, ∀ x, s.threads[j]? = some x → (s.threads.set k pc')[j]? = some x := by
    intro pc' j ne x h
    rwa [List.getElem?_set_ne ne.symm]
  have spawned : ∀ pc' : Pc T, ∀ j ≠ k, ∀ x, s.threads[j]? = some x →
      (s.threads.set k .done ++ [pc'])[j]? = some x := by
    intro pc' j ne x h
    have ltj := (List.getElem?_eq_some_iff.1 h).1
    rw [List.getElem?_append_left (by rwa [List.length_set])]
    exact others _ j ne x h
  have shifted : s.shift.threads = s.threads ∧ s.shift.state = s.state := by
    unfold State.shift
    split <;> exact ⟨rfl, rfl⟩
  cases pc with
  | asking msg =>
    simp only [State.step, Option.some.injEq] at stepped
    split at stepped <;> subst stepped <;> exact ⟨others _, .inl ⟨rfl, nofun⟩⟩
  | calling blocking msg =>
    simp only [State.step, Option.some.injEq] at stepped
    split at stepped <;> subst stepped <;> exact ⟨others _, .inl ⟨rfl, nofun⟩⟩
  | pushing msg =>
    cases stepped
    exact ⟨others _, .inl ⟨rfl, nofun⟩⟩
  | linking prev n =>
    cases stepped
    exact ⟨others _, .inl ⟨rfl, nofun⟩⟩
  | checking =>
    simp only [State.step, Option.some.injEq] at stepped
    split at stepped <;> subst stepped
    · exact ⟨spawned _, .inl ⟨rfl, nofun⟩⟩
    · exact ⟨others _, .inl ⟨rfl, nofun⟩⟩
  | looping nonblock cnt =>
    simp only [State.step] at stepped
    split at stepped <;> cases stepped
    · refine ⟨?_, .inl ⟨shifted.2, nofun⟩⟩
      simp only [State.goto, shifted.1]
      exact others _
    · exact ⟨others _, .inl ⟨rfl, nofun⟩⟩
  | sending nonblock cnt =>
    simp only [State.step] at stepped
    split at stepped
    · cases stepped
      exact ⟨others _, .inl ⟨rfl, nofun⟩⟩
    · split at stepped
      · cases stepped
        exact ⟨others _, .inl ⟨rfl, nofun⟩⟩
      · cases stepped
        exact ⟨others _, .inl ⟨rfl, nofun⟩⟩
      · split at stepped <;> cases stepped
        exact ⟨spawned _, .inl ⟨rfl, nofun⟩⟩
  | refilling nonblock =>
    simp only [State.step] at stepped
    split at stepped <;> cases stepped
    · exact ⟨others _, .inl ⟨rfl, nofun⟩⟩
    · exact ⟨fun _ _ _ h => h, .inl ⟨rfl, nofun⟩⟩
  | keeping cnt =>
    cases stepped
    exact ⟨others _, .inl ⟨rfl, nofun⟩⟩
  | connecting cnt =>
    simp only [State.step] at stepped
    split at stepped
    · split at stepped <;> cases stepped
      · exact ⟨others _, .inr (.inl rfl)⟩
      · refine ⟨?_, .inl ⟨shifted.2, nofun⟩⟩
        simp only [State.goto, shifted.1]
        exact others _
    · cases stepped
      exact ⟨others _, .inl ⟨rfl, nofun⟩⟩
  | resuming cnt =>
    simp only [State.step] at stepped
    split at stepped
    · split at stepped
      · cases stepped
        exact ⟨others _, .inl ⟨rfl, nofun⟩⟩
      · split at stepped
        · cases stepped
          split <;> exact ⟨others _, .inl ⟨rfl, nofun⟩⟩
        · cases stepped
          exact ⟨others _, .inl ⟨rfl, nofun⟩⟩
        · cases stepped
    · cases stepped
      exact ⟨others _, .inl ⟨rfl, nofun⟩⟩
  | failing cnt =>
    cases stepped
    exact ⟨others _, .inr (.inr (.inr ⟨_, moved _, rfl⟩))⟩
  | handing cnt =>
    simp only [State.step, Option.some.injEq] at stepped
    split at stepped <;> subst stepped <;> exact ⟨others _, .inr (.inr (.inr ⟨_, moved _, rfl⟩))⟩
  | draining cnt =>
    cases stepped
    refine ⟨others _, .inr (.inr (.inr ⟨_, moved _, ?_⟩))⟩
    split <;> rfl
  | drainPopping =>
    simp only [State.step] at stepped
    split at stepped <;> cases stepped
    · exact ⟨others _, .inr (.inr (.inr ⟨_, moved _, rfl⟩))⟩
    · exact ⟨fun _ _ _ h => h, .inr (.inr (.inr ⟨_, at_, rfl⟩))⟩
  | restoring =>
    cases stepped
    exact ⟨others _, .inr (.inr (.inl rfl))⟩
  | done => cases stepped
  | crashed => cases stepped

theorem Repaired.step (repaired : Repaired s) (step : FrontEndStep eventsRepaired s s') : Repaired s' := by
  obtain ⟨a, guarded, acted⟩ := step
  have append : ∀ {j : Nat} {pc x : Pc T}, s.threads[j]? = some pc → (s.threads ++ [x])[j]? = some pc := by
    intro j pc x h
    rw [List.getElem?_append_left (List.getElem?_eq_some_iff.1 h).1]
    exact h
  cases a with
  | request msg =>
    cases acted
    intro broken connected
    obtain ⟨j, pc, at_, repairs⟩ := repaired broken connected
    exact ⟨j, pc, append at_, repairs⟩
  | send blocking msg => exact absurd guarded.1 id
  | go k outcome =>
    simp only [act, Option.bind_eq_bind, Option.bind_eq_some_iff] at acted
    obtain ⟨pc, at_, stepped⟩ := acted
    obtain ⟨frame, effect⟩ := step_state at_ stepped
    intro broken connected
    rcases effect with ⟨same, keeps⟩ | same | same | ⟨pc', at', repairs⟩
    · rw [State.has, same] at broken connected
      obtain ⟨j, pc', at', repairs⟩ := repaired broken connected
      by_cases eq : j = k
      · subst eq
        obtain rfl : pc = pc' := Option.some.inj (at_.symm.trans at')
        obtain ⟨pc'', at'', repairs'⟩ := keeps repairs
        exact ⟨j, pc'', at'', repairs'⟩
      · exact ⟨j, pc', frame j eq pc' at', repairs⟩
    · rw [State.has, same] at broken
      cases broken
    · rw [State.has, same] at connected
      cases connected
    · exact ⟨k, pc', at', repairs⟩
  | eventFails =>
    obtain ⟨pc, mem, repairs⟩ := guarded.2
    obtain ⟨j, lt, eq⟩ := List.mem_iff_getElem.1 mem
    simp only [act] at acted
    split at acted <;> cases acted
    exact fun _ _ => ⟨j, pc, by rw [List.getElem?_eq_getElem lt, eq], repairs⟩
  | tick =>
    cases acted
    exact repaired

theorem repaired_reachable (reachable : FrontEndReachable eventsRepaired s) : Repaired s := by
  refine Reachable.invariant Repaired ?_ (fun s t repaired step => repaired.step step) reachable
  rintro s rfl
  intro broken
  simp [State.has, initial, FRONTEND_DISCONNECT, FRONTEND_EPIPE] at broken

/-- When no thread is inside, a broken front end is marked as disconnected, and becomes available after
ten seconds. -/
theorem broken_is_retried (reachable : FrontEndReachable eventsRepaired s)
    (quiet : ∀ pc ∈ s.threads, pc = .done) (_ : s.size = 0) (broken : s.has FRONTEND_EPIPE = true) :
    s.has FRONTEND_DISCONNECT = true ∧
    ∀ clock, 10 < clock - s.epipeTime → { s with clock := clock }.available = true := by
  have disconnected : s.has FRONTEND_DISCONNECT = true := by
    by_contra connected
    rw [Bool.not_eq_true] at connected
    obtain ⟨j, pc, at_, repairs⟩ := repaired_reachable reachable broken connected
    rw [quiet pc (List.mem_of_getElem? at_)] at repairs
    cases repairs
  refine ⟨disconnected, fun clock later => ?_⟩
  have broken' : { s with clock := clock }.has FRONTEND_EPIPE = true := broken
  have disconnected' : { s with clock := clock }.has FRONTEND_DISCONNECT = true := disconnected
  rw [State.available, if_pos broken', if_pos disconnected']
  exact decide_eq_true later

/-- A request connects and is written. Later a receive fails, and the front end stays broken. -/
theorem event_leaves_broken : ∃ s : State Nat, FrontEndReachable requests s ∧
    (∀ pc ∈ s.threads, pc = .done) ∧ s.size = 0 ∧ s.has FRONTEND_EPIPE = true ∧
    s.has FRONTEND_DISCONNECT = false ∧
    ∀ clock, { s with clock := clock }.available = false := by
  obtain ⟨s, reachable, found⟩ := reachable_of_run requests
    (fun _ a => match a with
      | .send .. => false
      | _ => true)
    (fun _ a checked => by cases a <;> trivial)
    ([.request 1, .go 0 .ok, .go 0 .ok, .go 0 .ok, .go 1 .ok, .go 1 .ok, .go 1 .ok, .go 1 .ok,
      .go 1 .ok, .go 1 .ok, .eventFails] : List (Action Nat))
    (fun s => decide ((∀ pc ∈ s.threads, pc = .done) ∧ s.size = 0 ∧ s.state = FRONTEND_EPIPE))
    (by decide +kernel)
  obtain ⟨quiet, size, state⟩ := of_decide_eq_true found
  have broken : ∀ clock, { s with clock := clock }.has FRONTEND_EPIPE = true := by
    intro clock
    rw [State.has, state]
    rfl
  have connected : ∀ clock, { s with clock := clock }.has FRONTEND_DISCONNECT = false := by
    intro clock
    rw [State.has, state]
    rfl
  refine ⟨s, reachable, quiet, size, broken s.clock, connected s.clock, fun clock => ?_⟩
  rw [State.available, if_pos (broken clock), if_neg (by rw [connected]; exact Bool.false_ne_true)]

theorem broken_is_retried_unconnected : ∃ s : State Nat, FrontEndReachable eventsRepaired s ∧
    s.handed = {1} ∧ s.has FRONTEND_EPIPE = true ∧ s.has FRONTEND_DISCONNECT = true ∧
    { s with clock := s.epipeTime + 11 }.available = true := by
  obtain ⟨s, reachable, found⟩ := reachable_of_run eventsRepaired
    (fun _ a => match a with
      | .send .. | .eventFails => false
      | _ => true)
    (fun _ a checked => by cases a <;> first | exact ⟨trivial, trivial⟩ | cases checked)
    ([.request 1, .go 0 .ok, .go 0 .ok, .go 0 .ok, .go 1 .ok, .go 1 .fail, .go 1 .ok, .go 1 .ok,
      .go 1 .ok, .go 1 .ok] : List (Action Nat))
    (fun s => decide ((∀ pc ∈ s.threads, pc = .done) ∧ s.size = 0 ∧
      s.has FRONTEND_EPIPE = true ∧ s.handed = {1})) (by decide +kernel)
  obtain ⟨quiet, size, broken, handed⟩ := of_decide_eq_true found
  obtain ⟨disconnected, available⟩ := broken_is_retried reachable quiet size broken
  exact ⟨s, reachable, handed, broken, disconnected, available _ (by omega)⟩

end Prpc.FrontEnd
