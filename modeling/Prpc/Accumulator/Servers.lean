import Prpc.Accumulator.Model

/-!
The requests of `AccumulatorClient` and of `wait_empty`, the server that `RpcContext` picks for each, and
the loop of `AccumulatorServer`. Writes and reads name server 0. A server answers the `wait_empty`
requests it has taken once it finds no other request.
-/

namespace Prpc.Accumulator
open Lib
open Function (update update_self update_of_ne)

variable {N : Type} {M : N → Type}

inductive Request (M : N → Type)
  | write (aggs : List (Sigma M))
  | read (n : N)
  | reset (n : N)
  | erase (names : List N)
  | eraseAll
  | waitEmpty

inductive Response (M : N → Type)
  | succ
  | notFound
  | value (agg : Sigma M)

/-- `head().sid`, which is -1 unless it is set. -/
def Request.sid : Request M → Int
  | write _ | read _ | eraseAll => 0
  | reset _ | erase _ | waitEmpty => -1

structure Server (M : N → Type) where
  queue : List (Request M)
  name2aggs : ∀ n, Option (M n)
  /-- the size of `wait_empty_reqs` -/
  waiting : Nat

structure Entry (M : N → Type) where
  server : Int
  request : Request M
  response : Response M

structure Service (M : N → Type) where
  servers : Int → Server M
  routed : List (Int × Request M)
  /-- newest first -/
  log : List (Entry M)

section
variable (frontends : List Int) (available : Int → Bool)

def getClientFrontendByRpcId (rand : Nat) : Option Int :=
  match frontends[rand % frontends.length]? with
  | none => none
  | some f => if available f then some f else frontends.find? available

def getClientFrontendBySid (sid : Int) : Option Int := frontends.find? fun f => f = sid ∧ available f

def sendRequest (rand : Nat) (request : Request M) : Option Int :=
  if request.sid ≠ -1 then getClientFrontendBySid frontends available request.sid
  else getClientFrontendByRpcId frontends available rand

end

section
variable [DecidableEq N] [∀ n, CommMonoid (M n)]

def processRequest (aggs : ∀ n, Option (M n)) : Request M → (∀ n, Option (M n)) × Response M
  | .read n =>
    match aggs n with
    | none => (aggs, .notFound)
    | some agg => (aggs, .value ⟨n, agg⟩)
  | .reset n =>
    match aggs n with
    | none => (aggs, .notFound)
    | some _ => (update aggs n (some 1), .succ)
  | .write request => (processWriteRequest aggs request, .succ)
  | .erase names => (fun n => if n ∈ names then none else aggs n, .succ)
  | .eraseAll => (fun _ => none, .succ)
  | .waitEmpty => (aggs, .succ)

namespace Service

def initial : Service M := ⟨fun _ => ⟨[], fun _ => none, 0⟩, [], []⟩

def setServer (s : Service M) (id : Int) (server : Server M) : Service M :=
  { s with servers := update s.servers id server }

def send (s : Service M) (frontends : List Int) (available : Int → Bool) (rand : Nat)
    (request : Request M) : Option (Service M) := do
  let id ← sendRequest frontends available rand request
  return { s.setServer id { s.servers id with queue := (s.servers id).queue ++ [request] } with
    routed := (id, request) :: s.routed }

def recvRequest (s : Service M) (id : Int) : Option (Service M) :=
  match (s.servers id).queue with
  | [] => none
  | .waitEmpty :: queue =>
    some (s.setServer id { s.servers id with queue, waiting := (s.servers id).waiting + 1 })
  | request :: queue =>
    let (name2aggs, response) := processRequest (s.servers id).name2aggs request
    some { s.setServer id { s.servers id with queue, name2aggs } with
      log := ⟨id, request, response⟩ :: s.log }

/-- The inner loop ends, and the `wait_empty` requests are answered. -/
def answerWaiting (s : Service M) (id : Int) : Option (Service M) :=
  if (s.servers id).queue = [] ∧ 0 < (s.servers id).waiting then
    some (s.setServer id { s.servers id with waiting := 0 })
  else none

end Service

inductive ServiceAction (M : N → Type)
  | send (frontends : List Int) (available : Int → Bool) (rand : Nat) (request : Request M)
  | recvRequest (id : Int)
  | answerWaiting (id : Int)

def Service.act (s : Service M) : ServiceAction M → Option (Service M)
  | .send frontends available rand request => s.send frontends available rand request
  | .recvRequest id => s.recvRequest id
  | .answerWaiting id => s.answerWaiting id

inductive Service.Step : Service M → Service M → Prop
  | act {s s' : Service M} (a : ServiceAction M) (acted : s.act a = some s') : Step s s'

abbrev ServiceReachable : Service M → Prop := Reachable (· = Service.initial) Service.Step

def Request.writes (n : N) : Request M → Prop
  | write aggs => n ∈ aggs.map Sigma.fst
  | _ => False

def Request.erases (n : N) : Request M → Prop
  | erase names => n ∈ names
  | eraseAll => True
  | _ => False

section
variable {aggs : ∀ n, Option (M n)} {request : Request M} {n : N}

theorem processWriteRequest_of_notMem {request : List (Sigma M)} (absent : n ∉ request.map Sigma.fst) :
    processWriteRequest aggs request n = aggs n := by
  induction request generalizing aggs with
  | nil => rfl
  | cons delta request ih =>
    rw [List.map_cons, List.mem_cons, not_or] at absent
    refine (ih absent.2).trans ?_
    rw [mergeWrite, update_of_ne absent.1]

theorem processRequest_none (none_ : aggs n = none) (unwritten : ¬request.writes n) :
    (processRequest aggs request).1 n = none := by
  cases request with
  | write request => exact (processWriteRequest_of_notMem unwritten).trans none_
  | read m =>
    rw [processRequest]
    split <;> exact none_
  | reset m =>
    rw [processRequest]
    split
    · exact none_
    · next found =>
      have ne : n ≠ m := by
        rintro rfl
        cases none_.symm.trans found
      exact (update_of_ne ne ..).trans none_
  | erase names => simp [processRequest, none_]
  | eraseAll => rfl
  | waitEmpty => exact none_

theorem processRequest_init (init : aggs n = some 1) (unwritten : ¬request.writes n)
    (kept : ¬request.erases n) : (processRequest aggs request).1 n = some 1 := by
  cases request with
  | write request => exact (processWriteRequest_of_notMem unwritten).trans init
  | read m =>
    rw [processRequest]
    split <;> exact init
  | reset m =>
    rw [processRequest]
    split
    · exact init
    · rcases eq_or_ne n m with rfl | ne
      · exact update_self ..
      · exact (update_of_ne ne ..).trans init
  | erase names => exact (if_neg kept).trans init
  | eraseAll => exact absurd trivial kept
  | waitEmpty => exact init

end

def replay (id : Int) : List (Entry M) → ∀ n, Option (M n)
  | [] => fun _ => none
  | e :: log => if e.server = id then (processRequest (replay id log) e.request).1 else replay id log

def Consistent : List (Entry M) → Prop
  | [] => True
  | e :: log => e.response = (processRequest (replay e.server log) e.request).2 ∧ Consistent log

section
variable {id : Int} {n : N} {log since before after : List (Entry M)} {e : Entry M}

theorem Consistent.response (consistent : Consistent (after ++ e :: before)) :
    e.response = (processRequest (replay e.server before) e.request).2 ∧ Consistent before := by
  induction after with
  | nil => exact consistent
  | cons _ _ ih => exact ih consistent.2

theorem replay_none (none_ : replay id log n = none)
    (unwritten : ∀ e ∈ since, e.server = id → ¬e.request.writes n) : replay id (since ++ log) n = none := by
  induction since with
  | nil => exact none_
  | cons e since ih =>
    rw [List.forall_mem_cons] at unwritten
    rw [List.cons_append, replay]
    split
    · next here => exact processRequest_none (ih unwritten.2) (unwritten.1 here)
    · exact ih unwritten.2

theorem replay_init (init : replay id log n = some 1)
    (unwritten : ∀ e ∈ since, ¬e.request.writes n ∧ ¬e.request.erases n) :
    replay id (since ++ log) n = some 1 := by
  induction since with
  | nil => exact init
  | cons e since ih =>
    rw [List.forall_mem_cons] at unwritten
    rw [List.cons_append, replay]
    split
    · exact processRequest_init (ih unwritten.2) unwritten.1.1 unwritten.1.2
    · exact ih unwritten.2

end

structure Server.Kept (routed : List (Int × Request M)) (log : List (Entry M)) (id : Int)
    (server : Server M) : Prop where
  held : server.name2aggs = replay id log
  queued : ∀ request ∈ server.queue, (id, request) ∈ routed
  waiting : 0 < server.waiting → (id, .waitEmpty) ∈ routed

structure Service.Inv (s : Service M) : Prop where
  kept : ∀ id, (s.servers id).Kept s.routed s.log id
  consistent : Consistent s.log
  logged : ∀ e ∈ s.log, (e.server, e.request) ∈ s.routed
  addressed : ∀ r ∈ s.routed, r.2.sid ≠ -1 → r.1 = 0

namespace Service
variable {s s' : Service M}

omit [DecidableEq N] [∀ n, CommMonoid (M n)] in
theorem sendRequest_addressed {frontends : List Int} {available : Int → Bool} {rand : Nat}
    {request : Request M} {id : Int} (sent : sendRequest frontends available rand request = some id)
    (named : request.sid ≠ -1) : id = 0 := by
  rw [sendRequest, if_pos named, getClientFrontendBySid] at sent
  have same : id = request.sid ∧ available id = true := by simpa using List.find?_some sent
  rw [same.1]
  cases request with
  | write | read | eraseAll => rfl
  | reset | erase | waitEmpty => exact absurd rfl named

theorem kept_setServer {routed : List (Int × Request M)} {log : List (Entry M)} {id : Int}
    {server : Server M} (here : server.Kept routed log id)
    (rest : ∀ i ≠ id, (s.servers i).Kept routed log i) :
    ∀ i, ((s.setServer id server).servers i).Kept routed log i :=
  (Function.forall_update_iff s.servers fun i server => server.Kept routed log i).2 ⟨here, rest⟩

theorem Inv.send (inv : s.Inv) {frontends : List Int} {available : Int → Bool} {rand : Nat}
    {request : Request M} (sent : s.send frontends available rand request = some s') : s'.Inv := by
  simp only [Service.send, Option.bind_eq_bind, Option.bind_eq_some_iff, Option.pure_def,
    Option.some.injEq] at sent
  obtain ⟨id, picked, rfl⟩ := sent
  have grown (i : Int) : (s.servers i).Kept ((id, request) :: s.routed) s.log i :=
    { inv.kept i with
      queued := fun r mem => .tail _ ((inv.kept i).queued r mem)
      waiting := fun pos => .tail _ ((inv.kept i).waiting pos) }
  refine ⟨kept_setServer { grown id with queued := fun r mem => ?_ } fun i _ => grown i, inv.consistent,
    fun e mem => .tail _ (inv.logged e mem), ?_⟩
  · rw [List.mem_append, List.mem_singleton] at mem
    rcases mem with mem | rfl
    · exact (grown id).queued r mem
    · exact .head _
  · rw [List.forall_mem_cons]
    exact ⟨sendRequest_addressed picked, inv.addressed⟩

theorem Inv.processed (inv : s.Inv) {id : Int} {request : Request M} {queue : List (Request M)}
    (taken : (s.servers id).queue = request :: queue) :
    Inv { s.setServer id { s.servers id with
        queue, name2aggs := (processRequest (s.servers id).name2aggs request).1 } with
      log := ⟨id, request, (processRequest (s.servers id).name2aggs request).2⟩ :: s.log } := by
  have kept := inv.kept id
  have queued := kept.queued
  rw [taken, List.forall_mem_cons] at queued
  refine ⟨kept_setServer ⟨?_, queued.2, kept.waiting⟩ fun i ne => { inv.kept i with held := ?_ },
    ⟨?_, inv.consistent⟩, ?_, inv.addressed⟩
  · simp [replay, kept.held]
  · simp [replay, (inv.kept i).held, ne.symm]
  · rw [kept.held]
  · rw [List.forall_mem_cons]
    exact ⟨queued.1, inv.logged⟩

theorem Inv.recvRequest (inv : s.Inv) {id : Int} (took : s.recvRequest id = some s') : s'.Inv := by
  have kept := inv.kept id
  rw [Service.recvRequest] at took
  split at took
  · cases took
  · next queue taken =>
    cases took
    have queued := kept.queued
    rw [taken, List.forall_mem_cons] at queued
    exact { inv with
      kept := kept_setServer ⟨kept.held, queued.2, fun _ => queued.1⟩ fun i _ => inv.kept i }
  · next request queue _ taken =>
    cases took
    exact inv.processed taken

theorem Inv.answerWaiting (inv : s.Inv) {id : Int} (answered : s.answerWaiting id = some s') : s'.Inv := by
  rw [Service.answerWaiting, Option.ite_none_right_eq_some] at answered
  obtain ⟨-, answered⟩ := answered
  cases answered
  have kept := inv.kept id
  exact { inv with
    kept := kept_setServer ⟨kept.held, kept.queued, (absurd · (lt_irrefl 0))⟩ fun i _ => inv.kept i }

theorem inv_reachable (reachable : ServiceReachable s) : s.Inv := by
  refine Reachable.invariant Inv ?_ ?_ reachable
  · rintro s rfl
    exact ⟨fun _ => ⟨rfl, nofun, nofun⟩, trivial, nofun, nofun⟩
  · rintro s t inv ⟨a, acted⟩
    cases a with
    | send => exact inv.send acted
    | recvRequest => exact inv.recvRequest acted
    | answerWaiting => exact inv.answerWaiting acted

theorem Inv.replay_other (inv : s.Inv) {log : List (Entry M)} (part : ∀ e ∈ log, e ∈ s.log) {id : Int}
    (other : id ≠ 0) (n : N) : replay id log n = none := by
  have unwritten : ∀ e ∈ log, e.server = id → ¬e.request.writes n := by
    rintro e mem rfl
    have addressed := inv.addressed _ (inv.logged e (part e mem))
    cases request : e.request with
    | write => exact absurd (addressed (by simp [request, Request.sid])) other
    | _ => exact not_false
  simpa using replay_none (rfl : replay id [] n = none) unwritten

end Service

def Request.unaddressed : Request M → Bool
  | erase _ | waitEmpty => true
  | _ => false

/-- If every erase and wait_empty request was sent to server 0, a read after a successful reset or erase
of a name that was not written since observes it, and wait_empty returns when server 0 has processed its
queue. A reset that succeeds was sent there. -/
theorem operations_reach_one_server {s : Service M} (reachable : ServiceReachable s)
    (sent : ∀ r ∈ s.routed, r.2.unaddressed → r.1 = 0) :
    (∀ after since before n id id' response,
      s.log = after ++ ⟨id', .read n, response⟩ :: (since ++ ⟨id, .reset n, .succ⟩ :: before) →
      (∀ e ∈ since, ¬e.request.writes n ∧ ¬e.request.erases n) → response = .value ⟨n, 1⟩) ∧
    (∀ after since before n names id id' response,
      s.log = after ++ ⟨id', .read n, response⟩ :: (since ++ ⟨id, .erase names, .succ⟩ :: before) →
      n ∈ names → (∀ e ∈ since, ¬e.request.writes n) → response = .notFound) ∧
    ∀ id s', s.answerWaiting id = some s' → (s.servers 0).queue = [] := by
  have inv := Service.inv_reachable reachable
  have readAt {after rest : List (Entry M)} {id' : Int} {n : N} {response : Response M}
      (log : s.log = after ++ ⟨id', .read n, response⟩ :: rest) :
      id' = 0 ∧ response = (processRequest (replay 0 rest) (.read n)).2 := by
    have consistent := inv.consistent
    rw [log] at consistent
    obtain rfl : id' = 0 := inv.addressed _ (inv.logged ⟨id', .read n, response⟩ (by simp [log]))
      (by simp [Request.sid])
    exact ⟨rfl, consistent.response.1⟩
  refine ⟨?_, ?_, ?_⟩
  · intro after since before n id id' response log unwritten
    obtain ⟨rfl, answer⟩ := readAt log
    have found : replay id before n ≠ none := by
      intro absent
      have consistent := inv.consistent
      rw [log, ← List.singleton_append, ← List.append_assoc, ← List.append_assoc] at consistent
      have succeeded := consistent.response.1
      simp [processRequest, absent] at succeeded
    obtain rfl : id = 0 := by
      by_contra other
      exact found (inv.replay_other (fun e mem => by simp [log, mem]) other n)
    obtain ⟨agg, held⟩ := Option.ne_none_iff_exists'.1 found
    have init : replay 0 (⟨0, .reset n, .succ⟩ :: before) n = some 1 := by
      simp [replay, processRequest, held]
    rw [answer, processRequest, replay_init init unwritten]
  · intro after since before n names id id' response log mem unwritten
    obtain ⟨rfl, answer⟩ := readAt log
    obtain rfl : id = 0 := sent _ (inv.logged ⟨id, .erase names, .succ⟩ (by simp [log])) rfl
    have none_ : replay 0 (⟨0, .erase names, .succ⟩ :: before) n = none := by
      simp [replay, processRequest, mem]
    rw [answer, processRequest, replay_none none_ fun e mem _ => unwritten e mem]
  · intro id s' answered
    rw [Service.answerWaiting, Option.ite_none_right_eq_some] at answered
    obtain ⟨⟨empty, waiting⟩, -⟩ := answered
    obtain rfl : id = 0 := sent _ ((inv.kept id).waiting waiting) rfl
    exact empty

end

section
open ServiceAction

theorem operations_reach_one_server_erase : ∃ s : Service (fun _ : Unit => Nat), ServiceReachable s ∧
    ∃ response before, s.log = ⟨0, .read (), response⟩ :: ⟨0, .erase [()], .succ⟩ :: before ∧
      response = .notFound := by
  let run : List (ServiceAction fun _ : Unit => Nat) :=
    [send [0, 1] (fun _ => true) 0 (.write [⟨(), 5⟩]), recvRequest 0,
      send [0, 1] (fun _ => true) 2 (.erase [()]), recvRequest 0,
      send [0, 1] (fun _ => true) 0 (.read ()), recvRequest 0]
  obtain ⟨s, ran, log, sent⟩ : ∃ s, run.foldlM Service.act Service.initial = some s ∧
      s.log = [⟨0, .read (), .notFound⟩, ⟨0, .erase [()], .succ⟩, ⟨0, .write [⟨(), 5⟩], .succ⟩] ∧
      s.routed = [(0, .read ()), (0, .erase [()]), (0, .write [⟨(), 5⟩])] :=
    ⟨_, rfl, rfl, rfl⟩
  have reachable : ServiceReachable s := .foldlM (fun a _ _ _ acted => .act a acted) (.initial rfl) ran
  refine ⟨s, reachable, _, _, log, ?_⟩
  exact (operations_reach_one_server reachable (by simp [sent])).2.1 [] [] _ () [()] 0 0 _ log
    (List.mem_singleton_self _) nofun

/-- Two servers run. An erase is sent to server 1 and succeeds, and the value is still read. A wait_empty
is answered by server 1 while server 0 has a write to process. -/
theorem erase_and_wait_empty_miss_writes : ∃ s s' : Service (fun _ : Unit => Nat), ServiceReachable s ∧
    (∃ before, s.log = ⟨0, .read (), .value ⟨(), 5⟩⟩ :: ⟨1, .erase [()], .succ⟩ :: before) ∧
    s.answerWaiting 1 = some s' ∧ (s.servers 0).queue ≠ [] := by
  let run : List (ServiceAction fun _ : Unit => Nat) :=
    [send [0, 1] (fun _ => true) 0 (.write [⟨(), 5⟩]), recvRequest 0,
      send [0, 1] (fun _ => true) 1 (.erase [()]), recvRequest 1,
      send [0, 1] (fun _ => true) 0 (.read ()), recvRequest 0,
      send [0, 1] (fun _ => true) 0 (.write [⟨(), 7⟩]),
      send [0, 1] (fun _ => true) 1 .waitEmpty, recvRequest 1]
  obtain ⟨s, s', ran, log, answered, queue⟩ : ∃ s s', run.foldlM Service.act Service.initial = some s ∧
      s.log = [⟨0, .read (), .value ⟨(), 5⟩⟩, ⟨1, .erase [()], .succ⟩, ⟨0, .write [⟨(), 5⟩], .succ⟩] ∧
      s.answerWaiting 1 = some s' ∧ (s.servers 0).queue = [.write [⟨(), 7⟩]] :=
    ⟨_, _, rfl, rfl, rfl, rfl⟩
  exact ⟨s, s', .foldlM (fun a _ _ _ acted => .act a acted) (.initial rfl) ran, ⟨_, log⟩, answered,
    by simp [queue]⟩

end

end Prpc.Accumulator
