import Prpc.MasterClient.Lock.Threads

namespace Prpc.MasterClient
open Lib Master

variable {root : RootPath} {s s' : LockState} {t : ThreadId} {name gen : Text} {G : Text → Nat}
  {Q : Text → Nat → Option ClientId}

structure LockInv (root : RootPath) (s : LockState) (G : Text → Nat)
    (Q : Text → Nat → Option ClientId) : Prop where
  queues : Queues root s.master G Q
  tickets : Tickets s.pc s.offline (fun name => root.join (lockPath name) ∈ s.master.path) G Q
  table : Table s.pc s.mutex s.acquiredLock
  failed : ∀ t, s.pc t = .failed → t.client ∈ s.offline

theorem LockInv.queue (inv : LockInv root s G Q) (t : ThreadId) (name : Text)
    (made : (s.pc t).made = some name) :
    Queue s.master (root.join (lockPath name)) (G name) (Q name) :=
  inv.queues.queue name (inv.tickets.name t name (LockPc.name_of_made made))
    (inv.tickets.made t name made)

theorem LockInv.start (start : LockInit root s) : LockInv root s (fun _ => 0) fun _ _ => none := by
  obtain ⟨d, hd, persistent, empty⟩ := start.dir
  have absent : ∀ name, Segment name → root.join (lockPath name) ∉ s.master.path := by
    intro name segment mem
    obtain ⟨n, hn⟩ := mem_path_iff.1 mem
    obtain ⟨pit, hp, -, key⟩ := start.tree.parent _ n hn (ne_nil_of_valid (lockPath_valid segment))
    rw [join_lockPath, parentOf_child segment.noSlash, hd] at hp
    cases hp
    simp [empty] at key
  refine ⟨⟨start.tree, ⟨d, hd, persistent⟩, fun name segment mem =>
      absurd mem (absent name segment), fun _ _ _ => ⟨rfl, fun _ => rfl⟩⟩, ?_, ?_, ?_⟩
  · constructor <;> simp [start.idle, LockPc.name, LockPc.made, LockPc.ticket, LockPc.won, LockPc.deleted]
  · constructor <;> simp [start.idle, start.acquired, LockPc.inMutex, LockPc.held, LockPc.deletes]
  · simp [start.idle]

theorem failed_update {pc : ThreadId → LockPc} {offline : Finset ClientId} {next : LockPc}
    (failed : ∀ t, pc t = .failed → t.client ∈ offline)
    (h : next = .failed → t.client ∈ offline) (t' : ThreadId)
    (eq : Function.update pc t next t' = .failed) : t'.client ∈ offline := by
  by_cases same : t' = t
  · rw [same, Function.update_self] at eq
    exact same ▸ h eq
  · rw [Function.update_of_ne same] at eq
    exact failed t' eq

theorem LockInv.acquireLock (inv : LockInv root s G Q) (segment : Segment name)
    (idle : s.pc t = .idle) : LockInv root (s.setPc t (.addPath name)) G Q where
  queues := inv.queues
  tickets := inv.tickets.move (fun n h => by cases h; exact segment) (fun n h => by cases h)
    (fun b h => by cases h) (fun n gen h => by cases h) rfl
  table := inv.table.same (by rw [idle]; rfl) (by rw [idle]; rfl) rfl
  failed := failed_update inv.failed (fun h => by cases h)

def LockPc.view (pc : LockPc) :
    Option Text × Option Text × Option (Text × Text) × Option (Text × Text) × Bool :=
  (pc.name, pc.made, pc.ticket, pc.held, pc.inMutex)

theorem LockInv.step (inv : LockInv root s G Q) {next : LockPc} (view : next.view = (s.pc t).view)
    (first : ∀ n gen, next.won = some (n, gen) → t.client ∉ s.offline →
      ∀ j : Nat, Q n j ≠ none → gen ≤ genKey j)
    (deletes : next.deletes = none) (gone : next.deleted = none) (alive : next ≠ .failed) :
    LockInv root (s.setPc t next) G Q := by
  simp only [LockPc.view, Prod.mk.injEq] at view
  obtain ⟨hname, hmade, hticket, hheld, hmutex⟩ := view
  exact ⟨inv.queues, inv.tickets.move (fun n h => inv.tickets.name t n (hname ▸ h))
    (fun n h => inv.tickets.made t n (hmade ▸ h)) (fun _ h => hticket ▸ h) first gone,
    inv.table.same hmutex hheld deletes, failed_update inv.failed fun h => absurd h alive⟩

theorem ask_some {α : Type} {m : State} {a : α} {next : α → LockPc}
    (asked : s.ask t (m, some a) next = some s') :
    t.client ∉ s.offline ∧ s' = { s.setPc t (next a) with master := m } := by
  unfold LockState.ask at asked
  split at asked
  · cases asked
  · rename_i online
    cases asked
    exact ⟨online, rfl⟩

section
variable (inv : LockInv root s G Q)
include inv

theorem LockInv.addPath (at_ : s.pc t = .addPath name)
    (asked : s.ask t (treeNodeAdd root s.master t.client (lockPath name) [] false)
      (fun _ => .genNode name) = some s') : LockInv root s' G Q := by
  have segment := inv.tickets.name t name (by rw [at_]; rfl)
  obtain ⟨m, added, eq, queues, mem, keeps⟩ := inv.queues.add (c := t.client) segment
  rw [eq] at asked
  obtain ⟨-, rfl⟩ := ask_some asked
  refine ⟨queues, (inv.tickets.mono fun n _ h => keeps _ h).move ?_ ?_ ?_ ?_ rfl,
    inv.table.same (by rw [at_]; rfl) (by rw [at_]; rfl) rfl,
    failed_update inv.failed fun h => by cases h⟩
  · rintro n ⟨⟩
    exact segment
  · rintro n ⟨⟩
    exact mem
  · rintro b ⟨⟩
  · rintro n gen ⟨⟩

theorem LockInv.genNode (at_ : s.pc t = .genNode name)
    (room : 0 ≤ s.master.gen (root.join (lockPath name)))
    (asked : s.ask t (treeNodeGen root s.master t.client (lockPath name) [] true)
      (fun gen => if gen = [] then .failed else .watch name gen) = some s') :
    ∃ G' Q', LockInv root s' G' Q' := by
  have segment := inv.tickets.name t name (by rw [at_]; rfl)
  have queue := inv.queue t name (by rw [at_]; rfl)
  obtain ⟨m, eq, tree, queue', same⟩ := queue.draw (c := t.client) inv.queues.tree room
  rw [eq] at asked
  obtain ⟨online, rfl⟩ := ask_some asked
  rw [if_neg (genKey_ne_nil _)]
  have queues' := inv.queues.update segment (slash_notMem_genKey _) tree queue' same
  refine ⟨_, _, queues', ?_, ?_, ?_⟩
  · refine (inv.tickets.draw at_ (queue.lt_of_room room) online).mono fun n segment' mem => ?_
    by_cases eq : n = name
    · subst eq
      obtain ⟨d, hd, -⟩ := queue'.node
      exact mem_path_iff.2 ⟨d, hd⟩
    · exact (lockPath_mem_of_same same segment' eq).2 mem
  · exact inv.table.same (by rw [at_]; rfl) (by rw [at_]; rfl) rfl
  · exact failed_update inv.failed fun h => by cases h

theorem LockInv.watch (at_ : s.pc t = .watch name gen)
    (asked : s.ask t (treeWatch root s.master t.client (lockPath name))
      (fun _ => .waiting name gen) = some s') : LockInv root s' G Q := by
  have segment := inv.tickets.name t name (by rw [at_]; rfl)
  rw [treeWatch_eq inv.queues.tree (lockPath_valid segment)] at asked
  obtain ⟨-, rfl⟩ := ask_some asked
  exact inv.step (by rw [at_]; rfl) (fun n gen h => by cases h) rfl rfl (by simp)

theorem LockInv.waiting (at_ : s.pc t = .waiting name gen)
    (asked : s.ask t (treeNodeSub root s.master t.client (lockPath name))
      (afterChildren name gen) = some s') : LockInv root s' G Q := by
  have segment := inv.tickets.name t name (by rw [at_]; rfl)
  have queue := inv.queue t name (by rw [at_]; rfl)
  obtain ⟨d, hd, -, kids⟩ := queue.node
  rw [treeNodeSub_eq inv.queues.tree (lockPath_valid segment), hd] at asked
  obtain ⟨online, rfl⟩ := ask_some asked
  obtain ⟨i, -, rfl, hq⟩ := inv.tickets.ticket t name gen (by rw [at_]; rfl)
  rw [if_neg online] at hq
  have mem : genKey i ∈ d.sub.sort := by
    rw [Finset.mem_sort, kids]
    exact ⟨i, by simp [hq], rfl⟩
  rw [Option.map_some]
  cases children : d.sub.sort with
  | nil =>
    rw [children] at mem
    cases mem
  | cons first rest =>
    have least : ∀ j : Nat, Q name j ≠ none → first ≤ genKey j := by
      intro j hj
      have memj : genKey j ∈ d.sub.sort := (Finset.mem_sort _).2 ((kids _).2 ⟨j, hj, rfl⟩)
      have sorted := d.sub.pairwise_sort (· ≤ ·)
      rw [children] at memj sorted
      rcases List.mem_cons.1 memj with eq | memj
      · exact eq.ge
      · exact List.rel_of_pairwise_cons sorted memj
    rw [afterChildren]
    split
    · rename_i eq
      refine inv.step (by rw [at_]; rfl) ?_ rfl rfl (by simp)
      rintro n gen ⟨⟩ -
      rw [eq]
      exact least
    · exact inv.step (by rw [at_]) (fun n gen h => by cases h) rfl rfl (by simp)

theorem LockInv.lockMutex (at_ : s.pc t = .lockMutex name gen)
    (free : s.mutex t.client = none) :
    LockInv root ((s.setMutex t.client (some t)).setPc t (.emplace name gen)) G Q where
  queues := inv.queues
  tickets := inv.tickets.shrink (by simp [at_, LockPc.name]) (by simp [at_, LockPc.made, LockPc.name])
    (by simp [at_, LockPc.ticket]) (by simp [at_, LockPc.won]) rfl
  table := inv.table.lock free (by rw [at_]; rfl) (fun n gen path h => by cases h)
  failed := failed_update inv.failed fun h => by cases h

theorem LockInv.won_unique {t' : ThreadId} {gen' : Text}
    (won : (s.pc t).won = some (name, gen)) (won' : (s.pc t').won = some (name, gen'))
    (online : t.client ∉ s.offline) (online' : t'.client ∉ s.offline) : t = t' := by
  have ticket := LockPc.ticket_of_won won
  have ticket' := LockPc.ticket_of_won won'
  obtain ⟨i, -, rfl, hq⟩ := inv.tickets.ticket t name gen ticket
  obtain ⟨i', -, rfl, hq'⟩ := inv.tickets.ticket t' name gen' ticket'
  rw [if_neg online] at hq
  rw [if_neg online'] at hq'
  have le := inv.tickets.first t name _ won online i' (by simp [hq'])
  have ge := inv.tickets.first t' name _ won' online' i (by simp [hq])
  rw [le_antisymm le ge] at ticket
  exact inv.tickets.distinct t t' _ ticket ticket'

theorem LockInv.emplace (at_ : s.pc t = .emplace name gen)
    (free : s.acquiredLock t.client name = none) :
    LockInv root (((s.setAcquired t.client name (some (child (lockPath name) gen))).setMutex
      t.client none).setPc t (.holding name gen)) G Q where
  queues := inv.queues
  tickets := inv.tickets.shrink (by simp [at_, LockPc.name]) (by simp [at_, LockPc.made, LockPc.name])
    (by simp [at_, LockPc.ticket]) (by simp [at_, LockPc.won]) rfl
  table := inv.table.insert at_ free
  failed := failed_update inv.failed fun h => by cases h

variable {path : Text}

/-- The table can only have an entry of the same name if the client was disconnected: the thread
with that entry has won the lock too, and it is not inside the mutex. -/
theorem LockInv.emplace_failed (at_ : s.pc t = .emplace name gen) (taken : s.acquiredLock t.client name = some path) :
    LockInv root ((s.setMutex t.client none).setPc t .failed) G Q where
  queues := inv.queues
  tickets := inv.tickets.shrink (by simp [LockPc.name]) (by simp [LockPc.made, LockPc.name])
    (by simp [LockPc.ticket]) (by simp [LockPc.won]) rfl
  table := inv.table.drop (by rw [at_]; rfl) rfl (by rw [at_]; rfl) rfl
  failed := failed_update inv.failed fun _ => by
    by_contra online
    obtain ⟨t', gen', client, held⟩ := inv.table.acquired t.client name path taken
    have ne : t' ≠ t := by
      rintro rfl
      rw [at_] at held
      cases held
    have outside : (s.pc t').inMutex ≠ true := by
      intro inside
      have locked := inv.table.inMutex t' inside
      rw [client, inv.table.inMutex t (by rw [at_]; rfl)] at locked
      exact ne (Option.some.inj locked).symm
    have won' : (s.pc t').won = some (name, gen') := by
      revert held outside
      cases s.pc t' <;> simp [LockPc.held, LockPc.inMutex, LockPc.won]
    exact ne (inv.won_unique won' (by rw [at_]; rfl) (client ▸ online) online)

theorem LockInv.find (at_ : s.pc t = .find name gen)
    (free : s.mutex t.client = none)
    (found : s.acquiredLock t.client name = some path) :
    LockInv root ((s.setMutex t.client (some t)).setPc t (.delNode name gen path)) G Q where
  queues := inv.queues
  tickets := inv.tickets.shrink (by simp [at_, LockPc.name]) (by simp [at_, LockPc.made, LockPc.name])
    (by simp [at_, LockPc.ticket]) (by simp [at_, LockPc.won]) rfl
  table := by
    refine inv.table.lock free (by rw [at_]; rfl) ?_
    rintro n g p ⟨⟩
    have entry := inv.table.held t name gen (by rw [at_]; rfl)
    rw [found] at entry
    exact Option.some.inj entry
  failed := failed_update inv.failed fun h => by cases h

theorem LockInv.delNode
    (at_ : s.pc t = .delNode name gen path)
    (asked : s.ask t (treeNodeDel root s.master t.client path)
      (fun deleted => if deleted then .erase name gen else .failed) = some s') :
    ∃ G' Q', LockInv root s' G' Q' := by
  have segment := inv.tickets.name t name (by rw [at_]; rfl)
  have queue := inv.queue t name (by rw [at_]; rfl)
  obtain ⟨i, drawn, rfl, hq⟩ := inv.tickets.ticket t name gen (by rw [at_]; rfl)
  obtain rfl := inv.table.deletes t name _ path (by rw [at_]; rfl)
  have online : t.client ∉ s.offline := by
    intro off
    simp [LockState.ask, off] at asked
  rw [if_neg online] at hq
  obtain ⟨m, eq, tree, queue', same⟩ := queue.giveBack (c := t.client) inv.queues.tree hq
  rw [eq] at asked
  obtain ⟨-, rfl⟩ := ask_some asked
  rw [if_pos rfl]
  have queues' := inv.queues.update segment (slash_notMem_genKey _) tree queue' same
  rw [Function.update_eq_self] at queues'
  refine ⟨_, _, queues', ?_, ?_, ?_⟩
  · refine (inv.tickets.giveBack at_ drawn).mono fun n segment' mem => ?_
    by_cases eq : n = name
    · subst eq
      obtain ⟨d, hd, -⟩ := queue'.node
      exact mem_path_iff.2 ⟨d, hd⟩
    · exact (lockPath_mem_of_same same segment' eq).2 mem
  · exact inv.table.same (by rw [at_]; rfl) (by rw [at_]; rfl) rfl
  · exact failed_update inv.failed fun h => by cases h

theorem LockInv.erase (at_ : s.pc t = .erase name gen) :
    LockInv root (((s.setAcquired t.client name none).setMutex t.client none).setPc t .idle) G Q where
  queues := inv.queues
  tickets := inv.tickets.shrink (by simp [LockPc.name]) (by simp [LockPc.made, LockPc.name])
    (by simp [LockPc.ticket]) (by simp [LockPc.won]) rfl
  table := inv.table.remove at_
  failed := failed_update inv.failed fun h => by cases h

theorem LockInv.run
    (room : ∀ name, s.pc t = .genNode name → 0 ≤ s.master.gen (root.join (lockPath name)))
    (advance : lockAdvance root s t = some s') : ∃ G' Q', LockInv root s' G' Q' := by
  unfold lockAdvance at advance
  cases at_ : s.pc t with
    simp only [at_, Option.ite_none_right_eq_some, Option.some.injEq, reduceCtorEq] at advance
  | addPath name =>
    exact ⟨G, Q, inv.addPath at_ advance⟩
  | genNode name =>
    exact inv.genNode at_ (room name at_) advance
  | watch name gen =>
    exact ⟨G, Q, inv.watch at_ advance⟩
  | waiting name gen =>
    exact ⟨G, Q, inv.waiting at_ advance⟩
  | lockMutex name gen =>
    obtain ⟨free, rfl⟩ := advance
    exact ⟨G, Q, inv.lockMutex at_ free⟩
  | emplace name gen =>
    split at advance
    · rename_i taken
      cases advance
      exact ⟨G, Q, inv.emplace_failed at_ taken⟩
    · rename_i free
      cases advance
      exact ⟨G, Q, inv.emplace at_ free⟩
  | find name gen =>
    obtain ⟨free, advance⟩ := advance
    have entry := inv.table.held t name gen (by rw [at_]; rfl)
    rw [entry] at advance
    cases advance
    exact ⟨G, Q, inv.find at_ free entry⟩
  | delNode name gen path =>
    exact inv.delNode at_ advance
  | erase name gen =>
    subst advance
    exact ⟨G, Q, inv.erase at_⟩

theorem LockInv.next (move : LockStep root Segment s s') : ∃ G' Q', LockInv root s' G' Q' := by
  cases move with
  | acquireLock t named idle => exact ⟨G, Q, inv.acquireLock named idle⟩
  | @releaseLock t name gen holder =>
    refine ⟨G, Q, inv.step (by rw [holder]; rfl) ?_ rfl rfl (by simp)⟩
    rintro n g ⟨⟩
    exact inv.tickets.first t name gen (by rw [holder]; rfl)
  | run t room advance => exact inv.run room advance
  | disconnect c collects clear =>
    obtain ⟨queues, mem⟩ := inv.queues.disconnect collects clear
    refine ⟨_, _, queues, (inv.tickets.disconnect c).mono mem, inv.table, fun t h => ?_⟩
    exact Finset.mem_insert_of_mem (inv.failed t h)
  | other c online target outside handled =>
    obtain ⟨queues, same⟩ := inv.queues.other target outside handled
    refine ⟨G, Q, queues, inv.tickets.mono fun name _ mem => ?_, inv.table, inv.failed⟩
    rw [mem_path_iff] at mem ⊢
    rwa [(same _ (.inr ⟨name, join_lockPath root name⟩)).1]

end

theorem LockReachable.inv (reachable : LockReachable root Segment s) : ∃ G Q, LockInv root s G Q :=
  Reachable.invariant (fun s => ∃ G Q, LockInv root s G Q)
    (fun _ start => ⟨_, _, LockInv.start start⟩)
    (fun _ _ ⟨_, _, inv⟩ move => inv.next move) reachable

def LockState.holds (root : RootPath) (s : LockState) (t : ThreadId) (name gen : Text) : Prop :=
  (s.pc t).held = some (name, gen) ∧ child (root.join (lockPath name)) gen ∈ s.master.path

theorem LockInv.won_of_holds (inv : LockInv root s G Q) (holds : s.holds root t name gen) :
    (s.pc t).won = some (name, gen) ∧ t.client ∉ s.offline := by
  obtain ⟨held, mem⟩ := holds
  have queue := inv.queue t name (LockPc.made_of_held held)
  have present : ∀ i : Nat, i < G name → gen = genKey i → Q name i ≠ none := by
    rintro i lt rfl
    exact (queue.mem_iff inv.queues.tree (lt.trans_le queue.counts.le)).1 mem
  have won : (s.pc t).won = some (name, gen) := by
    cases at_ : s.pc t with
    | erase n g =>
      rw [at_] at held
      cases held
      obtain ⟨i, lt, eq, none⟩ := inv.tickets.gone t name gen (by rw [at_]; rfl)
      exact absurd none (present i lt eq)
    | _ => simp_all [LockPc.held, LockPc.won]
  refine ⟨won, fun off => ?_⟩
  obtain ⟨i, lt, eq, none⟩ := inv.tickets.ticket t name gen (LockPc.ticket_of_won won)
  rw [if_pos off] at none
  exact present i lt eq none

/-- At most one thread holds a lock, it has the smallest node, and no check of a connected client
fails. -/
theorem lock_mutual_exclusion (reachable : LockReachable root Segment s) :
    (∀ t t' name gen gen', s.holds root t name gen → s.holds root t' name gen' → t = t') ∧
    (∀ t name gen, s.holds root t name gen → ∃ d,
      s.master.path.lookup (root.join (lockPath name)) = some d ∧ gen ∈ d.sub ∧ ∀ k ∈ d.sub, gen ≤ k) ∧
    ∀ t, s.pc t = .failed → t.client ∈ s.offline := by
  obtain ⟨G, Q, inv⟩ := reachable.inv
  refine ⟨fun t t' name gen gen' holds holds' => ?_, fun t name gen holds => ?_, inv.failed⟩
  · obtain ⟨won, online⟩ := inv.won_of_holds holds
    obtain ⟨won', online'⟩ := inv.won_of_holds holds'
    exact inv.won_unique won won' online online'
  · obtain ⟨won, online⟩ := inv.won_of_holds holds
    have ticket := LockPc.ticket_of_won won
    obtain ⟨i, -, rfl, hq⟩ := inv.tickets.ticket t name gen ticket
    rw [if_neg online] at hq
    obtain ⟨d, hd, -, kids⟩ := (inv.queue t name (LockPc.made_of_ticket ticket)).node
    refine ⟨d, hd, (kids _).2 ⟨i, by simp [hq], rfl⟩, fun k mem => ?_⟩
    obtain ⟨j, hj, rfl⟩ := (kids k).1 mem
    exact inv.tickets.first t name _ won online j hj

theorem lock_mutual_exclusion_alone : ∃ s d, LockReachable .default Segment s ∧
    s.holds .default ⟨0, 0⟩ "a".toList "_0000000000".toList ∧
    s.master.path.lookup "/root/_lock_/a".toList = some d ∧
    (∀ k ∈ d.sub, "_0000000000".toList ≤ k) ∧ ∀ t, s.pc t = .failed → t.client ∈ s.offline := by
  have ran : (lockRun .default (.acquireLock ⟨0, 0⟩ "a".toList ::
      List.replicate 6 (.run ⟨0, 0⟩))).any (fun s =>
        (s.pc ⟨0, 0⟩).held = some ("a".toList, "_0000000000".toList) &&
        decide ("/root/_lock_/a/_0000000000".toList ∈ s.master.path)) = true := by
    decide +kernel
  obtain ⟨s, run, h⟩ := (Option.any_eq_true ..).1 ran
  have reachable : LockReachable .default Segment s := lockRun_reachable (by decide) run
  simp only [Bool.and_eq_true, decide_eq_true_eq] at h
  obtain ⟨d, hd, -, least⟩ := (lock_mutual_exclusion reachable).2.1 ⟨0, 0⟩ _ _ h
  exact ⟨s, d, reachable, h, hd, least, (lock_mutual_exclusion reachable).2.2⟩

/-- A name with a slash has no parent to be generated under, and `SCHECK(!gen.empty())` fails. -/
theorem lock_name_with_slash_fails : ∃ s t, LockReachable .default (fun _ => True) s ∧
    s.pc t = .failed ∧ t.client ∉ s.offline := by
  have ran : (lockRun .default [.acquireLock ⟨0, 0⟩ "a/b".toList, .run ⟨0, 0⟩, .run ⟨0, 0⟩]).any
      (fun s => s.pc ⟨0, 0⟩ = .failed && 0 ∉ s.offline) = true := by
    decide +kernel
  obtain ⟨s, run, h⟩ := (Option.any_eq_true ..).1 ran
  simp only [Bool.and_eq_true, decide_eq_true_eq] at h
  exact ⟨s, ⟨0, 0⟩, lockRun_reachable (by decide) run, h⟩

end Prpc.MasterClient
