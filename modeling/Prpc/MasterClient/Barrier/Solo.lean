import Prpc.MasterClient.Barrier.Safety

namespace Prpc.MasterClient
open Lib Master

variable {b : Barrier} {s : BarrierState} {c : ClientId} {G : Nat} {Q : Nat → Option ClientId}
  {leader : Option ClientId} {gen : Text} (limited : Prop)

structure SoloAt (b : Barrier) (c : ClientId) (s : BarrierState) (pc : BarrierPc) (G : Nat)
    (Q : Nat → Option ClientId) (leader : Option ClientId) : Prop where
  members : b.members = {c}
  pc : s.pc c = pc
  area : Area b s.master G Q leader

theorem SoloAt.member {pc : BarrierPc} (solo : SoloAt b c s pc G Q leader) : c ∈ b.members := by
  simp [solo.members]

theorem SoloAt.number {pc : BarrierPc} (solo : SoloAt b c s pc G Q leader) : b.number = 1 := by
  simp [Barrier.number, solo.members]

theorem SoloAt.step {pc next : BarrierPc} {s' : BarrierState} {G' : Nat}
    {Q' : Nat → Option ClientId} {leader' : Option ClientId} (solo : SoloAt b c s pc G Q leader)
    (room : pc = .genNode → 0 ≤ s.master.gen b.nodes) (advance : barrierAdvance b s c = some s')
    (pc' : s'.pc c = next) (area : Area b s'.master G' Q' leader') :
    BarrierStep b limited s s' ∧ SoloAt b c s' next G' Q' leader' :=
  ⟨.run solo.member (fun _ at_ => room (solo.pc ▸ at_)) advance, solo.members, pc', area⟩

theorem SoloAt.call (solo : SoloAt b c s .idle G Q leader) :
    ∃ s', BarrierStep b limited s s' ∧ SoloAt b c s' .watchReady G Q leader :=
  ⟨_, .call solo.member solo.pc, solo.members, by simp [BarrierState.setPc], solo.area⟩

theorem SoloAt.watchReady (solo : SoloAt b c s .watchReady G Q leader) :
    ∃ s', BarrierStep b limited s s' ∧ SoloAt b c s' .waitNotReady G Q leader := by
  have advance : barrierAdvance b s c = some (s.setPc c .waitNotReady) := by
    rw [barrierAdvance, solo.pc]
    simp [solo.area.watch_ready, BarrierState.ask]
  exact ⟨_, solo.step limited (by simp) advance (by simp [BarrierState.setPc]) solo.area⟩

theorem SoloAt.waitNotReady (solo : SoloAt b c s .waitNotReady G Q none) :
    ∃ s', BarrierStep b limited s s' ∧ SoloAt b c s' .addBase G Q none := by
  obtain ⟨value, get, iff⟩ := solo.area.get_ready (c := c)
  have advance : barrierAdvance b s c = some (s.setPc c .addBase) := by
    rw [barrierAdvance, solo.pc]
    simp [get, BarrierState.ask, iff.2 rfl]
  exact ⟨_, solo.step limited (by simp) advance (by simp [BarrierState.setPc]) solo.area⟩

theorem SoloAt.addBase (solo : SoloAt b c s .addBase G Q leader) :
    ∃ s', BarrierStep b limited s s' ∧ SoloAt b c s' .addNode G Q leader ∧ b.base ∈ s'.master.path := by
  obtain ⟨m, added, add, area, -, mem⟩ := solo.area.add_base (c := c)
  have advance : barrierAdvance b s c = some ({ s with master := m }.setPc c .addNode) := by
    rw [barrierAdvance, solo.pc]
    simp [add, BarrierState.ask]
  obtain ⟨step, solo'⟩ := solo.step limited (by simp) advance (Function.update_self ..) area
  exact ⟨_, step, solo', mem⟩

theorem SoloAt.addNode (solo : SoloAt b c s .addNode G Q leader) (mem : b.base ∈ s.master.path) :
    ∃ s', BarrierStep b limited s s' ∧ SoloAt b c s' .genNode G Q leader ∧ b.nodes ∈ s'.master.path := by
  obtain ⟨m, added, add, area, -, mem⟩ := solo.area.add_node (c := c) mem
  have advance : barrierAdvance b s c = some ({ s with master := m }.setPc c .genNode) := by
    rw [barrierAdvance, solo.pc]
    simp [add, BarrierState.ask]
  obtain ⟨step, solo'⟩ := solo.step limited (by simp) advance (Function.update_self ..) area
  exact ⟨_, step, solo', mem⟩

theorem SoloAt.genNode (solo : SoloAt b c s .genNode G Q leader) (mem : b.nodes ∈ s.master.path)
    (small : G < 2 ^ 31) :
    ∃ s', BarrierStep b limited s s' ∧
      SoloAt b c s' (.readNodes (genKey G)) (G + 1) (Function.update Q G (some c)) leader := by
  have room : 0 ≤ s.master.gen b.nodes := by
    rw [(solo.area.queue mem).counts.gen, int32_of_lt small]
    omega
  obtain ⟨m, eq, area, -⟩ := solo.area.draw (c := c) mem room
  have advance : barrierAdvance b s c = some ({ s with master := m }.generate c (genKey G)) := by
    rw [barrierAdvance, solo.pc]
    simp [eq, BarrierState.ask, genKey_ne_nil]
  exact ⟨_, solo.step limited (fun _ => room) advance (by simp [BarrierState.generate, BarrierState.setPc]) area⟩

theorem tickets_update_none (c : ClientId) (G : Nat) :
    tickets (G + 1) (Function.update (fun _ => none) G (some c)) = {G} := by
  ext i
  simp only [tickets, Finset.mem_filter, Finset.mem_range, Finset.mem_singleton, Function.update_apply]
  constructor
  · rintro ⟨-, present⟩
    by_contra ne
    simp [ne] at present
  · rintro rfl
    simp

theorem SoloAt.readNodes (solo : SoloAt b c s (.readNodes (genKey G)) (G + 1)
      (Function.update (fun _ => none) G (some c)) leader) :
    ∃ s', BarrierStep b limited s s' ∧ SoloAt b c s' (.watchNodes (genKey G)) (G + 1)
      (Function.update (fun _ => none) G (some c)) leader := by
  have mem := solo.area.mem_nodes (i := G) (by simp)
  have advance : barrierAdvance b s c = some (s.lead c (genKey G)) := by
    rw [barrierAdvance, solo.pc]
    simp [solo.area.read_nodes mem, BarrierState.ask, tickets_update_none, solo.number,
      List.getLast?_singleton]
  exact ⟨_, solo.step limited (by simp) advance (by simp [BarrierState.lead, BarrierState.setPc]) solo.area⟩

theorem SoloAt.watchNodes (solo : SoloAt b c s (.watchNodes gen) G Q leader) :
    ∃ s', BarrierStep b limited s s' ∧ SoloAt b c s' (.addReady gen) G Q leader := by
  have advance : barrierAdvance b s c = some (s.setPc c (.addReady gen)) := by
    rw [barrierAdvance, solo.pc]
    simp [solo.area.watch_nodes, BarrierState.ask]
  exact ⟨_, solo.step limited (by simp) advance (by simp [BarrierState.setPc]) solo.area⟩

theorem SoloAt.addReady (solo : SoloAt b c s (.addReady gen) G Q none)
    (mem : b.base ∈ s.master.path) :
    ∃ s', BarrierStep b limited s s' ∧ SoloAt b c s' (.waitAlone gen) G Q (some c) := by
  obtain ⟨m, add, area, -⟩ := solo.area.add_ready (c := c) mem
  have advance : barrierAdvance b s c = some ({ s with master := m }.setPc c (.waitAlone gen)) := by
    rw [barrierAdvance, solo.pc]
    simp [add, BarrierState.ask]
  exact ⟨_, solo.step limited (by simp) advance (by simp [BarrierState.setPc]) area⟩

theorem SoloAt.waitAlone (solo : SoloAt b c s (.waitAlone (genKey G)) (G + 1)
      (Function.update (fun _ => none) G (some c)) leader) :
    ∃ s', BarrierStep b limited s s' ∧ SoloAt b c s' (.delLast (genKey G)) (G + 1)
      (Function.update (fun _ => none) G (some c)) leader := by
  have mem := solo.area.mem_nodes (i := G) (by simp)
  have advance : barrierAdvance b s c = some (s.setPc c (.delLast (genKey G))) := by
    rw [barrierAdvance, solo.pc]
    simp [solo.area.read_nodes mem, BarrierState.ask, tickets_update_none]
  exact ⟨_, solo.step limited (by simp) advance (by simp [BarrierState.setPc]) solo.area⟩

theorem SoloAt.delLast (solo : SoloAt b c s (.delLast (genKey G)) (G + 1)
      (Function.update (fun _ => none) G (some c)) leader) :
    ∃ s', BarrierStep b limited s s' ∧ SoloAt b c s' .delReady (G + 1) (fun _ => none) leader := by
  obtain ⟨m, del, area, -⟩ := solo.area.giveBack (i := G) (c := c) (Function.update_self ..)
  rw [Function.update_idem, Function.update_eq_self_iff.2 rfl] at area
  have advance : barrierAdvance b s c = some ({ s with master := m }.setPc c .delReady) := by
    rw [barrierAdvance, solo.pc]
    simp [del, BarrierState.ask]
  exact ⟨_, solo.step limited (by simp) advance (by simp [BarrierState.setPc]) area⟩

theorem SoloAt.delReady (solo : SoloAt b c s .delReady G Q (some c)) :
    ∃ s', BarrierStep b limited s s' ∧ SoloAt b c s' .idle G Q none := by
  obtain ⟨m, del, area, -⟩ := solo.area.del_ready c
  have advance : barrierAdvance b s c = some ({ s with master := m }.finish c) := by
    rw [barrierAdvance, solo.pc]
    simp [del, BarrierState.ask]
  exact ⟨_, solo.step limited (by simp) advance (by simp [BarrierState.finish, BarrierState.setPc]) area⟩

theorem SoloAt.enter (solo : SoloAt b c s .idle G Q none) :
    ∃ s', Relation.ReflTransGen (BarrierStep b limited) s s' ∧ SoloAt b c s' .genNode G Q none ∧
      b.nodes ∈ s'.master.path := by
  obtain ⟨s₁, step₁, solo₁⟩ := solo.call limited
  obtain ⟨s₂, step₂, solo₂⟩ := solo₁.watchReady limited
  obtain ⟨s₃, step₃, solo₃⟩ := solo₂.waitNotReady limited
  obtain ⟨s₄, step₄, solo₄, base⟩ := solo₃.addBase limited
  obtain ⟨s₅, step₅, solo₅, nodes⟩ := solo₄.addNode limited base
  exact ⟨s₅, .tail (.tail (.tail (.tail (.single step₁) step₂) step₃) step₄) step₅, solo₅, nodes⟩

theorem SoloAt.round (solo : SoloAt b c s .idle G (fun _ => none) none) (small : G < 2 ^ 31) :
    ∃ s', Relation.ReflTransGen (BarrierStep b limited) s s' ∧
      SoloAt b c s' .idle (G + 1) (fun _ => none) none := by
  obtain ⟨s₁, path, solo₁, nodes⟩ := solo.enter limited
  obtain ⟨s₂, step₂, solo₂⟩ := solo₁.genNode limited nodes small
  obtain ⟨s₃, step₃, solo₃⟩ := solo₂.readNodes limited
  obtain ⟨s₄, step₄, solo₄⟩ := solo₃.watchNodes limited
  have base := solo₄.area.base_of_nodes (solo₄.area.mem_nodes (i := G) (by simp))
  obtain ⟨s₅, step₅, solo₅⟩ := solo₄.addReady limited base
  obtain ⟨s₆, step₆, solo₆⟩ := solo₅.waitAlone limited
  obtain ⟨s₇, step₇, solo₇⟩ := solo₆.delLast limited
  obtain ⟨s₈, step₈, solo₈⟩ := solo₇.delReady limited
  exact ⟨s₈, .tail (.tail (.tail (.tail (.tail (.tail (.tail path step₂) step₃) step₄) step₅) step₆)
    step₇) step₈, solo₈⟩

theorem SoloAt.rounds (solo : SoloAt b c s .idle 0 (fun _ => none) none) (small : G ≤ 2 ^ 31) :
    ∃ s', Relation.ReflTransGen (BarrierStep b limited) s s' ∧
      SoloAt b c s' .idle G (fun _ => none) none := by
  induction G with
  | zero => exact ⟨s, .refl, solo⟩
  | succ G ih =>
    obtain ⟨s₁, path, solo₁⟩ := ih (by omega)
    obtain ⟨s₂, round, solo₂⟩ := solo₁.round limited (by omega)
    exact ⟨s₂, path.trans round, solo₂⟩

theorem treeNodeGen_long {m : State} {root : RootPath} {path value : Text} {ephemeral : Bool}
    {pit : MasterNode} (tree : Tree m) (generable : Generable m (root.join path) pit)
    (long : 11 < (genKey (m.gen (root.join path))).length) :
    treeNodeGen root m c path value ephemeral = (bumpGen m (root.join path), none) := by
  simp [treeNodeGen, call, handleOp, touchRoot_of_mem tree.rooted, masterGen, generable.valid,
    generable.parent, generable.persistent, long, Response.code, bumpGen]

theorem SoloAt.overflow (solo : SoloAt b c s .genNode (2 ^ 31) Q none)
    (mem : b.nodes ∈ s.master.path) :
    ∃ s', BarrierStep b False s s' ∧ s'.pc c = .failed := by
  have queue := solo.area.queue mem
  obtain ⟨d, hd, persistent, -⟩ := queue.node
  have long : 11 < (genKey (s.master.gen b.nodes)).length := by
    rw [queue.counts.gen]
    decide
  have advance : barrierAdvance b s c =
      some ({ s with master := bumpGen s.master b.nodes }.setPc c .failed) := by
    rw [barrierAdvance, solo.pc]
    simp only [treeNodeGen_long solo.area.tree ⟨queue.valid, hd, persistent⟩ long, BarrierState.ask]
    rfl
  exact ⟨_, .run solo.member (fun limited => limited.elim) advance, Function.update_self ..⟩

def soloBarrier (name : Text) : Barrier := ⟨.default, name, {0}⟩

theorem barrier_overflow {name : Text} (segment : Segment name) :
    ∃ s, BarrierReachable (soloBarrier name) False s ∧ s.pc 0 = .failed := by
  obtain ⟨m, -, tree, dirs⟩ := clientInitialize_ok .default 0
  have start : BarrierInit (soloBarrier name) (.start m) := ⟨tree, dirs pathBarrier (by decide), rfl⟩
  have area := (BarrierInv.start segment start).area
  obtain ⟨s₁, rounds, solo₁⟩ := SoloAt.rounds False ⟨rfl, rfl, area⟩ (le_refl (2 ^ 31))
  obtain ⟨s₂, path, solo₂, nodes⟩ := solo₁.enter False
  obtain ⟨s₃, step, failed⟩ := solo₂.overflow nodes
  exact ⟨s₃, ((Reachable.initial start).trans (rounds.trans path)).next step, failed⟩

/-- A name with a slash, and more than `2 ^ 31` calls: in both cases a check fails. -/
theorem barrier_name_and_count : (∃ s, BarrierReachable (soloBarrier "a/b".toList) False s ∧
      s.pc 0 = .failed) ∧
    ∃ s, BarrierReachable (soloBarrier "a".toList) False s ∧ s.pc 0 = .failed := by
  refine ⟨?_, barrier_overflow (by decide)⟩
  have ran : (barrierRun (soloBarrier "a/b".toList) (List.replicate 6 0)).any
      (fun s => s.pc 0 = .failed) = true := by
    decide +kernel
  obtain ⟨s, run, failed⟩ := (Option.any_eq_true ..).1 ran
  exact ⟨s, barrierRun_reachable (by decide) run, of_decide_eq_true failed⟩

theorem barrier_rounds_solo : ∃ s, BarrierReachable (soloBarrier "a".toList) True s ∧
    s.returned 0 = 1 ∧ s.leaders 0 = [0] ∧ s.pc 0 = .genNode ∧
    (soloBarrier "a".toList).ready ∉ s.master.path := by
  have ran : (barrierRun (soloBarrier "a".toList) (List.replicate 17 0)).any
      (fun s => s.returned 0 = 1 && s.pc 0 = .genNode) = true := by
    decide +kernel
  obtain ⟨s, run, h⟩ := (Option.any_eq_true ..).1 ran
  simp only [Bool.and_eq_true, decide_eq_true_eq] at h
  have reachable : BarrierReachable (soloBarrier "a".toList) True s := barrierRun_reachable (by decide) run
  obtain ⟨-, leaders, -, fresh⟩ := barrier_rounds (by decide) reachable
  obtain ⟨c, member, leader⟩ := (leaders 0).2 0 (by decide) (by omega)
  rw [Finset.mem_singleton.1 member] at leader
  exact ⟨s, reachable, h.1, leader, h.2, (fresh 0 (by decide) h.2).1⟩

end Prpc.MasterClient
