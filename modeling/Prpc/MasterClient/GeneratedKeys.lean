import Prpc.MasterClient.Service.Registry

namespace Prpc.MasterClient
open Lib Master

variable {s t s₀ : State} {parent : Text}

def answer (s : State) (temp : List Text) : Event → Option Response
  | .request c req => (handleOp s c temp req).map Outcome.resp
  | _ => none

abbrev Log := List (Event × Option Response)

inductive History (s₀ : State) : Log → State → Prop
  | start : History s₀ [] s₀
  | serve {log : Log} {s t : State} (temp : List Text) {e : Event} (history : History s₀ log s)
      (scans : Scans s temp e) (step : serve s temp e = some t) : History s₀ (log ++ [(e, answer s temp e)]) t

def answerToGen (parent : Text) : Event × Option Response → Option Response
  | (.request _ (.gen p _ _), resp) => if p = parent then resp else none
  | _ => none

def generatedKey (parent : Text) (entry : Event × Option Response) : Option Text :=
  match answerToGen parent entry with
  | some (.key key) => some key
  | _ => none

def generatedKeys (parent : Text) (log : Log) : List Text := log.filterMap (generatedKey parent)

/-- A number of `parent` is used up, also if the name was not free. -/
def uses (parent : Text) (entry : Event × Option Response) : Bool :=
  match answerToGen parent entry with
  | none | some (.status .NODE_FAILED) => false
  | _ => true

def generations (parent : Text) (log : Log) : Nat := log.countP (uses parent)

def deletes (parent : Text) : Event × Option Response → Bool
  | (.request _ (.del p), some resp) => p = parent && resp.code = .OK
  | _ => false

def generateId (root : RootPath) (m : State) (c : ClientId) (key : Text) : State × Option Int :=
  (treeNodeGen root m c (generatorPath key) [] true).map id fun gen => gen.bind idOf

def generateIdRequest (root : RootPath) (c : ClientId) (key : Text) : Event :=
  .request c (.gen (root.join (generatorPath key)) [] true)

theorem generateId_spec {root : RootPath} {c : ClientId} {key : Text} {id : Int}
    (returned : generateId root s c key = (t, some id)) :
    ∃ gen, answer s [] (generateIdRequest root c key) = some (.key gen) ∧ idOf gen = some id := by
  rw [generateId, treeNodeGen, call] at returned
  split at returned
  · split at returned
    · cases returned
    · rename_i out handled
      have answered : answer s [] (generateIdRequest root c key) = some out.resp :=
        congrArg (Option.map Outcome.resp) handled
      rw [answered]
      obtain ⟨-, value⟩ := Prod.mk.inj returned
      cases made : out.resp with
      | key gen =>
        rw [made] at value
        exact ⟨gen, rfl, value⟩
      | _ =>
        -- the name is empty, which `generate_id` does not take
        rw [made] at value
        dsimp only at value
        split at value <;> cases value
  · cases returned

theorem masterGen_spec {c : ClientId} {value : Text} {ephemeral : Bool} {out : Outcome}
    (handled : masterGen s c parent value ephemeral = some out) :
    (out.state = s ∧ ∃ code, out.resp = .status code) ∨
      ((∀ p, out.state.gen p = (bumpGen s parent).gen p) ∧ out.resp ≠ .status .NODE_FAILED ∧
        ∀ key, out.resp = .key key → key = genKey (s.gen parent)) := by
  rw [masterGen] at handled
  split at handled
  · cases handled
    exact .inl ⟨rfl, _, rfl⟩
  · split at handled
    · cases handled
      exact .inl ⟨rfl, _, rfl⟩
    · split at handled
      · cases handled
        exact .inl ⟨rfl, _, rfl⟩
      · right
        simp only at handled
        split at handled
        · cases handled
          exact ⟨fun _ => rfl, by simp, by simp⟩
        · split at handled
          · cases handled
            exact ⟨fun _ => rfl, by simp, by simp⟩
          · split at handled
            · cases handled
            · cases handled
              exact ⟨fun _ => rfl, by simp, fun _ eq => (Response.key.inj eq).symm⟩

theorem handleOp_gen {c : ClientId} {temp : List Text} {req : Request} {out : Outcome} (inv : TreeInv s)
    (collects : req = .clientFinalize → Collects (touchRoot s) c temp)
    (other : ∀ value ephemeral, req ≠ .gen parent value ephemeral) (kept : req = .del parent → out.resp.code ≠ .OK)
    (handled : handleOp s c temp req = some out) : out.state.gen parent = s.gen parent := by
  rw [← gen_touchRoot s]
  have inv := inv.touched
  cases req with
  | gen p value ephemeral =>
    rcases masterGen_spec handled with ⟨same, -⟩ | ⟨bumped, -⟩
    · rw [same]
    · rw [bumped, gen_bumpGen, if_neg fun eq => other value ephemeral (by rw [eq])]
  | add path value ephemeral =>
    by_cases h : ∃ pit, Addable (touchRoot s) path pit
    · obtain ⟨pit, addable⟩ := h
      cases (masterAdd_ok inv addable).symm.trans handled
      rfl
    · obtain ⟨code, -, -, refused⟩ := masterAdd_refused c value ephemeral (not_exists.1 h)
      cases refused.symm.trans handled
      rfl
  | del path =>
    by_cases h : ∃ it, Deletable (touchRoot s) path it
    · obtain ⟨it, deletable⟩ := h
      obtain ⟨pit, -, -, deleted⟩ := masterDel_ok inv deletable
      cases deleted.symm.trans handled
      rw [gen_deletedNode, if_neg fun eq => kept (by rw [eq]) rfl]
    · obtain ⟨code, -, -, refused⟩ := masterDel_refused (not_exists.1 h)
      cases refused.symm.trans handled
      rfl
  | set path value =>
    simp only [handleOp, masterSet] at handled
    split at handled
    · cases handled
      rfl
    · split at handled
      · cases handled
        rfl
      · cases handled
        rfl
  | get path =>
    obtain ⟨resp, eq⟩ := masterGet_state (touchRoot s) path
    cases eq.symm.trans handled
    rfl
  | sub path =>
    obtain ⟨resp, eq⟩ := masterSub_state (touchRoot s) path
    cases eq.symm.trans handled
    rfl
  | exit =>
    cases handled
    rfl
  | clientFinalize =>
    simp only [handleOp, Option.bind_eq_bind, Option.bind_eq_some_iff, Option.pure_def, Option.some.injEq] at handled
    obtain ⟨⟨t, notified⟩, cleared, rfl⟩ := handled
    exact (disconnectClearData_lookup inv (collects rfl) cleared).1 parent

theorem serve_gen {temp : List Text} {e : Event} (inv : TreeInv s) (scans : Scans s temp e)
    (step : serve s temp e = some t) (kept : deletes parent (e, answer s temp e) = false) :
    (t.gen parent = s.gen parent ∧ generatedKey parent (e, answer s temp e) = none) ∨
      (t.gen parent = int32 (s.gen parent + 1) ∧ uses parent (e, answer s temp e) = true ∧
        ∀ key, generatedKey parent (e, answer s temp e) = some key → key = genKey (s.gen parent)) := by
  cases e with
  | connect c =>
    cases step
    exact .inl ⟨rfl, rfl⟩
  | disconnect c =>
    simp only [serve, Option.bind_eq_bind, Option.bind_eq_some_iff, Option.pure_def, Option.some.injEq] at step
    obtain ⟨⟨t, notified⟩, cleared, rfl⟩ := step
    exact .inl ⟨(disconnectClearData_lookup inv (scans c rfl) cleared).1 parent, rfl⟩
  | request c req =>
    obtain ⟨out, handled, rfl⟩ := Option.map_eq_some_iff.1 step
    have answered : answer s temp (.request c req) = some out.resp := congrArg (Option.map Outcome.resp) handled
    rw [answered] at kept ⊢
    by_cases gen : ∃ value ephemeral, req = .gen parent value ephemeral
    · obtain ⟨value, ephemeral, rfl⟩ := gen
      rw [generatedKey, uses, answerToGen, if_pos rfl]
      rcases masterGen_spec handled with ⟨same, code, refused⟩ | ⟨bumped, not_failed, key⟩
      · rw [same, gen_touchRoot, refused]
        exact .inl ⟨rfl, rfl⟩
      · rw [bumped, gen_bumpGen, if_pos rfl, gen_touchRoot]
        rw [gen_touchRoot] at key
        refine .inr ⟨rfl, ?_, fun k made => key k ?_⟩
        · split
          · rename_i none
            cases none
          · rename_i failed
            exact absurd (Option.some.inj failed) not_failed
          · rfl
        · split at made
          · rename_i eq
            rw [← Option.some.inj made]
            exact Option.some.inj eq
          · cases made
    · left
      constructor
      · refine handleOp_gen inv (fun final => ?_) (fun value ephemeral eq => gen ⟨value, ephemeral, eq⟩)
          (fun del => ?_) handled
        · subst final
          exact scans c rfl
        · subst del
          simpa [deletes] using kept
      · cases req with
        | gen p value ephemeral =>
          rw [generatedKey, answerToGen, if_neg fun eq => gen ⟨value, ephemeral, by rw [eq]⟩]
        | _ => rfl

theorem History.numbered {log : Log} (inv : TreeInv s₀) (new : parent ∉ s₀.path) (history : History s₀ log s)
    (kept : ∀ entry ∈ log, deletes parent entry = false) (few : generations parent log ≤ 2 ^ 31) :
    TreeInv s ∧ ∃ (g : Nat) (ns : List Nat), g ≤ generations parent log ∧ s.gen parent = int32 g ∧
      generatedKeys parent log = ns.map (fun n : Nat => genKey n) ∧ ns.Pairwise (· < ·) ∧ ∀ n ∈ ns, n < g := by
  induction history with
  | start =>
    refine ⟨inv, 0, [], Nat.zero_le _, ?_, rfl, .nil, nofun⟩
    by_contra counted
    obtain ⟨n, node, -⟩ := inv.counted parent counted
    exact new (mem_path_iff.2 ⟨n, node⟩)
  | @serve log s t temp e history scans step ih =>
    have count : generations parent (log ++ [(e, answer s temp e)]) =
        generations parent log + if uses parent (e, answer s temp e) then 1 else 0 := by
      rw [generations, List.countP_append, List.countP_singleton, generations]
    have keys : generatedKeys parent (log ++ [(e, answer s temp e)]) =
        generatedKeys parent log ++ (generatedKey parent (e, answer s temp e)).toList := by
      rw [generatedKeys, List.filterMap_append, generatedKeys, List.filterMap_cons, List.filterMap_nil]
      cases generatedKey parent (e, answer s temp e) <;> rfl
    rw [count] at few
    obtain ⟨tree, g, ns, le, gen, made, increasing, below⟩ :=
      ih (fun entry mem => kept entry (List.mem_append_left _ mem)) (le_trans (Nat.le_add_right ..) few)
    obtain ⟨t', step', tree', -⟩ := serve_ok tree temp e scans
    cases step.symm.trans step'
    refine ⟨tree', ?_⟩
    rw [count, keys]
    rcases serve_gen tree scans step (kept _ (List.mem_append_right _ (List.mem_singleton_self _))) with
      ⟨same, no_key⟩ | ⟨bumped, used, key⟩
    · rw [no_key, Option.toList_none, List.append_nil]
      exact ⟨g, ns, le.trans (Nat.le_add_right ..), same.trans gen, made, increasing, below⟩
    · rw [if_pos used] at few ⊢
      have small : g < 2 ^ 31 := by omega
      rw [gen, int32_of_lt small] at bumped key
      cases result : generatedKey parent (e, answer s temp e) with
      | none =>
        rw [Option.toList_none, List.append_nil]
        exact ⟨g + 1, ns, Nat.succ_le_succ le, bumped, made, increasing, fun n mem => Nat.lt_succ_of_lt (below n mem)⟩
      | some k =>
        rw [key k result, Option.toList_some]
        refine ⟨g + 1, ns ++ [g], Nat.succ_le_succ le, bumped, by rw [made, List.map_append]; rfl, ?_, ?_⟩
        · rw [List.pairwise_append]
          refine ⟨increasing, List.pairwise_singleton .., fun n mem m last => ?_⟩
          rw [List.mem_singleton.1 last]
          exact below n mem
        · intro n mem
          rcases List.mem_append.1 mem with old | last
          · exact Nat.lt_succ_of_lt (below n old)
          · rw [List.mem_singleton.1 last]
            exact Nat.lt_succ_self g

/-- The names that a parent generates while it is not deleted are strictly increasing, as numbers and in the order of
the child set, and `generate_id` gives the number. -/
theorem generated_keys_increase {events : List Event} {log : Log} (run : Run events s₀) (new : parent ∉ s₀.path)
    (history : History s₀ log s) (kept : ∀ entry ∈ log, deletes parent entry = false)
    (few : generations parent log ≤ 2 ^ 31) :
    (generatedKeys parent log).Pairwise (· < ·) ∧ (generatedKeys parent log).Nodup ∧
      ∃ ns : List Nat, generatedKeys parent log = ns.map (fun n : Nat => genKey n) ∧ ns.Pairwise (· < ·) ∧
        (generatedKeys parent log).map idOf = ns.map (fun n : Nat => some (n : Int)) ∧
        ∀ root c key t id, generateId root s c key = (t, some id) →
          ∃ gen, answer s [] (generateIdRequest root c key) = some (.key gen) ∧ idOf gen = some id := by
  obtain ⟨-, g, ns, le, -, made, increasing, below⟩ := history.numbered run.tree.1 new kept few
  have small : ∀ n ∈ ns, n < 2 ^ 31 := fun n mem => (below n mem).trans_le (le.trans few)
  have ordered : (generatedKeys parent log).Pairwise (· < ·) := by
    rw [made, List.pairwise_map]
    refine increasing.imp_of_mem fun {n m} _ mem lt => genKey_lt lt ?_
    have := small m mem
    omega
  refine ⟨ordered, ordered.imp ne_of_lt, ns, made, increasing, ?_, fun root c key t id => generateId_spec⟩
  rw [made, List.map_map]
  exact List.map_congr_left fun n mem => idOf_genKey (small n mem)

theorem generated_keys_increase_taken : ∃ log s, History .empty log s ∧
    generatedKeys "/a".toList log = ["_0000000000".toList, "_0000000002".toList] ∧
    (generatedKeys "/a".toList log).Pairwise (· < ·) := by
  let history := (History.start : History .empty [] .empty)
    |>.serve (e := .request 0 (.add "/a".toList [] false)) [] nofun rfl
    |>.serve (e := .request 0 (.gen "/a".toList [] true)) [] nofun rfl
    |>.serve (e := .request 0 (.add "/a/_0000000001".toList [] false)) [] nofun rfl
    |>.serve (e := .request 0 (.gen "/a".toList [] true)) [] nofun rfl
    |>.serve (e := .request 0 (.gen "/a".toList [] true)) [] nofun rfl
  exact ⟨_, _, history, by decide +kernel,
    (generated_keys_increase .start (by decide) history (by decide +kernel) (by decide +kernel)).1⟩

end Prpc.MasterClient
