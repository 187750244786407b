import Prpc.Master.Announce

namespace Prpc.Master
open Lib

variable {s t : State} {c : ClientId} {q : Text}

namespace Request

def onNode : Request → Bool
  | .exit | .clientFinalize => false
  | _ => true

def isEdit : Request → Bool
  | .gen .. | .add .. | .del .. | .set .. => true
  | _ => false

def nodePath : Request → Response → Text
  | .gen parent .., .key key => child parent key
  | .gen parent .., _ => parent
  | .add path .., _ | .del path, _ | .get path, _ | .set path _, _ | .sub path, _ => path
  | .exit, _ | .clientFinalize, _ => []

def makes : Request → Bool
  | .gen .. | .add .. => true
  | _ => false

def nodeAfter (c : ClientId) (before : Option MasterNode) : Request → Option MasterNode
  | .gen _ value ephemeral | .add _ value ephemeral => some ⟨ownerOf c ephemeral, value, ∅⟩
  | .del _ => none
  | .set _ value => before.map fun it => { it with value := value }
  | _ => before

def siblingsAfter (key : Text) (sub : Finset Text) : Request → Finset Text
  | .gen .. | .add .. => insert key sub
  | .del .. => sub.erase key
  | _ => sub

end Request

structure EditsOnly (c : ClientId) (req : Request) (q : Text) (s t : State) : Prop where
  existed : q ∈ s.path ↔ req.makes = false
  node : t.path.lookup q = req.nodeAfter c (s.path.lookup q)
  parent : t.path.lookup (parentOf q) = (s.path.lookup (parentOf q)).map fun pit =>
    { pit with sub := req.siblingsAfter (keyOf q) pit.sub }
  others : ∀ p, p ≠ q → p ≠ parentOf q → t.path.lookup p = s.path.lookup p

def NotifiesOnce (watchers : Finset ClientId) (q : Text) (notified : List (ClientId × Text)) : Prop :=
  ∀ x, notified.filter (·.1 = x) = if x ∈ watchers then [(x, q)] else []

theorem notifiesOnce_notifyWatchers (s : State) (q : Text) : NotifiesOnce s.watchers q (notifyWatchers s q) := by
  intro x
  have each : ((fun e : ClientId × Text => decide (e.1 = x)) ∘ fun c => (c, q)) = fun c => c == x := by
    funext c
    rfl
  rw [notifyWatchers, List.filter_map, each, List.filter_beq, List.map_replicate]
  by_cases mem : x ∈ s.watchers
  · rw [List.count_eq_one_of_mem (Finset.sort_nodup ..) ((Finset.mem_sort _).2 mem), if_pos mem]
    rfl
  · rw [List.count_eq_zero_of_not_mem fun sorted => mem ((Finset.mem_sort _).1 sorted), if_neg mem]
    rfl

structure Effect (c : ClientId) (req : Request) (s : State) (out : Outcome) : Prop where
  refused : out.resp.code ≠ .OK → out.state.path = s.path ∧ out.notified = []
  accepted : out.resp.code = .OK → req.isEdit = true → EditsOnly c req (req.nodePath out.resp) s out.state ∧
      NotifiesOnce s.watchers (req.nodePath out.resp) out.notified

theorem Effect.of_refused {req : Request} {code : MasterStatus} (not_ok : code ≠ .OK) (same : t.path = s.path) :
    Effect c req s { state := t, resp := .status code } :=
  ⟨fun _ => ⟨same, rfl⟩, fun ok => absurd ok not_ok⟩

theorem EditsOnly.of_lookup {req : Request} {parent key : Text} {pit : MasterNode} (slash : '/' ∉ key)
    (node : s.path.lookup parent = some pit) (existed : child parent key ∈ s.path ↔ req.makes = false)
    (lookup : ∀ p, t.path.lookup p = if p = parent then some { pit with sub := req.siblingsAfter key pit.sub }
      else if p = child parent key then req.nodeAfter c (s.path.lookup (child parent key))
      else s.path.lookup p) : EditsOnly c req (child parent key) s t where
  existed := existed
  node := by rw [lookup, if_neg (child_ne_self parent key), if_pos rfl]
  parent := by rw [parentOf_child slash, keyOf_child slash, lookup, if_pos rfl, node, Option.map_some]
  others p other other' := by
    rw [parentOf_child slash] at other'
    rw [lookup, if_neg other', if_neg other]

theorem masterGen_effect (inv : TreeInv s) (parent value : Text) (ephemeral : Bool) :
    ∃ out, masterGen s c parent value ephemeral = some out ∧ Effect c (.gen parent value ephemeral) s out := by
  by_cases h : ∃ pit, Generable s parent pit ∧ (genKey (s.gen parent)).length ≤ 11 ∧
      child parent (genKey (s.gen parent)) ∉ s.path
  · obtain ⟨pit, generable, short, fresh⟩ := h
    refine ⟨_, masterGen_ok inv generable short fresh, ⟨fun not_ok => absurd rfl not_ok, fun _ _ =>
      ⟨?_, notifiesOnce_notifyWatchers s _⟩⟩⟩
    exact .of_lookup (slash_notMem_genKey _) generable.parent (iff_of_false fresh nofun)
      (lookup_insertNode (bumpGen s parent) parent _ pit _)
  · obtain ⟨code, t, not_ok, moved, eq⟩ := masterGen_refused c value ephemeral h
    refine ⟨_, eq, .of_refused not_ok ?_⟩
    rcases moved with rfl | ⟨rfl, -⟩
    · rfl
    · rfl

theorem masterAdd_effect (inv : TreeInv s) (path value : Text) (ephemeral : Bool) :
    ∃ out, masterAdd s c path value ephemeral = some out ∧ Effect c (.add path value ephemeral) s out := by
  by_cases h : ∃ pit, Addable s path pit
  · obtain ⟨pit, addable⟩ := h
    refine ⟨_, masterAdd_ok inv addable, ⟨fun not_ok => absurd rfl not_ok, fun _ _ =>
      ⟨?_, notifiesOnce_notifyWatchers s path⟩⟩⟩
    have split := child_of_valid addable.valid
    have fresh : child (parentOf path) (keyOf path) ∉ s.path := by
      rw [split]
      exact addable.fresh
    have edits : EditsOnly c (.add path value ephemeral) (child (parentOf path) (keyOf path)) s _ :=
      .of_lookup (slash_notMem_keyOf path) addable.parent (iff_of_false fresh nofun) (lookup_insertNode s _ _ pit _)
    rw [split] at edits
    exact edits
  · obtain ⟨code, not_ok, -, eq⟩ := masterAdd_refused c value ephemeral (not_exists.1 h)
    exact ⟨_, eq, .of_refused not_ok rfl⟩

theorem masterDel_effect (inv : TreeInv s) (path : Text) :
    ∃ out, masterDel s path = some out ∧ Effect c (.del path) s out := by
  by_cases h : ∃ it, Deletable s path it
  · obtain ⟨it, deletable⟩ := h
    obtain ⟨pit, parent, -, eq⟩ := masterDel_ok inv deletable
    refine ⟨_, eq, ⟨fun not_ok => absurd rfl not_ok, fun _ _ => ⟨?_, notifiesOnce_notifyWatchers s path⟩⟩⟩
    have split := child_of_valid deletable.valid
    have mem : child (parentOf path) (keyOf path) ∈ s.path := by
      rw [split]
      exact mem_path_iff.2 ⟨it, deletable.node⟩
    have edits : EditsOnly c (.del path) (child (parentOf path) (keyOf path)) s (deletedNode s path pit) :=
      .of_lookup (slash_notMem_keyOf path) parent (iff_of_true mem rfl) (lookup_removeNode s _ _ pit)
    rw [split] at edits
    exact edits
  · obtain ⟨code, not_ok, -, eq⟩ := masterDel_refused (not_exists.1 h)
    exact ⟨_, eq, .of_refused not_ok rfl⟩

theorem masterSet_effect (path value : Text) :
    ∃ out, masterSet s path value = some out ∧ Effect c (.set path value) s out := by
  by_cases h : masterCheckValidPath path = false ∨ s.path.lookup path = none
  · obtain ⟨code, not_ok, eq⟩ := masterSet_refused value h
    exact ⟨_, eq, .of_refused not_ok rfl⟩
  · rw [not_or, Bool.not_eq_false] at h
    obtain ⟨it, node⟩ := Option.ne_none_iff_exists'.1 h.2
    refine ⟨_, masterSet_ok h.1 node, ⟨fun not_ok => absurd rfl not_ok, fun _ _ =>
      ⟨⟨iff_of_true (mem_path_iff.2 ⟨it, node⟩) rfl, ?_, ?_, fun p other _ => Finmap.lookup_insert_of_ne _ other⟩,
        notifiesOnce_notifyWatchers s path⟩⟩⟩
    · simp [Request.nodePath, Request.nodeAfter, node]
    · have ne : parentOf path ≠ path := fun eq =>
        child_ne_self (parentOf path) (keyOf path) ((child_of_valid h.1).trans eq.symm)
      simp only [Request.nodePath, Request.siblingsAfter, Finmap.lookup_insert_of_ne _ ne, Option.map_id']

theorem masterGet_effect (path : Text) : ∃ out, masterGet s path = some out ∧ Effect c (.get path) s out := by
  obtain ⟨resp, eq⟩ := masterGet_state s path
  exact ⟨_, eq, ⟨fun _ => ⟨rfl, rfl⟩, nofun⟩⟩

theorem masterSub_effect (path : Text) : ∃ out, masterSub s path = some out ∧ Effect c (.sub path) s out := by
  obtain ⟨resp, eq⟩ := masterSub_state s path
  exact ⟨_, eq, ⟨fun _ => ⟨rfl, rfl⟩, nofun⟩⟩

/-- After any history, a request of a node is answered. Apart from the root, which the first request of all makes,
it changes nothing if it is refused, and the one node it is about if it is accepted. -/
theorem request_effect {events : List Event} (run : Run events s) (c : ClientId) (temp : List Text) {req : Request}
    (tree : req.onNode = true) :
    ((∃ e ∈ events, e.isRequest = true) → touchRoot s = s) ∧
      ∃ out, handleOp s c temp req = some out ∧ Effect c req (touchRoot s) out := by
  obtain ⟨inv, root⟩ := run.tree
  refine ⟨fun requested => touchRoot_of_mem (root requested), ?_⟩
  cases req with
  | gen parent value ephemeral => exact masterGen_effect inv.touched parent value ephemeral
  | add path value ephemeral => exact masterAdd_effect inv.touched path value ephemeral
  | del path => exact masterDel_effect inv.touched path
  | set path value => exact masterSet_effect path value
  | get path => exact masterGet_effect path
  | sub path => exact masterSub_effect path
  | exit => cases tree
  | clientFinalize => cases tree

theorem request_effect_first : ∃ out, handleOp .empty 0 [] (.add "/a".toList [] false) = some out ∧
    Effect 0 (.add "/a".toList [] false) (touchRoot .empty) out :=
  (request_effect .start 0 [] rfl).2

theorem refused_first_makes_root : Run [] .empty ∧ ∃ out, handleOp .empty 0 [] (.get []) = some out ∧
    out.resp.code ≠ .OK ∧ [] ∉ State.empty.path ∧ [] ∈ out.state.path :=
  ⟨.start, _, rfl, by decide, by decide, by decide⟩

end Prpc.Master
