import Prpc.MasterClient.Watch.Reads

/-!
A thread takes the version before it reads.
-/

namespace Prpc.MasterClient.Watch
open Lib Master
open Function (update update_self update_of_ne)

variable {root : RootPath} {c : ClientId} {m m' : State} {cl cl' : Client} {t t' : Thread}
  {w : Wait}

def Dispatcher.Will (path : Text) (k : Nat) : Dispatcher → Prop
  | .idle => False
  | .invoking curs => path ∈ curs
  | .calling callbacks curs | .signaling _ callbacks curs => some k ∈ callbacks ∨ path ∈ curs

def Dispatcher.Signals (k : Nat) : Dispatcher → Prop
  | .signaling k' .. => k' = k
  | _ => False

def Client.Pending (cl : Client) (w : Wait) : Prop :=
  (∃ q ∈ cl.inbox, w.path ∈ curs q) ∨ cl.dispatcher.Will w.path w.watcher

structure Client.Covers (root : RootPath) (cl : Client) (w : Wait) : Prop where
  watched : (w.handle, some w.watcher) ∈ cl.table w.path
  within : w.pred.Within root w.path

namespace Thread

def rest : Thread → Option (Wait × Pred)
  | .idle => none
  | .evaluating w rest => some (w, rest)
  | .checking w | .sleeping w => some (w, .done false)

def sleeps : Thread → Bool
  | .sleeping _ => true
  | _ => false

end Thread

/-- The version has changed since the thread took it, and if the thread sleeps then it is woken up next. -/
def Client.Late (cl : Client) (t : Thread) (w : Wait) : Prop :=
  w.atom < cl.version w.watcher ∧ (t.sleeps → cl.dispatcher.Signals w.watcher)

/-- The thread is told of a change, will be told of one, or has read nothing that has changed. -/
def Fine (root : RootPath) (c : ClientId) (m : State) (cl : Client) (t : Thread) : Prop :=
  ∀ w rest, t.rest = some (w, rest) → cl.Covers root w → rest.Within root w.path ∧
    (cl.Late t w ∨ cl.Pending w ∨ w.pred.evaluate root c m = rest.evaluate root c m)

structure Client.Ok (cl : Client) : Prop where
  entries : ∀ key, ∀ e ∈ cl.table key, masterCheckValidPath key = true ∧ e.1 < cl.handles
  waits : ∀ i w rest, (cl.threads i).rest = some (w, rest) → w.handle < cl.handles ∧ w.atom ≤ cl.version w.watcher

theorem Client.Covers.valid (covers : cl.Covers root w) (ok : cl.Ok) : masterCheckValidPath w.path = true :=
  (ok.entries _ _ covers.watched).1

section
variable (fine : Fine root c m cl t)
include fine

theorem Fine.serve (ok : cl.Ok) {paths : List Text}
    (announced : ∀ base, base ≠ [] → (∃ q ∈ paths, Below base q) ∨ SameNodes base m m') :
    Fine root c m' { cl with inbox := cl.inbox ++ paths } t := by
  intro w rest here covers
  have before : cl.Covers root w := ⟨covers.watched, covers.within⟩
  have valid := before.valid ok
  obtain ⟨within, late | pending | agree⟩ := fine w rest here before
  · exact ⟨within, .inl late⟩
  · refine ⟨within, .inr (.inl ?_)⟩
    rcases pending with ⟨q, mem, on⟩ | will
    · exact .inl ⟨q, List.mem_append_left _ mem, on⟩
    · exact .inr will
  · rcases announced w.path (ne_nil_of_valid valid) with ⟨q, mem, below⟩ | same
    · exact ⟨within, .inr (.inl (.inl ⟨q, List.mem_append_right _ mem, mem_curs_of_below valid below⟩))⟩
    · refine ⟨within, .inr (.inr ?_)⟩
      rw [Pred.evaluate_congr before.within (ne_nil_of_valid valid) same,
        Pred.evaluate_congr within (ne_nil_of_valid valid) same]
      exact agree

theorem Fine.same (ok : cl.Ok) (same : ∀ base, base ≠ [] → SameNodes base m m') : Fine root c m' cl t := by
  have served : Fine root c m' { cl with inbox := cl.inbox ++ [] } t :=
    fine.serve ok fun base ne => .inr (same base ne)
  simpa only [List.append_nil] using served

theorem Fine.move (same : t'.rest = t.rest)
    (covers : ∀ w rest, t.rest = some (w, rest) → cl'.Covers root w → cl.Covers root w)
    (told : ∀ w rest, t.rest = some (w, rest) → cl'.Covers root w → cl.Late t w ∨ cl.Pending w →
      cl'.Late t' w ∨ cl'.Pending w) : Fine root c m cl' t' := by
  intro w rest here after
  rw [same] at here
  obtain ⟨within, late | pending | agree⟩ := fine w rest here (covers w rest here after)
  · exact ⟨within, (told w rest here after (.inl late)).imp_right .inl⟩
  · exact ⟨within, (told w rest here after (.inr pending)).imp_right .inl⟩
  · exact ⟨within, .inr (.inr agree)⟩

end

theorem fine_start (w : Wait) : Fine root c m cl (.evaluating w w.pred) := by
  intro w' rest here covers
  cases here
  exact ⟨covers.within, .inr (.inr rfl)⟩

theorem fine_idle : Fine root c m cl .idle := nofun

theorem update_mem {key k : Text} {entries : List (Nat × Option Nat)} {e : Nat × Option Nat}
    (mem : e ∈ update cl.table key entries k) : k = key ∧ e ∈ entries ∨ e ∈ cl.table k := by
  rcases eq_or_ne k key with rfl | other
  · rw [update_self] at mem
    exact .inl ⟨rfl, mem⟩
  · rw [update_of_ne other] at mem
    exact .inr mem

variable {key : Text} {callback : Option Nat}

theorem insert_spec (done : cl.insert key callback = some cl') :
    cl' = { cl with table := cl'.table, handles := cl.handles + 1 } ∧
      ∀ k, ∀ e ∈ cl'.table k, e ∈ cl.table k ∨ masterCheckValidPath k = true ∧ e.1 = cl.handles := by
  rw [Client.insert] at done
  split at done
  · cases done
  · rename_i possible
    cases done
    rw [not_or, Bool.not_eq_false] at possible
    refine ⟨rfl, fun k e mem => ?_⟩
    rcases update_mem mem with ⟨rfl, mem⟩ | mem
    · rw [List.mem_append, List.mem_singleton] at mem
      rcases mem with before | rfl
      · exact .inl before
      · exact .inr ⟨possible.2, rfl⟩
    · exact .inl mem

theorem erase_spec {handle : Nat} (done : cl.erase key handle = some cl') :
    cl' = { cl with table := cl'.table } ∧ ∀ k, ∀ e ∈ cl'.table k, e ∈ cl.table k := by
  rw [Client.erase] at done
  split at done
  · cases done
  · cases done
    refine ⟨rfl, fun k e mem => ?_⟩
    rcases update_mem mem with ⟨rfl, mem⟩ | mem
    · exact List.mem_of_mem_filter mem
    · exact mem

theorem Client.Ok.insert (ok : cl.Ok)
    (done : cl.insert key callback = some cl') : cl'.Ok := by
  obtain ⟨fields, entries⟩ := insert_spec done
  rw [fields]
  refine ⟨fun k e mem => ?_, fun i w rest here => ?_⟩
  · rcases entries k e mem with before | ⟨valid, new⟩
    · exact ⟨(ok.entries k e before).1, Nat.lt_succ_of_lt (ok.entries k e before).2⟩
    · exact ⟨valid, Nat.lt_succ_of_le new.le⟩
  · obtain ⟨older, atom⟩ := ok.waits i w rest here
    exact ⟨Nat.lt_succ_of_lt older, atom⟩

theorem Client.Ok.erase {handle : Nat} (ok : cl.Ok) (done : cl.erase key handle = some cl') : cl'.Ok := by
  obtain ⟨fields, entries⟩ := erase_spec done
  rw [fields]
  exact ⟨fun k e mem => ok.entries k e (entries k e mem), ok.waits⟩

variable {i : Nat}

theorem Fine.insert (fine : Fine root c m cl (cl.threads i))
    (ok : cl.Ok) (done : cl.insert key callback = some cl') : Fine root c m cl' (cl'.threads i) := by
  obtain ⟨fields, entries⟩ := insert_spec done
  rw [fields]
  refine fine.move rfl (fun w rest here covers => ⟨?_, covers.within⟩) fun w rest here covers => id
  -- the new handle is not the one of a wait
  rcases entries _ _ covers.watched with before | ⟨-, new⟩
  · exact before
  · exact absurd new (ok.waits i w rest here).1.ne

theorem Fine.erase {handle i : Nat} (fine : Fine root c m cl (cl.threads i))
    (done : cl.erase key handle = some cl') : Fine root c m cl' (cl'.threads i) := by
  obtain ⟨fields, entries⟩ := erase_spec done
  rw [fields]
  exact fine.move rfl (fun w rest here covers => ⟨entries _ _ covers.watched, covers.within⟩)
    fun w rest here covers => id

def Client.Waits (cl : Client) (t : Thread) : Prop :=
  ∀ w rest, t.rest = some (w, rest) → w.handle < cl.handles ∧ w.atom ≤ cl.version w.watcher

theorem Client.Ok.setThread (ok : cl.Ok) (next : cl.Waits t) : (cl.setThread i t).Ok := by
  refine ⟨ok.entries, fun j w rest here => ?_⟩
  rcases eq_or_ne j i with rfl | other
  · simp only [Client.setThread, update_self] at here
    exact next w rest here
  · simp only [Client.setThread, update_of_ne other] at here
    exact ok.waits j w rest here

theorem Fine.setThread (fine : Fine root c m cl t) : Fine root c m (cl.setThread i t') t :=
  fine.move rfl (fun _ _ _ covers => ⟨covers.watched, covers.within⟩) fun _ _ _ _ => id

theorem fine_setThread (fine : ∀ j, Fine root c m cl (cl.threads j)) (next : Fine root c m cl t) (j : Nat) :
    Fine root c m (cl.setThread i t) ((cl.setThread i t).threads j) := by
  rcases eq_or_ne j i with rfl | other
  · simp only [Client.setThread, update_self]
    exact next.setThread
  · simp only [Client.setThread, update_of_ne other]
    exact (fine j).setThread

theorem wait_spec {i k handle : Nat} {pred : Pred} (ok : cl.Ok)
    (done : cl.wait i k handle key pred = some cl') :
    ∃ t, cl' = cl.setThread i t ∧ cl.Waits t ∧ Fine root c m cl t := by
  rw [Client.wait] at done
  split at done
  · split at done
    · rename_i mem
      cases done
      refine ⟨_, rfl, fun w rest here => ?_, fine_start _⟩
      cases here
      exact ⟨(ok.entries _ _ mem).2, le_rfl⟩
    · cases done
  · cases done

theorem finish_spec (ok : cl.Ok) (fine : Fine root c m cl (cl.threads i)) (done : cl.finish i = some cl') :
    ∃ t, cl' = cl.setThread i t ∧ cl.Waits t ∧ Fine root c m cl t := by
  have waits := ok.waits i
  rw [Client.finish] at done
  split at done
  · rename_i w result here
    rw [here] at fine waits
    cases done
    refine ⟨_, rfl, ?_⟩
    cases result with
    | true => exact ⟨nofun, fine_idle⟩
    | false => exact ⟨waits, fine.move rfl (fun _ _ _ => id) fun _ _ _ _ => id⟩
  · cases done

theorem check_spec (ok : cl.Ok) (fine : Fine root c m cl (cl.threads i)) (done : cl.check i = some cl') :
    ∃ t, cl' = cl.setThread i t ∧ cl.Waits t ∧ Fine root c m cl t := by
  have waits := ok.waits i
  rw [Client.check] at done
  split at done
  · rename_i w here
    rw [here] at fine waits
    cases done
    refine ⟨_, rfl, ?_⟩
    split
    · rename_i same
      refine ⟨waits, fine.move rfl (fun _ _ _ => id) fun w' rest here' covers told => ?_⟩
      cases here'
      -- nothing has been missed if the version is still the one taken before the reads
      exact told.imp_left fun late => absurd same late.1.ne'
    · refine ⟨fun w' rest here' => ?_, fine_start _⟩
      cases here'
      exact ⟨(waits w _ rfl).1, le_rfl⟩
  · cases done

theorem wake_spec (ok : cl.Ok) (fine : Fine root c m cl (cl.threads i)) (done : cl.wake i = some cl') :
    ∃ t, cl' = cl.setThread i t ∧ cl.Waits t ∧ Fine root c m cl t := by
  have waits := ok.waits i
  rw [Client.wake] at done
  split at done
  · rename_i w here
    rw [here] at fine waits
    cases done
    exact ⟨_, rfl, waits, fine.move rfl (fun _ _ _ => id) fun _ _ _ _ => Or.imp_left fun late => ⟨late.1, nofun⟩⟩
  · cases done

theorem le_bump (cl : Client) (k k' : Nat) : cl.version k ≤ (cl.bump k').version k := by
  rcases eq_or_ne k k' with rfl | other
  · simp only [Client.bump, update_self]
    exact Nat.le_succ _
  · simp only [Client.bump, update_of_ne other]
    exact le_rfl

theorem Client.Ok.bump (ok : cl.Ok) (k : Nat) : (cl.bump k).Ok :=
  ⟨ok.entries, fun i w rest here => ⟨(ok.waits i w rest here).1, (ok.waits i w rest here).2.trans (le_bump ..)⟩⟩

theorem Fine.bump (fine : Fine root c m cl t) (k : Nat) : Fine root c m (cl.bump k) t :=
  fine.move rfl (fun _ _ _ covers => ⟨covers.watched, covers.within⟩) fun _ _ _ _ =>
    Or.imp_left fun late => ⟨late.1.trans_le (le_bump ..), late.2⟩

theorem Fine.dispatcher {d : Dispatcher} {inbox : List Text} (fine : Fine root c m cl t)
    (quiet : ∀ k, ¬ cl.dispatcher.Signals k)
    (will : ∀ w, cl.Covers root w → cl.Pending w → ({ cl with dispatcher := d, inbox := inbox } : Client).Pending w) :
    Fine root c m { cl with dispatcher := d, inbox := inbox } t :=
  fine.move rfl (fun _ _ _ covers => ⟨covers.watched, covers.within⟩) fun w _ _ covers =>
    Or.imp (fun late => ⟨late.1, fun sleeps => absurd (late.2 sleeps) (quiet _)⟩)
      (will w ⟨covers.watched, covers.within⟩)

theorem Fine.receive (fine : Fine root c m cl (cl.threads i)) (done : cl.receive = some cl') :
    Fine root c m cl' (cl'.threads i) := by
  rw [Client.receive] at done
  split at done
  · rename_i path inbox idle queue
    cases done
    refine fine.dispatcher (by rw [idle]; exact fun _ => id) fun w covers pending => ?_
    rw [Client.Pending, idle, queue] at pending
    rcases pending with ⟨q, mem, on⟩ | never
    · rcases List.mem_cons.1 mem with rfl | later
      · exact .inr on
      · exact .inl ⟨q, later, on⟩
    · exact never.elim
  · cases done

theorem Client.Ok.receive (ok : cl.Ok) (done : cl.receive = some cl') : cl'.Ok := by
  rw [Client.receive] at done
  split at done
  · cases done
    exact ⟨ok.entries, ok.waits⟩
  · cases done

theorem Fine.notify {i k : Nat} {callbacks : List (Option Nat)} {curs : List Text}
    (fine : Fine root c m cl (cl.threads i)) (ok : cl.Ok)
    (calling : cl.dispatcher = .calling (some k :: callbacks) curs) :
    Fine root c m { cl.bump k with dispatcher := .signaling k callbacks curs } (cl.threads i) := by
  refine fine.move rfl (fun _ _ _ covers => ⟨covers.watched, covers.within⟩) fun w rest here covers told => ?_
  have atom := (ok.waits i w rest here).2
  rw [Client.Late, Client.Pending, calling] at told
  by_cases same : k = w.watcher
  · refine .inl ⟨?_, fun _ => same⟩
    simp only [Client.bump, same, update_self]
    exact Nat.lt_succ_of_le atom
  · rcases told with late | queued | called | later
    · refine .inl ⟨late.1.trans_le (le_bump ..), fun sleeps => ?_⟩
      exact (late.2 sleeps).elim
    · exact .inr (.inl queued)
    · rcases List.mem_cons.1 called with this | called
      · exact absurd (Option.some.inj this).symm same
      · exact .inr (.inr (.inl called))
    · exact .inr (.inr (.inr later))

theorem rest_signal (k i : Nat) : ((cl.signal k).threads i).rest = (cl.threads i).rest := by
  simp only [Client.signal]
  split
  · rename_i w here
    rw [here]
    split <;> rfl
  · rfl

theorem sleeps_signal {k i : Nat} {rest : Pred} (sleeps : ((cl.signal k).threads i).sleeps)
    (here : (cl.threads i).rest = some (w, rest)) : (cl.threads i).sleeps ∧ w.watcher ≠ k := by
  simp only [Client.signal] at sleeps
  split at sleeps
  · rename_i w' asleep
    rw [asleep] at here ⊢
    cases here
    split at sleeps
    · cases sleeps
    · exact ⟨rfl, ‹_›⟩
  · rename_i awake
    cases at_ : cl.threads i with
    | sleeping w' => exact absurd at_ (awake w')
    | _ =>
      rw [at_] at sleeps
      cases sleeps

theorem Fine.signal {i k : Nat} {callbacks : List (Option Nat)} {curs : List Text}
    (fine : Fine root c m cl (cl.threads i)) (signaling : cl.dispatcher = .signaling k callbacks curs) :
    Fine root c m { cl.signal k with dispatcher := .calling callbacks curs } ((cl.signal k).threads i) := by
  refine fine.move (rest_signal ..) (fun _ _ _ covers => ⟨covers.watched, covers.within⟩)
    fun w rest here covers told => ?_
  rw [Client.Late, Client.Pending, signaling] at told
  rcases told with late | pending
  · refine .inl ⟨late.1, fun sleeps => ?_⟩
    obtain ⟨asleep, other⟩ := sleeps_signal sleeps here
    exact absurd (late.2 asleep).symm other
  · exact .inr pending

theorem Fine.dispatch (fine : Fine root c m cl (cl.threads i)) (ok : cl.Ok)
    (done : cl.dispatch = some cl') : Fine root c m cl' (cl'.threads i) := by
  rw [Client.dispatch] at done
  split at done
  · cases done
  · rename_i invoking
    cases done
    refine fine.dispatcher (by rw [invoking]; exact fun _ => id) fun w covers pending => ?_
    rw [Client.Pending, invoking] at pending
    exact pending.imp_right List.not_mem_nil.elim
  · rename_i cur curs invoking
    cases done
    refine fine.dispatcher (by rw [invoking]; exact fun _ => id) fun w covers pending => ?_
    rw [Client.Pending, invoking] at pending
    rcases pending with queued | now
    · exact .inl queued
    · rcases List.mem_cons.1 now with same | later
      · exact .inr (.inl (List.mem_map_of_mem (same ▸ covers.watched)))
      · exact .inr (.inr later)
  · rename_i curs calling
    cases done
    refine fine.dispatcher (by rw [calling]; exact fun _ => id) fun w covers pending => ?_
    rw [Client.Pending, calling] at pending
    exact pending.imp_right fun will => will.resolve_left List.not_mem_nil
  · rename_i callbacks curs calling
    cases done
    refine fine.dispatcher (by rw [calling]; exact fun _ => id) fun w covers pending => ?_
    rw [Client.Pending, calling] at pending
    rcases pending with queued | called | later
    · exact .inl queued
    · rcases List.mem_cons.1 called with this | called
      · cases this
      · exact .inr (.inl called)
    · exact .inr (.inr later)
  · rename_i calling
    cases done
    exact fine.notify ok calling
  · rename_i signaling
    cases done
    exact fine.signal signaling

theorem Client.Ok.dispatch (ok : cl.Ok) (done : cl.dispatch = some cl') : cl'.Ok := by
  rw [Client.dispatch] at done
  split at done
  · cases done
  iterate 4
    · cases done
      exact ⟨ok.entries, ok.waits⟩
  · cases done
    exact ⟨ok.entries, (ok.bump _).waits⟩
  · cases done
    refine ⟨ok.entries, fun i w rest here => ?_⟩
    rw [show _ = _ from rest_signal ..] at here
    exact ok.waits i w rest here

structure Client.Sound (root : RootPath) (c : ClientId) (m : State) (cl : Client) : Prop where
  ok : cl.Ok
  fine : ∀ i, Fine root c m cl (cl.threads i)

theorem Client.Sound.act {a : LocalAction} (sound : cl.Sound root c m) (done : cl.act root a = some cl') :
    cl'.Sound root c m := by
  obtain ⟨ok, fine⟩ := sound
  have thread {i : Nat} (spec : ∃ t, cl' = cl.setThread i t ∧ cl.Waits t ∧ Fine root c m cl t) :
      cl'.Sound root c m := by
    obtain ⟨t, rfl, waits, next⟩ := spec
    exact ⟨ok.setThread waits, fine_setThread fine next⟩
  cases a with
  | insert path callback => exact ⟨ok.insert done, fun i => (fine i).insert ok done⟩
  | erase key handle => exact ⟨ok.erase done, fun i => (fine i).erase done⟩
  | wait i k handle key pred => exact thread (wait_spec ok done)
  | finish i => exact thread (finish_spec ok (fine i) done)
  | check i => exact thread (check_spec ok (fine i) done)
  | wake i => exact thread (wake_spec ok (fine i) done)
  | bump k =>
    cases done
    exact ⟨ok.bump k, fun i => (fine i).bump k⟩
  | receive => exact ⟨ok.receive done, fun i => (fine i).receive done⟩
  | dispatch => exact ⟨ok.dispatch done, fun i => (fine i).dispatch ok done⟩

theorem Client.fresh_sound (version : Nat → Nat) : (Client.fresh version).Sound root c m :=
  ⟨⟨nofun, nofun⟩, fun _ => fine_idle⟩

theorem Client.Sound.same (sound : cl.Sound root c m) (same : ∀ base, base ≠ [] → SameNodes base m m') :
    cl.Sound root c m' :=
  ⟨sound.ok, fun i => (sound.fine i).same sound.ok same⟩

theorem Client.Sound.read {rest next : Pred} (sound : cl.Sound root c m)
    (here : cl.threads i = .evaluating w rest) (done : rest.read root c m = (m', some next)) :
    (cl.setThread i (.evaluating w next)).Sound root c m' := by
  obtain ⟨-, rfl, -⟩ := Pred.evaluate_read done
  have waits := sound.ok.waits i
  have fine := sound.fine i
  have after := sound.same fun base ne => sameNodes_touchRoot ne m
  rw [here] at fine waits
  refine ⟨after.ok.setThread fun w' rest' here' => ?_, fine_setThread after.fine fun w' rest' here' covers => ?_⟩
  · cases here'
    exact waits w rest rfl
  · cases here'
    obtain ⟨value, -, within⟩ := Pred.evaluate_read done
    obtain ⟨inside, told⟩ := fine w rest rfl covers
    refine ⟨within _ inside, told.imp_right (.imp_right fun agree => ?_)⟩
    rw [Pred.evaluate_congr covers.within (ne_nil_of_valid (covers.valid sound.ok))
      (sameNodes_touchRoot (ne_nil_of_valid (covers.valid sound.ok)) m), agree, value]

section
variable {root : ClientId → RootPath} {W W' : World}

structure World.Inv (root : ClientId → RootPath) (W : World) : Prop where
  tree : TreeInv W.master
  sound : ∀ c ∈ W.master.watchers, (W.clients c).Sound (root c) c W.master

theorem World.Inv.serve {notified : List (ClientId × Text)} (inv : W.Inv root) (tree : TreeInv m)
    (announced : Announces W.master m notified) (watchers : m.watchers ⊆ W.master.watchers) :
    (W.serve m notified).Inv root := by
  refine ⟨tree, fun c connected => ?_⟩
  have before := inv.sound c (watchers connected)
  refine ⟨⟨before.ok.entries, before.ok.waits⟩, fun i => (before.fine i).serve before.ok fun base ne => ?_⟩
  refine (announced c (watchers connected) base ne).imp_left fun ⟨q, mem, below⟩ => ⟨q, ?_, below⟩
  exact List.mem_map.2 ⟨(c, q), List.mem_filter.2 ⟨mem, decide_eq_true rfl⟩, rfl⟩

theorem World.Inv.put (inv : W.Inv root) (tree : TreeInv m) (same : ∀ base, base ≠ [] → SameNodes base W.master m)
    (watchers : ∀ x ∈ m.watchers, x ≠ c → x ∈ W.master.watchers)
    (sound : c ∈ m.watchers → cl.Sound (root c) c m) : ({ W with master := m }.put c cl).Inv root := by
  refine ⟨tree, fun x connected => ?_⟩
  rcases eq_or_ne x c with rfl | other
  · simp only [World.put, update_self]
    exact sound connected
  · simp only [World.put, update_of_ne other]
    exact (inv.sound x (watchers x connected other)).same same

theorem Step.inv (inv : W.Inv root) (step : Step root W W') : W'.Inv root := by
  obtain ⟨a, done⟩ := step
  cases a with
  | connect c version =>
    rw [Watch.act] at done
    split at done
    · cases done
    · cases done
      refine inv.put (inv.tree.watchers _) (fun base ne p below => rfl) (fun x mem other => ?_)
        fun _ => Client.fresh_sound version
      exact (Finset.mem_insert.1 mem).resolve_left other
  | request c req temp =>
    rw [Watch.act] at done
    split at done
    · rename_i collects
      obtain ⟨out, handled, rfl⟩ := Option.map_eq_some_iff.1 done
      obtain ⟨out', handled', tree, -, -⟩ := handleOp_ok inv.tree temp req collects
      obtain rfl := Option.some.inj (handled.symm.trans handled')
      obtain ⟨announced, watchers⟩ := handleOp_announces inv.tree collects handled
      exact inv.serve tree announced watchers
    · cases done
  | disconnect c temp =>
    rw [Watch.act] at done
    split at done
    · rename_i collects
      obtain ⟨⟨t, notified⟩, cleared, rfl⟩ := Option.map_eq_some_iff.1 done
      obtain ⟨t', notified', cleared', tree, -, -⟩ := disconnectClearData_ok inv.tree collects
      cases cleared.symm.trans cleared'
      obtain ⟨announced, watchers⟩ := disconnectClearData_announces inv.tree collects cleared
      exact inv.serve (tree.watchers _) announced ((Finset.erase_subset ..).trans watchers.subset)
    · cases done
  | read c i =>
    rw [Watch.act, World.read] at done
    split at done
    · rename_i w rest here
      split at done
      · rename_i m next read
        cases done
        obtain ⟨-, rfl, -⟩ := Pred.evaluate_read read
        refine inv.put inv.tree.touched (fun base ne => sameNodes_touchRoot ne _) (fun x mem _ => ?_)
          fun connected => ?_
        · rwa [watchers_touchRoot] at mem
        · rw [watchers_touchRoot] at connected
          exact (inv.sound c connected).read here read
      · cases done
    · cases done
  | client c a =>
    obtain ⟨cl, acted, rfl⟩ := Option.map_eq_some_iff.1 done
    exact inv.put inv.tree (fun base ne p below => rfl) (fun x mem _ => mem) fun connected =>
      (inv.sound c connected).act acted

theorem WatchReachable.inv (reachable : WatchReachable root W) : W.Inv root := by
  refine Reachable.invariant (World.Inv root) ?_ (fun W W' inv step => step.inv inv) reachable
  rintro W rfl
  exact ⟨TreeInv.empty, nofun⟩

/-- A thread that sleeps while no notification is on its way waits for something that is not so. -/
theorem no_lost_wakeup {c : ClientId} {i : Nat} {w : Wait} (reachable : WatchReachable root W)
    (connected : c ∈ W.master.watchers) (asleep : (W.clients c).threads i = .sleeping w)
    (watched : (w.handle, some w.watcher) ∈ (W.clients c).table w.path) (within : w.pred.Within (root c) w.path)
    (delivered : (W.clients c).inbox = []) (dispatched : (W.clients c).dispatcher = .idle) :
    w.pred.evaluate (root c) c W.master = some false := by
  have fine := (reachable.inv.sound c connected).fine i
  rw [asleep] at fine
  obtain ⟨-, late | pending | agree⟩ := fine w _ rfl ⟨watched, within⟩
  · have signals := late.2 rfl
    rw [dispatched] at signals
    exact signals.elim
  · rw [Client.Pending, delivered, dispatched] at pending
    rcases pending with ⟨q, mem, -⟩ | never
    · cases mem
    · exact never.elim
  · exact agree

def existsA : Pred := .get ['a'] fun value => .done value.isSome

def waitA : Wait := ⟨0, 0, RootPath.default.join ['a'], existsA, 0⟩

def sleepRun : List Action :=
  [.connect 0 fun _ => 0, .client 0 (.insert ['a'] (some 0)), .client 0 (.wait 0 0 0 waitA.path existsA), .read 0 0,
    .client 0 (.finish 0), .client 0 (.check 0)]

theorem sleepRun_runs : (sleepRun.foldlM (act fun _ => .default) .initial).isSome := by decide +kernel

theorem no_lost_wakeup_missing :
    existsA.evaluate .default 0 ((sleepRun.foldlM (act fun _ => .default) .initial).get sleepRun_runs).master =
      some false := by
  refine @no_lost_wakeup (fun _ => .default) _ 0 0 waitA ?_ (by decide +kernel) rfl
    (by decide +kernel) ⟨.inl rfl, fun _ => trivial⟩ (by decide +kernel) rfl
  exact .foldlM (fun a _ _ _ done => .act a done) (.initial rfl) (Option.some_get _).symm

end

end Prpc.MasterClient.Watch
