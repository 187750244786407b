import Prpc.Rpc.FrontEnd.Account

namespace Prpc.FrontEnd
open Lib

variable {T : Type} {s s' : State T} {o : Option (Nat × Pc T)} {pc : Pc T} {k : Nat} {outcome : Outcome}

def State.Connectable (s : State T) : Prop := s.has FRONTEND_DISCONNECT = true ∨ 0 < s.sockets

theorem disconnect_flags : (FRONTEND_CONNECT &&& FRONTEND_DISCONNECT != 0) = false ∧
    (FRONTEND_EPIPE &&& FRONTEND_DISCONNECT != 0) = false ∧
    ((FRONTEND_DISCONNECT ||| FRONTEND_EPIPE) &&& FRONTEND_DISCONNECT != 0) = true ∧
    (FRONTEND_DISCONNECT &&& FRONTEND_DISCONNECT != 0) = true := by decide

def State.Connected (s : State T) : Prop := s.has FRONTEND_DISCONNECT = false ∧ 0 < s.sockets

theorem State.Connectable.connected (connectable : s.Connectable)
    (connected : ¬ s.has FRONTEND_DISCONNECT = true) : s.Connected :=
  ⟨Bool.not_eq_true _ ▸ connected, connectable.resolve_left connected⟩

def State.Fits (s : State T) : Pc T → Prop
  | .checking => s.Connectable ∧ s.more = s.msg.isSome ∧ s.more = true ∧ s.pending = false
  | .looping .. | .sending .. => s.Connected ∧ s.more = s.msg.isSome
  | .refilling _ => s.Connected
  | .keeping _ =>
    s.more = s.msg.isSome ∧ (s.Connected ∧ s.begunOn = s.sockets ∧ s.pending = true ∨
        s.Connectable ∧ s.more = true ∧ s.pending = false)
  | .connecting _ => s.more = s.msg.isSome ∧ s.Connectable ∧ s.more = true ∧ s.pending = false
  | .resuming _ => s.Connected ∧ s.more = s.msg.isSome ∧ (s.pending = true → s.begunOn = s.sockets)
  | .failing _ | .handing _ => s.more = s.msg.isSome
  | _ => True

def Pc.released : Pc T → Bool
  | restoring => true
  | _ => false

structure Inv (s : State T) (o : Option (Nat × Pc T)) : Prop where
  sole : Sole Pc.writer s.threads o
  account : Account s.threads s.queue s.size s.passed (s.written + s.handed + s.refused)
    (o.elim 0 fun w => s.owed w.2) (o.elim 0 fun w => s.live w.2)
  torn : s.torn = 0
  fits : o.elim s.Connectable fun w => s.Fits w.2
  free : s.size = 0 ↔ (o.all fun w => w.2.released) = true

theorem writer_carries_nothing (writes : pc.writer = true) :
    pc.carried = 0 ∧ pc.counted = 0 ∧ ∀ prev n, pc ≠ .linking prev n := by
  cases pc <;> first | cases writes; done | exact ⟨rfl, rfl, fun _ _ => nofun⟩

namespace Inv

theorem initial : Inv (initial : State T) none where
  sole := .nil _
  account := ⟨rfl, rfl, .empty, nofun⟩
  torn := rfl
  fits := .inl disconnect_flags.2.2.2
  free := ⟨fun _ => rfl, fun _ => rfl⟩

theorem size_nonneg (inv : Inv s o) : 0 ≤ s.size := by
  rw [inv.account.size]
  omega

section
variable (inv : Inv s (some (k, pc)))
include inv

theorem move {pc' : Pc T} {owed : Nat} {live : Multiset T}
    (account : Account s.threads s'.queue s.size s.passed (s.written + s.handed + s.refused) owed live)
    (threads : s'.threads = s.threads.set k pc')
    (same : s'.passed = s.passed ∧ s'.refused = s.refused ∧ s'.torn = s.torn)
    (sized : s'.size + owed = s.size + s'.owed pc')
    (moved : s'.live pc' + s'.written + s'.handed = live + s.written + s.handed)
    (writes : pc'.writer = true) (fits : s'.Fits pc') (free : s'.size = 0 ↔ pc'.released = true) :
    Inv s' (some (k, pc')) := by
  obtain ⟨at_, wrote⟩ := inv.sole.here k pc rfl
  obtain ⟨carried, counted, _⟩ := writer_carries_nothing wrote
  obtain ⟨carried', counted', fresh⟩ := writer_carries_nothing writes
  have sole := inv.sole.set at_ (fun j z eq => by cases eq; rfl) pc'
  rw [if_pos writes, ← threads] at sole
  refine ⟨sole, ?_, same.2.2.trans inv.torn, fits, free⟩
  rw [threads, same.1, same.2.1]
  refine account.set at_ ?_ ?_ fresh
  · rw [counted, counted']
    simp only [Option.elim_some]
    omega
  · rw [carried, carried', Option.elim_some, add_zero, add_zero, ← add_assoc, ← add_assoc, moved]
    abel

theorem leave (threads : s'.threads = s.threads.set k .done)
    (queue : s'.queue = s.queue)
    (same : s'.passed = s.passed ∧ s'.refused = s.refused ∧ s'.torn = s.torn)
    (sized : s'.size + s.owed pc = s.size) (nothing : s.live pc = 0)
    (gone : s'.written = s.written ∧ s'.handed = s.handed)
    (connectable : s'.Connectable) (empty : s'.size = 0) : Inv s' none := by
  obtain ⟨at_, wrote⟩ := inv.sole.here k pc rfl
  obtain ⟨carried, counted, _⟩ := writer_carries_nothing wrote
  have sole := inv.sole.set at_ (fun j z eq => by cases eq; rfl) .done
  rw [← threads] at sole
  refine ⟨sole, ?_, same.2.2.trans inv.torn, connectable, fun _ => rfl, fun _ => empty⟩
  rw [threads, queue, same.1, same.2.1, gone.1, gone.2]
  refine inv.account.set at_ ?_ ?_ nofun
  · rw [counted]
    simp only [Pc.counted, Option.elim_some, Option.elim_none]
    omega
  · rw [carried]
    simp [Pc.carried, nothing]

theorem delegate {pc' : Pc T}
    (threads : s'.threads = s.threads.set k .done ++ [pc'])
    (same : s'.queue = s.queue ∧ s'.size = s.size ∧ s'.passed = s.passed ∧ s'.written = s.written ∧
      s'.handed = s.handed ∧ s'.refused = s.refused ∧ s'.torn = s.torn)
    (owed : s'.owed pc' = s.owed pc) (live : s'.live pc' = s.live pc)
    (writes : pc'.writer = true) (fits : s'.Fits pc')
    (held : pc.released = false ∧ pc'.released = false) :
    Inv s' (some (s.threads.length, pc')) := by
  obtain ⟨at_, wrote⟩ := inv.sole.here k pc rfl
  obtain ⟨carried, counted, _⟩ := writer_carries_nothing wrote
  obtain ⟨carried', counted', fresh⟩ := writer_carries_nothing writes
  obtain ⟨queue, size, passed, written, handed, refused, torn⟩ := same
  have sole := (inv.sole.set at_ (fun j z eq => by cases eq; rfl) .done).spawn writes
  rw [List.length_set, ← threads] at sole
  refine ⟨sole, ?_, torn.trans inv.torn, fits, ?_⟩
  · rw [threads, queue, size, passed, written, handed, refused, Option.elim_some, Option.elim_some,
      owed, live]
    have stopped : Account (s.threads.set k .done) s.queue s.size s.passed
        (s.written + s.handed + s.refused) (s.owed pc) (s.live pc) := by
      refine inv.account.set at_ ?_ ?_ nofun
      · rw [counted]
        rfl
      · rw [carried]
        rfl
    refine stopped.append pc' counted' ?_ fresh
    rw [carried', zero_add]
  · have busy := inv.free
    simp only [Option.all_some, held.1, held.2, size] at busy ⊢
    exact busy

end

end Inv

namespace Inv

section
variable (inv : Inv s o)
include inv

variable {msg : T}

theorem asking (at_ : s.threads[k]? = some (.asking msg))
    (stepped : s.step k outcome (.asking msg) = some s') : Inv s' o := by
  simp only [State.step, Option.some.injEq] at stepped
  split at stepped <;> subst stepped
  · exact ⟨inv.sole.other at_ rfl rfl, inv.account.set at_ rfl rfl nofun, inv.torn, inv.fits, inv.free⟩
  · have account : Account (s.threads.set k .done) s.queue s.size s.passed
        (s.written + s.handed + (msg ::ₘ s.refused)) (o.elim 0 fun w => s.owed w.2)
        (o.elim 0 fun w => s.live w.2) := by
      refine inv.account.set at_ rfl ?_ nofun
      simp only [Pc.carried, ← Multiset.singleton_add]
      abel
    exact ⟨inv.sole.other at_ rfl rfl, account, inv.torn, inv.fits, inv.free⟩

theorem pushing (at_ : s.threads[k]? = some (.pushing msg))
    (stepped : s.step k outcome (.pushing msg) = some s') : Inv s' o := by
  cases stepped
  exact ⟨inv.sole.other at_ rfl rfl, inv.account.exchange at_, inv.torn, inv.fits, inv.free⟩

theorem linking {prev n : Nat} (at_ : s.threads[k]? = some (.linking prev n))
    (stepped : s.step k outcome (.linking prev n) = some s') : Inv s' o := by
  cases stepped
  exact ⟨inv.sole.other at_ rfl rfl, inv.account.link at_, inv.torn, inv.fits, inv.free⟩

theorem no_writer (empty : s.size = 0) (apart : .restoring ∉ s.threads) : o = none := by
  have released := inv.free.1 empty
  cases o with
  | none => rfl
  | some w =>
    obtain ⟨j, pc⟩ := w
    have at_j := (inv.sole.here j pc rfl).1
    cases pc with
    | restoring => exact absurd (List.mem_of_getElem? at_j) apart
    | _ => cases released

theorem calling {blocking : Bool}
    (at_ : s.threads[k]? = some (.calling blocking msg))
    (apart : s.size = 0 → .restoring ∉ s.threads)
    (stepped : s.step k outcome (.calling blocking msg) = some s') : ∃ o, Inv s' o := by
  simp only [State.step, Option.some.injEq] at stepped
  split at stepped <;> subst stepped
  · next empty =>
    obtain rfl := inv.no_writer empty (apart empty)
    have account : ∀ pc : Pc T, pc.writer = true → Account (s.threads.set k pc) s.queue (s.size + 1) s.passed
        (s.written + s.handed + s.refused) 1 {msg} := by
      intro pc writes
      obtain ⟨carried, counted, fresh⟩ := writer_carries_nothing writes
      refine inv.account.set at_ ?_ ?_ fresh
      · rw [counted]
        simp only [Pc.counted, Option.elim_none]
        omega
      · rw [carried]
        simp [Pc.carried]
    have busy : ¬ s.size + 1 = 0 := by omega
    cases blocking with
    | false =>
      exact ⟨_, inv.sole.set at_ (by simp) .checking, account _ rfl, inv.torn,
        ⟨inv.fits, rfl, rfl, rfl⟩, fun zero => absurd zero busy, by simp [Pc.writer, Pc.released]⟩
    | true =>
      exact ⟨_, inv.sole.set at_ (by simp) (.keeping 0), account _ rfl, inv.torn,
        ⟨rfl, .inr ⟨inv.fits, rfl, rfl⟩⟩, fun zero => absurd zero busy, by simp [Pc.writer, Pc.released]⟩
  · next busy =>
    have account : Account (s.threads.set k (.pushing msg)) s.queue (s.size + 1) s.passed
        (s.written + s.handed + s.refused) (o.elim 0 fun w => s.owed w.2)
        (o.elim 0 fun w => s.live w.2) := by
      refine inv.account.set at_ ?_ rfl (by simp)
      simp only [Pc.counted]
      omega
    refine ⟨o, inv.sole.other at_ rfl rfl, account, inv.torn, inv.fits, fun zero => ?_, fun released => ?_⟩
    · have nonneg := inv.size_nonneg
      exact absurd zero (by change ¬ s.size + 1 = 0; omega)
    · exact absurd (inv.free.2 released) busy

end

end Inv

namespace Inv

theorem checking (inv : Inv s (some (k, .checking)))
    (stepped : s.step k outcome .checking = some s') : ∃ o, Inv s' o := by
  obtain ⟨connectable, more, hasMore, pending⟩ := inv.fits
  simp only [State.step, Option.some.injEq] at stepped
  split at stepped <;> subst stepped
  · refine ⟨_, inv.delegate rfl ⟨rfl, rfl, rfl, rfl, rfl, rfl, rfl⟩ rfl ?_ rfl
      ⟨more, .inr ⟨connectable, hasMore, pending⟩⟩ ⟨rfl, rfl⟩⟩
    simp [State.live, State.async, pending]
  · next connected =>
    exact ⟨_, inv.move inv.account rfl ⟨rfl, rfl, rfl⟩ rfl rfl rfl
      ⟨connectable.connected connected, more⟩ inv.free⟩

variable {nonblock : Bool} {cnt : Nat}

theorem looping (inv : Inv s (some (k, .looping nonblock cnt)))
    (stepped : s.step k outcome (.looping nonblock cnt) = some s') : ∃ o, Inv s' o := by
  obtain ⟨socket, more⟩ := inv.fits
  simp only [State.step] at stepped
  split at stepped
  · next hasMore =>
    obtain ⟨msg, queue, shifted, shift⟩ := shift_eq s
    rw [shifted] at stepped
    cases stepped
    refine ⟨_, inv.move (shift inv.account) rfl ⟨rfl, rfl, rfl⟩ ?_ rfl rfl ⟨socket, rfl⟩ inv.free⟩
    simp only [State.owed, State.goto, Option.elim_some, hasMore, Bool.toNat_true]
    omega
  · next last =>
    rw [Bool.not_eq_true] at last
    have nothing : s.msg = none := by
      rw [last, eq_comm, Option.isSome_eq_false_iff, Option.isNone_iff_eq_none] at more
      exact more
    have owed : s.owed (.looping nonblock cnt) = cnt := by simp [State.owed, last]
    have live : s.live (.looping nonblock cnt) = 0 := by simp [State.live, nothing]
    cases stepped
    split
    · next all =>
      refine ⟨_, inv.leave rfl rfl ⟨rfl, rfl, rfl⟩ ?_ live ⟨rfl, rfl⟩ (.inr socket.2) ?_⟩
      · rw [owed]
        simp
      · simp [all]
    · next others =>
      refine ⟨_, inv.move inv.account rfl ⟨rfl, rfl, rfl⟩ ?_ ?_ rfl socket ?_⟩
      · rw [Option.elim_some, owed]
        simp [State.owed]
      · rw [Option.elim_some, live]
        rfl
      · simp only [Pc.released, Bool.false_eq_true, iff_false]
        omega

theorem sending (inv : Inv s (some (k, .sending nonblock cnt)))
    (stepped : s.step k outcome (.sending nonblock cnt) = some s') : ∃ o, Inv s' o := by
  obtain ⟨socket, more⟩ := inv.fits
  simp only [State.step, if_neg socket.2.ne'] at stepped
  cases outcome with
  | ok =>
    cases stepped
    refine ⟨_, inv.move inv.account rfl ⟨rfl, rfl, rfl⟩ rfl ?_ rfl ⟨socket, more⟩ inv.free⟩
    simp only [State.live, State.goto, Option.elim_some]
    abel
  | fail =>
    cases stepped
    exact ⟨_, inv.move inv.account rfl ⟨rfl, rfl, rfl⟩ rfl rfl rfl more inv.free⟩
  | partway =>
    dsimp only at stepped
    split at stepped <;> cases stepped
    exact ⟨_, inv.delegate rfl ⟨rfl, rfl, rfl, rfl, rfl, rfl, rfl⟩ rfl rfl rfl
      ⟨more, .inl ⟨socket, rfl, rfl⟩⟩ ⟨rfl, rfl⟩⟩

theorem refilling (inv : Inv s (some (k, .refilling nonblock)))
    (stepped : s.step k outcome (.refilling nonblock) = some s') : ∃ o, Inv s' o := by
  have socket : s.Connected := inv.fits
  simp only [State.step] at stepped
  split at stepped <;> cases stepped
  · next popped =>
    exact ⟨_, inv.move (inv.account.pop popped) rfl ⟨rfl, rfl, rfl⟩ rfl rfl rfl ⟨socket, rfl⟩ inv.free⟩
  · exact ⟨_, inv⟩

theorem keeping (inv : Inv s (some (k, .keeping cnt)))
    (stepped : s.step k outcome (.keeping cnt) = some s') : ∃ o, Inv s' o := by
  obtain ⟨more, place⟩ := inv.fits
  cases stepped
  split
  · next disconnected =>
    rcases place with ⟨socket, _⟩ | ⟨connectable, hasMore, pending⟩
    · rw [socket.1] at disconnected
      cases disconnected
    · exact ⟨_, inv.move inv.account rfl ⟨rfl, rfl, rfl⟩ rfl rfl rfl
        ⟨more, connectable, hasMore, pending⟩ inv.free⟩
  · next connected =>
    refine ⟨_, inv.move inv.account rfl ⟨rfl, rfl, rfl⟩ rfl rfl rfl ?_ inv.free⟩
    rcases place with ⟨socket, begunOn, _⟩ | ⟨connectable, _, pending⟩
    · exact ⟨socket, more, fun _ => begunOn⟩
    · exact ⟨connectable.connected connected, more, fun started => nomatch pending.symm.trans started⟩

theorem connecting (inv : Inv s (some (k, .connecting cnt)))
    (stepped : s.step k outcome (.connecting cnt) = some s') : ∃ o, Inv s' o := by
  obtain ⟨more, connectable, hasMore, pending⟩ := inv.fits
  simp only [State.step] at stepped
  split at stepped
  · split at stepped <;> cases stepped
    · exact ⟨_, inv.move inv.account rfl ⟨rfl, rfl, rfl⟩ rfl rfl rfl
        ⟨⟨disconnect_flags.1, Nat.succ_pos _⟩, more, fun started => nomatch pending.symm.trans started⟩ inv.free⟩
    · obtain ⟨msg, queue, shifted, shift⟩ := shift_eq s
      rw [shifted]
      refine ⟨_, inv.move (shift inv.account) rfl ⟨rfl, rfl, rfl⟩ ?_ ?_ rfl rfl inv.free⟩
      · simp only [State.owed, State.goto, Option.elim_some, hasMore, Bool.toNat_true]
        omega
      · simp [State.live, State.goto, pending]
  · next connected =>
    cases stepped
    exact ⟨_, inv.move inv.account rfl ⟨rfl, rfl, rfl⟩ rfl rfl rfl
      ⟨connectable.connected connected, more, fun started => nomatch pending.symm.trans started⟩ inv.free⟩

theorem resuming (inv : Inv s (some (k, .resuming cnt)))
    (stepped : s.step k outcome (.resuming cnt) = some s') : ∃ o, Inv s' o := by
  obtain ⟨socket, more, begunOn⟩ := inv.fits
  simp only [State.step, if_neg socket.2.ne'] at stepped
  split at stepped
  · next pending =>
    cases outcome with
    | ok =>
      cases stepped
      rw [if_pos (begunOn pending)]
      refine ⟨_, inv.move inv.account rfl ⟨rfl, rfl, rfl⟩ rfl ?_ rfl ⟨socket, more⟩ inv.free⟩
      simp only [State.live, State.goto, Option.elim_some, if_pos pending]
      abel
    | fail =>
      cases stepped
      refine ⟨_, inv.move inv.account rfl ⟨rfl, rfl, rfl⟩ rfl ?_ rfl more inv.free⟩
      simp [State.live, State.goto, if_pos pending]
    | partway => cases stepped
  · next whole =>
    cases stepped
    refine ⟨_, inv.move inv.account rfl ⟨rfl, rfl, rfl⟩ rfl ?_ rfl ⟨socket, more⟩ inv.free⟩
    simp [State.live, State.goto, if_neg whole]

theorem failing (inv : Inv s (some (k, .failing cnt)))
    (stepped : s.step k outcome (.failing cnt) = some s') : ∃ o, Inv s' o := by
  cases stepped
  exact ⟨_, inv.move inv.account rfl ⟨rfl, rfl, rfl⟩ rfl rfl rfl inv.fits inv.free⟩

theorem handing (inv : Inv s (some (k, .handing cnt)))
    (stepped : s.step k outcome (.handing cnt) = some s') : ∃ o, Inv s' o := by
  have more : s.more = s.msg.isSome := inv.fits
  simp only [State.step, Option.some.injEq] at stepped
  split at stepped <;> subst stepped
  · next hasMore =>
    refine ⟨_, inv.move inv.account rfl ⟨rfl, rfl, rfl⟩ ?_ ?_ rfl trivial inv.free⟩
    · simp only [State.owed, State.goto, Option.elim_some, hasMore, Bool.toNat_true]
      omega
    · simp only [State.live, State.goto, Option.elim_some]
      abel
  · next last =>
    rw [Bool.not_eq_true] at last
    have nothing : s.msg = none := by
      rw [last, eq_comm, Option.isSome_eq_false_iff, Option.isNone_iff_eq_none] at more
      exact more
    refine ⟨_, inv.move inv.account rfl ⟨rfl, rfl, rfl⟩ ?_ ?_ rfl trivial inv.free⟩
    · simp [State.owed, State.goto, last]
    · simp only [State.live, State.goto, Option.elim_some, nothing, mail_none]
      abel

theorem draining (inv : Inv s (some (k, .draining cnt)))
    (stepped : s.step k outcome (.draining cnt) = some s') : ∃ o, Inv s' o := by
  cases stepped
  split
  · next all =>
    refine ⟨_, inv.move inv.account rfl ⟨rfl, rfl, rfl⟩ ?_ rfl rfl trivial ?_⟩
    · simp [State.owed]
    · simp [Pc.released, all]
  · next others =>
    refine ⟨_, inv.move inv.account rfl ⟨rfl, rfl, rfl⟩ ?_ rfl rfl trivial ?_⟩
    · simp [State.owed]
    · simp only [Pc.released, Bool.false_eq_true, iff_false]
      omega

theorem drainPopping (inv : Inv s (some (k, .drainPopping)))
    (stepped : s.step k outcome .drainPopping = some s') : ∃ o, Inv s' o := by
  simp only [State.step] at stepped
  split at stepped <;> cases stepped
  · next popped =>
    refine ⟨_, inv.move (inv.account.pop popped) rfl ⟨rfl, rfl, rfl⟩ rfl ?_ rfl trivial inv.free⟩
    simp only [State.live, State.goto, Option.elim_some, mail_some]
    abel
  · exact ⟨_, inv⟩

theorem restoring (inv : Inv s (some (k, .restoring)))
    (stepped : s.step k outcome .restoring = some s') : ∃ o, Inv s' o := by
  cases stepped
  refine ⟨_, inv.leave rfl rfl ⟨rfl, rfl, rfl⟩ ?_ rfl ⟨rfl, rfl⟩ (.inl disconnect_flags.2.2.1)
    (inv.free.2 rfl)⟩
  simp [State.owed, State.goto]

theorem go (inv : Inv s o) (at_ : s.threads[k]? = some pc)
    (apart : ∀ blocking msg, pc = .calling blocking msg → s.size = 0 → .restoring ∉ s.threads)
    (stepped : s.step k outcome pc = some s') : ∃ o, Inv s' o := by
  have writing : pc.writer = true → Inv s (some (k, pc)) := fun writes =>
    inv.sole.only k pc at_ writes ▸ inv
  cases pc with
  | asking msg => exact ⟨o, inv.asking at_ stepped⟩
  | calling blocking msg => exact inv.calling at_ (apart blocking msg rfl) stepped
  | pushing msg => exact ⟨o, inv.pushing at_ stepped⟩
  | linking prev n => exact ⟨o, inv.linking at_ stepped⟩
  | checking => exact (writing rfl).checking stepped
  | looping nonblock cnt => exact (writing rfl).looping stepped
  | sending nonblock cnt => exact (writing rfl).sending stepped
  | refilling nonblock => exact (writing rfl).refilling stepped
  | keeping cnt => exact (writing rfl).keeping stepped
  | connecting cnt => exact (writing rfl).connecting stepped
  | resuming cnt => exact (writing rfl).resuming stepped
  | failing cnt => exact (writing rfl).failing stepped
  | handing cnt => exact (writing rfl).handing stepped
  | draining cnt => exact (writing rfl).draining stepped
  | drainPopping => exact (writing rfl).drainPopping stepped
  | restoring => exact (writing rfl).restoring stepped
  | done => cases stepped
  | crashed => cases stepped

theorem eventFails (inv : Inv s o) (socket : 0 < s.sockets) : Inv { s with state := FRONTEND_EPIPE } o := by
  have connectable : { s with state := FRONTEND_EPIPE }.Connectable := .inr socket
  have connected : { s with state := FRONTEND_EPIPE }.Connected := ⟨disconnect_flags.2.1, socket⟩
  refine ⟨inv.sole, inv.account, inv.torn, ?_, inv.free⟩
  have fits := inv.fits
  cases o with
  | none => exact connectable
  | some w =>
    obtain ⟨j, pc⟩ := w
    cases pc with
    | checking => exact ⟨connectable, fits.2⟩
    | looping nonblock cnt => exact ⟨connected, fits.2⟩
    | sending nonblock cnt => exact ⟨connected, fits.2⟩
    | refilling nonblock => exact connected
    | keeping cnt =>
      refine ⟨fits.1, ?_⟩
      rcases fits.2 with ⟨_, rest⟩ | ⟨_, rest⟩
      · exact .inl ⟨connected, rest⟩
      · exact .inr ⟨connectable, rest⟩
    | connecting cnt => exact ⟨fits.1, connectable, fits.2.2⟩
    | resuming cnt => exact ⟨connected, fits.2⟩
    | _ => exact fits

end Inv

/-- A call that finds the counter at 0 raises it only when no thread is before the last operation of
`epipe`. -/
def apart (s : State T) : Action T → Prop
  | .go k _ => ∀ blocking msg, s.threads[k]? = some (.calling blocking msg) → s.size = 0 →
      .restoring ∉ s.threads
  | _ => True

theorem Inv.step (inv : Inv s o) (step : FrontEndStep apart s s') : ∃ o, Inv s' o := by
  obtain ⟨a, guarded, acted⟩ := step
  have call : ∀ (pc : Pc T) passed, pc.writer = false → pc.counted = 0 → passed = pc.carried + s.passed →
      (∀ prev n, pc ≠ .linking prev n) →
      Inv { s with threads := s.threads ++ [pc], passed := passed } o :=
    fun pc passed idle counted more fresh =>
      ⟨inv.sole.append idle, inv.account.append pc counted more fresh, inv.torn, inv.fits, inv.free⟩
  cases a with
  | request msg =>
    cases acted
    exact ⟨o, call _ _ rfl rfl rfl nofun⟩
  | send blocking msg =>
    cases acted
    exact ⟨o, call _ _ rfl rfl rfl nofun⟩
  | go k outcome =>
    simp only [act, Option.bind_eq_bind, Option.bind_eq_some_iff] at acted
    obtain ⟨pc, at_, stepped⟩ := acted
    refine inv.go at_ (fun blocking msg eq => guarded blocking msg ?_) stepped
    rw [at_, eq]
  | eventFails =>
    simp only [act] at acted
    split at acted <;> cases acted
    next socket => exact ⟨o, inv.eventFails (Nat.pos_of_ne_zero socket)⟩
  | tick =>
    cases acted
    exact ⟨o, inv.sole, inv.account, inv.torn, inv.fits, inv.free⟩

theorem inv_reachable (reachable : FrontEndReachable apart s) : ∃ o, Inv s o := by
  refine Reachable.invariant (fun s => ∃ o, Inv s o) ?_ ?_ reachable
  · rintro s rfl
    exact ⟨none, .initial⟩
  · rintro s t ⟨o, inv⟩ step
    exact inv.step step

/-- There is one writer at most, no message is lost or duplicated, and nothing is left when no thread is
inside. -/
theorem handed_off_once (reachable : FrontEndReachable apart s) :
    (∀ (j k : Nat) (pc pc' : Pc T), s.threads[j]? = some pc → s.threads[k]? = some pc' →
      pc.writer = true → pc'.writer = true → j = k) ∧
    s.passed = s.held + s.written + s.handed + s.refused ∧ s.torn = 0 ∧
    ((∀ pc ∈ s.threads, pc = .done) → s.size = 0 ∧ s.queue.nodes.drop s.queue.tail = [] ∧ s.held = 0) := by
  obtain ⟨o, inv⟩ := inv_reachable reachable
  have live : total s.live s.threads = o.elim 0 fun w => s.live w.2 :=
    inv.sole.total_eq fun pc idle => by cases pc <;> first | rfl | cases idle
  refine ⟨?_, ?_, inv.torn, fun quiet => ?_⟩
  · intro j k pc pc' at_j at_k writes writes'
    have same := (inv.sole.only j pc at_j writes).symm.trans (inv.sole.only k pc' at_k writes')
    cases same
    rfl
  · rw [inv.account.mail, State.held, live]
    abel
  · obtain rfl : o = none := by
      cases o with
      | none => rfl
      | some w =>
        obtain ⟨at_, writes⟩ := inv.sole.here w.1 w.2 rfl
        rw [quiet w.2 (List.mem_of_getElem? at_)] at writes
        cases writes
    have empty : s.size = 0 := inv.free.2 rfl
    have size := inv.account.size
    have counted : total Pc.counted s.threads = 0 := total_eq_zero fun pc mem => by rw [quiet pc mem]; rfl
    have carried : total Pc.carried s.threads = 0 := total_eq_zero fun pc mem => by rw [quiet pc mem]; rfl
    have queue : s.queue.nodes.drop s.queue.tail = [] := by
      rw [List.drop_eq_nil_iff]
      simp only [Option.elim_none] at size
      omega
    refine ⟨empty, queue, ?_⟩
    rw [State.held, carried, live, queue]
    rfl

theorem handed_off_once_failing : ∃ s : State Nat, FrontEndReachable apart s ∧
    s.written = {0} ∧ s.handed = {1} ∧ s.passed = s.held + {0} + {1} + s.refused ∧ s.torn = 0 := by
  obtain ⟨s, reachable, found⟩ := reachable_of_run apart
    (fun s _ => decide (.restoring ∉ s.threads))
    (fun s a checked => by
      cases a with
      | go k outcome => exact fun _ _ _ _ => of_decide_eq_true checked
      | _ => trivial)
    ([.send false 0, .go 0 .ok, .go 0 .ok, .go 1 .ok, .go 1 .ok, .go 1 .ok, .go 1 .ok, .go 1 .ok,
      .go 1 .ok, .send false 1, .go 2 .ok, .go 2 .ok, .go 2 .ok, .go 2 .fail, .go 2 .ok, .go 2 .ok,
      .go 2 .ok] : List (Action Nat))
    (fun s => decide (s.written = {0} ∧ s.handed = {1})) (by decide +kernel)
  obtain ⟨written, handed⟩ := of_decide_eq_true found
  obtain ⟨_, passed, torn, _⟩ := handed_off_once reachable
  rw [written, handed] at passed
  exact ⟨s, reachable, written, handed, passed, torn⟩

def sends (_ : State T) : Action T → Prop
  | .request _ | .eventFails => False
  | _ => True

/-- Message 1 is handed back, and its `epipe` is before the last operation when message 2 arrives. Its
writer finds the state `FRONTEND_EPIPE`, sends a part and leaves the rest to a task. Now `epipe` adds
`FRONTEND_DISCONNECT`. The task therefore connects anew, fails, and overwrites message 2. -/
theorem overtaken_message_lost : ∃ s : State Nat, FrontEndReachable sends s ∧
    s.passed = {0, 1, 2} ∧ s.written = {0} ∧ s.handed = {1} ∧ s.held = 0 ∧ s.torn = 0 ∧ s.refused = 0 := by
  obtain ⟨s, reachable, found⟩ := reachable_of_run sends
    (fun _ a => match a with
      | .request _ | .eventFails => false
      | _ => true)
    (fun _ a checked => by cases a <;> trivial)
    ([.send false 0, .go 0 .ok, .go 0 .ok, .go 1 .ok, .go 1 .ok, .go 1 .ok, .go 1 .ok, .go 1 .ok,
      .go 1 .ok, .send false 1, .go 2 .ok, .go 2 .ok, .go 2 .ok, .go 2 .fail, .go 2 .ok, .go 2 .ok,
      .go 2 .ok, .send false 2, .go 3 .ok, .go 3 .ok, .go 3 .ok, .go 3 .partway, .go 2 .ok, .go 4 .ok,
      .go 4 .fail, .go 4 .ok, .go 4 .ok, .go 4 .ok] : List (Action Nat))
    (fun s => decide (s.passed = {0, 1, 2} ∧ s.written = {0} ∧ s.handed = {1} ∧ s.held = 0 ∧
      s.torn = 0 ∧ s.refused = 0)) (by decide +kernel)
  exact ⟨s, reachable, of_decide_eq_true found⟩

end Prpc.FrontEnd
