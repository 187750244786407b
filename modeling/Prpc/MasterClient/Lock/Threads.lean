import Prpc.MasterClient.Lock.Queues

namespace Prpc.MasterClient
open Lib Master
open Function (update update_self update_apply update_of_ne)

variable {G : Text → Nat} {Q : Text → Nat → Option ClientId}

def LockPc.name : LockPc → Option Text
  | .addPath name | .genNode name | .watch name _ | .waiting name _ | .lockMutex name _
  | .emplace name _ | .holding name _ | .find name _ | .delNode name _ _ | .erase name _ => some name
  | _ => none

def LockPc.made : LockPc → Option Text
  | .addPath _ => none
  | pc => pc.name

def LockPc.ticket : LockPc → Option (Text × Text)
  | .watch name gen | .waiting name gen | .lockMutex name gen | .emplace name gen
  | .holding name gen | .find name gen | .delNode name gen _ => some (name, gen)
  | _ => none

def LockPc.won : LockPc → Option (Text × Text)
  | .lockMutex name gen | .emplace name gen | .holding name gen | .find name gen
  | .delNode name gen _ => some (name, gen)
  | _ => none

def LockPc.held : LockPc → Option (Text × Text)
  | .holding name gen | .find name gen | .delNode name gen _ | .erase name gen => some (name, gen)
  | _ => none

def LockPc.inMutex : LockPc → Bool
  | .emplace _ _ | .delNode _ _ _ | .erase _ _ => true
  | _ => false

def LockPc.deletes : LockPc → Option (Text × Text × Text)
  | .delNode name gen path => some (name, gen, path)
  | _ => none

def LockPc.deleted : LockPc → Option (Text × Text)
  | .erase name gen => some (name, gen)
  | _ => none

variable {pc : LockPc}

theorem LockPc.ticket_of_won {ticket : Text × Text} (won : pc.won = some ticket) :
    pc.ticket = some ticket := by
  cases pc <;> simp_all [LockPc.won, LockPc.ticket]

theorem LockPc.name_of_made {name : Text} (made : pc.made = some name) : pc.name = some name := by
  cases pc <;> simp_all [LockPc.made, LockPc.name]

theorem LockPc.made_of_ticket {name gen : Text}
    (ticket : pc.ticket = some (name, gen)) : pc.made = some name := by
  cases pc <;> simp_all [LockPc.ticket, LockPc.made, LockPc.name]

theorem LockPc.made_of_held {name gen : Text} (held : pc.held = some (name, gen)) : pc.made = some name := by
  cases pc <;> simp_all [LockPc.held, LockPc.made, LockPc.name]

structure Tickets (pc : ThreadId → LockPc) (offline : Finset ClientId) (made : Text → Prop)
    (G : Text → Nat) (Q : Text → Nat → Option ClientId) : Prop where
  name : ∀ t name, (pc t).name = some name → Segment name
  made : ∀ t name, (pc t).made = some name → made name
  ticket : ∀ t name gen, (pc t).ticket = some (name, gen) → ∃ i : Nat, i < G name ∧
    gen = genKey i ∧ Q name i = if t.client ∈ offline then none else some t.client
  distinct : ∀ t t' ticket, (pc t).ticket = some ticket → (pc t').ticket = some ticket → t = t'
  first : ∀ t name gen, (pc t).won = some (name, gen) → t.client ∉ offline →
    ∀ j : Nat, Q name j ≠ none → gen ≤ genKey j
  gone : ∀ t name gen, (pc t).deleted = some (name, gen) → ∃ i : Nat, i < G name ∧
    gen = genKey i ∧ Q name i = none

structure Table (pc : ThreadId → LockPc) (mutex : ClientId → Option ThreadId)
    (acquiredLock : ClientId → Text → Option Text) : Prop where
  inMutex : ∀ t, (pc t).inMutex = true → mutex t.client = some t
  held : ∀ t name gen, (pc t).held = some (name, gen) →
    acquiredLock t.client name = some (child (lockPath name) gen)
  acquired : ∀ c name path, acquiredLock c name = some path →
    ∃ t gen, t.client = c ∧ (pc t).held = some (name, gen)
  single : ∀ t t' name gen gen', (pc t).held = some (name, gen) →
    (pc t').held = some (name, gen') → t.client = t'.client → t = t'
  deletes : ∀ t name gen path, (pc t).deletes = some (name, gen, path) → path = child (lockPath name) gen

variable {pc : ThreadId → LockPc} {t : ThreadId} {next : LockPc} {offline : Finset ClientId}
  {made : Text → Prop} {mutex : ClientId → Option ThreadId}
  {acquiredLock : ClientId → Text → Option Text} {name gen : Text}

variable {β : Type}

theorem update_imp {f : LockPc → Option β}
    (shrinks : ∀ b, f next = some b → f (pc t) = some b) (t' : ThreadId) (b : β)
    (h : f (update pc t next t') = some b) : f (pc t') = some b := by
  by_cases eq : t' = t
  · subst eq
    rw [update_self] at h
    exact shrinks b h
  · rwa [update_of_ne eq] at h

theorem update_same {f : LockPc → β} (same : f next = f (pc t)) (t' : ThreadId) :
    f (update pc t next t') = f (pc t') := by
  by_cases eq : t' = t
  · subst eq
    rw [update_self, same]
  · rw [update_of_ne eq]

theorem update_cases (f : LockPc → Option β) {t' : ThreadId} {b : β}
    (h : f (update pc t next t') = some b) :
    t' = t ∧ f next = some b ∨ t' ≠ t ∧ f (pc t') = some b := by
  by_cases eq : t' = t
  · subst eq
    rw [update_self] at h
    exact .inl ⟨rfl, h⟩
  · rw [update_of_ne eq] at h
    exact .inr ⟨eq, h⟩

section
variable (tickets : Tickets pc offline made G Q)
include tickets

theorem Tickets.move
    (hname : ∀ n, next.name = some n → Segment n) (hmade : ∀ n, next.made = some n → made n)
    (hticket : ∀ b, next.ticket = some b → (pc t).ticket = some b)
    (hfirst : ∀ n gen, next.won = some (n, gen) → t.client ∉ offline →
      ∀ j : Nat, Q n j ≠ none → gen ≤ genKey j)
    (hgone : next.deleted = none) : Tickets (update pc t next) offline made G Q where
  name t' n h := by
    rcases update_cases LockPc.name h with ⟨rfl, hb⟩ | ⟨-, hb⟩
    · exact hname n hb
    · exact tickets.name t' n hb
  made t' n h := by
    rcases update_cases LockPc.made h with ⟨rfl, hb⟩ | ⟨-, hb⟩
    · exact hmade n hb
    · exact tickets.made t' n hb
  ticket t' n gen h := tickets.ticket t' n gen (update_imp hticket t' _ h)
  distinct t' t'' b h h' := tickets.distinct t' t'' b (update_imp hticket t' b h)
    (update_imp hticket t'' b h')
  first t' n gen h := by
    rcases update_cases LockPc.won h with ⟨rfl, hb⟩ | ⟨-, hb⟩
    · exact hfirst n gen hb
    · exact tickets.first t' n gen hb
  gone t' n gen h := tickets.gone t' n gen (update_imp (by simp [hgone]) t' _ h)

theorem Tickets.shrink
    (hname : ∀ b, next.name = some b → (pc t).name = some b)
    (hmade : ∀ b, next.made = some b → (pc t).made = some b)
    (hticket : ∀ b, next.ticket = some b → (pc t).ticket = some b)
    (hwon : ∀ b, next.won = some b → (pc t).won = some b) (hgone : next.deleted = none) :
    Tickets (update pc t next) offline made G Q :=
  tickets.move (fun n h => tickets.name t n (hname n h)) (fun n h => tickets.made t n (hmade n h))
    hticket (fun n gen h => tickets.first t n gen (hwon _ h)) hgone

theorem Tickets.mono {made' : Text → Prop}
    (keeps : ∀ n, Segment n → made n → made' n) : Tickets pc offline made' G Q :=
  { tickets with
    made := fun t n h => keeps n (tickets.name t n (LockPc.name_of_made h)) (tickets.made t n h) }

theorem Tickets.draw (at_ : pc t = .genNode name)
    (small : G name < 2 ^ 31) (online : t.client ∉ offline) :
    Tickets (update pc t (.watch name (genKey (G name)))) offline made
      (update G name (G name + 1))
      (update Q name (update (Q name) (G name) (some t.client))) := by
  have kept : ∀ n (i : Nat), i < G n → i < update G name (G name + 1) n ∧
      update Q name (update (Q name) (G name) (some t.client)) n i = Q n i := by
    intro n i lt
    by_cases eq : n = name
    · subst eq
      rw [update_self, update_self, update_of_ne (by omega)]
      exact ⟨by omega, rfl⟩
    · rw [update_of_ne eq, update_of_ne eq]
      exact ⟨lt, rfl⟩
  have new : ∀ t' : ThreadId, (pc t').ticket ≠ some (name, genKey (G name)) := by
    intro t' h
    obtain ⟨j, lt, eq, -⟩ := tickets.ticket t' name _ h
    have := genKey_inj (by omega) (by omega) eq
    omega
  refine ⟨fun t' n h => ?_, fun t' n h => ?_, fun t' n gen h => ?_, fun t' t'' b h h' => ?_,
    fun t' n gen h on j hj => ?_, fun t' n gen h => ?_⟩
  · rcases update_cases LockPc.name h with ⟨rfl, hb⟩ | ⟨-, hb⟩
    · exact tickets.name t' n (by rw [at_]; exact hb)
    · exact tickets.name t' n hb
  · rcases update_cases LockPc.made h with ⟨rfl, hb⟩ | ⟨-, hb⟩
    · exact tickets.made t' n (by rw [at_]; exact hb)
    · exact tickets.made t' n hb
  · rcases update_cases LockPc.ticket h with ⟨rfl, hb⟩ | ⟨-, hb⟩
    · cases hb
      exact ⟨G name, by simp, rfl, by simp [online]⟩
    · obtain ⟨i, lt, eq, hq⟩ := tickets.ticket t' n gen hb
      exact ⟨i, (kept n i lt).1, eq, (kept n i lt).2.trans hq⟩
  · rcases update_cases LockPc.ticket h with ⟨rfl, hb⟩ | ⟨-, hb⟩ <;>
      rcases update_cases LockPc.ticket h' with ⟨rfl, hb'⟩ | ⟨-, hb'⟩
    · rfl
    · cases hb
      exact absurd hb' (new t'')
    · cases hb'
      exact absurd hb (new t')
    · exact tickets.distinct t' t'' b hb hb'
  · rcases update_cases LockPc.won h with ⟨rfl, hb⟩ | ⟨-, hb⟩
    · cases hb
    · by_cases last : n = name ∧ j = G name
      · obtain ⟨rfl, rfl⟩ := last
        obtain ⟨k, hk, rfl, -⟩ := tickets.ticket t' n _ (LockPc.ticket_of_won hb)
        exact (genKey_lt hk (by omega)).le
      · refine tickets.first t' n gen hb on j ?_
        by_cases eq : n = name
        · subst eq
          rwa [update_self, update_of_ne fun h => last ⟨rfl, h⟩] at hj
        · rwa [update_of_ne eq] at hj
  · obtain ⟨i, lt, eq, none⟩ := tickets.gone t' n gen (update_imp (by simp [LockPc.deleted]) t' _ h)
    exact ⟨i, (kept n i lt).1, eq, (kept n i lt).2.trans none⟩

theorem Tickets.giveBack {path : Text} {i : Nat}
    (at_ : pc t = .delNode name (genKey i) path) (drawn : i < G name) :
    Tickets (update pc t (.erase name (genKey i))) offline made G
      (update Q name (update (Q name) i none)) := by
  have ticket_t : (pc t).ticket = some (name, genKey i) := by rw [at_]; rfl
  have fewer : ∀ n j, update Q name (update (Q name) i none) n j =
      if n = name ∧ j = i then none else Q n j := by
    intro n j
    by_cases eq : n = name
    · subst eq
      simp [update_apply]
    · simp [eq]
  have hticket : ∀ t' b, (update pc t (.erase name (genKey i)) t').ticket = some b →
      t' ≠ t ∧ (pc t').ticket = some b := by
    intro t' b h
    rcases update_cases LockPc.ticket h with ⟨-, hb⟩ | ⟨ne, hb⟩
    · cases hb
    · exact ⟨ne, hb⟩
  refine ⟨fun t' n h => ?_, fun t' n h => ?_, fun t' n gen h => ?_, fun t' t'' b h h' => ?_,
    fun t' n gen h on j hj => ?_, fun t' n gen h => ?_⟩
  · exact tickets.name t' n (update_imp (by simp [at_, LockPc.name]) t' _ h)
  · exact tickets.made t' n (update_imp (by simp [at_, LockPc.made, LockPc.name]) t' _ h)
  · obtain ⟨ne, hb⟩ := hticket t' _ h
    obtain ⟨j, lt, eq, hq⟩ := tickets.ticket t' n gen hb
    refine ⟨j, lt, eq, ?_⟩
    rw [fewer, if_neg, hq]
    rintro ⟨rfl, rfl⟩
    exact ne (tickets.distinct t' t _ hb (eq ▸ ticket_t))
  · exact tickets.distinct t' t'' b (hticket t' b h).2 (hticket t'' b h').2
  · refine tickets.first t' n gen (update_imp (by simp [LockPc.won]) t' _ h) on j fun none => hj ?_
    rw [fewer]
    split
    · rfl
    · exact none
  · rcases update_cases LockPc.deleted h with ⟨rfl, hb⟩ | ⟨-, hb⟩
    · cases hb
      exact ⟨i, drawn, rfl, by rw [fewer, if_pos ⟨rfl, rfl⟩]⟩
    · obtain ⟨j, lt, eq, none⟩ := tickets.gone t' n gen hb
      exact ⟨j, lt, eq, by rw [fewer, none, ite_self]⟩

theorem Tickets.disconnect (c : ClientId) : Tickets pc (insert c offline) made G
      (fun n i => if Q n i = some c then none else Q n i) := by
  refine ⟨tickets.name, tickets.made, fun t' n gen h => ?_, tickets.distinct,
    fun t' n gen h on j hj => ?_, fun t' n gen h => ?_⟩
  · obtain ⟨i, lt, eq, hq⟩ := tickets.ticket t' n gen h
    refine ⟨i, lt, eq, ?_⟩
    rw [hq]
    by_cases off : t'.client ∈ offline
    · simp [off]
    · by_cases eq : t'.client = c <;> simp [off, eq]
  · refine tickets.first t' n gen h (fun off => on (Finset.mem_insert_of_mem off)) j fun none => ?_
    simp [none] at hj
  · obtain ⟨i, lt, eq, none⟩ := tickets.gone t' n gen h
    exact ⟨i, lt, eq, by simp [none]⟩

end

section
variable (table : Table pc mutex acquiredLock)
include table

theorem Table.same
    (hmutex : next.inMutex = (pc t).inMutex) (hheld : next.held = (pc t).held)
    (hdeletes : next.deletes = none) :
    Table (update pc t next) mutex acquiredLock := by
  have same := update_same (f := LockPc.inMutex) hmutex
  have same' := update_same (f := LockPc.held) hheld
  constructor
  · simpa only [same] using table.inMutex
  · simpa only [same'] using table.held
  · simpa only [same'] using table.acquired
  · simpa only [same'] using table.single
  · intro t' n gen path h
    exact table.deletes t' n gen path (update_imp (by simp [hdeletes]) t' _ h)

theorem Table.lock (free : mutex t.client = none)
    (hheld : next.held = (pc t).held)
    (hdeletes : ∀ n gen path, next.deletes = some (n, gen, path) → path = child (lockPath n) gen) :
    Table (update pc t next) (update mutex t.client (some t)) acquiredLock := by
  have same := update_same (f := LockPc.held) hheld
  refine ⟨fun t' h => ?_, by simpa only [same] using table.held,
    by simpa only [same] using table.acquired, by simpa only [same] using table.single,
    fun t' n gen path h => ?_⟩
  · by_cases eq : t' = t
    · rw [eq, update_self]
    · rw [update_of_ne eq] at h
      have locked := table.inMutex t' h
      rw [update_of_ne, locked]
      intro same
      rw [same, free] at locked
      cases locked
  · rcases update_cases LockPc.deletes h with ⟨rfl, hb⟩ | ⟨-, hb⟩
    · exact hdeletes n gen path hb
    · exact table.deletes t' n gen path hb

theorem Table.unlock (inside : (pc t).inMutex = true)
    (outside : next.inMutex = false) (t' : ThreadId)
    (h : (update pc t next t').inMutex = true) :
    update mutex t.client none t'.client = some t' := by
  by_cases eq : t' = t
  · rw [eq, update_self, outside] at h
    cases h
  · rw [update_of_ne eq] at h
    have locked := table.inMutex t' h
    rw [update_of_ne, locked]
    intro same
    rw [same, table.inMutex t inside] at locked
    exact eq (Option.some.inj locked).symm

theorem Table.drop (inside : (pc t).inMutex = true)
    (outside : next.inMutex = false) (hheld : next.held = (pc t).held)
    (hdeletes : next.deletes = none) :
    Table (update pc t next) (update mutex t.client none) acquiredLock := by
  have same := update_same (f := LockPc.held) hheld
  refine ⟨table.unlock inside outside, by simpa only [same] using table.held,
    by simpa only [same] using table.acquired, by simpa only [same] using table.single,
    fun t' n gen path h => table.deletes t' n gen path (update_imp (by simp [hdeletes]) t' _ h)⟩

theorem Table.insert (at_ : pc t = .emplace name gen)
    (free : acquiredLock t.client name = none) :
    Table (update pc t (.holding name gen)) (update mutex t.client none)
      (update acquiredLock t.client (update (acquiredLock t.client) name
        (some (child (lockPath name) gen)))) := by
  have notHeld : ∀ t' gen', (pc t').held = some (name, gen') → t'.client ≠ t.client := by
    intro t' gen' h same
    have entry := table.held t' name gen' h
    rw [same, free] at entry
    cases entry
  refine ⟨table.unlock (by rw [at_]; rfl) rfl, fun t' n gen' h => ?_, fun c n path h => ?_,
    fun t' t'' n gen' gen'' h h' same => ?_, fun t' n gen' path h =>
      table.deletes t' n gen' path (update_imp (by simp [LockPc.deletes]) t' _ h)⟩
  · rcases update_cases LockPc.held h with ⟨rfl, hb⟩ | ⟨-, hb⟩
    · cases hb
      simp
    · have entry := table.held t' n gen' hb
      by_cases same : t'.client = t.client
      · have ne : n ≠ name := by
          rintro rfl
          exact notHeld t' gen' hb same
        rw [same, update_self, update_of_ne ne, ← same, entry]
      · rw [update_of_ne same, entry]
  · by_cases new : c = t.client ∧ n = name
    · exact ⟨t, gen, new.1.symm, by simp [new.2, LockPc.held]⟩
    · have old : acquiredLock c n = some path := by
        by_cases eq : c = t.client
        · subst eq
          rwa [update_self, update_of_ne fun h => new ⟨rfl, h⟩] at h
        · rwa [update_of_ne eq] at h
      obtain ⟨t', gen', hc, hb⟩ := table.acquired c n path old
      refine ⟨t', gen', hc, ?_⟩
      rw [update_of_ne, hb]
      rintro rfl
      rw [at_] at hb
      cases hb
  · rcases update_cases LockPc.held h with ⟨rfl, hb⟩ | ⟨-, hb⟩ <;>
      rcases update_cases LockPc.held h' with ⟨rfl, hb'⟩ | ⟨-, hb'⟩
    · rfl
    · cases hb
      exact absurd same.symm (notHeld t'' gen'' hb')
    · cases hb'
      exact absurd same (notHeld t' gen' hb)
    · exact table.single t' t'' n gen' gen'' hb hb' same

theorem Table.remove (at_ : pc t = .erase name gen) : Table (update pc t .idle) (update mutex t.client none)
      (update acquiredLock t.client (update (acquiredLock t.client) name none)) := by
  have held_t : (pc t).held = some (name, gen) := by rw [at_]; rfl
  have shrinks : ∀ t' b, (update pc t .idle t').held = some b → (pc t').held = some b :=
    update_imp (by simp [LockPc.held])
  refine ⟨table.unlock (by rw [at_]; rfl) rfl, fun t' n gen' h => ?_, fun c n path h => ?_,
    fun t' t'' n gen' gen'' h h' => table.single t' t'' n gen' gen'' (shrinks t' _ h)
      (shrinks t'' _ h'), fun t' n gen' path h =>
      table.deletes t' n gen' path (update_imp (by simp [LockPc.deletes]) t' _ h)⟩
  · rcases update_cases LockPc.held h with ⟨rfl, hb⟩ | ⟨ne, hb⟩
    · cases hb
    · have entry := table.held t' n gen' hb
      by_cases same : t'.client = t.client
      · have other : n ≠ name := by
          rintro rfl
          exact ne (table.single t' t n gen' gen hb held_t same)
        rw [same, update_self, update_of_ne other, ← same, entry]
      · rw [update_of_ne same, entry]
  · have old : ¬ (c = t.client ∧ n = name) ∧ acquiredLock c n = some path := by
      by_cases eq : c = t.client
      · subst eq
        rw [update_self] at h
        by_cases eq : n = name
        · subst eq
          simp at h
        · rw [update_of_ne eq] at h
          exact ⟨fun h => eq h.2, h⟩
      · rw [update_of_ne eq] at h
        exact ⟨fun h => eq h.1, h⟩
    obtain ⟨t', gen', hc, hb⟩ := table.acquired c n path old.2
    refine ⟨t', gen', hc, ?_⟩
    rw [update_of_ne, hb]
    rintro rfl
    rw [held_t] at hb
    cases hb
    exact old.1 ⟨hc.symm, rfl⟩

end

end Prpc.MasterClient
