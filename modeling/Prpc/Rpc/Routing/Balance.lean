import Prpc.Rpc.Routing.Model

namespace Prpc.Routing
open Lib
open Function (update update_self update_of_ne update_eq_self)

variable {D Q : Type}

theorem swapOut_perm {α : Type} {l : List α} {i : Nat} (lt : i < l.length) :
    (swapOut l i).Perm (l.eraseIdx i) := by
  cases last : l.getLast? with
  | none =>
    rw [List.getLast?_eq_none_iff] at last
    rw [last] at lt
    cases lt
  | some back =>
    obtain ⟨front, rfl⟩ := List.getLast?_eq_some_iff.mp last
    simp only [swapOut, last]
    rw [List.length_append, List.length_singleton] at lt
    rcases Nat.lt_or_eq_of_le (Nat.lt_succ_iff.mp lt) with before | rfl
    · rw [List.set_append_left _ _ before, List.dropLast_concat, List.eraseIdx_append_of_lt_length before]
      exact (List.set_perm_cons_eraseIdx before back).trans (List.perm_append_singleton _ _).symm
    · rw [List.set_append_right _ _ (Nat.le_refl _),
        List.eraseIdx_append_of_length_le (Nat.le_refl _), Nat.sub_self]
      simp

theorem removeAll_of_notMem [DecidableEq D] {dealer : D} {l : List D} (absent : dealer ∉ l) (i : Nat) :
    removeAll dealer i l = l := by
  fun_induction removeAll dealer i l with
  | case1 i l lt found ih => exact absurd (List.mem_of_getElem? found) absent
  | case2 i l lt other ih => exact ih absent
  | case3 i l ge => rfl

theorem removeAll_perm [DecidableEq D] {dealer : D} {l : List D} {i : Nat} (nodup : l.Nodup) (mem : dealer ∈ l)
    (later : ∀ j < i, l[j]? ≠ some dealer) : (removeAll dealer i l).Perm (l.erase dealer) := by
  fun_induction removeAll dealer i l with
  | case1 i l lt found ih =>
    obtain ⟨_, rfl⟩ := List.getElem?_eq_some_iff.mp found
    have perm := swapOut_perm lt
    rw [← nodup.erase_getElem i lt] at perm
    have absent : l[i] ∉ swapOut l i := fun mem' => nodup.not_mem_erase (perm.mem_iff.mp mem')
    rw [removeAll_of_notMem absent]
    exact perm
  | case2 i l lt other ih =>
    refine ih nodup mem fun j le => ?_
    rcases Nat.lt_or_eq_of_le (Nat.lt_succ_iff.mp le) with before | rfl
    · exact later j before
    · exact other
  | case3 i l ge =>
    obtain ⟨j, lt, at_⟩ := List.getElem_of_mem mem
    exact absurd (List.getElem?_eq_some_iff.mpr ⟨lt, at_⟩) (later j (by omega))

theorem removeOne_perm {sid : Int} {sids : List Int} (mem : sid ∈ sids) :
    (removeOne sid sids).Perm (sids.erase sid) := by
  rw [removeOne, List.erase_eq_eraseIdx]
  cases found : sids.idxOf? sid with
  | none => exact absurd mem (List.idxOf?_eq_none_iff.mp found)
  | some i => exact swapOut_perm (List.idxOf?_eq_some_iff.mp found).1

namespace FairQueue
variable {q q' : FairQueue D Q} {sid : Int} {dealer : D}

structure Balanced (q : FairQueue D Q) : Prop where
  count : ∀ sid, q.sids.count sid = (q.dealers sid).length
  some_dealer : ∀ sid, q.sid2dealers.lookup sid ≠ some []
  nodup : ∀ sid, (q.dealers sid).Nodup
  idle : ∀ sid, q.cached sid ≠ [] → q.dealers sid = []

theorem balanced_new (counters : Counters) : Balanced (new counters : FairQueue D Q) :=
  ⟨fun _ => rfl, fun _ => (by simp [new]), fun _ => List.nodup_nil, fun _ _ => rfl⟩

theorem Balanced.lookup_eq_none (balanced : Balanced q) :
    q.sid2dealers.lookup sid = none ↔ q.dealers sid = [] := by
  have some_dealer := balanced.some_dealer sid
  rw [dealers]
  cases found : q.sid2dealers.lookup sid with
  | none => simp
  | some ds =>
    rw [found] at some_dealer
    simpa using some_dealer

theorem cached_of_not_mem (absent : sid ∉ q.sid2cache) : q.cached sid = [] := by
  rw [cached, Finmap.lookup_eq_none.mpr absent]
  rfl

theorem addServer_spec (eq : q.addServer sid = some q') : sid ∉ q.sid2cache ∧ q'.dealers = q.dealers ∧
    q'.cached = q.cached ∧ (∀ s, s ∈ q'.sid2cache ↔ s = sid ∨ s ∈ q.sid2cache) ∧
    (q.Balanced → q'.Balanced) := by
  rw [addServer] at eq
  split at eq
  · cases eq
  · rename_i absent
    cases eq
    have same : cached { q with sid2cache := q.sid2cache.insert sid [] } = q.cached := by
      funext s
      rcases eq_or_ne s sid with rfl | other
      · rw [cached_of_not_mem absent]
        simp [cached]
      · simp [cached, Finmap.lookup_insert_of_ne _ other]
    refine ⟨absent, rfl, same, fun s => by simp [Finmap.mem_insert], fun balanced => ?_⟩
    exact ⟨balanced.count, balanced.some_dealer, balanced.nodup, by rw [same]; exact balanced.idle⟩

theorem removeServer_spec {gone : List Q} (eq : q.removeServer sid = some (q', gone)) :
    sid ∈ q.sid2cache ∧ gone = q.cached sid ∧ q'.dealers = q.dealers ∧
    q'.cached = update q.cached sid [] ∧
    (∀ s, s ∈ q'.sid2cache ↔ s ≠ sid ∧ s ∈ q.sid2cache) ∧ (q.Balanced → q'.Balanced) := by
  rw [removeServer] at eq
  split at eq
  · rename_i cache found
    cases eq
    have less : cached { q with sid2cache := q.sid2cache.erase sid } = update q.cached sid [] := by
      funext s
      rcases eq_or_ne s sid with rfl | other
      · simp [cached]
      · simp [cached, Finmap.lookup_erase_ne other, update_of_ne other]
    refine ⟨Finmap.mem_of_lookup_eq_some found, by rw [cached, found]; rfl, rfl, less,
      fun s => by simp [Finmap.mem_erase], fun balanced => ?_⟩
    refine ⟨balanced.count, balanced.some_dealer, balanced.nodup, fun s waiting => ?_⟩
    rw [less] at waiting
    rcases eq_or_ne s sid with rfl | other
    · simp at waiting
    · rw [update_of_ne other] at waiting
      exact balanced.idle s waiting
  · cases eq

theorem dealers_appendDealer (q : FairQueue D Q) (sid : Int) (dealer : D) :
    (q.appendDealer sid dealer).dealers = update q.dealers sid (q.dealers sid ++ [dealer]) := by
  funext s
  rcases eq_or_ne s sid with rfl | other
  · simp [dealers, appendDealer]
  · simp [dealers, appendDealer, Finmap.lookup_insert_of_ne _ other, update_of_ne other]

theorem addServerDealer_spec (q : FairQueue D Q) (sid : Int) (dealer : D) :
    (q.addServerDealer sid dealer).2 = q.cached sid ∧
    (q.addServerDealer sid dealer).1.dealers = update q.dealers sid (q.dealers sid ++ [dealer]) ∧
    (q.addServerDealer sid dealer).1.cached = update q.cached sid [] ∧
    (q.addServerDealer sid dealer).1.sids = q.sids ++ [sid] ∧
    (∀ s, s ∈ (q.addServerDealer sid dealer).1.sid2cache ↔ s ∈ q.sid2cache) ∧
    ∀ s, (q.addServerDealer sid dealer).1.sid2dealers.lookup s ≠ some [] ∨
      s ≠ sid ∧ (q.addServerDealer sid dealer).1.sid2dealers.lookup s = q.sid2dealers.lookup s := by
  have vectors : ∀ s, (q.appendDealer sid dealer).sid2dealers.lookup s ≠ some [] ∨
      s ≠ sid ∧ (q.appendDealer sid dealer).sid2dealers.lookup s = q.sid2dealers.lookup s := by
    intro s
    rcases eq_or_ne s sid with rfl | other
    · exact .inl (by simp [appendDealer])
    · exact .inr ⟨other, Finmap.lookup_insert_of_ne _ other⟩
  rw [addServerDealer]
  split
  · rename_i cache found
    refine ⟨by simp [cached, found], dealers_appendDealer q sid dealer, ?_, rfl, fun s => ?_, vectors⟩
    · funext s
      rcases eq_or_ne s sid with rfl | other
      · simp [cached]
      · simp [cached, Finmap.lookup_insert_of_ne _ other, update_of_ne other]
    · have there := Finmap.mem_of_lookup_eq_some found
      simp only [Finmap.mem_insert]
      exact ⟨fun either => either.elim (fun same => same ▸ there) id, .inr⟩
  · rename_i absent
    have nothing : q.cached sid = [] := by simp [cached, absent]
    refine ⟨nothing.symm, dealers_appendDealer q sid dealer, ?_, rfl, fun s => Iff.rfl, vectors⟩
    rw [← nothing, update_eq_self]
    rfl

theorem Balanced.addServerDealer (balanced : q.Balanced) (new : dealer ∉ q.dealers sid) :
    (q.addServerDealer sid dealer).1.Balanced := by
  obtain ⟨-, dealers_eq, cached_eq, sids_eq, -, vectors⟩ := addServerDealer_spec q sid dealer
  refine ⟨fun s => ?_, fun s => ?_, fun s => ?_, fun s waiting => ?_⟩
  · rw [sids_eq, dealers_eq, List.count_append, balanced.count]
    rcases eq_or_ne s sid with rfl | other
    · simp
    · simp [update_of_ne other, other.symm]
  · rcases vectors s with some_dealer | ⟨-, same⟩
    · exact some_dealer
    · rw [same]
      exact balanced.some_dealer s
  · rw [dealers_eq]
    rcases eq_or_ne s sid with rfl | other
    · rw [update_self, ← List.concat_eq_append]
      exact (balanced.nodup s).concat new
    · rw [update_of_ne other]
      exact balanced.nodup s
  · rw [cached_eq] at waiting
    rcases eq_or_ne s sid with rfl | other
    · simp at waiting
    · rw [update_of_ne other] at waiting
      rw [dealers_eq, update_of_ne other]
      exact balanced.idle s waiting

theorem removeServerDealer_spec [DecidableEq D] (eq : q.removeServerDealer sid dealer = some q') :
    q'.dealers = update q.dealers sid (removeAll dealer 0 (q.dealers sid)) ∧ q'.cached = q.cached ∧
    q'.sids = removeOne sid q.sids ∧ q'.sid2cache = q.sid2cache ∧
    ∀ s, q'.sid2dealers.lookup s ≠ some [] ∨ s ≠ sid ∧ q'.sid2dealers.lookup s = q.sid2dealers.lookup s := by
  rw [removeServerDealer] at eq
  split at eq
  · rename_i ds found
    have here : q.dealers sid = ds := by simp [dealers, found]
    cases eq
    refine ⟨?_, rfl, rfl, rfl, fun s => ?_⟩
    · funext s
      rw [here]
      rcases eq_or_ne s sid with rfl | other
      · simp only [update_self, dealers]
        split
        · rename_i nobody
          simp [nobody]
        · simp
      · simp only [update_of_ne other, dealers]
        split
        · rw [Finmap.lookup_erase_ne other]
        · rw [Finmap.lookup_insert_of_ne _ other]
    · rcases eq_or_ne s sid with rfl | other
      · refine .inl ?_
        simp only
        split
        · simp
        · rename_i somebody
          simpa using somebody
      · refine .inr ⟨other, ?_⟩
        simp only
        split
        · rw [Finmap.lookup_erase_ne other]
        · rw [Finmap.lookup_insert_of_ne _ other]
  · cases eq

theorem Balanced.removeServerDealer [DecidableEq D] (balanced : q.Balanced) (mem : dealer ∈ q.dealers sid)
    (eq : q.removeServerDealer sid dealer = some q') : q'.Balanced := by
  obtain ⟨dealers_eq, cached_eq, sids_eq, -, vectors⟩ := removeServerDealer_spec eq
  have fewer := removeAll_perm (i := 0) (balanced.nodup sid) mem (fun j lt => (by cases lt))
  have there : sid ∈ q.sids := by
    rw [← List.count_pos_iff, balanced.count]
    exact List.length_pos_of_mem mem
  refine ⟨fun s => ?_, fun s => ?_, fun s => ?_, fun s waiting => ?_⟩
  · rw [sids_eq, dealers_eq, (removeOne_perm there).count_eq, List.count_erase, balanced.count]
    rcases eq_or_ne s sid with rfl | other
    · rw [update_self, fewer.length_eq, List.length_erase_of_mem mem]
      simp
    · simp [update_of_ne other, other.symm]
  · rcases vectors s with some_dealer | ⟨-, same⟩
    · exact some_dealer
    · rw [same]
      exact balanced.some_dealer s
  · rw [dealers_eq]
    rcases eq_or_ne s sid with rfl | other
    · rw [update_self]
      exact fewer.symm.nodup ((balanced.nodup s).erase dealer)
    · rw [update_of_ne other]
      exact balanced.nodup s
  · rw [cached_eq] at waiting
    have nobody := balanced.idle s waiting
    rw [dealers_eq]
    rcases eq_or_ne s sid with rfl | other
    · rw [nobody] at mem
      cases mem
    · rw [update_of_ne other]
      exact nobody

structure SameButCounters (q q' : FairQueue D Q) : Prop where
  sid2dealers : q'.sid2dealers = q.sid2dealers
  sids : q'.sids = q.sids
  sid2cache : q'.sid2cache = q.sid2cache

theorem sameButCounters (q : FairQueue D Q) (counters : Counters) :
    SameButCounters q { q with counters := counters } := ⟨rfl, rfl, rfl⟩

section
variable (same : SameButCounters q q')
include same

theorem SameButCounters.dealers_eq : q'.dealers = q.dealers := by
  funext s
  rw [dealers, dealers, same.sid2dealers]

theorem SameButCounters.cached_eq : q'.cached = q.cached := by
  funext s
  rw [cached, cached, same.sid2cache]

theorem SameButCounters.balanced (balanced : q.Balanced) : q'.Balanced := by
  refine ⟨?_, ?_, ?_, ?_⟩
  · rw [same.sids, same.dealers_eq]
    exact balanced.count
  · rw [same.sid2dealers]
    exact balanced.some_dealer
  · rw [same.dealers_eq]
    exact balanced.nodup
  · rw [same.dealers_eq, same.cached_eq]
    exact balanced.idle

end

theorem takeSid_spec (some_sid : q.sids ≠ []) : ∃ sid q', q.takeSid = some (sid, q') ∧ sid ∈ q.sids ∧
    SameButCounters q q' := by
  have lt := Nat.mod_lt (q.counters.sidsRrIndex.signExtend 64).toNat (List.length_pos_iff.mpr some_sid)
  refine ⟨_, _, ?_, List.getElem_mem lt,
    sameButCounters q { q.counters with sidsRrIndex := q.counters.sidsRrIndex + 1 }⟩
  rw [takeSid, List.getElem?_eq_getElem lt]
  rfl

theorem takeDealer_spec {ds : List D} (some_dealer : ds ≠ []) : ∃ d q', q.takeDealer ds = some (some d, q') ∧
    d ∈ ds ∧ SameButCounters q q' := by
  have pos := List.length_pos_iff.mpr some_dealer
  rw [takeDealer, if_neg some_dealer]
  by_cases past : (q.counters.dealerIdRrIndex + 1).toNat ≥ ds.length
  · refine ⟨ds[0], _, ?_, List.getElem_mem pos, sameButCounters q { q.counters with dealerIdRrIndex := 0 }⟩
    simp only [past, if_true]
    rw [show (0 : BitVec 64).toNat = 0 from rfl, List.getElem?_eq_getElem pos]
    rfl
  · have lt : (q.counters.dealerIdRrIndex + 1).toNat < ds.length := Nat.lt_of_not_le past
    refine ⟨_, _, ?_, List.getElem_mem lt,
      sameButCounters q { q.counters with dealerIdRrIndex := q.counters.dealerIdRrIndex + 1 }⟩
    simp only [past, if_false]
    rw [List.getElem?_eq_getElem lt]
    rfl

def Addresses (sid s : Int) : Prop := s = sid ∨ sid = -1

theorem chooseSid_spec (q : FairQueue D Q) (sid : Int) : ∃ r q', q.chooseSid sid = some (r, q') ∧
    SameButCounters q q' ∧ (∀ s, r = some s → Addresses sid s ∧ (sid = -1 → s ∈ q.sids)) ∧
    (r = none → sid = -1 ∧ q.sids = []) := by
  rw [chooseSid]
  split
  · rename_i any
    split
    · rename_i nobody
      exact ⟨none, q, rfl, ⟨rfl, rfl, rfl⟩, by simp, fun _ => ⟨any, nobody⟩⟩
    · rename_i somebody
      obtain ⟨s, q', taken, mem, same⟩ := takeSid_spec somebody
      refine ⟨some s, q', by rw [taken]; rfl, same, fun s' eq => ?_, by simp⟩
      cases eq
      exact ⟨.inr any, fun _ => mem⟩
  · rename_i one
    refine ⟨some sid, q, rfl, ⟨rfl, rfl, rfl⟩, fun s eq => ?_, by simp⟩
    cases eq
    exact ⟨.inl rfl, fun any => absurd any one⟩

theorem Balanced.mem_sids (balanced : q.Balanced) : sid ∈ q.sids ↔ q.dealers sid ≠ [] := by
  rw [← List.count_pos_iff, balanced.count, List.length_pos_iff]

theorem Balanced.sids_eq_nil (balanced : q.Balanced) : q.sids = [] ↔ ∀ s, q.dealers s = [] := by
  rw [List.eq_nil_iff_forall_not_mem]
  simp only [balanced.mem_sids, not_not]

theorem Balanced.next_spec (balanced : q.Balanced) (sid : Int) : ∃ r q', q.next sid = some (r, q') ∧
    SameButCounters q q' ∧ (∀ d, r = some d → ∃ s, Addresses sid s ∧ d ∈ q.dealers s) ∧
    (r = none → ∀ s, Addresses sid s → q.dealers s = []) := by
  obtain ⟨chosen, q₁, choose, same, some_chosen, none_chosen⟩ := chooseSid_spec q sid
  rw [next, choose]
  cases chosen with
  | none =>
    obtain ⟨any, nobody⟩ := none_chosen rfl
    exact ⟨none, q₁, rfl, same, by simp, fun _ s _ => balanced.sids_eq_nil.mp nobody s⟩
  | some s =>
    obtain ⟨addressed, there⟩ := some_chosen s rfl
    simp only
    rw [same.sid2dealers]
    cases found : q.sid2dealers.lookup s with
    | none =>
      have nobody := balanced.lookup_eq_none.mp found
      refine ⟨none, q₁, rfl, same, by simp, fun _ s' other => ?_⟩
      rcases eq_or_ne sid (-1) with any | one
      · exact absurd nobody (balanced.mem_sids.mp (there any))
      · rcases addressed with rfl | any
        · rcases other with rfl | any
          · exact nobody
          · exact absurd any one
        · exact absurd any one
    | some ds =>
      have here : q.dealers s = ds := by simp [dealers, found]
      have some_dealer : ds ≠ [] := by
        rintro rfl
        exact balanced.some_dealer s found
      obtain ⟨d, q', taken, mem, same'⟩ := takeDealer_spec (q := q₁) some_dealer
      refine ⟨some d, q', taken, ⟨same'.sid2dealers.trans same.sid2dealers, same'.sids.trans same.sids,
        same'.sid2cache.trans same.sid2cache⟩, fun d' eq => ?_, by simp⟩
      cases eq
      exact ⟨s, addressed, by rw [here]; exact mem⟩

inductive Kept (q : FairQueue D Q) (sid : Int) (req : Q) : Pushed D → FairQueue D Q → Prop
  | cached {q' : FairQueue D Q} (s : Int) (addressed : Addresses sid s) (registered : s ∈ q.sid2cache)
      (dealers : q'.dealers = q.dealers)
      (cached : q'.cached = update q.cached s (q.cached s ++ [req]))
      (registered_iff : ∀ s, s ∈ q'.sid2cache ↔ s ∈ q.sid2cache) (balanced : q'.Balanced) :
      Kept q sid req .cached q'
  | refused (nobody : ∀ s, Addresses sid s → s ∉ q.sid2cache) : Kept q sid req .refused q

theorem Balanced.pushTo_spec (balanced : q.Balanced) (req : Q) {s : Int} (addressed : Addresses sid s)
    (nobody : q.dealers s = []) (only : sid = -1 → s ∈ q.sid2cache) :
    ∃ r q', q.pushTo s req = some (r, q') ∧ Kept q sid req r q' := by
  rw [pushTo, balanced.lookup_eq_none.mpr nobody]
  simp only
  cases found : q.sid2cache.lookup s with
  | none =>
    refine ⟨.refused, q, rfl, .refused fun s' other registered => ?_⟩
    have absent := Finmap.lookup_eq_none.mp found
    rcases addressed with rfl | any
    · rcases other with rfl | any
      · exact absent registered
      · exact absent (only any)
    · exact absent (only any)
  | some cache =>
    have here : q.cached s = cache := by simp [FairQueue.cached, found]
    have longer : FairQueue.cached { q with sid2cache := q.sid2cache.insert s (cache ++ [req]) } =
        update q.cached s (q.cached s ++ [req]) := by
      funext s'
      rcases eq_or_ne s' s with rfl | other
      · simp [FairQueue.cached, found]
      · simp [FairQueue.cached, Finmap.lookup_insert_of_ne _ other, update_of_ne other]
    have there := Finmap.mem_of_lookup_eq_some found
    refine ⟨.cached, _, rfl, .cached s addressed there rfl longer (fun s' => ?_) ?_⟩
    · simp only [Finmap.mem_insert]
      exact ⟨fun either => either.elim (fun same => same ▸ there) id, .inr⟩
    · refine ⟨balanced.count, balanced.some_dealer, balanced.nodup, fun s' waiting => ?_⟩
      rcases eq_or_ne s' s with rfl | other
      · exact nobody
      · rw [longer, update_of_ne other] at waiting
        exact balanced.idle s' waiting

theorem Balanced.pushRequest_spec (balanced : q.Balanced) (req : Q) (sid : Int) {first : Int}
    (nobody : ∀ s, Addresses sid s → q.dealers s = [])
    (begins : q.sid2cache.keys = ∅ ∨ first ∈ q.sid2cache) :
    ∃ r q', q.pushRequest first sid req = some (r, q') ∧ Kept q sid req r q' := by
  rw [pushRequest]
  split
  · rename_i any
    split
    · rename_i no_cache
      refine ⟨.refused, q, rfl, .refused fun s _ registered => ?_⟩
      rw [← Finmap.mem_keys, no_cache] at registered
      simp at registered
    · rename_i some_cache
      have no_sid : q.sids = [] := balanced.sids_eq_nil.mpr fun s => nobody s (.inr any)
      have there : first ∈ q.sid2cache := begins.resolve_left some_cache
      rw [if_pos no_sid]
      exact balanced.pushTo_spec req (.inr any) (nobody first (.inr any)) fun _ => there
  · rename_i one
    exact balanced.pushTo_spec req (.inl rfl) (nobody sid (.inl rfl)) fun any => absurd any one

end FairQueue
end Prpc.Routing
