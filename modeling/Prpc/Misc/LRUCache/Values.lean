import Prpc.Misc.LRUCache.Accounting

namespace Prpc.LRUCache
open Lib

variable {K V : Type} {P : Config V} {c c' : Cache K V} {a : Nat} {p v : Ptr}

theorem setPrev_hashmap (done : c.setPrev a v = some c') : c'.hashmap = c.hashmap := by
  simp only [Cache.setPrev, Option.bind_eq_bind, Option.bind_eq_some_iff, Option.pure_def, Option.some.injEq] at done
  obtain ⟨node, -, rfl⟩ := done
  rfl

theorem setNext_hashmap (done : c.setNext a v = some c') : c'.hashmap = c.hashmap := by
  simp only [Cache.setNext, Option.bind_eq_bind, Option.bind_eq_some_iff, Option.pure_def, Option.some.injEq] at done
  obtain ⟨node, -, rfl⟩ := done
  rfl

theorem setPrevOf_hashmap (done : c.setPrevOf p v = some c') : c'.hashmap = c.hashmap := by
  cases p with
  | none =>
    cases done
    rfl
  | some a => exact setPrev_hashmap done

theorem setNextOf_hashmap (done : c.setNextOf p v = some c') : c'.hashmap = c.hashmap := by
  cases p with
  | none =>
    cases done
    rfl
  | some a => exact setNext_hashmap done

theorem retractTail_hashmap (done : c.retractTail a = some c') : c'.hashmap = c.hashmap := by
  rw [Cache.retractTail] at done
  split at done
  · simp only [Option.bind_eq_bind, Option.bind_eq_some_iff, Option.pure_def, Option.some.injEq] at done
    obtain ⟨node, -, rfl⟩ := done
    rfl
  · cases done
    rfl

theorem advanceHead_hashmap (done : c.advanceHead a = some c') : c'.hashmap = c.hashmap := by
  rw [Cache.advanceHead] at done
  split at done
  · simp only [Option.bind_eq_bind, Option.bind_eq_some_iff, Option.pure_def, Option.some.injEq] at done
    obtain ⟨node, -, rfl⟩ := done
    rfl
  · cases done
    rfl

theorem delinkNode_hashmap (done : c.delinkNode a = some c') : c'.hashmap = c.hashmap := by
  simp only [Cache.delinkNode, Option.bind_eq_bind, Option.bind_eq_some_iff] at done
  obtain ⟨c₁, tail_, c₂, head_, node, -, c₃, forth, c₄, back, c₅, prev_, next_⟩ := done
  rw [setNext_hashmap next_, setPrev_hashmap prev_, setPrevOf_hashmap back, setNextOf_hashmap forth,
    advanceHead_hashmap head_, retractTail_hashmap tail_]

theorem pushNodeToFront_hashmap (done : c.pushNodeToFront a = some c') : c'.hashmap = c.hashmap := by
  simp only [Cache.pushNodeToFront, Option.bind_eq_bind, Option.bind_eq_some_iff, Option.pure_def,
    Option.some.injEq] at done
  obtain ⟨c₁, first, c₂, second, c₃, third, rfl⟩ := done
  rw [← setPrevOf_hashmap first, ← setPrev_hashmap second, ← setNext_hashmap third]
  split <;> rfl

variable [DecidableEq K] {k : K}

def KeepsValue (c c' : Cache K V) (k : K) : Prop :=
  ∀ e', c'.hashmap.lookup k = some e' → ∃ e, c.hashmap.lookup k = some e ∧ e.value = e'.value

theorem KeepsValue.trans {c'' : Cache K V} (first : KeepsValue c c' k) (second : KeepsValue c' c'' k) :
    KeepsValue c c'' k := by
  intro e'' held
  obtain ⟨e', held', same'⟩ := second e'' held
  obtain ⟨e, held, same⟩ := first e' held'
  exact ⟨e, held, same.trans same'⟩

theorem keepsValue_of_eq (same : c'.hashmap = c.hashmap) : KeepsValue c c' k := fun e' held => ⟨e', same ▸ held, rfl⟩

theorem evict_keepsValue (done : c.evict p = some c') : KeepsValue c c' k := by
  cases p with
  | none =>
    cases done
    exact keepsValue_of_eq rfl
  | some a =>
    simp only [Cache.evict, Option.bind_eq_bind, Option.bind_eq_some_iff, Option.pure_def, Option.some.injEq] at done
    obtain ⟨c₁, delinked, node, -, rfl⟩ := done
    intro e' held
    rw [← delinkNode_hashmap delinked]
    rcases eq_or_ne k node.key with rfl | other
    · rw [Finmap.lookup_erase] at held
      cases held
    · rw [Finmap.lookup_erase_ne other] at held
      exact ⟨e', held, rfl⟩

theorem evictIfNeeded_keepsValue (done : c.evictIfNeeded P = some c') : KeepsValue c c' k := by
  rw [Cache.evictIfNeeded] at done
  split at done
  · exact evict_keepsValue done
  · cases done
    exact keepsValue_of_eq rfl

variable {key : K}

theorem touch_keepsValue {e : Entry V} (found : c.hashmap.lookup key = some e) :
    KeepsValue c (c.touch key e) k := by
  intro e' held
  rcases eq_or_ne k key with rfl | other
  · rw [Cache.touch, Finmap.lookup_insert] at held
    cases held
    exact ⟨e, found, rfl⟩
  · rw [Cache.touch, Finmap.lookup_insert_of_ne _ other] at held
    exact ⟨e', held, rfl⟩

theorem find_value {now now' : Int} {upgraded : Bool} {r : Option V}
    (done : c.find P key now now' upgraded = some (r, c')) :
    r = (c.hashmap.lookup key).map Entry.value ∧ KeepsValue c c' k := by
  rw [Cache.find] at done
  split at done
  · rename_i absent
    cases done
    rw [absent]
    exact ⟨rfl, keepsValue_of_eq rfl⟩
  · rename_i e found
    have touched : KeepsValue c (c.touch key e) k := touch_keepsValue found
    rw [found]
    dsimp only at done
    split at done
    · split at done
      · cases done
        exact ⟨rfl, touched⟩
      · split at done
        · simp only [Option.bind_eq_bind, Option.bind_eq_some_iff, Option.pure_def, Option.some.injEq,
            Prod.mk.injEq] at done
          obtain ⟨c₁, evicted, rfl, rfl⟩ := done
          exact ⟨rfl, touched.trans (evict_keepsValue evicted)⟩
        · cases done
          exact ⟨rfl, touched⟩
    · split at done
      · simp only [Option.bind_eq_bind, Option.bind_eq_some_iff, Option.pure_def, Option.some.injEq,
          Prod.mk.injEq] at done
        obtain ⟨c₁, delinked, c₂, pushed, rfl, rfl⟩ := done
        refine ⟨rfl, touched.trans (keepsValue_of_eq ?_)⟩
        rw [pushNodeToFront_hashmap pushed, delinkNode_hashmap delinked]
      · cases done
        exact ⟨rfl, touched⟩

theorem place_hashmap {value : V} {now : Int} (done : c.place P a key value now = some c') :
    c'.hashmap = (c.emplace key ⟨value, a, 0, now⟩).hashmap := by
  simp only [Cache.place, Option.bind_eq_bind, Option.bind_eq_some_iff, Option.pure_def, Option.some.injEq] at done
  obtain ⟨n, -, c₁, delinked, c₂, pushed, n', -, rfl⟩ := done
  have hashmap : c₂.hashmap = (c.prepare P a n key value now).hashmap := by
    rw [pushNodeToFront_hashmap pushed, delinkNode_hashmap delinked, Cache.prepare]
  rw [prepare_eq] at hashmap
  exact hashmap

theorem nodeOf_hashmap {address : Nat} {x : Nat × Cache K V} (done : c.nodeOf key address = some x) :
    x.2.hashmap = c.hashmap := by
  rw [Cache.nodeOf] at done
  split at done
  · cases done
    rfl
  · simp only [guard, Option.bind_eq_bind, Option.bind_eq_some_iff, Option.pure_def, Option.some.injEq] at done
    obtain ⟨-, -, rfl⟩ := done
    rfl

theorem insert_value {value : V} {address : Nat} {now : Int}
    (done : c.insert P key value address now = some c') {e' : Entry V} (held : c'.hashmap.lookup k = some e') :
    (∃ e, c.hashmap.lookup k = some e ∧ e.value = e'.value) ∨ k = key ∧ e'.value = value := by
  simp only [insert_eq, Option.bind_eq_some_iff] at done
  obtain ⟨x, node, c₁, evicted, c₂, placed, evicted'⟩ := done
  obtain ⟨e₂, held₂, same⟩ := evictIfNeeded_keepsValue evicted' e' held
  rw [place_hashmap placed, Cache.emplace] at held₂
  have before : KeepsValue c c₁ k := (keepsValue_of_eq (nodeOf_hashmap node)).trans (evictIfNeeded_keepsValue evicted)
  split at held₂
  · obtain ⟨e, found, same'⟩ := before e₂ held₂
    exact .inl ⟨e, found, same'.trans same⟩
  · rcases eq_or_ne k key with rfl | other
    · rw [Finmap.lookup_insert] at held₂
      cases held₂
      exact .inr ⟨rfl, same.symm⟩
    · rw [Finmap.lookup_insert_of_ne _ other] at held₂
      obtain ⟨e, found, same'⟩ := before e₂ held₂
      exact .inl ⟨e, found, same'.trans same⟩

def Op.Inserts (k : K) : Op K V → Prop
  | .insert key .. => key = k
  | _ => False

theorem apply_keepsValue {op : Op K V} (other : ¬ op.Inserts k) (done : apply P c op = some c') : KeepsValue c c' k := by
  cases op with
  | insert key value address now =>
    intro e' held
    exact (insert_value done held).resolve_right fun new => other new.1.symm
  | find key now now' upgraded =>
    simp only [apply, Option.bind_eq_bind, Option.bind_eq_some_iff, Option.pure_def, Option.some.injEq] at done
    obtain ⟨⟨r, c''⟩, found, rfl⟩ := done
    exact (find_value found).2
  | clear =>
    simp only [apply, Cache.clear, Option.bind_eq_bind, Option.bind_eq_some_iff, Option.pure_def,
      Option.some.injEq] at done
    obtain ⟨heap, -, rfl⟩ := done
    intro e' held
    rw [Finmap.lookup_empty] at held
    cases held

/-- In a run that inserts only new keys, whatever is found under a key after its insertion is what was inserted, and
right after the insertion it is found, if the number of items is the only limit. -/
theorem last_write_wins (P : Config V) {c c₁ c₂ : Cache K V} {k : K} {value : V} {address : Nat} {now : Int}
    (reachable : CacheReachable P InsertsNew c) (legal : address ∉ c.heap) (new : k ∉ c.hashmap)
    (inserted : c.insert P k value address now = some c₁)
    (later : Reachable (· = c₁) (CacheStep P fun c op => InsertsNew c op ∧ ¬ op.Inserts k) c₂) :
    (∀ now now' upgraded r c₃, c₂.find P k now now' upgraded = some (some r, c₃) → r = value) ∧
      (1 ≤ P.maxItemCount → P.maxItemMemoryUsage = 0 →
        ∀ now now' upgraded, ∃ c₃, c₁.find P k now now' upgraded = some (some value, c₃)) := by
  have first : ∀ e, c₁.hashmap.lookup k = some e → e.value = value := by
    intro e held
    rcases insert_value inserted held with ⟨e', found, -⟩ | ⟨-, same⟩
    · exact absurd (Finmap.mem_of_lookup_eq_some found) new
    · exact same
  have kept : KeepsValue c₁ c₂ k := by
    refine later.invariant (fun c₂ => KeepsValue c₁ c₂ k) ?_ ?_
    · rintro c rfl
      exact keepsValue_of_eq rfl
    · rintro c c' before ⟨op, -, ⟨-, other⟩, applied⟩
      exact before.trans (apply_keepsValue other applied)
  constructor
  · intro now now' upgraded r c₃ found
    obtain ⟨e₂, held, value_⟩ := Option.map_eq_some_iff.1 (find_value found (k := k)).1.symm
    obtain ⟨e₁, held₁, same⟩ := kept e₂ held
    rw [← value_, ← same]
    exact first e₁ held₁
  · intro limit noMemory t t' upgraded
    obtain ⟨l, accounted⟩ := accounted_reachable reachable
    obtain ⟨c', l', inserted', accounted', there⟩ := accounted.insert new legal value now
    rw [inserted] at inserted'
    cases inserted'
    obtain ⟨e, held⟩ := Finmap.mem_iff.1 (there limit noMemory)
    obtain ⟨r, c₃, -, found, -⟩ := accounted'.find k t t' upgraded
    have result := (find_value found (k := k)).1
    rw [held, Option.map_some, first e held] at result
    exact ⟨c₃, result ▸ found⟩

theorem last_write_wins_one : ∃ c : Cache Nat Nat, (empty Nat Nat).insert fourItems 1 5 0 0 = some c ∧
    ∃ c', c.find fourItems 1 0 0 true = some (some 5, c') := by
  obtain ⟨c, inserted⟩ : ∃ c, (empty Nat Nat).insert fourItems 1 5 0 0 = some c := ⟨_, rfl⟩
  exact ⟨c, inserted, (last_write_wins fourItems (.initial rfl) Finmap.notMem_empty Finmap.notMem_empty inserted
    (.initial rfl)).2 (by decide) rfl 0 0 true⟩

def oneItem : Config Nat := ⟨1, 0, 0, 0, fun _ => 8⟩

/-- The second insertion of a key does not count, or removes the key. -/
theorem second_write_lost : (∃ c₁ c₂ c₃ : Cache Nat Nat, (empty Nat Nat).insert fourItems 1 5 0 0 = some c₁ ∧
      c₁.insert fourItems 1 6 1 0 = some c₂ ∧ c₂.find fourItems 1 0 0 true = some (some 5, c₃)) ∧
    ∃ c₁ c₂ c₃ : Cache Nat Nat, (empty Nat Nat).insert oneItem 1 5 0 0 = some c₁ ∧
      c₁.insert oneItem 1 6 1 0 = some c₂ ∧ c₂.find oneItem 1 0 0 true = some (none, c₃) :=
  ⟨⟨_, _, _, rfl, rfl, rfl⟩, _, _, _, rfl, rfl, rfl⟩

end Prpc.LRUCache
