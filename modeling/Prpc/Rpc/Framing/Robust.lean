import Prpc.Rpc.Framing.Model

/-!
The sizes in a head are not checked against each other.
-/

namespace Prpc.Framing
open Lib Prpc.Archive Message Tcp

variable {s s' : State} {mem : Mem} {start size : Nat}

def inlineLengths (mem : Mem) : Nat → Nat → List Nat
  | 0, _ => []
  | n + 1, entry =>
    let rest := inlineLengths mem n (address entry blockSize)
    if entryLength mem entry < minZeroCopySize then entryLength mem entry :: rest else rest

theorem receiveBlocks_reads (n entry cur : Nat) :
    (∀ span ∈ (receiveBlocks mem n entry cur).reads, Inside start size span) ↔
      (∀ span ∈ spans entry (List.replicate n blockSize), Inside start size span) ∧
      ∀ span ∈ spans cur (inlineLengths mem n entry), Inside start size span := by
  induction n generalizing entry cur with
  | zero => simp [receiveBlocks, spans, inlineLengths]
  | succ n ih =>
    simp only [receiveBlocks, inlineLengths, List.replicate_succ, spans, List.forall_mem_cons]
    split
    · simp only [List.forall_mem_cons, ih, spans]
      tauto
    · simp only [List.forall_mem_cons, ih]
      tauto

structure WellFramed (mem : Mem) (start : Nat) : Prop where
  fits : start + msgSize (headAt mem start) < wordSpace
  long : headSize ≤ msgSize (headAt mem start)
  blocks : (headAt mem start).extraBlockCount.toNat = 0 ∨
    (headSize + (headAt mem start).bodySize.toNat) % wordSpace +
      (headAt mem start).extraBlockCount.toNat * blockSize +
      (inlineLengths mem (headAt mem start).extraBlockCount.toNat (lazyMeta mem start)).sum ≤
    msgSize (headAt mem start)

theorem room_iff {first table blocks : Nat} (small : size < wordSpace) :
    first % wordSpace + table ≤ size ∧ (blocks = 0 ∨ (first + table) % wordSpace + blocks ≤ size) ↔
      first % wordSpace + table + blocks ≤ size := by
  have sum (fits : first % wordSpace + table ≤ size) :
      (first + table) % wordSpace = first % wordSpace + table := by
    rw [← Nat.mod_add_mod, Nat.mod_eq_of_lt (by omega)]
  constructor
  · rintro ⟨table_fits, blocks_fit⟩
    rw [sum table_fits] at blocks_fit
    omega
  · intro all
    have table_fits : first % wordSpace + table ≤ size := by omega
    rw [sum table_fits]
    exact ⟨table_fits, .inr all⟩

theorem receive_inside (fits : start + msgSize (headAt mem start) < wordSpace) :
    (∀ span ∈ (receive mem start).reads, Inside start (msgSize (headAt mem start)) span) ↔
      (headAt mem start).extraBlockCount.toNat = 0 ∨
      (headSize + (headAt mem start).bodySize.toNat) % wordSpace +
        (headAt mem start).extraBlockCount.toNat * blockSize +
        (inlineLengths mem (headAt mem start).extraBlockCount.toNat (lazyMeta mem start)).sum ≤
      msgSize (headAt mem start) := by
  generalize h : headAt mem start = head at fits ⊢
  have table : lazyMeta mem start = address start ((headSize + head.bodySize.toNat) % wordSpace) := by
    rw [address_mod, lazyMeta, h]
  have inline_ : extra mem start = address start
      ((headSize + head.bodySize.toNat + head.extraBlockCount.toNat * blockSize) % wordSpace) := by
    rw [address_mod, extra, h]
  have positive : 0 < wordSpace := by decide
  rw [receive, receiveBlocks_reads, inline_, h]
  nth_rewrite 1 [table]
  rw [spans_inside fits _ (Nat.mod_lt _ positive), spans_inside fits _ (Nat.mod_lt _ positive),
    List.sum_replicate, Nat.nsmul_eq_mul]
  rcases Nat.eq_zero_or_pos head.extraBlockCount.toNat with none_left | pos
  · simp [none_left, inlineLengths]
  · have some_bytes : head.extraBlockCount.toNat * blockSize ≠ 0 :=
      Nat.mul_ne_zero (Nat.ne_of_gt pos) (by decide)
    rw [or_iff_right some_bytes, or_iff_right (Nat.ne_of_gt pos)]
    exact room_iff (by omega)

theorem msgSize_lt (h : RpcHead) : msgSize h < wordSpace := Nat.mod_lt _ (by decide)

theorem msgCursor_deliver (s : State) : s.deliver.buffer.msgCursor = s.expectedMsgEnd := by
  rw [State.deliver]

theorem cursor_deliver (s : State) : s.deliver.buffer.cursor = s.buffer.cursor := by
  rw [State.deliver]

theorem parsing_deliver (s : State) : s.deliver.parsing = s.parsing := by rw [State.deliver]

def Words (s : State) : Prop := s.buffer.cursor < wordSpace ∧ s.buffer.msgCursor < wordSpace

theorem Words.moveIf {full : Prop} [Decidable full] {size fresh : Nat} (words : Words s)
    (moved : s.moveIf full size fresh = some s') : Words s' := by
  rw [State.moveIf] at moved
  split at moved
  · rw [State.move] at moved
    split at moved
    · rename_i possible
      cases moved
      have below : State.limit < wordSpace := by decide
      exact ⟨address_lt _ _, by simp only; omega⟩
    · cases moved
  · cases moved
    exact words

theorem Words.recv {bytes : List Byte} {fresh : Nat} (words : Words s) (done : s.recv bytes fresh = some s') :
    Words s' := by
  rw [State.recv] at done
  split at done
  · cases done
  · obtain ⟨s₁, moved, done⟩ := Option.bind_eq_some_iff.mp done
    have after := words.moveIf moved
    split at done
    · cases done
      exact ⟨address_lt _ _, after.2⟩
    · cases done

theorem Words.pass {fresh : Nat} (words : Words s) (done : s.pass fresh = some s') : Words s' := by
  rw [State.pass] at done
  split at done
  · split at done
    · rw [← Option.some.inj done, Words, cursor_deliver, msgCursor_deliver, State.expectedMsgEnd]
      exact ⟨words.1, address_lt _ _⟩
    · split at done
      · obtain ⟨s₁, moved, rfl⟩ := Option.map_eq_some_iff.mp done
        exact (words.moveIf moved :)
      · obtain ⟨s₁, moved, rfl⟩ := Option.map_eq_some_iff.mp done
        exact (words.moveIf moved :)
  · cases done

theorem words_of_reachable (reachable : FramingReachable s) : Words s := by
  refine Reachable.invariant Words ?_ ?_ reachable
  · rintro s ⟨mem, rfl⟩
    have positive : 0 < wordSpace := by decide
    exact ⟨positive, positive⟩
  · rintro s s' words ⟨a, done⟩
    cases a with
    | recv bytes fresh => exact words.recv done
    | pass fresh => exact words.pass done

theorem advances_iff (lt : start < wordSpace) (small : size < wordSpace) :
    start + headSize ≤ address start size ↔ start + size < wordSpace ∧ headSize ≤ size := by
  by_cases fits : start + size < wordSpace
  · rw [address_of_lt fits]
    omega
  · have := address_wraps small (by omega) lt
    omega

theorem pass_of_delivers {fresh : Nat} (delivers : s.Delivers) (done : s.pass fresh = some s') : s' = s.deliver := by
  rw [State.pass, if_pos delivers] at done
  split at done
  · exact (Option.some.inj done).symm
  · cases done

inductive GoodPasses : Nat → State → State → Prop
  | none (s : State) : GoodPasses 0 s s
  | more {n : Nat} {s s₁ t : State} (fresh : Nat) (delivers : s.Delivers) (done : s.pass fresh = some s₁)
      (framed : WellFramed s.mem s.buffer.msgCursor) (rest : GoodPasses n s₁ t) : GoodPasses (n + 1) s t

theorem GoodPasses.bound {n : Nat} {t : State} (passes : GoodPasses n s t) :
    n = 0 ∨ s.buffer.msgCursor + headSize * n ≤ s.buffer.cursor := by
  induction passes with
  | none s => exact .inl rfl
  | @more n s s₁ t fresh delivers done framed rest ih =>
    refine .inr ?_
    rw [pass_of_delivers delivers done] at ih
    rw [msgCursor_deliver, cursor_deliver] at ih
    have next : s.expectedMsgEnd = s.buffer.msgCursor + msgSize s.head := address_of_lt framed.fits
    have within : s.expectedMsgEnd ≤ s.buffer.cursor := delivers.2
    have long : headSize ≤ msgSize s.head := framed.long
    rw [Nat.mul_succ]
    rcases ih with rfl | bound
    · omega
    · omega

def oneHead (h : RpcHead) : Option State := act (initial fun _ => 0) (.recv (headBytes h 0) 4096)

theorem oneHead_reachable {h : RpcHead} (came : oneHead h = some s) : FramingReachable s :=
  .next (.initial ⟨_, rfl⟩) (.act _ came)

theorem exists_oneHead {h : RpcHead} {p : State → Prop} [DecidablePred p]
    (holds : (oneHead h).any (fun s => s.parsing && s.Delivers && p s) = true) :
    ∃ s, FramingReachable s ∧ s.Delivers ∧ s.pass 0 = some s.deliver ∧ p s := by
  obtain ⟨s, came, holds⟩ := (Option.any_eq_true ..).1 holds
  rw [Bool.and_eq_true, Bool.and_eq_true, decide_eq_true_iff, decide_eq_true_iff] at holds
  obtain ⟨⟨parsing, delivers⟩, here⟩ := holds
  exact ⟨s, oneHead_reachable came, delivers, by rw [State.pass, if_pos parsing, if_pos delivers], here⟩

end Prpc.Framing
