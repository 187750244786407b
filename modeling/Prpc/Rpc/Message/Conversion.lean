import Prpc.Rpc.Message.Model

/-!
What a packet holds reaches the message when it was built in the process.
-/

namespace Prpc.Message
open Lib Prpc.Archive
variable {T : Type} [DecidableEq T] {bin : T → BinaryType}

def RpcHead.SameAs (h h' : RpcHead) : Prop :=
  { h with bodySize := 0, extraBlockCount := 0, extraBlockLength := 0 } =
    { h' with bodySize := 0, extraBlockCount := 0, extraBlockLength := 0 }

instance (h h' : RpcHead) : Decidable (h.SameAs h') := inferInstanceAs (Decidable (_ = _))

structure Carries (p : Packet bin) (m : RpcMessage) : Prop where
  head : m.head.SameAs p.head
  body : m.body = p.ar
  bodySize : m.head.bodySize.toNat = m.body.length
  data : m.data = p.lazy.apply.1
  count : m.head.extraBlockCount.toNat = m.data.length
  length : m.head.extraBlockLength.toNat = extraSize m

inductive Made : Packet bin → Prop where
  | request : Made Packet.request
  | requestTo (destRank : BitVec 16) : Made (Packet.requestTo destRank)
  | response : Made Packet.response
  | responseTo (req : RpcHead) : Made (Packet.responseTo req)
  | received (m : RpcMessage) (body : m.head.bodySize.toNat = m.body.length)
      (count : m.head.extraBlockCount.toNat = m.data.length) : Made (Packet.ofMessage m)
  | write {p : Packet bin} (made : Made p) (built : p.msg = none) (bytes : List Byte)
      (fits : (p.ar ++ bytes).length < 2 ^ 64) : Made (p.write bytes)
  | putLazy {p : Packet bin} (made : Made p) (built : p.msg = none) (value : Item bin) :
      Made (p.putLazy value)
  | editHead {p : Packet bin} (made : Made p) (f : RpcHead → RpcHead) : Made (p.editHead f)
  | setSid {p : Packet bin} (made : Made p) (sid : BitVec 32) : Made (p.setSid sid)
  | setErrorCode {p : Packet bin} (made : Made p) (code : BitVec 16) : Made (p.setErrorCode code)
  | read {p : Packet bin} (made : Made p) (n : Nat) (available : p.cursor + n ≤ p.ar.length) : Made (p.read n)
  | getLazy {p p' : Packet bin} (made : Made p) (target : Target bin)
      (got : p.getLazy target = some p') : Made p'

def blockBytes (data : List DataBlock) : Nat :=
  blockSize * data.length +
    ((data.filter fun b => decide (b.length < minZeroCopySize)).map DataBlock.length).sum

theorem sum_filter_pos (data : List DataBlock) :
    ((data.filter fun b => decide (b.length < minZeroCopySize ∧ 0 < b.length)).map DataBlock.length).sum =
    ((data.filter fun b => decide (b.length < minZeroCopySize)).map DataBlock.length).sum := by
  induction data with
  | nil => rfl
  | cons b data ih =>
    rw [List.filter_cons, List.filter_cons]
    by_cases small : b.length < minZeroCopySize
    · rw [if_pos (decide_eq_true small), List.map_cons, List.sum_cons, ← ih]
      by_cases pos : 0 < b.length
      · rw [if_pos (decide_eq_true ⟨small, pos⟩), List.map_cons, List.sum_cons]
      · rw [if_neg (by simp [pos])]
        omega
    · rw [if_neg (by simp [small]), if_neg (by simp [small]), ih]

theorem extraSize_eq (m : RpcMessage) : extraSize m = blockBytes m.data := by
  have blocks : ((m.data.filter fun b => decide (b.length < minZeroCopySize ∧ 0 < b.length)).map
      Segment.block).map Segment.size = (m.data.filter fun b =>
        decide (b.length < minZeroCopySize ∧ 0 < b.length)).map DataBlock.length := by
    rw [List.map_map]
    rfl
  have table : ((if m.data ≠ [] then [Segment.table m.data.length] else []).map
      Segment.size).sum = blockSize * m.data.length := by
    by_cases some : m.data ≠ []
    · rw [if_pos some]
      rfl
    · rw [if_neg some, of_not_not some]
      rfl
  change (((if m.data ≠ [] then [Segment.table m.data.length] else []) ++
    (m.data.filter fun b => decide (b.length < minZeroCopySize ∧ 0 < b.length)).map
      Segment.block).map Segment.size).sum = _
  rw [List.map_append, List.sum_append, table, blocks, sum_filter_pos, blockBytes]

theorem foldl_length (small : List DataBlock) (n : Nat) :
    small.foldl (fun length b => length + BitVec.ofNat 32 b.length) (BitVec.ofNat 32 n) =
      BitVec.ofNat 32 (n + (small.map DataBlock.length).sum) := by
  induction small generalizing n with
  | nil => simp
  | cons b small ih =>
    rw [List.foldl_cons, ← BitVec.ofNat_add, ih, List.map_cons, List.sum_cons, Nat.add_assoc]

structure Kept (p : Packet bin) : Prop where
  small : p.ar.length < 2 ^ 64
  message : ∀ m, p.msg = some m → m.data = [] ∧ m.body = p.ar ∧
    m.head.bodySize.toNat = m.body.length ∧ p.lazy.lazy = [] ∧
    (p.lazy.data = [] → m.head.extraBlockCount = 0)

omit [DecidableEq T] in
theorem data_of_moveOn {a : LazyArchive bin} {rest : Input} (none : (a.moveOn rest).data = []) :
    a.data = [] := by
  simp only [LazyArchive.moveOn, List.append_eq_nil_iff, List.replicate_eq_nil_iff] at none
  obtain ⟨⟨taken, used⟩, left⟩ := none
  rw [left, List.length_nil, Nat.sub_zero, List.length_eq_zero_iff] at used
  rw [← List.take_append_drop a.pos a.data, taken, used, List.append_nil]

theorem Kept.getLazy {p p' : Packet bin} (kept : Kept p) {target : Target bin}
    (got : p.getLazy target = some p') : Kept p' := by
  rw [Packet.getLazy, Option.bind_eq_bind, Option.bind_eq_some_iff] at got
  obtain ⟨⟨x, lazy⟩, found, same⟩ := got
  cases same
  refine ⟨kept.small, fun m msg => ?_⟩
  obtain ⟨data, body, size, values, count⟩ := kept.message m msg
  refine ⟨data, body, size, ?_⟩
  rw [LazyArchive.get] at found
  split at found
  · rw [values, List.getElem?_nil] at found
    cases found
  · split at found
    · cases found
    · cases found
      exact ⟨values, fun none => count (data_of_moveOn none)⟩

theorem Made.kept {p : Packet bin} (made : Made p) : Kept p := by
  induction made with
  | request | requestTo | response | responseTo =>
    exact ⟨(by decide : 0 < 2 ^ 64), fun m msg => nomatch msg⟩
  | received m body count =>
    refine ⟨body ▸ m.head.bodySize.isLt, fun m' msg => ?_⟩
    cases msg
    refine ⟨rfl, rfl, body, rfl, fun none => ?_⟩
    have empty : m.data = [] := none
    rw [empty] at count
    exact BitVec.eq_of_toNat_eq count
  | write made built bytes fits ih =>
    exact ⟨fits, fun m msg => nomatch built.symm.trans msg⟩
  | putLazy made built value ih =>
    exact ⟨ih.small, fun m msg => nomatch built.symm.trans msg⟩
  | editHead made f ih => exact ⟨ih.small, ih.message⟩
  | setSid made sid ih => exact ⟨ih.small, ih.message⟩
  | setErrorCode made code ih => exact ⟨ih.small, ih.message⟩
  | read made n available ih => exact ⟨ih.small, ih.message⟩
  | getLazy made target got ih => exact ih.getLazy got

/-- A packet that was built needs room for the head and blocks that can be counted; one that was
received must have come without blocks and with the head it still has. -/
def Convertible (p : Packet bin) : Prop :=
  match p.msg with
  | none => p.room = true ∧ blockBytes p.lazy.apply.1 < 2 ^ 32
  | some m => m.head.SameAs p.head ∧ p.lazy.apply.1 = [] ∧ m.head.extraBlockLength = 0

section
variable {p : Packet bin} (built : p.msg = none)

omit [DecidableEq T] in
include built in
theorem carries_room (carries : ∃ m, p.toMessage = some m ∧ Carries p m) : p.room = true := by
  obtain ⟨m, converted, carries⟩ := carries
  by_contra tight
  have buffer : p.buffer = p.ar := by rw [Packet.buffer, if_neg tight, List.nil_append]
  rw [Packet.toMessage, built] at converted
  simp only [messageInitialize, buffer, Option.ite_none_left_eq_some, Option.some.injEq]
    at converted
  obtain ⟨long, rfl⟩ := converted
  have body := congrArg List.length carries.body
  rw [List.length_drop] at body
  simp only [headSize] at long body
  omega

omit [DecidableEq T] in
include built in
theorem built_carries (small : p.ar.length < 2 ^ 64) : (∃ m, p.toMessage = some m ∧ Carries p m) ↔
      p.room = true ∧ blockBytes p.lazy.apply.1 < 2 ^ 32 := by
  constructor
  · intro carries
    refine ⟨carries_room built carries, ?_⟩
    obtain ⟨m, -, carries⟩ := carries
    rw [← carries.data, ← extraSize_eq, ← carries.length]
    exact m.head.extraBlockLength.isLt
  · rintro ⟨room, countable⟩
    have buffer : p.buffer = List.replicate headSize 0 ++ p.ar := by rw [Packet.buffer, if_pos room]
    have long : ¬p.buffer.length < headSize := by
      rw [buffer, List.length_append, List.length_replicate]
      omega
    have body : p.buffer.drop headSize = p.ar := by
      rw [buffer, List.drop_left' List.length_replicate]
    have size : p.buffer.length - headSize = p.ar.length := by
      rw [buffer, List.length_append, List.length_replicate, Nat.add_sub_cancel_left]
    have count : p.lazy.apply.1.length < 2 ^ 32 := by
      simp only [blockBytes, blockSize] at countable
      omega
    refine ⟨_, by rw [Packet.toMessage, built]; exact if_neg long, ?_⟩
    refine { head := rfl, body, bodySize := ?_, data := rfl, count := ?_, length := ?_ }
    · rw [body, size]
      exact Nat.mod_eq_of_lt small
    · exact Nat.mod_eq_of_lt count
    · rw [extraSize_eq, foldl_length]
      exact Nat.mod_eq_of_lt countable

end

omit [DecidableEq T] in
theorem received_carries {p : Packet bin} {m : RpcMessage} (received : p.msg = some m)
    (kept : Kept p) : (∃ m, p.toMessage = some m ∧ Carries p m) ↔
      m.head.SameAs p.head ∧ p.lazy.apply.1 = [] ∧ m.head.extraBlockLength = 0 := by
  obtain ⟨data, body, size, values, count⟩ := kept.message m received
  have held : p.lazy.apply.1 = p.lazy.data := by rw [LazyArchive.apply, if_pos values]
  have extra : extraSize m = 0 := by
    rw [extraSize_eq, data]
    rfl
  constructor
  · rintro ⟨m', converted, carries⟩
    rw [Packet.toMessage, received] at converted
    cases converted
    refine ⟨carries.head, carries.data.symm.trans data, ?_⟩
    exact BitVec.eq_of_toNat_eq (carries.length.trans extra)
  · rintro ⟨head, none, length⟩
    refine ⟨m, by rw [Packet.toMessage, received], ⟨head, body, size, ?_, ?_, ?_⟩⟩
    · rw [data, none]
    · rw [data, count (held ▸ none)]
      rfl
    · rw [extra, length]
      rfl

def noTypes : Empty → BinaryType := Empty.elim

def builtRequest : Packet noTypes := (Packet.request.write [1, 2, 3]).setSid 4

def forwarded : Packet noTypes :=
  (Packet.ofMessage
    { head := { sid := 5, extraBlockCount := 1, extraBlockLength := 17 }
      body := []
      data := [⟨[9], 1⟩] }).setSid 7

end Prpc.Message
