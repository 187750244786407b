import Prpc.Rpc.Message.Conversion

/-!
The head and the table of the blocks are sent as they lie in memory, with the padding, the addresses and
the owner marks of the sender. The receiver reads the numbers it needs at their offsets. Blocks of at
least `MIN_ZERO_COPY_SIZE` bytes go over a connection of their own.
-/

namespace Prpc.Tcp
open Lib Prpc.Archive Message

def field (bytes : List Byte) (offset n : Nat) : Nat := leNat ((bytes.drop offset).take n)

theorem field_here (n v : Nat) (rest : List Byte) : field (leBytes n v ++ rest) 0 n = v % 256 ^ n := by
  rw [field, List.drop_zero, List.take_left' (leBytes_length n v), leNat_leBytes]

theorem field_skip {m offset : Nat} (le : m ≤ offset) (v n : Nat) (rest : List Byte) :
    field (leBytes m v ++ rest) offset n = field rest (offset - m) n := by
  obtain ⟨behind, rfl⟩ := Nat.exists_eq_add_of_le le
  rw [field, field, ← List.drop_drop, List.drop_left' (leBytes_length m v), Nat.add_sub_cancel_left]

theorem field_drop (bytes : List Byte) (start offset n : Nat) :
    field bytes (start + offset) n = field (bytes.drop start) offset n := by
  rw [field, field, List.drop_drop]

theorem field_append {bytes : List Byte} {offset n : Nat} (inside : offset + n ≤ bytes.length)
    (rest : List Byte) : field (bytes ++ rest) offset n = field bytes offset n := by
  rw [field, field, List.drop_append_of_le_length (by omega), List.take_append_of_le_length]
  rw [List.length_drop]
  omega

def headBytes (h : RpcHead) (pad : BitVec 16) : List Byte :=
  leBytes 8 h.bodySize.toNat ++ (leBytes 2 h.srcRank.toNat ++ (leBytes 2 h.destRank.toNat ++
    (leBytes 4 h.srcDealer.toNat ++ (leBytes 4 h.destDealer.toNat ++ (leBytes 4 h.rpcId.toNat ++
    (leBytes 4 h.sid.toNat ++ (leBytes 4 h.extraBlockCount.toNat ++
    (leBytes 4 h.extraBlockLength.toNat ++ (leBytes 2 h.errorCode.toNat ++ leBytes 2 pad.toNat)))))))))

def readHead (bytes : List Byte) : RpcHead where
  bodySize := BitVec.ofNat 64 (field bytes 0 8)
  srcRank := BitVec.ofNat 16 (field bytes 8 2)
  destRank := BitVec.ofNat 16 (field bytes 10 2)
  srcDealer := BitVec.ofNat 32 (field bytes 12 4)
  destDealer := BitVec.ofNat 32 (field bytes 16 4)
  rpcId := BitVec.ofNat 32 (field bytes 20 4)
  sid := BitVec.ofNat 32 (field bytes 24 4)
  extraBlockCount := BitVec.ofNat 32 (field bytes 28 4)
  extraBlockLength := BitVec.ofNat 32 (field bytes 32 4)
  errorCode := BitVec.ofNat 16 (field bytes 36 2)

theorem headBytes_length (h : RpcHead) (pad : BitVec 16) : (headBytes h pad).length = headSize := by
  simp [headBytes, leBytes_length, headSize]

theorem ofNat_field {n : Nat} {x : BitVec (8 * n)} {v : Nat} (read : v = x.toNat % 256 ^ n) :
    BitVec.ofNat (8 * n) v = x := by
  rw [read, ← leNat_leBytes, ofNat_leNat_leBytes]

theorem readHead_headBytes (h : RpcHead) (pad : BitVec 16) (rest : List Byte) :
    readHead (headBytes h pad ++ rest) = h := by
  obtain ⟨bodySize, srcRank, destRank, srcDealer, destDealer, rpcId, sid, count, length, code⟩ := h
  simp only [readHead, headBytes, List.append_assoc, RpcHead.mk.injEq]
  refine ⟨ofNat_field (n := 8) ?_, ofNat_field (n := 2) ?_, ofNat_field (n := 2) ?_,
    ofNat_field (n := 4) ?_, ofNat_field (n := 4) ?_, ofNat_field (n := 4) ?_, ofNat_field (n := 4) ?_,
    ofNat_field (n := 4) ?_, ofNat_field (n := 4) ?_, ofNat_field (n := 2) ?_⟩
  all_goals simp (disch := decide) only [field_skip, field_here, Nat.reduceSub]

theorem readHead_append {bytes : List Byte} (long : headSize ≤ bytes.length) (rest : List Byte) :
    readHead (bytes ++ rest) = readHead bytes := by
  have inside : ∀ offset n, offset + n ≤ 40 → field (bytes ++ rest) offset n = field bytes offset n :=
    fun offset n le => field_append (Nat.le_trans le long) rest
  simp (disch := decide) only [readHead, inside]

def msgSize (h : RpcHead) : Nat := (headSize + h.extraBlockLength.toNat + h.bodySize.toNat) % 2 ^ 64

end Prpc.Tcp
