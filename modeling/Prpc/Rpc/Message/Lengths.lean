import Prpc.Rpc.Message.Conversion

namespace Prpc.Archive
open Lib

def DataBlock.Put (b : DataBlock) : Prop := b = putSharedUncheck b.data

theorem put_putSharedUncheck (bytes : List Byte) : (putSharedUncheck bytes).Put := rfl

namespace Lazy
variable {k v : Carrier}

def PutsBlocks (s : LazySerializer k) : Prop := ∀ x, ∀ b ∈ (s.picoSerialize x).2, b.Put

theorem putsBlocks_binary (b : BinaryType) : PutsBlocks (binary b) := fun _ _ mem => nomatch mem

theorem putsBlocks_block : PutsBlocks block := by
  intro x b mem
  rw [List.mem_singleton.1 mem]
  exact put_putSharedUncheck _

theorem putsBlocks_archive : PutsBlocks archive := by
  intro x b mem
  rw [List.mem_singleton.1 mem]
  exact put_putSharedUncheck _

theorem PutsBlocks.vector {s : LazySerializer k} (puts : PutsBlocks s) : PutsBlocks (vector s) := by
  intro x b mem
  rw [Lazy.vector] at mem
  split at mem
  · rw [List.mem_singleton.1 mem]
    exact put_putSharedUncheck _
  · obtain ⟨item, -, mem⟩ := List.mem_flatMap.1 mem
    exact puts item b mem

theorem PutsBlocks.map (key : BinaryType) {s : LazySerializer v} (puts : PutsBlocks s) :
    PutsBlocks (map key s) := by
  intro x b mem
  obtain ⟨item, -, mem⟩ := List.mem_flatMap.1 mem
  exact puts item.2 b mem

theorem PutsBlocks.pair {s : LazySerializer k} {t : LazySerializer v} (puts : PutsBlocks s)
    (puts' : PutsBlocks t) : PutsBlocks (pair s t) := by
  intro x b mem
  rcases List.mem_append.1 mem with first | second
  · exact puts x.1 b first
  · exact puts' x.2 b second

end Lazy

variable {T : Type} {bin : T → BinaryType}

theorem LazyType.putsBlocks (t : LazyType T) : Lazy.PutsBlocks (t.serializer bin) := by
  induction t with
  | binary t => exact Lazy.putsBlocks_binary (bin t)
  | block => exact Lazy.putsBlocks_block
  | archive => exact Lazy.putsBlocks_archive
  | vector t ih => exact ih.vector
  | map key t ih => exact ih.map (bin key)
  | pair a b iha ihb => exact iha.pair ihb

theorem LazyArchive.put_of_mem_apply {a : LazyArchive bin} (held : ∀ b ∈ a.data, b.Put) :
    ∀ b ∈ a.apply.1, b.Put := by
  intro b mem
  rw [apply] at mem
  split at mem
  · exact held b mem
  · rcases List.mem_append.1 mem with mem | last
    · rcases List.mem_append.1 mem with old | new
      · exact held b old
      · obtain ⟨item, -, mem⟩ := List.mem_flatMap.1 new
        exact item.1.putsBlocks item.2 b mem
    · rw [List.mem_singleton.1 last]
      exact put_putSharedUncheck _

end Prpc.Archive

namespace Prpc.Message
open Lib Prpc.Archive

variable {T : Type} {bin : T → BinaryType}

def extraBytes (data : List DataBlock) : Nat :=
  blockSize * data.length +
    ((data.filter fun b => decide (b.data.length < minZeroCopySize)).map fun b => b.data.length).sum

structure LengthsExact (m : RpcMessage) : Prop where
  blocks : ∀ b ∈ m.data, b.length = b.data.length
  count : m.head.extraBlockCount.toNat = m.data.length
  length : m.head.extraBlockLength.toNat = extraBytes m.data

structure SizesFit (data : List DataBlock) : Prop where
  blocks : ∀ b ∈ data, b.data.length < 2 ^ 32
  extra : extraBytes data < 2 ^ 32

theorem lengths_of_fit {data : List DataBlock} (put : ∀ b ∈ data, b.Put) :
    (∀ b ∈ data, b.length = b.data.length) ↔ ∀ b ∈ data, b.data.length < 2 ^ 32 := by
  have field : ∀ b ∈ data, b.length = b.data.length % 2 ^ 32 := fun b mem => by
    conv_lhs => rw [put b mem]
    rfl
  constructor
  · intro exact_ b mem
    rw [← exact_ b mem, field b mem]
    exact Nat.mod_lt _ (by decide)
  · intro fit b mem
    rw [field b mem]
    exact Nat.mod_eq_of_lt (fit b mem)

theorem blockBytes_eq {data : List DataBlock} (lengths : ∀ b ∈ data, b.length = b.data.length) :
    blockBytes data = extraBytes data := by
  have filter : (data.filter fun b => decide (b.length < minZeroCopySize)) =
      data.filter fun b => decide (b.data.length < minZeroCopySize) :=
    List.filter_congr fun b mem => by rw [lengths b mem]
  have map : ((data.filter fun b => decide (b.data.length < minZeroCopySize)).map DataBlock.length) =
      (data.filter fun b => decide (b.data.length < minZeroCopySize)).map fun b => b.data.length :=
    List.map_congr_left fun b mem => lengths b (List.mem_of_mem_filter mem)
  rw [blockBytes, extraBytes, filter, map]

def requestWith (n : Nat) (small : n < 2 ^ 64) : Packet noTypes :=
  Packet.request.putLazy ⟨.archive, ⟨⟨List.replicate n 0, 0⟩, Nat.zero_le _, by rwa [List.length_replicate]⟩⟩

theorem requestWith_block (n : Nat) (small : n < 2 ^ 64) : ∃ m, (requestWith n small).toMessage = some m ∧
    ∃ b ∈ m.data, b.data.length = n ∧ b.length = n % 2 ^ 32 := by
  have size : ((List.replicate n (0 : Byte)).drop 0).length = n := List.length_replicate
  refine ⟨_, rfl, putSharedUncheck ((List.replicate n 0).drop 0),
    List.mem_append_left _ (List.mem_cons_self ..), size, ?_⟩
  show ((List.replicate n (0 : Byte)).drop 0).length % 2 ^ 32 = n % 2 ^ 32
  rw [size]

def largeRequest : Packet noTypes := requestWith (2 ^ 32 + 5) (by decide)

end Prpc.Message
