import Mathlib.Data.Nat.ModEq
import Mathlib.Tactic.Ring

namespace Prpc.Lib

abbrev Byte := UInt8

def inRange (first last : Char) (c : Byte) : Bool := first.toUInt8 ≤ c && c ≤ last.toUInt8

theorem forall_byte {p : Byte → Prop} (each : ∀ n : Fin 256, p ⟨⟨n⟩⟩) (b : Byte) : p b := each b.toFin

def leBytes : Nat → Nat → List Byte
  | 0, _ => []
  | n + 1, v => UInt8.ofNat v :: leBytes n (v / 256)

def leNat : List Byte → Nat
  | [] => 0
  | b :: bs => b.toNat + 256 * leNat bs

@[simp] theorem leBytes_length (n v : Nat) : (leBytes n v).length = n := by
  induction n generalizing v with
  | zero => rfl
  | succ n ih => simp [leBytes, ih]

theorem leNat_leBytes (n v : Nat) : leNat (leBytes n v) = v % 256 ^ n := by
  induction n generalizing v with
  | zero => simp [leBytes, leNat, Nat.mod_one]
  | succ n ih =>
    have low : (UInt8.ofNat v).toNat = v % 256 := UInt8.toNat_ofNat'
    rw [leBytes, leNat, ih, low, Nat.pow_succ', Nat.mod_mul]

theorem ofNat_leNat_leBytes {n : Nat} (x : BitVec (8 * n)) :
    BitVec.ofNat (8 * n) (leNat (leBytes n x.toNat)) = x := by
  have bound : x.toNat < 256 ^ n := by
    have lt := x.isLt
    rwa [Nat.pow_mul] at lt
  rw [leNat_leBytes, Nat.mod_eq_of_lt bound, BitVec.ofNat_toNat, BitVec.setWidth_eq]

end Prpc.Lib
