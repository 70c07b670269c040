import CFunction.Misc.CString
import Mathlib.Algebra.Group.Nat.Defs

/-!
# Little-endian fields

A field of `k` bytes in a buffer, least significant byte first. `BytesAt` says which bytes
stand at an index; it splits at the parts of a record, and gives the value of each field.
-/

namespace CFunction
namespace LittleEndian

open CString

/-- The `k` low bytes of `n`. -/
def toLE : Nat → Nat → Bytes
  | 0, _ => []
  | k + 1, n => UInt8.ofNat n :: toLE k (n / 256)

def ofLE : Bytes → Nat
  | [] => 0
  | b :: bs => b.toNat + 256 * ofLE bs

/-- The `k` bytes from `off` on as a number. -/
def loadLE (buf : Bytes) (off k : Nat) : Option Nat :=
  if off + k ≤ buf.length then some (ofLE ((buf.drop off).take k)) else none

def storeLE (buf : Bytes) (off k n : Nat) : Option Bytes := overwrite buf off (toLE k n)

/-- `buf` has the bytes `bs` from `off` on. -/
def BytesAt (buf : Bytes) (off : Nat) (bs : Bytes) : Prop :=
  ∃ front rest, buf = front ++ (bs ++ rest) ∧ front.length = off

variable {buf bs cs : Bytes} {off k n : Nat}

@[simp] theorem toLE_length (k n : Nat) : (toLE k n).length = k := by
  induction k generalizing n with
  | zero => rfl
  | succ k ih => rw [toLE, List.length_cons, ih]

theorem ofLE_toLE (h : n < 256 ^ k) : ofLE (toLE k n) = n := by
  induction k generalizing n with
  | zero =>
    rw [Nat.pow_zero] at h
    rw [toLE, ofLE]
    omega
  | succ k ih =>
    have hdiv : n / 256 < 256 ^ k := by
      apply Nat.div_lt_of_lt_mul
      rwa [Nat.mul_comm, ← Nat.pow_succ]
    have hlow : (UInt8.ofNat n).toNat = n % 256 := UInt8.toNat_ofNat'
    rw [toLE, ofLE, ih hdiv, hlow]
    exact Nat.mod_add_div n 256

/-! ### Bytes at an index -/

theorem bytesAt_zero (bs rest : Bytes) : BytesAt (bs ++ rest) 0 bs := ⟨[], rest, rfl, rfl⟩

theorem BytesAt.left (h : BytesAt buf off (bs ++ cs)) : BytesAt buf off bs := by
  obtain ⟨front, rest, rfl, hfront⟩ := h
  exact ⟨front, cs ++ rest, by rw [List.append_assoc], hfront⟩

theorem BytesAt.right (h : BytesAt buf off (bs ++ cs)) : BytesAt buf (off + bs.length) cs := by
  obtain ⟨front, rest, rfl, rfl⟩ := h
  refine ⟨front ++ bs, rest, ?_, List.length_append⟩
  simp only [List.append_assoc]

/-- The part behind a part of known size. -/
theorem BytesAt.behind (h : BytesAt buf off (bs ++ cs)) (hk : bs.length = k) :
    BytesAt buf (off + k) cs := hk ▸ h.right

theorem BytesAt.le_length (h : BytesAt buf off bs) : off + bs.length ≤ buf.length := by
  obtain ⟨front, rest, rfl, rfl⟩ := h
  simp only [List.length_append]
  omega

theorem BytesAt.take (h : BytesAt buf off bs) : (buf.drop off).take bs.length = bs := by
  obtain ⟨front, rest, rfl, rfl⟩ := h
  rw [List.drop_left, List.take_left]

theorem BytesAt.loadLE (h : BytesAt buf off bs) (hk : bs.length = k) :
    loadLE buf off k = some (ofLE bs) := by
  subst hk
  rw [LittleEndian.loadLE, if_pos h.le_length, h.take]

/-- A field is read as it was written. -/
theorem BytesAt.number (h : BytesAt buf off (toLE k n)) (hn : n < 256 ^ k) :
    LittleEndian.loadLE buf off k = some n := by
  rw [h.loadLE (toLE_length k n), ofLE_toLE hn]

theorem BytesAt.field (h : BytesAt buf off (toLE k n ++ cs)) (hn : n < 256 ^ k) :
    LittleEndian.loadLE buf off k = some n := h.left.number hn

theorem BytesAt.skip (h : BytesAt buf off (toLE k n ++ cs)) : BytesAt buf (off + k) cs :=
  h.behind (toLE_length k n)

/-- A write puts its bytes in place and keeps what stands before them. -/
theorem bytesAt_overwrite (hfront : BytesAt buf 0 cs) (hroom : cs.length + bs.length ≤ buf.length) :
    ∃ buf', overwrite buf cs.length bs = some buf' ∧ BytesAt buf' 0 (cs ++ bs) ∧
      buf'.length = buf.length := by
  obtain ⟨front, rest, rfl, hlen⟩ := hfront
  obtain rfl := List.eq_nil_of_length_eq_zero hlen
  have hwrite : overwrite ([] ++ (cs ++ rest)) cs.length bs =
      some (cs ++ bs ++ rest.drop bs.length) := by
    rw [overwrite, if_pos hroom, List.nil_append, List.take_left, List.drop_append]
    simp
  exact ⟨_, hwrite, bytesAt_zero _ _, length_overwrite hwrite⟩

/-- A number written behind the bytes written so far. -/
theorem bytesAt_storeLE (off k n : Nat) {size : Nat} (hfront : BytesAt buf 0 cs)
    (hoff : cs.length = off) (hsize : buf.length = size) (hroom : off + k ≤ size) :
    ∃ buf', storeLE buf off k n = some buf' ∧ BytesAt buf' 0 (cs ++ toLE k n) ∧
      buf'.length = size := by
  subst hoff hsize
  apply bytesAt_overwrite hfront
  rwa [toLE_length]

end LittleEndian
end CFunction
