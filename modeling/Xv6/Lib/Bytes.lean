import Mathlib.Tactic

/-!
# Xv6.Lib.Bytes

Byte stores and the little-endian integers kept in them.

* `patch m off len src`: the store after `memmove` of `len` bytes to offset `off`.
* `value m off len`: the little-endian number held by the `len` bytes at `off`.
* `byteOf v k`: byte `k` of the encoding of `v`.

Everything a program keeps in such a store is read with `value` and written with `patch`, so two
facts carry all field lemmas: a range that holds the bytes of a number reads as that number modulo
`256 ^ len` (`value_of_bytes`), and a field disjoint from the patched range reads as before
(`value_patch_other`).
-/

namespace Xv6.Bytes

variable {a len off : Nat} {src : Nat → UInt8} {m : Store}

abbrev Store := Nat → UInt8

def patch (m : Store) (off len : Nat) (src : Nat → UInt8) : Store :=
  fun p => if off ≤ p ∧ p < off + len then src (p - off) else m p

def byteOf (v k : Nat) : UInt8 := UInt8.ofNat (v / 256 ^ k)

def value (m : Store) : Nat → Nat → Nat
  | _, 0 => 0
  | off, len + 1 => (m off).toNat + 256 * value m (off + 1) len

theorem patch_in {p : Nat} (h1 : off ≤ p)
    (h2 : p < off + len) : patch m off len src p = src (p - off) := by
  simp [patch, h1, h2]

theorem patch_out {p : Nat} (h : p < off ∨ off + len ≤ p) : patch m off len src p = m p := by
  have : ¬ (off ≤ p ∧ p < off + len) := by omega
  simp [patch, this]

theorem value_congr {m' : Store} : ∀ {len off : Nat}, (∀ k, k < len → m (off + k) = m' (off + k)) →
      value m off len = value m' off len := by
  intro len
  induction len with
  | zero => intro off _; rfl
  | succ len ih =>
    intro off h
    have h0 : m off = m' off := h 0 (by omega)
    have ht : value m (off + 1) len = value m' (off + 1) len := by
      apply ih
      intro k hk
      have := h (k + 1) (by omega)
      rwa [show off + (k + 1) = off + 1 + k by omega] at this
    simp only [value, h0, ht]

theorem byteOf_zero_toNat (v : Nat) : (byteOf v 0).toNat = v % 256 := by
  simp [byteOf]

theorem byteOf_succ (v k : Nat) : byteOf v (k + 1) = byteOf (v / 256) k := by
  simp [byteOf, Nat.pow_succ, Nat.div_div_eq_div_mul, Nat.mul_comm]

theorem value_of_bytes : ∀ {len off v : Nat}, (∀ k, k < len → m (off + k) = byteOf v k) →
      value m off len = v % 256 ^ len := by
  intro len
  induction len with
  | zero => intro off v _; simp [value, Nat.mod_one]
  | succ len ih =>
    intro off v h
    have h0 : (m off).toNat = v % 256 := by
      have := h 0 (by omega)
      rw [Nat.add_zero] at this
      rw [this, byteOf_zero_toNat]
    have ht : value m (off + 1) len = v / 256 % 256 ^ len := by
      apply ih
      intro k hk
      rw [← byteOf_succ, ← h (k + 1) (by omega)]
      congr 1
      omega
    simp only [value, h0, ht, Nat.pow_succ]
    rw [Nat.mul_comm (256 ^ len) 256, Nat.mod_mul]

theorem value_patch_other {n : Nat}
    (h : a + n ≤ off ∨ off + len ≤ a) : value (patch m off len src) a n = value m a n := by
  apply value_congr
  intro k hk
  exact patch_out (by omega)

/-- A `uint` (or the bits of an `int`) at `off`. -/
def rd32 (m : Store) (off : Nat) : UInt32 := UInt32.ofNat (value m off 4)

def wr32 (m : Store) (off : Nat) (v : UInt32) : Store := patch m off 4 (byteOf v.toNat)

/-- The `int` with the bits `v`. -/
def int32 (v : UInt32) : Int := if v.toNat < 2 ^ 31 then v.toNat else v.toNat - 2 ^ 32

theorem int32_ofNat {k : Nat} (h : k < 2 ^ 31) : int32 (UInt32.ofNat k) = k := by
  have : (UInt32.ofNat k).toNat = k := by
    rw [UInt32.toNat_ofNat']
    omega
  simp only [int32, this, if_pos h]

/-- A `ushort` (or the bits of a `short`) at `off`. -/
def rd16 (m : Store) (off : Nat) : UInt16 := UInt16.ofNat (value m off 2)

theorem rd32_of_bytes {v : UInt32}
    (h : ∀ k, k < 4 → m (off + k) = byteOf v.toNat k) : rd32 m off = v := by
  have hv := v.toNat_lt
  rw [rd32, value_of_bytes h]
  apply UInt32.toNat_inj.mp
  simp only [UInt32.toNat_ofNat']
  omega

theorem rd16_of_bytes {v : UInt16}
    (h : ∀ k, k < 2 → m (off + k) = byteOf v.toNat k) : rd16 m off = v := by
  have hv := v.toNat_lt
  rw [rd16, value_of_bytes h]
  apply UInt16.toNat_inj.mp
  simp only [UInt16.toNat_ofNat']
  omega

@[simp] theorem rd32_wr32_same (m : Store) (off : Nat) (v : UInt32) :
    rd32 (wr32 m off v) off = v := by
  apply rd32_of_bytes
  intro k hk
  rw [wr32, patch_in (by omega) (by omega), Nat.add_sub_cancel_left]

theorem rd32_patch_other
    (h : a + 4 ≤ off ∨ off + len ≤ a) : rd32 (patch m off len src) a = rd32 m a := by
  rw [rd32, rd32, value_patch_other h]

theorem rd16_patch_other
    (h : a + 2 ≤ off ∨ off + len ≤ a) : rd16 (patch m off len src) a = rd16 m a := by
  rw [rd16, rd16, value_patch_other h]

end Xv6.Bytes
