import Xv6.User.Ulib

/-!
# Xv6.Memmove

The two functions `memmove`: that of the kernel, in `string.c`, and that of the user library, in
`ulib.c`.

What they are for is `patch`: the destination gets the bytes that the source had. The kernel copies
downwards if the destination starts inside the source, so that no byte is overwritten before it has
been copied (`moveDown_eq`). The user library always copies upwards. There it copies bytes that it
has written itself, and repeats the first `dst - src` bytes of the source (`memmove_up`).
-/

namespace Xv6

open Bytes Function

/-- `while(n-- > 0) *--d = *--s;` -/
def moveDown (m : Store) (d s : Nat) : Nat → Store
  | 0 => m
  | n + 1 => moveDown (update m (d - 1) (m (s - 1))) (d - 1) (s - 1) n

/-- `memmove(dst, src, n)` of `string.c`; the loop upwards is that of `ulib.c`. Pointers have 32
bits, which matters for `s + n > d`. -/
def memmove (m : Store) (dst src n : Nat) : Store :=
  if src < dst ∧ (src + n) % 2 ^ 32 > dst then moveDown m (dst + n) (src + n) n
  else User.memmove m dst src n

section Loops

variable {dst src : Nat}

theorem moveDown_eq (h : src ≤ dst) (n : Nat) :
    ∀ m, moveDown m (dst + n) (src + n) n = patch m dst n fun i => m (src + i) := by
  induction n with
  | zero =>
    intro m
    funext k
    rw [patch_out (by omega)]
    rfl
  | succ n ih =>
    intro m
    rw [moveDown, ← Nat.add_assoc, ← Nat.add_assoc, Nat.add_sub_cancel, Nat.add_sub_cancel, ih]
    funext k
    by_cases hin : dst ≤ k ∧ k < dst + n
    · -- The byte that has been written is not below the end of the source.
      rw [patch_in hin.1 hin.2, patch_in hin.1 (by omega), update_of_ne (by omega)]
    · rw [patch_out (by omega)]
      rcases eq_or_ne k (dst + n) with rfl | hk
      · rw [update_self, patch_in (by omega) (by omega), Nat.add_sub_cancel_left]
      · rw [update_of_ne hk, patch_out (by omega)]

theorem memmove_up {e : Nat} (he : 0 < e) (n : Nat) : ∀ src m,
    User.memmove m (src + e) src n = patch m (src + e) n fun i => m (src + i % e) := by
  induction n with
  | zero =>
    intro src m
    funext k
    rw [patch_out (by omega)]
    rfl
  | succ n ih =>
    intro src m
    rw [User.memmove, Nat.add_right_comm, ih]
    funext k
    by_cases hin : src + 1 + e ≤ k ∧ k < src + 1 + e + n
    · obtain ⟨i, rfl⟩ := Nat.exists_eq_add_of_le hin.1
      have hi : src + 1 + e + i - (src + e) = i + 1 := by omega
      have hmod : (i % e + 1) % e = (i + 1) % e := Nat.mod_add_mod i e 1
      have hlt := Nat.mod_lt i he
      rw [patch_in hin.1 hin.2, patch_in (by omega) (by omega), hi, Nat.add_sub_cancel_left, ← hmod]
      -- Where a period ends, the byte that is read has just been written.
      rcases eq_or_ne (i % e + 1) e with hend | hend
      · rw [hend, Nat.mod_self, show src + 1 + i % e = src + e by omega, update_self, Nat.add_zero]
      · rw [Nat.mod_eq_of_lt (show i % e + 1 < e by omega), update_of_ne (by omega), Nat.add_assoc,
          Nat.add_comm 1]
    · rw [patch_out (by omega)]
      rcases eq_or_ne k (src + e) with rfl | hk
      · rw [update_self, patch_in le_rfl (by omega), Nat.sub_self, Nat.zero_mod, Nat.add_zero]
      · rw [update_of_ne hk, patch_out (by omega)]

end Loops

variable {m : Store} {dst src n : Nat}

theorem patch_eq_iff {f g : Nat → UInt8} :
    patch m dst n f = patch m dst n g ↔ ∀ i < n, f i = g i := by
  constructor
  · intro h i hi
    have hk := congrFun h (dst + i)
    rwa [patch_in (by omega) (by omega), patch_in (by omega) (by omega),
      Nat.add_sub_cancel_left] at hk
  · intro h
    funext k
    by_cases hin : dst ≤ k ∧ k < dst + n
    · rw [patch_in hin.1 hin.2, patch_in hin.1 hin.2]
      exact h _ (by omega)
    · rw [patch_out (by omega), patch_out (by omega)]

theorem memmove_eq (hdst : dst + n ≤ 2 ^ 32) :
    memmove m dst src n = patch m dst n fun i => m (src + i) := by
  rw [memmove]
  split
  · exact moveDown_eq (by omega) n m
  · rename_i hup
    rcases Nat.lt_or_ge src dst with hlt | hge
    · -- The destination starts behind the source.
      obtain ⟨e, rfl⟩ := Nat.exists_eq_add_of_le hlt.le
      rw [memmove_up (by omega), patch_eq_iff]
      intro i hi
      rw [Nat.mod_eq_of_lt (by omega)]
    · exact funext (User.memmove_down n dst src m hge)

/-- If the destination starts above the source, the source has the period `dst - src`. -/
def Repeats (m : Store) (dst src n : Nat) : Prop :=
  src < dst → ∀ i < n, m (src + i % (dst - src)) = m (src + i)

/-- Regions that lie in the address space: both functions move the bytes exactly when the source
repeats what is below the destination. -/
theorem memmoves_agree_iff (m : Store) (_hn : n < 2 ^ 31) (_hsrc : src + n ≤ 2 ^ 32)
    (hdst : dst + n ≤ 2 ^ 32) : (memmove m dst src n = patch m dst n fun i => m (src + i)) ∧
      (User.memmove m dst src n = patch m dst n fun i => m (src + i)) ↔ Repeats m dst src n := by
  rw [and_iff_right (memmove_eq hdst), Repeats]
  rcases Nat.lt_or_ge src dst with hlt | hge
  · obtain ⟨e, rfl⟩ := Nat.exists_eq_add_of_le hlt.le
    rw [memmove_up (by omega), patch_eq_iff, Nat.add_sub_cancel_left]
    exact ⟨fun h _ => h, fun h => h hlt⟩
  · exact iff_of_true (funext (User.memmove_down n dst src m hge)) fun hlt => absurd hlt (by omega)

/-- Four bytes moved up by two inside a region that repeats two bytes. -/
theorem memmoves_agree_iff_period : (memmove (fun k => .ofNat (k % 2)) 2 0 4 =
        patch (fun k => .ofNat (k % 2)) 2 4 fun i => .ofNat ((0 + i) % 2)) ∧
      User.memmove (fun k => .ofNat (k % 2)) 2 0 4 =
        patch (fun k => .ofNat (k % 2)) 2 4 fun i => .ofNat ((0 + i) % 2) :=
  (memmoves_agree_iff (fun k => .ofNat (k % 2)) (by decide) (by decide) (by decide)).mpr fun _ => by
    decide

/-- Two bytes moved up by one: the user library copies the first of them twice. -/
theorem memmove_smears :
    (memmove (fun k => .ofNat k) 1 0 2 = patch (fun k => .ofNat k) 1 2 fun i => .ofNat (0 + i)) ∧
      User.memmove (fun k => .ofNat k) 1 0 2 ≠
        patch (fun k => .ofNat k) 1 2 fun i => .ofNat (0 + i) :=
  ⟨memmove_eq (by decide), fun h => absurd (congrFun h 2) (by decide)⟩

end Xv6
