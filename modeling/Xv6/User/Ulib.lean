import Xv6.Lib.Bytes

/-!
# Xv6.User.Ulib

Functions of the user library, `ulib.c`, on the bytes of the user's memory.
-/

namespace Xv6.User

open Bytes Function List

/-- The `n` bytes from `p` on. -/
def slice (buf : Store) (p n : Nat) : List UInt8 := (range' p n).map buf

@[simp] theorem slice_length (buf : Store) (p n : Nat) : (slice buf p n).length = n := by
  simp [slice]

theorem slice_succ (buf : Store) (p n : Nat) :
    slice buf p (n + 1) = buf p :: slice buf (p + 1) n := by
  rw [slice, range'_succ, map_cons, slice]

theorem slice_add (buf : Store) (p a b : Nat) :
    slice buf p (a + b) = slice buf p a ++ slice buf (p + a) b := by
  rw [slice, ← range'_append_1, map_append, slice, slice]

theorem slice_congr {buf buf' : Store} {p n : Nat} (h : ∀ k, p ≤ k → k < p + n → buf k = buf' k) :
    slice buf p n = slice buf' p n := by
  refine map_congr_left fun k hk => ?_
  obtain ⟨h1, h2⟩ := mem_range'_1.mp hk
  exact h k h1 h2

theorem slice_update {buf : Store} {p n q : Nat} {b : UInt8} (h : q < p ∨ p + n ≤ q) :
    slice (update buf q b) p n = slice buf p n :=
  slice_congr fun k _ _ => update_of_ne (by omega) _ _

/-- `while(n-- > 0) *dst++ = *src++;` for an `int n` that is not negative. -/
def memmove (buf : Store) (dst src : Nat) : Nat → Store
  | 0 => buf
  | n + 1 => memmove (update buf dst (buf src)) (dst + 1) (src + 1) n

theorem memmove_down : ∀ (n dst src : Nat) (buf : Store), dst ≤ src → ∀ k, memmove buf dst src n k =
      if dst ≤ k ∧ k < dst + n then buf (src + (k - dst)) else buf k := by
  intro n
  induction n with
  | zero =>
    intro dst src buf _ k
    rw [memmove, if_neg (by omega)]
  | succ n ih =>
    intro dst src buf hle k
    rw [memmove, ih (dst + 1) (src + 1) _ (by omega) k]
    by_cases hin : dst + 1 ≤ k ∧ k < dst + 1 + n
    · have hoff : src + 1 + (k - (dst + 1)) = src + (k - dst) := by omega
      rw [if_pos hin, if_pos (by omega), hoff, update_of_ne (by omega)]
    · rw [if_neg hin]
      rcases eq_or_ne k dst with rfl | hk
      · rw [if_pos (by omega), update_self, Nat.sub_self, Nat.add_zero]
      · rw [if_neg (by omega), update_of_ne hk]

/-- `strchr` from `s` on, in memory that has `n` more bytes there. -/
def strchr (buf : Store) (c : UInt8) : Nat → Nat → Option Nat
  | 0, _ => none
  | n + 1, s =>
    if buf s = 0 then none else if buf s = c then some s else strchr buf c n (s + 1)

/-- The bytes from `s` to the NUL. -/
def stringAt (buf : Store) : Nat → Nat → List UInt8
  | 0, _ => []
  | n + 1, s => if buf s = 0 then [] else buf s :: stringAt buf n (s + 1)

theorem stringAt_eq {buf : Store} : ∀ {l : List UInt8} {n p : Nat}, slice buf p l.length = l →
    0 ∉ l → buf (p + l.length) = 0 → l.length < n → stringAt buf n p = l := by
  intro l
  induction l with
  | nil =>
    intro n p _ _ hend hn
    cases n with
    | zero => omega
    | succ n => rw [stringAt, if_pos (by simpa using hend)]
  | cons b l ih =>
    intro n p hl h0 hend hn
    rw [length_cons, slice_succ] at hl
    obtain ⟨hb, hl⟩ := List.cons.inj hl
    cases n with
    | zero => omega
    | succ n =>
      have hne : buf p ≠ 0 := fun h => h0 (by rw [← hb, h]; exact mem_cons_self)
      have hend' : buf (p + 1 + l.length) = 0 := by
        rw [length_cons] at hend
        rw [Nat.add_right_comm]
        exact hend
      rw [stringAt, if_neg hne, hb, ih hl (fun h => h0 (mem_cons_of_mem _ h)) hend'
        (Nat.lt_of_succ_lt_succ hn)]

section Strchr

variable {buf : Store} {c : UInt8}

theorem strchr_skip : ∀ {l : List UInt8} {n p : Nat}, slice buf p l.length = l → 0 ∉ l → c ∉ l →
    strchr buf c (l.length + n) p = strchr buf c n (p + l.length) := by
  intro l
  induction l with
  | nil => intro n p _ _ _; rw [length_nil, Nat.zero_add, Nat.add_zero]
  | cons b l ih =>
    intro n p hl h0 hc
    rw [length_cons, slice_succ] at hl
    obtain ⟨hb, hl⟩ := List.cons.inj hl
    have hne : buf p ≠ 0 := fun h => h0 (by rw [← hb, h]; exact mem_cons_self)
    have hnc : buf p ≠ c := fun h => hc (by rw [← hb, h]; exact mem_cons_self)
    rw [length_cons, Nat.add_right_comm l.length 1 n, strchr, if_neg hne, if_neg hnc,
      ih hl (fun h => h0 (mem_cons_of_mem _ h)) (fun h => hc (mem_cons_of_mem _ h)),
      Nat.add_right_comm]
    rfl

theorem strchr_some {l : List UInt8} {n p : Nat} (hl : slice buf p l.length = l) (h0 : 0 ∉ l)
    (hc : c ∉ l) (hend : buf (p + l.length) = c) (hnul : c ≠ 0) (hn : l.length < n) :
    strchr buf c n p = some (p + l.length) := by
  obtain ⟨k, rfl⟩ := Nat.exists_eq_add_of_lt hn
  rw [Nat.add_assoc, strchr_skip hl h0 hc, strchr, hend, if_neg hnul, if_pos rfl]

theorem strchr_none {l : List UInt8} {n p : Nat} (hl : slice buf p l.length = l) (h0 : 0 ∉ l)
    (hc : c ∉ l) (hend : buf (p + l.length) = 0) (hn : l.length < n) : strchr buf c n p = none := by
  obtain ⟨k, rfl⟩ := Nat.exists_eq_add_of_lt hn
  rw [Nat.add_assoc, strchr_skip hl h0 hc, strchr, if_pos hend]

end Strchr

end Xv6.User
