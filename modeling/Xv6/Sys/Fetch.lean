import Mathlib.Data.List.Basic
import Xv6.Lib.Bytes

/-!
# Xv6.Sys.Fetch

The functions of `syscall.c` that fetch the arguments of a system call, with every user byte that
they look at: they return what the source's functions return (an `int`, and the value stored
through the pointer argument) together with the addresses they have read, so that it can be stated
that nothing at or above `sz` is looked at.
-/

namespace Xv6.Sys

open Bytes

namespace Args

abbrev KERNBASE : Nat := 2 ^ 31

/-- The side of the user: `tf->esp`, `sz`, and the memory below `sz`, which `allocuvm` keeps below
`KERNBASE`. -/
structure User where
  esp : UInt32
  sz : UInt32
  mem : Store
  small : sz.toNat ≤ KERNBASE

namespace User

def argAddr (u : User) (n : Nat) : UInt32 := u.esp + 4 + 4 * .ofNat n

/-- The word at `addr` lies in `[0, sz)`. -/
def Within (u : User) (addr : UInt32) : Prop := addr.toNat + 4 ≤ u.sz.toNat

instance (u : User) (addr : UInt32) : Decidable (u.Within addr) := by
  unfold Within; infer_instance

end User

end Args

namespace Fetch

open Args Option

/-- The end of a call: the value returned, the value stored through the pointer argument if any,
and the addresses of the user bytes read on the way. -/
structure Fetched (α : Type) where
  ret : Int
  out : Option α
  reads : List Nat

def fetchint (u : User) (addr : UInt32) : Fetched Int :=
  if u.sz ≤ addr ∨ u.sz < addr + 4 then ⟨-1, none, []⟩
  else ⟨0, some (int32 (rd32 u.mem addr.toNat)), List.range' addr.toNat 4⟩

/-- The loop of `fetchstr` at `s`, with `n` bytes left before `ep`: what it returns and reads. -/
def fetchLoop (u : User) (pp : Nat) : Nat → Nat → Int × List Nat
  | 0, _ => (-1, [])
  | n + 1, s =>
    if u.mem s = 0 then ((s : Int) - pp, [s])
    else ((fetchLoop u pp n (s + 1)).1, s :: (fetchLoop u pp n (s + 1)).2)

/-- `*pp` is set before the loop, and stays set where the loop finds no NUL. -/
def fetchstr (u : User) (addr : UInt32) : Fetched UInt32 :=
  if u.sz ≤ addr then ⟨-1, none, []⟩
  else
    let r := fetchLoop u addr.toNat (u.sz.toNat - addr.toNat) addr.toNat
    ⟨r.1, some addr, r.2⟩

def argint (u : User) (n : Nat) : Fetched Int := fetchint u (u.argAddr n)

/-- `argint` stores the word exactly where it does not return -1. -/
def argptr (u : User) (n : Nat) (size : Int) : Fetched UInt32 :=
  match (argint u n).out with
  | none => ⟨-1, none, (argint u n).reads⟩
  | some i =>
    let i := UInt32.ofInt i
    if size < 0 ∨ u.sz ≤ i ∨ u.sz < i + .ofInt size then ⟨-1, none, (argint u n).reads⟩
    else ⟨0, some i, (argint u n).reads⟩

def argstr (u : User) (n : Nat) : Fetched UInt32 :=
  match (argint u n).out with
  | none => ⟨-1, none, (argint u n).reads⟩
  | some addr =>
    let r := fetchstr u (.ofInt addr)
    { r with reads := (argint u n).reads ++ r.reads }

theorem ofInt_int32 (w : UInt32) : UInt32.ofInt (int32 w) = w := by
  have hlt := w.toNat_lt
  apply UInt32.toNat_inj.mp
  rw [UInt32.ofInt, UInt32.toNat_ofNat']
  by_cases h : w.toNat < 2 ^ 31
  · rw [int32, if_pos h]; omega
  · rw [int32, if_neg h]; omega

def word (u : User) (n : Nat) : UInt32 := rd32 u.mem (u.argAddr n).toNat

theorem bad_iff (u : User) (addr : UInt32) : (u.sz ≤ addr ∨ u.sz < addr + 4) ↔ ¬ u.Within addr := by
  have hsmall : u.sz.toNat ≤ 2 ^ 31 := u.small
  have hadd : (addr + 4).toNat = (addr.toNat + 4) % 2 ^ 32 := UInt32.toNat_add addr 4
  rw [UInt32.le_iff_toNat_le, UInt32.lt_iff_toNat_lt, hadd, User.Within]
  omega

theorem argint_cases (u : User) (n : Nat) : (u.Within (u.argAddr n) ∧
      argint u n = ⟨0, some (int32 (word u n)), List.range' (u.argAddr n).toNat 4⟩) ∨
    (¬ u.Within (u.argAddr n) ∧ argint u n = ⟨-1, none, []⟩) := by
  rw [argint, fetchint]
  by_cases hin : u.Within (u.argAddr n)
  · exact .inl ⟨hin, if_neg fun h => (bad_iff u _).mp h hin⟩
  · exact .inr ⟨hin, if_pos ((bad_iff u _).mpr hin)⟩

theorem argint_reads_lt (u : User) (n : Nat) : ∀ a ∈ (argint u n).reads, a < u.sz.toNat := by
  obtain ⟨hin, heq⟩ | ⟨_, heq⟩ := argint_cases u n
  · rw [heq]
    intro a ha
    have hin : (u.argAddr n).toNat + 4 ≤ u.sz.toNat := hin
    rw [List.mem_range'_1] at ha
    omega
  · rw [heq]
    intro a ha
    cases ha

theorem argptr_ok {u : User} {n : Nat} {size : Int} (hhi : size < 2 ^ 31)
    (h : (argptr u n size).ret = 0) :
    u.Within (u.argAddr n) ∧ (argptr u n size).out = some (word u n) ∧ 0 ≤ size ∧
      ((word u n).toNat : Int) + size ≤ u.sz.toNat := by
  obtain ⟨hin, heq⟩ | ⟨_, heq⟩ := argint_cases u n
  · rw [argptr, heq] at h ⊢
    simp only [ofInt_int32] at h ⊢
    split at h
    · cases h
    · rename_i hgood
      rw [if_neg hgood]
      simp only [not_or, Int.not_lt, UInt32.not_le, UInt32.not_lt] at hgood
      obtain ⟨hpos, hlt, hend⟩ := hgood
      refine ⟨hin, rfl, hpos, ?_⟩
      -- Below KERNBASE twice: the sum of the two has not wrapped.
      have hsmall : u.sz.toNat ≤ 2 ^ 31 := u.small
      have hlt : (word u n).toNat < u.sz.toNat := UInt32.lt_iff_toNat_lt.mp hlt
      have hsize : (UInt32.ofInt size).toNat = size.toNat := by
        rw [UInt32.ofInt, UInt32.toNat_ofNat']; omega
      have hend := UInt32.le_iff_toNat_le.mp hend
      rw [UInt32.toNat_add, hsize] at hend
      omega
  · rw [argptr, heq] at h
    cases h

theorem fetchLoop_spec (u : User) (pp : Nat) : ∀ (n s : Nat),
    ((∃ len < n, u.mem (s + len) = 0 ∧ (∀ k < len, u.mem (s + k) ≠ 0) ∧
      (fetchLoop u pp n s).1 = ((s + len : Nat) : Int) - pp) ∨
    ((∀ k < n, u.mem (s + k) ≠ 0) ∧ (fetchLoop u pp n s).1 = -1)) ∧
    ∀ a ∈ (fetchLoop u pp n s).2, a < s + n := by
  intro n
  induction n with
  | zero =>
    intro s
    exact ⟨.inr ⟨fun k hk => absurd hk (Nat.not_lt_zero k), rfl⟩, fun a ha => by cases ha⟩
  | succ n ih =>
    intro s
    rw [fetchLoop]
    by_cases hs : u.mem s = 0
    · rw [if_pos hs]
      refine ⟨.inl ⟨0, by omega, hs, fun k hk => absurd hk (Nat.not_lt_zero k), rfl⟩, ?_⟩
      intro a ha
      rw [List.mem_singleton.mp ha]
      omega
    · rw [if_neg hs]
      obtain ⟨hret, hreads⟩ := ih (s + 1)
      have hshift : ∀ {m : Nat}, (∀ k < m, u.mem (s + 1 + k) ≠ 0) →
          ∀ k < m + 1, u.mem (s + k) ≠ 0 := by
        intro m h k hk
        cases k with
        | zero => exact hs
        | succ k =>
          have := h k (by omega)
          rwa [Nat.add_right_comm] at this
      refine ⟨?_, ?_⟩
      · rcases hret with ⟨len, hlen, hzero, hbefore, hval⟩ | ⟨hnone, hval⟩
        · have hidx : s + (len + 1) = s + 1 + len := by omega
          refine .inl ⟨len + 1, by omega, ?_, hshift hbefore, ?_⟩
          · rw [hidx]; exact hzero
          · rw [hidx]; exact hval
        · exact .inr ⟨hshift hnone, hval⟩
      · intro a ha
        rcases List.mem_cons.mp ha with rfl | ha
        · omega
        · have := hreads a ha
          omega

/-- The argument word is readable and points to a string of `len` bytes that ends below `sz`. -/
structure StringAt (u : User) (n len : Nat) : Prop where
  within : u.Within (u.argAddr n)
  below : (word u n).toNat + len < u.sz.toNat
  ends : u.mem ((word u n).toNat + len) = 0
  before : ∀ k < len, u.mem ((word u n).toNat + k) ≠ 0

theorem StringAt.unique {u : User} {n len len' : Nat} (h : StringAt u n len)
    (h' : StringAt u n len') : len = len' := by
  rcases Nat.lt_trichotomy len len' with hlt | heq | hgt
  · exact absurd h.ends (h'.before len hlt)
  · exact heq
  · exact absurd h'.ends (h.before len' hgt)

theorem argstr_cases (u : User) (n : Nat) :
    ((∃ len, StringAt u n len ∧ (argstr u n).ret = len ∧ (argstr u n).out = some (word u n)) ∨
      ((∀ len, ¬ StringAt u n len) ∧ (argstr u n).ret = -1)) ∧
    ∀ a ∈ (argstr u n).reads, a < u.sz.toNat := by
  have hread := argint_reads_lt u n
  obtain ⟨hin, heq⟩ | ⟨hout, heq⟩ := argint_cases u n
  · rw [heq] at hread
    rw [argstr, heq]
    simp only [ofInt_int32, fetchstr]
    by_cases hlt : u.sz ≤ word u n
    · rw [if_pos hlt]
      refine ⟨.inr ⟨fun len h => ?_, rfl⟩, ?_⟩
      · have := h.below
        have := UInt32.le_iff_toNat_le.mp hlt
        omega
      · intro a ha
        rw [List.append_nil] at ha
        exact hread a ha
    · rw [if_neg hlt]
      have hlt : (word u n).toNat < u.sz.toNat := UInt32.lt_iff_toNat_lt.mp (UInt32.not_le.mp hlt)
      obtain ⟨hret, hreads⟩ :=
        fetchLoop_spec u (word u n).toNat (u.sz.toNat - (word u n).toNat) (word u n).toNat
      refine ⟨?_, ?_⟩
      · rcases hret with ⟨len, hlen, hzero, hbefore, hval⟩ | ⟨hnone, hval⟩
        · refine .inl ⟨len, ⟨hin, by omega, hzero, hbefore⟩, ?_, rfl⟩
          simp only [hval]
          omega
        · refine .inr ⟨fun len h => ?_, hval⟩
          have := h.below
          exact hnone len (by omega) h.ends
      · intro a ha
        rcases List.mem_append.mp ha with ha | ha
        · exact hread a ha
        · have := hreads a ha
          omega
  · rw [argstr, heq]
    exact ⟨.inr ⟨fun len h => hout h.within, rfl⟩, fun a ha => by cases ha⟩

theorem argstr_ret_iff (u : User) (n len : Nat) : (argstr u n).ret = len ↔ StringAt u n len := by
  obtain ⟨⟨k, hk, hret, _⟩ | ⟨hnone, hret⟩, _⟩ := argstr_cases u n
  · rw [hret]
    constructor
    · intro h
      obtain rfl : k = len := Int.ofNat_inj.mp h
      exact hk
    · intro h
      rw [hk.unique h]
  · rw [hret]
    exact iff_of_false (by omega) (hnone len)

/-- No argument leads outside `[0, sz)`: the word that `argint` reads, the block that `argptr`
accepts, whose end does not wrap, and the string that `argstr` measures lie below `sz`, and no
byte from `sz` on is read for any of them. -/
theorem args_inside (u : User) (n : Nat) (size : Int) (hhi : size < 2 ^ 31) :
    (((argint u n).ret = 0 → (argint u n).reads = List.range' (u.argAddr n).toNat 4) ∧
      ∀ a ∈ (argint u n).reads, a < u.sz.toNat) ∧
    ((argptr u n size).ret = 0 → ∃ p, (argptr u n size).out = some p ∧ 0 ≤ size ∧
      (p.toNat : Int) + size ≤ u.sz.toNat) ∧
    ((∀ len : Nat, (argstr u n).ret = len ↔ StringAt u n len) ∧
      ((∀ len, ¬ StringAt u n len) → (argstr u n).ret = -1) ∧
      ((argstr u n).ret ≠ -1 → (argstr u n).out = some (word u n)) ∧
      ∀ a ∈ (argstr u n).reads, a < u.sz.toNat) := by
  obtain ⟨hstr, hreads⟩ := argstr_cases u n
  refine ⟨⟨fun h => ?_, argint_reads_lt u n⟩, fun h => ?_, ⟨argstr_ret_iff u n, ?_, ?_, hreads⟩⟩
  · obtain ⟨_, heq⟩ | ⟨_, heq⟩ := argint_cases u n
    · rw [heq]
    · rw [heq] at h
      cases h
  · obtain ⟨_, hout, hpos, hend⟩ := argptr_ok hhi h
    exact ⟨_, hout, hpos, hend⟩
  · intro hnone
    rcases hstr with ⟨len, hlen, _⟩ | ⟨_, hret⟩
    · exact absurd hlen (hnone len)
    · exact hret
  · intro hret
    rcases hstr with ⟨_, _, _, hout⟩ | ⟨_, h⟩
    · exact hout
    · exact absurd h hret

/-- A user whose first argument word, 16, points to a string of two bytes. -/
def calling : Nat → UInt8
  | 4 => 16
  | 16 => 97
  | 17 => 98
  | _ => 0

theorem calling_small : (64 : UInt32).toNat ≤ KERNBASE := by decide

theorem args_inside_calling : (argint ⟨0, 64, calling, calling_small⟩ 0).reads = [4, 5, 6, 7] ∧
    (∃ p, (argptr ⟨0, 64, calling, calling_small⟩ 0 48).out = some p ∧ (0 : Int) ≤ 48 ∧
      (p.toNat : Int) + 48 ≤ (64 : UInt32).toNat) ∧
    (argptr ⟨0, 64, calling, calling_small⟩ 0 49).ret = -1 ∧
    StringAt ⟨0, 64, calling, calling_small⟩ 0 2 := by
  have h := args_inside ⟨0, 64, calling, calling_small⟩ 0 48 (by decide)
  exact ⟨h.1.1 (by decide +kernel), h.2.1 (by decide +kernel), by decide +kernel,
    (h.2.2.1 2).mp (by decide +kernel)⟩

end Fetch
end Xv6.Sys
