import Mathlib.Tactic

/-!
# Xv6.Lib.Fifo

A bounded queue in an array of `N` slots with two counters that are never reset.

`nread` and `nwrite` count the elements taken and put since the start, modulo `2 ^ 32`; an element's
slot is its number modulo `N`. The slots survive the overflow of the counters because `N` divides
`2 ^ 32`. `Holds q xs` says that the elements in the queue are `xs` (`contents`), at most `N`
of them.
-/

namespace Xv6

open Function List

structure Fifo (α : Type) (N : Nat) where
  data : Nat → α
  nread : UInt32
  nwrite : UInt32

namespace Fifo

variable {α : Type} {N : Nat} {q : Fifo α N} {x : α} {xs : List α}

def isFull (q : Fifo α N) : Bool := q.nwrite == q.nread + UInt32.ofNat N

def isEmpty (q : Fifo α N) : Bool := q.nread == q.nwrite

/-- `data[nwrite++ % N] = x` -/
def put (q : Fifo α N) (x : α) : Fifo α N :=
  { q with data := update q.data (q.nwrite.toNat % N) x, nwrite := q.nwrite + 1 }

/-- `data[nread++ % N]` -/
def get (q : Fifo α N) : α × Fifo α N :=
  (q.data (q.nread.toNat % N), { q with nread := q.nread + 1 })

/-- `data[--nwrite % N] = x` -/
def unput (q : Fifo α N) (x : α) : Fifo α N :=
  { q with data := update q.data ((q.nwrite - 1).toNat % N) x, nwrite := q.nwrite - 1 }

/-- The elements in the queue, oldest first. -/
def contents (q : Fifo α N) : List α :=
  (range (q.nwrite - q.nread).toNat).map fun i => q.data ((q.nread.toNat + i) % N)

structure Holds (q : Fifo α N) (xs : List α) : Prop where
  length_le : xs.length ≤ N
  count : q.nwrite = q.nread + UInt32.ofNat xs.length
  slots : ∀ i x, xs[i]? = some x → q.data ((q.nread.toNat + i) % N) = x

theorem slot_ne {a i j : Nat} (hij : i < j) (hj : j < N) : (a + i) % N ≠ (a + j) % N := by
  intro heq
  have hd := (Nat.modEq_iff_dvd' (by omega)).mp heq
  rw [Nat.add_sub_add_left] at hd
  have := Nat.le_of_dvd (by omega) hd
  omega

theorem Holds.nil (h : q.nwrite = q.nread) : Holds q [] :=
  ⟨Nat.zero_le N, by simp [h], fun i x hx => by simp at hx⟩

section Capacity

-- the capacity divides the range of the counters
variable (hN : N ∣ 2 ^ 32) (hlt : N < 2 ^ 32)
include hlt

theorem Holds.count_sub (h : Holds q xs) : (q.nwrite - q.nread).toNat = xs.length := by
  have hlen := h.length_le
  rw [h.count, UInt32.add_comm, UInt32.add_sub_cancel, UInt32.toNat_ofNat']
  omega

theorem Holds.contents_eq (h : Holds q xs) : q.contents = xs := by
  rw [contents, h.count_sub hlt]
  apply ext_getElem
  · simp
  · intro i _ hi
    simp only [getElem_map, getElem_range]
    exact h.slots i _ (getElem?_eq_getElem hi)

theorem Holds.isFull_iff (h : Holds q xs) : q.isFull = true ↔ xs.length = N := by
  have hlen := h.length_le
  rw [isFull, beq_iff_eq, h.count, UInt32.add_right_inj, ← UInt32.toNat_inj, UInt32.toNat_ofNat',
    UInt32.toNat_ofNat', Nat.mod_eq_of_lt (by omega), Nat.mod_eq_of_lt hlt]

theorem Holds.isEmpty_iff (h : Holds q xs) : q.isEmpty = true ↔ xs = [] := by
  have hlen := h.length_le
  rw [isEmpty, beq_iff_eq, h.count, UInt32.left_eq_add, ← UInt32.toNat_inj, UInt32.toNat_ofNat',
    UInt32.toNat_zero, Nat.mod_eq_of_lt (by omega), length_eq_zero_iff]

omit hlt
include hN

theorem slot_add (n : UInt32) (k i : Nat) :
    ((n + UInt32.ofNat k).toNat + i) % N = (n.toNat + k + i) % N := by
  rw [UInt32.toNat_add, UInt32.toNat_ofNat', Nat.add_mod_mod, Nat.add_mod (_ % _),
    Nat.mod_mod_of_dvd _ hN, ← Nat.add_mod]

theorem Holds.put (h : Holds q xs) (hroom : xs.length < N) (x : α) :
    Holds (q.put x) (xs ++ [x]) := by
  have hslot : q.nwrite.toNat % N = (q.nread.toNat + xs.length) % N := by
    have := slot_add hN q.nread xs.length 0
    rwa [Nat.add_zero, Nat.add_zero, ← h.count] at this
  refine ⟨?_, ?_, ?_⟩
  · rw [length_append, length_singleton]
    exact hroom
  · simp only [Fifo.put]
    rw [h.count, length_append, length_singleton, UInt32.ofNat_add, UInt32.add_assoc]
    rfl
  · intro i y hy
    simp only [Fifo.put, hslot]
    rw [getElem?_append] at hy
    split at hy
    · rename_i hi
      -- the new element's slot is not the slot of an element in the queue
      rw [update_of_ne (slot_ne hi hroom)]
      exact h.slots i y hy
    · have hi : i = xs.length := by
        by_contra hne
        rw [getElem?_eq_none (by simp; omega)] at hy
        cases hy
      subst hi
      simp only [Nat.sub_self, getElem?_cons_zero, Option.some.injEq] at hy
      rw [update_self, hy]

theorem Holds.get (h : Holds q (x :: xs)) : q.get.1 = x ∧ Holds q.get.2 xs := by
  refine ⟨h.slots 0 x rfl, ?_, ?_, ?_⟩
  · exact Nat.le_of_succ_le h.length_le
  · simp only [Fifo.get]
    rw [h.count, length_cons, UInt32.add_assoc, UInt32.ofNat_add, UInt32.add_comm 1]
    rfl
  · intro i y hy
    have hslot := slot_add hN q.nread 1 i
    simp only [Fifo.get]
    rw [show (1 : UInt32) = UInt32.ofNat 1 from rfl, hslot, Nat.add_assoc, Nat.add_comm 1 i]
    exact h.slots (i + 1) y hy

omit hN in
theorem Holds.pred_count {y : α} (h : Holds q (xs ++ [y])) :
    q.nwrite - 1 = q.nread + UInt32.ofNat xs.length := by
  rw [h.count, length_append, length_singleton, UInt32.ofNat_add, ← UInt32.add_assoc]
  exact UInt32.add_sub_cancel _ _

theorem Holds.pred_slot {y : α} (h : Holds q (xs ++ [y])) :
    (q.nwrite - 1).toNat % N = (q.nread.toNat + xs.length) % N := by
  rw [h.pred_count]
  exact slot_add hN q.nread xs.length 0

theorem Holds.last {y : α} (h : Holds q (xs ++ [y])) : q.data ((q.nwrite - 1).toNat % N) = y := by
  rw [h.pred_slot hN]
  exact h.slots xs.length y (by simp)

theorem Holds.unput {y : α} (h : Holds q (xs ++ [y])) (x : α) : Holds (q.unput x) xs := by
  have hlen := h.length_le
  rw [length_append, length_singleton] at hlen
  refine ⟨Nat.le_of_succ_le hlen, h.pred_count, fun i z hz => ?_⟩
  have hi := (List.getElem?_eq_some_iff.mp hz).1
  simp only [Fifo.unput, h.pred_slot hN]
  rw [update_of_ne (slot_ne hi hlen)]
  exact h.slots i z (by rwa [getElem?_append_left hi])

end Capacity
end Fifo
end Xv6
