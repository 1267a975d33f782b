import Mathlib.Algebra.BigOperators.Fin
import Mathlib.Algebra.Order.BigOperators.Group.Multiset
import Mathlib.Tactic

/-!
# Xv6.Lib.Tally

What the slots of a table point to, counted with multiplicity.

A table of pointers is a function `f : ι → Option α`. `tally f` is the multiset of the values in it;
a value occurs in it once for each slot (`count_tally`). A store to an empty slot adds one value and
clearing a slot takes one away, so an account of references that is kept with a multiset follows the
table (`tally_store`, `tally_clear`).
-/

namespace Xv6

open Function Multiset Finset

variable {ι α : Type}

/-- One reference to `a`, for `some a`. -/
def one : Option α → Multiset α
  | none => 0
  | some a => {a}

@[simp] theorem one_none : one (none : Option α) = 0 := rfl

@[simp] theorem one_some (a : α) : one (some a) = {a} := rfl

theorem count_one [DecidableEq α] (x : Option α) (a : α) :
    (one x).count a = if x = some a then 1 else 0 := by
  cases x with
  | none => simp
  | some b => simp [count_singleton, eq_comm]

variable [Fintype ι]

def tally (f : ι → Option α) : Multiset α := ∑ i, one (f i)

theorem count_tally [DecidableEq α] (f : ι → Option α) (a : α) :
    (tally f).count a = (Finset.univ.filter fun i => f i = some a).card := by
  rw [tally, Multiset.count_sum', card_filter]
  exact sum_congr rfl fun i _ => count_one (f i) a

theorem tally_congr {f g : ι → Option α} (h : ∀ i, f i = g i) : tally f = tally g := by
  rw [funext h]

@[simp] theorem tally_none : tally (fun _ : ι => (none : Option α)) = 0 := by
  simp [tally]

theorem mem_tally {f : ι → Option α} {a : α} : a ∈ tally f ↔ ∃ i, f i = some a := by
  classical
  rw [← one_le_count_iff_mem, count_tally, Nat.succ_le_iff, Finset.card_pos]
  simp [Finset.Nonempty]

variable [DecidableEq ι]

theorem tally_update (f : ι → Option α) (i : ι) (x : Option α) :
    tally (update f i x) + one (f i) = tally f + one x := by
  have hrest : ∑ j ∈ Finset.univ.erase i, one (update f i x j) =
      ∑ j ∈ Finset.univ.erase i, one (f j) := by
    refine sum_congr rfl fun j hj => ?_
    rw [update_of_ne (ne_of_mem_erase hj)]
  rw [tally, tally, ← add_sum_erase _ _ (mem_univ i),
    ← add_sum_erase (a := i) _ (fun j => one (f j)) (mem_univ i), hrest,
    update_self]
  abel

/-- What the first `n` slots of a table point to. -/
def tallyTo (n : Nat) (f : Nat → Option α) : Multiset α := tally fun i : Fin n => f i

theorem tallyTo_congr {n : Nat} {f g : Nat → Option α} (h : ∀ i, i < n → f i = g i) :
    tallyTo n f = tallyTo n g := tally_congr fun i => h i i.isLt

theorem mem_tallyTo {n : Nat} {f : Nat → Option α} {a : α} :
    a ∈ tallyTo n f ↔ ∃ i, i < n ∧ f i = some a := by
  rw [tallyTo, mem_tally]
  exact ⟨fun ⟨i, h⟩ => ⟨i, i.isLt, h⟩, fun ⟨i, hi, h⟩ => ⟨⟨i, hi⟩, h⟩⟩

theorem tallyTo_update {n i : Nat} (hi : i < n) (f : Nat → Option α) (x : Option α) :
    tallyTo n (update f i x) + one (f i) = tallyTo n f + one x := by
  have hslots : (fun j : Fin n => update f i x j) =
      update (fun j : Fin n => f j) ⟨i, hi⟩ x := by
    funext j
    by_cases h : (j : Nat) = i
    · obtain rfl : j = ⟨i, hi⟩ := Fin.ext h
      simp
    · rw [update_of_ne h, update_of_ne fun e => h (congrArg Fin.val e)]
  rw [tallyTo, hslots]
  exact tally_update (fun j : Fin n => f j) ⟨i, hi⟩ x

theorem tallyTo_store {n i : Nat} (hi : i < n) {f : Nat → Option α} (h : f i = none) (a : α) :
    tallyTo n (update f i (some a)) = a ::ₘ tallyTo n f := by
  have := tallyTo_update hi f (some a)
  rw [h, one_none, add_zero, one_some, add_comm, Multiset.singleton_add] at this
  exact this

theorem tallyTo_clear {n i : Nat} (hi : i < n) {f : Nat → Option α} {a : α} (h : f i = some a) :
    tallyTo n f = a ::ₘ tallyTo n (update f i none) := by
  have := tallyTo_update hi f none
  rw [h, one_none, add_zero, one_some, add_comm, Multiset.singleton_add] at this
  exact this.symm

theorem tallyTo_inj {n i j : Nat} {f : Nat → Option α} (hnd : (tallyTo n f).Nodup) (hi : i < n)
    (hj : j < n) {a : α} (h1 : f i = some a) (h2 : f j = some a) : i = j := by
  by_contra hij
  rw [tallyTo_clear hi h1, nodup_cons] at hnd
  refine hnd.1 (mem_tallyTo.mpr ⟨j, hj, ?_⟩)
  rw [update_of_ne (Ne.symm hij), h2]

theorem card_tallyTo_le (n : Nat) (f : Nat → Option α) : (tallyTo n f).card ≤ n := by
  have hone : ∀ x : Option α, (one x).card ≤ 1 := by
    intro x
    cases x <;> simp
  have hsum : (tallyTo n f).card = ∑ i : Fin n, (one (f i)).card := by
    rw [tallyTo, tally, card_sum]
  calc (tallyTo n f).card = ∑ i : Fin n, (one (f i)).card := hsum
    _ ≤ ∑ _i : Fin n, 1 := sum_le_sum fun i _ => hone _
    _ = n := by simp

theorem card_tallyTo_lt {n i : Nat} (hi : i < n) {f : Nat → Option α} (h : f i = none) (a : α) :
    (tallyTo n f).card < n := by
  have hle := card_tallyTo_le n (update f i (some a))
  rw [tallyTo_store hi h, Multiset.card_cons] at hle
  exact hle

@[simp] theorem tallyTo_none (n : Nat) : tallyTo n (fun _ => (none : Option α)) = 0 := tally_none

theorem tallyTo_short {k n : Nat} {f : Nat → Option α} (hk : k ≤ n)
    (h : ∀ i, k ≤ i → i < n → f i = none) : tallyTo n f = tallyTo k f := by
  induction n, hk using Nat.le_induction with
  | base => rfl
  | succ n hn ih =>
    rw [← ih fun i h1 h2 => h i h1 (by omega), tallyTo, tally, Fin.sum_univ_castSucc, tallyTo,
      tally]
    simp [h n hn (by omega)]

-- A large `n` must not be unfolded into its slots.
attribute [irreducible] tallyTo

end Xv6
