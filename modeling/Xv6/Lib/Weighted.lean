import Mathlib.Tactic
import Mathlib.Order.Interval.Finset.Basic
import Mathlib.Data.Int.Interval

/-!
# Xv6.Lib.Weighted

Choosing from a list by weight.

`pick w l r` walks the list and takes the weights from `r` until nothing is left. Every element owns
an interval of numbers, as long as its weight, that starts where the weights before it end.
-/

namespace Xv6

open List

section

variable {α : Type*} (w : α → Int)

def weight (l : List α) : Int := (l.map w).sum

/-- The element at which the weights reach `r`. -/
def pick : List α → Int → Option α
  | [], _ => none
  | a :: l, r => if r - w a ≤ 0 then some a else pick l (r - w a)

@[simp] theorem weight_nil : weight w [] = 0 := rfl

@[simp] theorem weight_cons (a : α) (l : List α) : weight w (a :: l) = w a + weight w l := by
  simp [weight]

@[simp] theorem weight_append (l l' : List α) : weight w (l ++ l') = weight w l + weight w l' := by
  simp [weight]

variable {w}

theorem weight_nonneg {l : List α} (h : ∀ a ∈ l, 0 ≤ w a) : 0 ≤ weight w l := by
  induction l with
  | nil => simp
  | cons a l ih =>
    rw [weight_cons]
    exact Int.add_nonneg (h a mem_cons_self) (ih fun b hb => h b (mem_cons_of_mem a hb))

theorem le_weight {l : List α} (h : ∀ a ∈ l, 0 ≤ w a) {a : α} (ha : a ∈ l) : w a ≤ weight w l := by
  obtain ⟨l1, l2, rfl⟩ := append_of_mem ha
  have h1 : 0 ≤ weight w l1 := weight_nonneg fun b hb => h b (by simp [hb])
  have h2 : 0 ≤ weight w l2 := weight_nonneg fun b hb => h b (by simp [hb])
  rw [weight_append, weight_cons]
  omega

theorem mem_of_pick {l : List α} {a : α} : ∀ {r : Int}, pick w l r = some a → a ∈ l := by
  induction l with
  | nil => intro r h; cases h
  | cons b l ih =>
    intro r h
    rw [pick] at h
    split at h
    · cases h; exact mem_cons_self
    · exact mem_cons_of_mem b (ih h)

theorem pick_isSome (l : List α) : ∀ r : Int, 0 < r → r ≤ weight w l → ∃ a, pick w l r =
    some a := by
  induction l with
  | nil =>
    intro r h0 h
    rw [weight_nil] at h
    omega
  | cons b l ih =>
    intro r h0 h
    rw [weight_cons] at h
    rw [pick]
    split
    · exact ⟨b, rfl⟩
    · exact ih (r - w b) (by omega) (by omega)

theorem pick_eq_some_iff {a : α} {l2 : List α} (h2 : a ∉ l2) (l1 : List α) :
    ∀ r : Int, 0 < r → a ∉ l1 → (∀ b ∈ l1, 0 ≤ w b) →
      (pick w (l1 ++ a :: l2) r = some a ↔ weight w l1 < r ∧ r ≤ weight w l1 + w a) := by
  induction l1 with
  | nil =>
    intro r h0 _ _
    rw [nil_append, pick, weight_nil]
    split
    · exact iff_of_true rfl ⟨h0, by omega⟩
    · exact iff_of_false (fun h => h2 (mem_of_pick h)) (by omega)
  | cons b l1 ih =>
    intro r h0 h1 hw
    rw [mem_cons, not_or] at h1
    have hb := hw b mem_cons_self
    have hl1 : 0 ≤ weight w l1 := weight_nonneg fun c hc => hw c (mem_cons_of_mem b hc)
    rw [cons_append, pick, weight_cons]
    split
    · refine iff_of_false (fun h => h1.1 ?_) (by omega)
      cases h
      rfl
    · rw [ih (r - w b) (by omega) h1.2 fun c hc => hw c (mem_cons_of_mem b hc)]
      constructor
      · intro h; omega
      · intro h; omega

theorem card_pick [DecidableEq α] {l : List α} (hnd : l.Nodup) (hw : ∀ a ∈ l, 0 ≤ w a) {a : α}
    (ha : a ∈ l) :
    (((Finset.Icc 1 (weight w l)).filter fun r => pick w l r = some a).card : Int) = w a := by
  obtain ⟨l1, l2, rfl⟩ := append_of_mem ha
  have hdis := nodup_append.mp hnd
  have h1 : a ∉ l1 := fun h => hdis.2.2 a h a mem_cons_self rfl
  have h2 : a ∉ l2 := (nodup_cons.mp hdis.2.1).1
  have hw1 : ∀ b ∈ l1, 0 ≤ w b := fun b hb => hw b (mem_append_left _ hb)
  have hl1 := weight_nonneg hw1
  have hl2 : 0 ≤ weight w l2 := weight_nonneg fun b hb => hw b (by simp [hb])
  have hset : ((Finset.Icc 1 (weight w (l1 ++ a :: l2))).filter fun r =>
      pick w (l1 ++ a :: l2) r = some a) = Finset.Ioc (weight w l1) (weight w l1 + w a) := by
    ext r
    rw [Finset.mem_filter, Finset.mem_Icc, Finset.mem_Ioc, weight_append, weight_cons]
    constructor
    · intro ⟨hr, hp⟩
      exact (pick_eq_some_iff h2 l1 r (by omega) h1 hw1).mp hp
    · intro hr
      exact ⟨by omega, (pick_eq_some_iff h2 l1 r (by omega) h1 hw1).mpr hr⟩
  rw [hset, Int.card_Ioc, Int.toNat_of_nonneg]
  · omega
  · have := hw a ha
    omega

end

end Xv6
