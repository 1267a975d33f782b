import Mathlib.Data.List.Nodup
import Mathlib.Order.Defs.PartialOrder
import Mathlib.Logic.Function.Iterate

/-!
# Xv6.Lib.Circular

Circular singly linked lists without a distinguished end.

`Seg next a l z` says that following `next` from `a` visits `l` and then arrives at `z`; a circular
list is a segment from a node to itself. It can be entered at any of its nodes (`Seg.rotate`), a
search along it finds the one node that stops it (`Seg.search_eq`), and the pointer before a node is
determined (`Seg.pred`). An insertion or an unlinking changes the last pointer of one segment
(`Seg.setLast`).
-/

namespace Xv6.Circular

open List

variable {α : Type} {next next' : α → α} {a b x y z z' : α} {l l₁ l₂ : List α}

def Seg (next : α → α) : α → List α → α → Prop
  | a, [], z => next a = z
  | a, b :: l, z => next a = b ∧ Seg next b l z

/-- The segment of the nodes `l`, without a pointer to the first of them. -/
def Tail (next : α → α) (l : List α) (z : α) : Prop := ∀ b l', l = b :: l' → Seg next b l' z

theorem Seg.congr (h : Seg next a l z) (heq : ∀ x ∈ a :: l, next' x = next x) :
    Seg next' a l z := by
  induction l generalizing a with
  | nil => exact (heq a mem_cons_self).trans h
  | cons b l ih =>
    exact ⟨(heq a mem_cons_self).trans h.1, ih h.2 fun x hx => heq x (mem_cons_of_mem a hx)⟩

theorem Tail.congr (h : Tail next l z) (heq : ∀ x ∈ l, next' x = next x) : Tail next' l z := by
  rintro b l' rfl
  exact (h b l' rfl).congr heq

theorem seg_append : Seg next a (l₁ ++ l₂) z ↔ Seg next a l₁ (l₂.headD z) ∧ Tail next l₂ z := by
  induction l₁ generalizing a with
  | nil =>
    cases l₂ with
    | nil => exact ⟨fun h => ⟨h, fun b l' hl => by cases hl⟩, fun h => h.1⟩
    | cons b l =>
      constructor
      · rintro ⟨h1, h2⟩
        refine ⟨h1, fun b' l' hl => ?_⟩
        obtain ⟨rfl, rfl⟩ := List.cons.inj hl
        exact h2
      · rintro ⟨h1, h2⟩
        exact ⟨h1, h2 b l rfl⟩
  | cons c l₁ ih => rw [cons_append, Seg, Seg, ih, and_assoc]

theorem seg_cons : Seg next a (l₁ ++ x :: l₂) z ↔ Seg next a l₁ x ∧ Seg next x l₂ z := by
  rw [seg_append, headD_cons]
  refine and_congr_right fun _ => ⟨fun h => h x l₂ rfl, fun h b l' hl => ?_⟩
  obtain ⟨rfl, rfl⟩ := List.cons.inj hl
  exact h

theorem Seg.tail (h : Seg next a l z) : Tail next l z := by
  rintro b l' rfl
  exact h.2

theorem Seg.head (h : Seg next a l z) : next a = l.headD z := by
  cases l with
  | nil => exact h
  | cons b l => exact h.1

theorem Seg.last (h : Seg next a l z) : next (l.getLastD a) = z := by
  induction l generalizing a with
  | nil => exact h
  | cons b l ih =>
    rw [getLastD_cons]
    exact ih h.2

theorem Seg.next_cases (h : Seg next a l z) (hx : x ∈ a :: l) :
    (x = l.getLastD a ∧ next x = z) ∨ next x ∈ l := by
  induction l generalizing a with
  | nil =>
    obtain rfl := mem_singleton.mp hx
    exact .inl ⟨rfl, h⟩
  | cons b l ih =>
    rcases mem_cons.mp hx with rfl | hx
    · exact .inr (h.1 ▸ mem_cons_self)
    · rw [getLastD_cons]
      exact (ih h.2 hx).imp_right (mem_cons_of_mem b)

theorem Seg.lt_next [Preorder α] (h : Seg next a l z) (hs : (a :: l).Pairwise (· < ·))
    (hx : x ∈ a :: l) : (x = l.getLastD a ∧ next x = z) ∨ (next x ∈ l ∧ x < next x) := by
  induction l generalizing a with
  | nil =>
    obtain rfl := mem_singleton.mp hx
    exact .inl ⟨rfl, h⟩
  | cons b l ih =>
    obtain ⟨ha, hs'⟩ := pairwise_cons.mp hs
    rcases mem_cons.mp hx with rfl | hx
    · rw [h.1]
      exact .inr ⟨mem_cons_self, ha b mem_cons_self⟩
    · rw [getLastD_cons]
      exact (ih h.2 hs' hx).imp_right fun h => ⟨mem_cons_of_mem b h.1, h.2⟩

theorem Seg.pred (h : Seg next a (l₁ ++ x :: l₂) z) (h₁ : x ∉ l₁) (h₂ : x ∉ l₂) (hz : x ≠ z)
    (hy : y ∈ a :: (l₁ ++ x :: l₂)) (hyx : next y = x) : y = l₁.getLastD a := by
  obtain ⟨hfront, hback⟩ := seg_cons.mp h
  rw [← cons_append] at hy
  rcases mem_append.mp hy with hy | hy
  · rcases hfront.next_cases hy with ⟨hlast, -⟩ | hmem
    · exact hlast
    · exact absurd (hyx ▸ hmem) h₁
  · rcases hback.next_cases hy with ⟨-, hout⟩ | hmem
    · exact absurd (hyx.symm.trans hout) hz
    · exact absurd (hyx ▸ hmem) h₂

theorem Seg.setLast (h : Seg next a l z) (hnd : (a :: l).Nodup)
    (hsame : ∀ x ∈ a :: l, x ≠ l.getLastD a → next' x = next x)
    (hlast : next' (l.getLastD a) = z') : Seg next' a l z' := by
  induction l generalizing a with
  | nil => exact hlast
  | cons b l ih =>
    obtain ⟨ha, hnd'⟩ := nodup_cons.mp hnd
    rw [getLastD_cons] at hsame hlast
    have hne : a ≠ l.getLastD b := by
      rintro rfl
      exact ha getLastD_mem_cons
    exact ⟨(hsame a mem_cons_self hne).trans h.1,
      ih h.2 hnd' (fun x hx => hsame x (mem_cons_of_mem a hx)) hlast⟩

theorem Seg.rotate (h : Seg next a l a) (hx : x ∈ a :: l) :
    ∃ rest, Seg next x rest x ∧ (x :: rest).Perm (a :: l) := by
  rcases mem_cons.mp hx with rfl | hx
  · exact ⟨l, h, .refl _⟩
  · obtain ⟨l₁, l₂, rfl⟩ := append_of_mem hx
    obtain ⟨hfront, hback⟩ := seg_cons.mp h
    refine ⟨l₂ ++ a :: l₁, seg_cons.mpr ⟨hback, hfront⟩, ?_⟩
    have hperm : (x :: l₂ ++ a :: l₁).Perm (a :: l₁ ++ x :: l₂) := perm_append_comm
    exact hperm

theorem Seg.iterate (h : Seg next a l z) : next^[l.length + 1] a = z := by
  induction l generalizing a with
  | nil => exact h
  | cons b l ih =>
    rw [length_cons, Function.iterate_succ_apply, h.1]
    exact ih h.2

theorem Seg.mem_iff (h : Seg next a l a) : x ∈ a :: l ↔ ∃ k, next^[k] a = x := by
  constructor
  · intro hx
    rcases mem_cons.mp hx with rfl | hx
    · exact ⟨0, rfl⟩
    · obtain ⟨l₁, l₂, rfl⟩ := append_of_mem hx
      exact ⟨l₁.length + 1, (seg_cons.mp h).1.iterate⟩
  · rintro ⟨k, rfl⟩
    induction k with
    | zero => exact mem_cons_self
    | succ k ih =>
      rw [Function.iterate_succ_apply']
      rcases h.next_cases ih with ⟨-, hout⟩ | hmem
      · rw [hout]
        exact mem_cons_self
      · exact mem_cons_of_mem a hmem

/-- `for(p = a; !stop(p); p = p->next)`, at most `n` tests. -/
def search (next : α → α) (stop : α → Bool) : Nat → α → Option α
  | 0, _ => none
  | n + 1, a => if stop a then some a else search next stop n (next a)

theorem search_mono {stop : α → Bool} : ∀ {n n' : Nat} {a : α}, n ≤ n' →
    search next stop n a = some x → search next stop n' a = some x := by
  intro n
  induction n with
  | zero => intro n' a _ h; cases h
  | succ n ih =>
    intro n' a hle h
    obtain ⟨n', rfl⟩ := Nat.exists_eq_add_one_of_ne_zero (Nat.ne_of_gt (Nat.zero_lt_of_lt hle))
    rw [search] at h ⊢
    split at h
    · rwa [if_pos ‹_›]
    · rw [if_neg ‹_›]
      exact ih (Nat.le_of_succ_le_succ hle) h

theorem Seg.search_eq {stop : α → Bool} {n : Nat} (h : Seg next a l z) (hx : x ∈ a :: l)
    (hstop : stop x = true) (honly : ∀ y ∈ a :: l, y ≠ x → stop y = false) (hn : l.length < n) :
    search next stop n a = some x := by
  induction l generalizing a n with
  | nil =>
    obtain rfl := mem_singleton.mp hx
    obtain ⟨n, rfl⟩ := Nat.exists_eq_add_one_of_ne_zero (Nat.ne_of_gt hn)
    rw [search, if_pos hstop]
  | cons b l ih =>
    obtain ⟨n, rfl⟩ := Nat.exists_eq_add_one_of_ne_zero (Nat.ne_of_gt (Nat.zero_lt_of_lt hn))
    by_cases hax : a = x
    · rw [search, hax, if_pos hstop]
    · have hx' : x ∈ b :: l := (mem_cons.mp hx).resolve_left fun h => hax h.symm
      rw [search, honly a mem_cons_self hax, if_neg Bool.false_ne_true, h.1]
      exact ih h.2 hx' (fun y hy => honly y (mem_cons_of_mem a hy))
        (Nat.lt_of_succ_lt_succ hn)

end Xv6.Circular
