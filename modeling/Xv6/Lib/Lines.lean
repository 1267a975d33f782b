import Mathlib.Data.List.Basic

/-!
# Xv6.Lib.Lines

Sequences made of lines that a separator ends. Every sequence is a number of whole lines and a rest
without separator, in one way.
-/

namespace Xv6.Lines

open List

variable {α : Type} {sep : α}

/-- The lines one after the other, each with its separator. -/
def joined (sep : α) (ls : List (List α)) : List α := ls.flatMap (· ++ [sep])

@[simp] theorem joined_nil : joined sep [] = [] := rfl

@[simp] theorem joined_cons (l : List α) (ls : List (List α)) :
    joined sep (l :: ls) = l ++ sep :: joined sep ls := by
  simp [joined]

@[simp] theorem joined_append (ls ls' : List (List α)) :
    joined sep (ls ++ ls') = joined sep ls ++ joined sep ls' := by
  simp [joined]

theorem mem_joined (ls : List (List α)) (h : ls ≠ []) : sep ∈ joined sep ls := by
  cases ls with
  | nil => exact absurd rfl h
  | cons l ls => simp

theorem joined_length_le (ls : List (List α)) : ls.length ≤ (joined sep ls).length := by
  induction ls with
  | nil => exact Nat.le_refl _
  | cons l ls ih =>
    rw [joined_cons, length_append, length_cons, length_cons]
    omega

/-- `s` is the lines `ls` and the beginning `tail` of another one. -/
structure Cut (sep : α) (s : List α) (ls : List (List α)) (tail : List α) : Prop where
  eq : s = joined sep ls ++ tail
  lines : ∀ l ∈ ls, sep ∉ l
  rest : sep ∉ tail

theorem exists_cut [DecidableEq α] (sep : α) : ∀ s : List α, ∃ ls tail, Cut sep s ls tail := by
  intro s
  induction s with
  | nil => exact ⟨[], [], rfl, fun _ h => absurd h not_mem_nil, not_mem_nil⟩
  | cons a s ih =>
    obtain ⟨ls, tail, rfl, hls, htail⟩ := ih
    by_cases ha : a = sep
    · refine ⟨[] :: ls, tail, ?_, ?_, htail⟩
      · rw [joined_cons, nil_append, ha, cons_append]
      · intro l hl
        rcases mem_cons.mp hl with rfl | hl
        · exact not_mem_nil
        · exact hls l hl
    · -- The symbol belongs to the first line, or to the rest if there is no line.
      have hnot : ∀ l : List α, sep ∉ l → sep ∉ a :: l := fun l h hmem =>
        (mem_cons.mp hmem).elim (fun h => ha h.symm) h
      cases ls with
      | nil => exact ⟨[], a :: tail, rfl, hls, hnot tail htail⟩
      | cons l ls =>
        refine ⟨(a :: l) :: ls, tail, ?_, ?_, htail⟩
        · rw [joined_cons, joined_cons, cons_append, cons_append]
        · intro l' hl'
          rcases mem_cons.mp hl' with rfl | hl'
          · exact hnot l (hls l mem_cons_self)
          · exact hls l' (mem_cons_of_mem _ hl')

theorem append_sep_inj : ∀ {l l' s s' : List α}, sep ∉ l → sep ∉ l' →
    l ++ sep :: s = l' ++ sep :: s' → l = l' ∧ s = s' := by
  intro l
  induction l with
  | nil =>
    intro l' s s' _ hl' h
    cases l' with
    | nil => exact ⟨rfl, (List.cons.inj h).2⟩
    | cons b l' => exact absurd ((List.cons.inj h).1 ▸ mem_cons_self) hl'
  | cons a l ih =>
    intro l' s s' hl hl' h
    cases l' with
    | nil => exact absurd ((List.cons.inj h).1 ▸ mem_cons_self) hl
    | cons b l' =>
      obtain ⟨hab, hrest⟩ := List.cons.inj h
      obtain ⟨hll, hss⟩ := ih (fun hm => hl (mem_cons_of_mem _ hm))
        (fun hm => hl' (mem_cons_of_mem _ hm)) hrest
      exact ⟨by rw [hab, hll], hss⟩

theorem Cut.unique {s tail tail' : List α} {ls ls' : List (List α)} (h : Cut sep s ls tail)
    (h' : Cut sep s ls' tail') : ls = ls' ∧ tail = tail' := by
  obtain ⟨hs, hls, htail⟩ := h
  obtain ⟨hs', hls', htail'⟩ := h'
  rw [hs] at hs'
  clear hs
  induction ls generalizing ls' with
  | nil =>
    cases ls' with
    | nil => exact ⟨rfl, hs'⟩
    | cons l' ls' =>
      refine absurd ?_ htail
      have heq : tail = joined sep (l' :: ls') ++ tail' := hs'
      rw [heq]
      exact mem_append_left _ (mem_joined _ (cons_ne_nil _ _))
  | cons l ls ih =>
    cases ls' with
    | nil =>
      refine absurd ?_ htail'
      have heq : joined sep (l :: ls) ++ tail = tail' := hs'
      rw [← heq]
      exact mem_append_left _ (mem_joined _ (cons_ne_nil _ _))
    | cons l' ls' =>
      rw [joined_cons, joined_cons, append_assoc, append_assoc] at hs'
      obtain ⟨rfl, hrest⟩ := append_sep_inj (hls l mem_cons_self)
        (hls' l' mem_cons_self) hs'
      obtain ⟨rfl, rfl⟩ := ih (fun m hm => hls m (mem_cons_of_mem _ hm)) hrest
        (fun m hm => hls' m (mem_cons_of_mem _ hm))
      exact ⟨rfl, rfl⟩

theorem Cut.append {s t tail tail' : List α} {ls ls' : List (List α)} (h : Cut sep s ls tail)
    (h' : Cut sep (tail ++ t) ls' tail') : Cut sep (s ++ t) (ls ++ ls') tail' where
  eq := by rw [h.eq, append_assoc, h'.eq, joined_append, append_assoc]
  lines l hl := (mem_append.mp hl).elim (h.lines l) (h'.lines l)
  rest := h'.rest

theorem Cut.nil_iff {s tail : List α} {ls : List (List α)} (h : Cut sep s ls tail) :
    ls = [] ↔ sep ∉ s := by
  constructor
  · rintro rfl
    rw [h.eq]
    exact h.rest
  · intro hs
    by_contra hne
    rw [h.eq] at hs
    exact hs (mem_append_left _ (mem_joined ls hne))

end Xv6.Lines
