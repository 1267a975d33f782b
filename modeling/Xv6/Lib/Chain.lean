import Mathlib.Tactic

/-!
# Xv6.Lib.Chain

Singly linked lists, and a pointer to the pointer that ends one.

`cell none` is the pointer to the first node and `cell (some a)` the next pointer of node `a`, so a
pointer to a pointer is the `Option α` it belongs to. `Path cell pp xs` says that following the
pointers from `pp` visits exactly `xs`. Appending through the last pointer and taking the first node
off are proved against the list operations they stand for.
-/

namespace Xv6.Chain

open Function List

variable {α : Type}

def Path (cell : Option α → Option α) : Option α → List α → Prop
  | pp, [] => cell pp = none
  | pp, a :: xs => cell pp = some a ∧ Path cell (some a) xs

/-- `for(; *pp; pp = &(*pp)->next)`, at most `n` tests of `*pp`. -/
def last (cell : Option α → Option α) : Nat → Option α → Option (Option α)
  | 0, _ => none
  | n + 1, pp =>
    match cell pp with
    | none => some pp
    | some a => last cell n (some a)

def ending (pp : Option α) (xs : List α) : Option α := xs.foldl (fun _ a => some a) pp

theorem ending_mem (pp : Option α) (xs : List α) : ending pp xs ∈ pp :: xs.map some := by
  induction xs generalizing pp with
  | nil => exact mem_singleton.mpr rfl
  | cons a xs ih => exact mem_cons_of_mem pp (ih (some a))

theorem Path.congr {cell cell' : Option α → Option α} {pp : Option α} {xs : List α}
    (h : Path cell pp xs) (heq : ∀ q ∈ pp :: xs.map some, cell' q = cell q) : Path cell' pp xs := by
  induction xs generalizing pp with
  | nil => exact (heq pp mem_cons_self).trans h
  | cons a xs ih =>
    refine ⟨(heq pp mem_cons_self).trans h.1, ih h.2 fun q hq => ?_⟩
    exact heq q (mem_cons_of_mem pp hq)

theorem Path.last_eq {cell : Option α → Option α} {pp : Option α} {xs : List α} {n : Nat}
    (h : Path cell pp xs) (hn : xs.length < n) : last cell n pp = some (ending pp xs) := by
  induction xs generalizing pp n with
  | nil =>
    obtain ⟨n, rfl⟩ := Nat.exists_eq_add_one_of_ne_zero (by omega : n ≠ 0)
    rw [last, show cell pp = none from h]
    rfl
  | cons a xs ih =>
    obtain ⟨n, rfl⟩ := Nat.exists_eq_add_one_of_ne_zero (by omega : n ≠ 0)
    rw [last, h.1]
    exact ih h.2 (by simpa using hn)

theorem Path.head {cell : Option α → Option α} {xs : List α} (h : Path cell none xs) :
    cell none = xs.head? := by
  cases xs with
  | nil => exact h
  | cons a xs => exact h.1

variable [DecidableEq α]

/-- `b->next = 0`, the loop, and `*pp = b`. -/
def append (cell : Option α → Option α) (n : Nat) (b : α) : Option (Option α → Option α) :=
  let cell := update cell (some b) none
  (last cell n none).map fun pp => update cell pp (some b)

/-- `head = head->next`, for the first node `a`. -/
def pop (cell : Option α → Option α) (a : α) : Option α → Option α :=
  update cell none (cell (some a))

theorem Path.snoc {cell : Option α → Option α} {pp : Option α} {xs : List α} {b : α}
    (h : Path cell pp xs) (hnd : (pp :: xs.map some).Nodup) (hb : some b ∉ pp :: xs.map some)
    (hnil : cell (some b) = none) : Path (update cell (ending pp xs) (some b)) pp (xs ++ [b]) := by
  induction xs generalizing pp with
  | nil =>
    have hne : some b ≠ pp := by simpa using hb
    refine ⟨update_self .., ?_⟩
    show update cell pp (some b) (some b) = none
    rw [update_of_ne hne, hnil]
  | cons a xs ih =>
    obtain ⟨hpp, hnd'⟩ := nodup_cons.mp hnd
    have hb' : some b ∉ some a :: xs.map some := fun hmem => hb (mem_cons_of_mem pp hmem)
    refine ⟨?_, ih h.2 hnd' hb'⟩
    -- the last pointer is not the one the path starts from
    have hne : pp ≠ ending (some a) xs := fun heq => hpp (heq ▸ ending_mem (some a) xs)
    exact (update_of_ne hne _ _).trans h.1

theorem Path.append {cell : Option α → Option α} {xs : List α} {b : α} {n : Nat}
    (h : Path cell none xs) (hnd : xs.Nodup) (hb : b ∉ xs) (hn : xs.length < n) :
    ∃ cell', append cell n b = some cell' ∧ Path cell' none (xs ++ [b]) := by
  have hmem : some b ∉ none :: xs.map some := by simpa using hb
  have h' : Path (update cell (some b) none) none xs := by
    refine h.congr fun q hq => update_of_ne ?_ _ _
    rintro rfl
    exact hmem hq
  refine ⟨_, by rw [Chain.append, h'.last_eq hn]; rfl, h'.snoc ?_ hmem (update_self ..)⟩
  refine nodup_cons.mpr ⟨by simp, hnd.map (Option.some_injective α)⟩

theorem Path.pop {cell : Option α → Option α} {xs : List α} {a : α}
    (h : Path cell none (a :: xs)) : Path (pop cell a) none xs := by
  obtain ⟨-, h⟩ := h
  cases xs with
  | nil => exact (update_self ..).trans h
  | cons x xs =>
    refine ⟨(update_self ..).trans h.1, h.2.congr fun q hq => ?_⟩
    refine update_of_ne ?_ _ _
    rintro rfl
    simp at hq

end Xv6.Chain
