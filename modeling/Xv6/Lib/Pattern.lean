import Mathlib.Computability.Language

/-!
# Xv6.Lib.Pattern

Patterns as rows of items, each of them one symbol of a class or any number of symbols of a class,
with or without an anchor at the end of the text. The language of a pattern is the product of the
languages of its items; a text is accepted if it has a beginning in that language, which is the
whole text if the pattern is anchored.
-/

namespace Xv6.Pattern

open scoped Computability

variable {α : Type}

inductive Item (α : Type) where
  | one (P : α → Prop)
  | many (P : α → Prop)

/-- The words of one symbol in `P`. -/
def symbol (P : α → Prop) : Language α := {w | ∃ a, P a ∧ w = [a]}

namespace Item

def lang : Item α → Language α
  | one P => symbol P
  | many P => (symbol P)∗

end Item

def lang (is : List (Item α)) : Language α := (is.map Item.lang).prod

/-- A pattern: its items, and whether the text has to end behind them. -/
structure Pat (α : Type) where
  items : List (Item α)
  anchored : Bool

namespace Pat

def Accepts (p : Pat α) (text : List α) : Prop :=
  ∃ u v, text = u ++ v ∧ u ∈ Pattern.lang p.items ∧ (p.anchored = true → v = [])

def cons (i : Item α) (p : Pat α) : Pat α := ⟨i :: p.items, p.anchored⟩

end Pat

theorem mem_kstar_symbol {P : α → Prop} {w : List α} : w ∈ (symbol P)∗ ↔ ∀ a ∈ w, P a := by
  rw [Language.mem_kstar]
  constructor
  · rintro ⟨L, rfl, hL⟩ a ha
    obtain ⟨x, hx, hax⟩ := List.mem_flatten.mp ha
    obtain ⟨b, hb, rfl⟩ := hL x hx
    rw [List.mem_singleton.mp hax]
    exact hb
  · intro h
    refine ⟨w.map fun a => [a], ?_, ?_⟩
    · induction w with
      | nil => rfl
      | cons a w ih =>
        rw [List.map_cons, List.flatten_cons, ← ih fun b hb => h b (List.mem_cons_of_mem _ hb)]
        rfl
    · intro x hx
      obtain ⟨a, ha, rfl⟩ := List.mem_map.mp hx
      exact ⟨a, h a ha, rfl⟩

namespace Pat

variable {p : Pat α} {P : α → Prop} {text : List α}

theorem accepts_nil {b : Bool} : Accepts ⟨[], b⟩ text ↔ (b = true → text = []) := by
  constructor
  · rintro ⟨u, v, rfl, hu, hv⟩ hb
    obtain rfl : u = [] := hu
    exact hv hb
  · intro h
    exact ⟨[], text, rfl, Language.nil_mem_one, h⟩

theorem accepts_cons {i : Item α} :
    (p.cons i).Accepts text ↔ ∃ u v, text = u ++ v ∧ u ∈ i.lang ∧ p.Accepts v := by
  have hprod : Pattern.lang (p.cons i).items = i.lang * Pattern.lang p.items := by
    rw [cons, Pattern.lang, List.map_cons, List.prod_cons]
    rfl
  constructor
  · rintro ⟨w, v, rfl, hw, hv⟩
    rw [hprod, Language.mem_mul] at hw
    obtain ⟨u, hu, u', hu', rfl⟩ := hw
    exact ⟨u, u' ++ v, List.append_assoc u u' v, hu, u', v, rfl, hu', hv⟩
  · rintro ⟨u, w, rfl, hu, u', v, rfl, hu', hv⟩
    refine ⟨u ++ u', v, (List.append_assoc u u' v).symm, ?_, hv⟩
    rw [hprod]
    exact Language.append_mem_mul hu hu'

theorem accepts_one :
    (p.cons (.one P)).Accepts text ↔ ∃ a v, text = a :: v ∧ P a ∧ p.Accepts v := by
  rw [accepts_cons]
  constructor
  · rintro ⟨u, v, rfl, ⟨a, ha, rfl⟩, hv⟩
    exact ⟨a, v, rfl, ha, hv⟩
  · rintro ⟨a, v, rfl, ha, hv⟩
    exact ⟨[a], v, rfl, ⟨a, ha, rfl⟩, hv⟩

theorem accepts_many : (p.cons (.many P)).Accepts text ↔
      ∃ u v, text = u ++ v ∧ (∀ a ∈ u, P a) ∧ p.Accepts v := by
  rw [accepts_cons]
  exact exists₂_congr fun u v => and_congr_right fun _ => and_congr_left fun _ => mem_kstar_symbol

end Pat

end Xv6.Pattern
