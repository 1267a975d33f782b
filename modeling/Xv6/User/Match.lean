import Xv6.Lib.Pattern

/-!
# Xv6.User.Match

The matcher of `grep`.

A string is the list of the bytes before its NUL, so that `*text == '\0'` is that the list is
empty. `matchhere` recurses on the pattern, `matchstar` and the loop of `match` on the text; none of
them can go on for ever. What a pattern means is said by `parse`, which reads it from the left.
-/

namespace Xv6.User
namespace Grep

open Pattern

abbrev caret : UInt8 := 94
abbrev dollar : UInt8 := 36
abbrev dot : UInt8 := 46
abbrev star : UInt8 := 42

/-- `matchstar`, where `here` is `matchhere` for the rest of the pattern. -/
def matchstar (here : List UInt8 → Bool) (c : UInt8) : List UInt8 → Bool
  | [] => here []
  | t :: text => here (t :: text) || ((t = c || c = dot) && matchstar here c text)

/-- The last test of `matchhere`: a character against the head of the text, then the rest. -/
def matchone (here : List UInt8 → Bool) (c : UInt8) : List UInt8 → Bool
  | [] => false
  | t :: text => (c = dot || c = t) && here text

def matchhere : List UInt8 → List UInt8 → Bool
  | [], _ => true
  | [c], text => if c = dollar then text.isEmpty else matchone (matchhere []) c text
  | c :: d :: re, text =>
    if d = star then matchstar (matchhere re) c text else matchone (matchhere (d :: re)) c text

/-- The loop of `match`, which looks at the empty string too. -/
def matchLoop (re : List UInt8) : List UInt8 → Bool
  | [] => matchhere re []
  | t :: text => matchhere re (t :: text) || matchLoop re text

def match_ (re text : List UInt8) : Bool :=
  if re.head? = some caret then matchhere re.tail text else matchLoop re text

/-- The bytes that a character of the pattern stands for. -/
def Stands (c b : UInt8) : Prop := c = dot ∨ c = b

/-- A pattern, read from the left. -/
def parse : List UInt8 → Pat UInt8
  | [] => ⟨[], false⟩
  | [c] => if c = dollar then ⟨[], true⟩ else Pat.cons (.one (Stands c)) ⟨[], false⟩
  | c :: d :: re =>
    if d = star then (parse re).cons (.many (Stands c)) else (parse (d :: re)).cons
      (.one (Stands c))

theorem matchstar_iff {here : List UInt8 → Bool} {c : UInt8} : ∀ text : List UInt8,
    matchstar here c text = true ↔
      ∃ u v, text = u ++ v ∧ (∀ b ∈ u, Stands c b) ∧ here v = true := by
  intro text
  induction text with
  | nil =>
    constructor
    · intro h
      exact ⟨[], [], rfl, fun b hb => absurd hb List.not_mem_nil, h⟩
    · rintro ⟨u, v, huv, _, hv⟩
      obtain ⟨rfl, rfl⟩ := List.append_eq_nil_iff.mp huv.symm
      exact hv
  | cons t text ih =>
    simp only [matchstar, Bool.or_eq_true, Bool.and_eq_true, decide_eq_true_eq, ih]
    constructor
    · rintro (h | ⟨ht, u, v, rfl, hu, hv⟩)
      · exact ⟨[], t :: text, rfl, fun b hb => absurd hb List.not_mem_nil, h⟩
      · refine ⟨t :: u, v, rfl, fun b hb => ?_, hv⟩
        rcases List.mem_cons.mp hb with rfl | hb
        · exact ht.symm.imp_right Eq.symm
        · exact hu b hb
    · rintro ⟨u, v, huv, hu, hv⟩
      cases u with
      | nil => rw [List.nil_append] at huv; exact .inl (huv ▸ hv)
      | cons b u =>
        obtain ⟨rfl, rfl⟩ := List.cons.inj huv
        refine .inr ⟨?_, u, v, rfl, fun b hb => hu b (List.mem_cons_of_mem _ hb), hv⟩
        exact (hu t List.mem_cons_self).symm.imp_left Eq.symm

theorem matchone_iff {c : UInt8} {p : Pat UInt8} {here : List UInt8 → Bool}
    (h : ∀ text, here text = true ↔ p.Accepts text) (text : List UInt8) :
    matchone here c text = true ↔ (p.cons (.one (Stands c))).Accepts text := by
  rw [Pat.accepts_one]
  cases text with
  | nil => exact iff_of_false Bool.false_ne_true fun ⟨a, v, h, _⟩ => by cases h
  | cons t text =>
    simp only [matchone, Bool.and_eq_true, Bool.or_eq_true, decide_eq_true_eq, h]
    constructor
    · rintro ⟨hc, hrest⟩
      exact ⟨t, text, rfl, hc, hrest⟩
    · rintro ⟨a, v, heq, ha, hv⟩
      obtain ⟨rfl, rfl⟩ := List.cons.inj heq
      exact ⟨ha, hv⟩

theorem matchhere_nil (text : List UInt8) : matchhere [] text = true ↔ (parse []).Accepts text := by
  rw [matchhere, parse, Pat.accepts_nil]
  simp

theorem matchhere_iff (re : List UInt8) : ∀ text,
    matchhere re text = true ↔ (parse re).Accepts text := by
  induction re using parse.induct with
  | case1 => exact matchhere_nil
  | case2 =>
    intro text
    rw [matchhere, parse, if_pos rfl, if_pos rfl, Pat.accepts_nil, List.isEmpty_iff]
    simp
  | case3 c hc =>
    intro text
    rw [matchhere, parse, if_neg hc, if_neg hc]
    exact matchone_iff matchhere_nil text
  | case4 c re ih =>
    intro text
    rw [matchhere, parse, if_pos rfl, if_pos rfl, matchstar_iff, Pat.accepts_many]
    simp only [ih]
  | case5 c d re hd ih =>
    intro text
    rw [matchhere, parse, if_neg hd, if_neg hd]
    exact matchone_iff ih text

theorem matchLoop_iff (re : List UInt8) : ∀ text : List UInt8,
    matchLoop re text = true ↔ ∃ s, s <:+ text ∧ matchhere re s = true := by
  intro text
  induction text with
  | nil =>
    constructor
    · exact fun h => ⟨[], List.suffix_rfl, h⟩
    · rintro ⟨s, hs, h⟩
      rw [List.suffix_nil.mp hs] at h
      exact h
  | cons t text ih =>
    rw [matchLoop, Bool.or_eq_true, ih]
    constructor
    · rintro (h | ⟨s, hs, h⟩)
      · exact ⟨t :: text, List.suffix_rfl, h⟩
      · exact ⟨s, hs.trans (List.suffix_cons t text), h⟩
    · rintro ⟨s, hs, h⟩
      rcases List.suffix_cons_iff.mp hs with rfl | hs
      · exact .inl h
      · exact .inr ⟨s, hs, h⟩

/-- `match` finds what the pattern describes: without `^` some suffix of the text, with it the text
itself, has a beginning in the language of the pattern, which has to be all of it if the pattern
ends in `$`. -/
theorem match_language (re text : List UInt8) : match_ re text = true ↔
      if re.head? = some caret then (parse re.tail).Accepts text
      else ∃ s, s <:+ text ∧ (parse re).Accepts s := by
  rw [match_]
  split
  · exact matchhere_iff _ _
  · rw [matchLoop_iff]
    simp only [matchhere_iff]

/-- `^*` is a star at the beginning, `$*` any number of dollars. -/
example : match_ [caret, star] [star, 97] = true ∧ match_ [caret, star] [97] = false ∧
    match_ [caret, dollar, star, 97] [dollar, dollar, 97] = true := by decide

end Grep
end Xv6.User
