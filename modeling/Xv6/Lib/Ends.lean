import Mathlib.Tactic

/-!
# Xv6.Lib.Ends

Postconditions for computations that may fail.

`Ends r E Q` says what a finished computation `r : Except ε α` can be: a value with `Q`, or an error
with `E`. It composes along `>>=` (`Ends.bind`), and can be weakened in both places (`Ends.mono`).
With `E` false it says that the computation succeeds (`Ends.total`).
-/

namespace Xv6

variable {ε α β : Type}

def Ends (r : Except ε α) (E : ε → Prop) (Q : α → Prop) : Prop :=
  match r with
  | .ok a => Q a
  | .error e => E e

@[simp] theorem ends_ok {a : α} {E : ε → Prop} {Q : α → Prop} : Ends (.ok a) E Q ↔ Q a := Iff.rfl

@[simp] theorem ends_error {e : ε} {E : ε → Prop} {Q : α → Prop} :
    Ends (.error e) E Q ↔ E e := Iff.rfl

theorem ok_bind (a : α) (f : α → Except ε β) : ((.ok a : Except ε α) >>= f) = f a := rfl

namespace Ends

variable {r : Except ε α} {E E' : ε → Prop} {Q Q' : α → Prop}

theorem mono (h : Ends r E Q) (hE : ∀ e, E e → E' e) (hQ : ∀ a, Q a → Q' a) : Ends r E' Q' := by
  cases r with
  | ok a => exact hQ a h
  | error e => exact hE e h

theorem imp (h : Ends r E Q) (hQ : ∀ a, Q a → Q' a) : Ends r E Q' := h.mono (fun _ => id) hQ

theorem bind {f : α → Except ε β} {R : β → Prop} (h : Ends r E Q)
    (hf : ∀ a, Q a → Ends (f a) E R) : Ends (r >>= f) E R := by
  cases r with
  | ok a => exact hf a h
  | error e => exact h

theorem and {F : ε → Prop} {R : α → Prop} (h : Ends r E Q) (h' : Ends r F R) :
    Ends r (fun e => E e ∧ F e) fun a => Q a ∧ R a := by
  cases r with
  | ok a => exact ⟨h, h'⟩
  | error e => exact ⟨h, h'⟩

theorem of_ok {a : α} (h : Ends r E Q) (hr : r = .ok a) : Q a := by
  subst hr; exact h

theorem of_error {e : ε} (h : Ends r E Q) (hr : r = .error e) : E e := by
  subst hr; exact h

theorem total (h : Ends r (fun _ => False) Q) : ∃ a, r = .ok a ∧ Q a := by
  cases r with
  | ok a => exact ⟨a, rfl, h⟩
  | error e => exact h.elim

end Ends
end Xv6
