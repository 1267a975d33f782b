import Mathlib.Tactic

/-!
# Xv6.Lib.Run

Runs of a labelled transition system.

`Reach init step s`: some finite sequence of steps leads from an initial state to `s`, in any order
the step relation allows. `Reach.invariant` turns "holds initially, kept by every step" into "holds
in every reachable state"; `Reach.mono` compares systems whose steps are a restriction of one
another.

`Run step s es s'`: the events `es`, in this order, lead from `s` to `s'`. `Run.simulate` is forward
simulation: what one system does in a run, the other does with the same events.

`update_cases` is the case split for a step in which one party moves.
-/

namespace Xv6

open List Function

variable {σ ε : Type}

@[elab_as_elim]
theorem update_cases {f : σ → ε} {a : σ} {v : ε} [DecidableEq σ] {motive : σ → ε → Prop} (x : σ)
    (self : motive a v) (other : ∀ x, x ≠ a → motive x (f x)) : motive x (update f a v x) := by
  by_cases hx : x = a
  · subst hx
    rwa [update_self]
  · rw [update_of_ne hx]
    exact other x hx

inductive Reach (init : σ → Prop) (step : σ → ε → σ → Prop) : σ → Prop where
  | start {s : σ} : init s → Reach init step s
  | step {s s' : σ} {e : ε} : Reach init step s → step s e s' → Reach init step s'

namespace Reach

variable {init : σ → Prop} {step : σ → ε → σ → Prop} {s : σ}

theorem invariant {P : σ → Prop} (h0 : ∀ s, init s → P s)
    (hs : ∀ s e s', P s → step s e s' → P s') (h : Reach init step s) : P s := by
  induction h with
  | start hi => exact h0 _ hi
  | step _ hst ih => exact hs _ _ _ ih hst

theorem mono {step' : σ → ε → σ → Prop} (hs : ∀ s e s', step s e s' → step' s e s')
    (h : Reach init step s) : Reach init step' s := by
  induction h with
  | start hi => exact .start hi
  | step _ hst ih => exact .step ih (hs _ _ _ hst)

theorem follow {f : σ → ε → Option σ} {Q : ε → Prop}
    (hs : ∀ s e s', Q e → f s e = some s' → step s e s') {es : List ε} {s' : σ}
    (h : Reach init step s) (hes : ∀ e ∈ es, Q e) (hr : es.foldlM f s = some s') :
    Reach init step s' := by
  induction es generalizing s with
  | nil =>
    obtain rfl := Option.some.inj hr
    exact h
  | cons e es ih =>
    obtain ⟨he, hes⟩ := forall_mem_cons.mp hes
    rw [foldlM_cons] at hr
    obtain ⟨s₁, hst, hr⟩ := Option.bind_eq_some_iff.mp hr
    exact ih (h.step (hs _ _ _ he hst)) hes hr

end Reach

inductive Run (step : σ → ε → σ → Prop) : σ → List ε → σ → Prop where
  | nil (s : σ) : Run step s [] s
  | snoc {s s' s'' : σ} {es : List ε} {e : ε} :
      Run step s es s' → step s' e s'' → Run step s (es ++ [e]) s''

namespace Run

variable {step : σ → ε → σ → Prop} {s s' : σ} {es : List ε}

theorem single {e : ε} (h : step s e s') : Run step s [e] s' := .snoc (.nil s) h

theorem trans {s'' : σ} {es' : List ε} (h : Run step s es s') (h' : Run step s' es' s'') :
    Run step s (es ++ es') s'' := by
  induction h' with
  | nil => rwa [append_nil]
  | snoc _ hst ih => rw [← append_assoc]; exact .snoc ih hst

theorem mono {step' : σ → ε → σ → Prop} (hs : ∀ s e s', step s e s' → step' s e s')
    (h : Run step s es s') : Run step' s es s' := by
  induction h with
  | nil => exact .nil _
  | snoc _ hst ih => exact .snoc ih (hs _ _ _ hst)

theorem split {s0 : σ} {a b : List ε} {e : ε} (h : Run step s0 es s) (heq : es = a ++ e :: b) :
    ∃ s1 s2, Run step s0 a s1 ∧ step s1 e s2 := by
  induction h generalizing b with
  | nil => simp at heq
  | @snoc s1 s2 es e' hrun hst ih =>
    rcases eq_nil_or_concat b with rfl | ⟨b', x, rfl⟩
    · obtain ⟨rfl, rfl⟩ : es = a ∧ e' = e := by simpa using List.append_inj' heq rfl
      exact ⟨s1, s2, hrun, hst⟩
    · rw [concat_eq_append, ← cons_append, ← append_assoc] at heq
      exact ih (List.append_inj' heq rfl).1

theorem simulate {τ : Type} {step' : τ → ε → τ → Prop} {R : σ → τ → Prop}
    (hs : ∀ s e s' t, step s e s' → R s t → ∃ t', step' t e t' ∧ R s' t') {t : τ}
    (h : Run step s es s') (hR : R s t) : ∃ t', Run step' t es t' ∧ R s' t' := by
  induction h with
  | nil => exact ⟨t, .nil t, hR⟩
  | snoc _ hst ih =>
    obtain ⟨t', hrun, hR'⟩ := ih
    obtain ⟨t'', hst', hR''⟩ := hs _ _ _ _ hst hR'
    exact ⟨t'', .snoc hrun hst', hR''⟩

end Run
end Xv6
