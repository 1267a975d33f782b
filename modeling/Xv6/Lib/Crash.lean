import Mathlib.Tactic

/-!
# Xv6.Lib.Crash

Devices whose single-cell writes are atomic, and what a crash leaves on them.

A program is seen by the device as the list of writes it issues. A crash keeps a prefix of that
list, so the device after a crash is `apply (ws.take j) d`. A recovery procedure is itself such a
program: `recover d` is the list of writes it issues from device `d` (`none` when it gets stuck).
`Crashes recover d d'` says that `d'` is left on the device when recovery was started from `d` and
crashed finitely many times, each time at an arbitrary write.

* `apply_take_invariant`: a property kept by every single write of a program holds after a crash.
* `Crashes.invariant`: a property kept by every crashed recovery attempt holds however many
  attempts crash.
-/

namespace Xv6.Crash

open Function List

variable {κ β : Type} [DecidableEq κ]

/-- The device after the writes `ws`, oldest first. -/
def apply (ws : List (κ × β)) (d : κ → β) : κ → β :=
  ws.foldl (fun d w => update d w.1 w.2) d

@[simp] theorem apply_nil (d : κ → β) : apply [] d = d := rfl

@[simp] theorem apply_cons (w : κ × β) (ws : List (κ × β)) (d : κ → β) :
    apply (w :: ws) d = apply ws (update d w.1 w.2) := rfl

theorem apply_append (ws vs : List (κ × β)) (d : κ → β) :
    apply (ws ++ vs) d = apply vs (apply ws d) := by
  simp [apply, foldl_append]

theorem apply_untouched {ws : List (κ × β)} {x : κ} :
    ∀ {d : κ → β}, (∀ w ∈ ws, w.1 ≠ x) → apply ws d x = d x := by
  induction ws with
  | nil => intro d _; rfl
  | cons w ws ih =>
    intro d h
    rw [apply_cons, ih fun v hv => h v (mem_cons_of_mem _ hv)]
    exact update_of_ne (Ne.symm (h w mem_cons_self)) _ _

theorem apply_mem {ws : List (κ × β)} {x : κ} {v : β} :
    ∀ {d : κ → β}, (ws.map Prod.fst).Nodup → (x, v) ∈ ws → apply ws d x = v := by
  induction ws with
  | nil => intro d _ h; cases h
  | cons w ws ih =>
    intro d hnd h
    rw [map_cons, nodup_cons] at hnd
    rw [apply_cons]
    rcases mem_cons.mp h with rfl | h
    · rw [apply_untouched]
      · exact update_self ..
      · intro u hu hux
        exact hnd.1 (mem_map.mpr ⟨u, hu, hux⟩)
    · exact ih hnd.2 h

theorem apply_take_invariant {P : (κ → β) → Prop} {ws : List (κ × β)} {d : κ → β} (hd : P d)
    (hw : ∀ w ∈ ws, ∀ d, P d → P (update d w.1 w.2)) (j : Nat) : P (apply (ws.take j) d) := by
  induction ws generalizing d j with
  | nil => simpa using hd
  | cons w ws ih =>
    cases j with
    | zero => simpa using hd
    | succ j =>
      rw [take_succ_cons, apply_cons]
      exact ih (hw w mem_cons_self d hd) (fun v hv => hw v (mem_cons_of_mem _ hv)) j

section Recovery

variable {recover : (κ → β) → Option (List (κ × β))}

inductive Crashes (recover : (κ → β) → Option (List (κ × β))) : (κ → β) → (κ → β) → Prop where
  | refl {d : κ → β} : Crashes recover d d
  | crash {d d1 : κ → β} {ws : List (κ × β)} (j : Nat) :
      Crashes recover d d1 → recover d1 = some ws → Crashes recover d (apply (ws.take j) d1)

theorem Crashes.invariant {P : (κ → β) → Prop}
    (hstep : ∀ d ws j, P d → recover d = some ws → P (apply (ws.take j) d)) {d d' : κ → β}
    (h : Crashes recover d d') (hd : P d) : P d' := by
  induction h with
  | refl => exact hd
  | crash j _ hr ih => exact hstep _ _ j ih hr

end Recovery

end Xv6.Crash
