import Xv6.Kernel.Sem

/-!
# Xv6.Kernel.SemQueue

The queue of a semaphore.

`Waits` is the history of one semaphore since it was set up: how many calls there were, who was put
in the queue, in order, and how many have been taken out. `Fifo` says that the counter, the length
and the array of the semaphore are what the history makes them; a release takes out whoever has
waited longest.
-/

namespace Xv6.Kernel

open Function List

/-- `list[0..num_of_procs)`. -/
def Sem.queue (sem : Sem) : List (Option Slot) := (ofFn sem.list).take sem.numOfProcs.toNat

structure Waits where
  aquires : Nat
  releases : Nat
  enqueued : List Slot
  dequeued : Nat

namespace Waits

def none : Waits := ⟨0, 0, [], 0⟩

def pending (w : Waits) : List Slot := w.enqueued.drop w.dequeued

def aquire (w : Waits) (s : Slot) (value : Int) : Waits :=
  { w with
    aquires := w.aquires + 1
    enqueued := if value < 0 then w.enqueued ++ [s] else w.enqueued }

def release (w : Waits) (value : Int) : Waits :=
  { w with
    releases := w.releases + 1
    dequeued := if value ≤ 0 then w.dequeued + 1 else w.dequeued }

theorem pending_aquire (w : Waits) (s : Slot) {value : Int} (h : value < 0)
    (hd : w.dequeued ≤ w.enqueued.length) : (w.aquire s value).pending = w.pending ++ [s] := by
  simp only [pending, aquire, if_pos h]
  exact drop_append_of_le_length hd

theorem pending_release (w : Waits) {value : Int} (h : value ≤ 0) :
    (w.release value).pending = w.pending.tail := by
  simp only [pending, release, if_pos h, tail_drop]

end Waits

/-- The semaphores, with the history of one of them. -/
structure Queue where
  sys : SemSys
  past : Waits

inductive QueueEvent where
  | aquire (s : Slot)
  | release
  | other (sys : SemSys)

namespace Queue

/-- `semaphore_initialize(sid, v, m)` has returned, and nobody has called since. -/
def Started (j : Fin 5) (v m : Int) (k : Queue) : Prop :=
  k.past = .none ∧ ∃ k0, k.sys = (semaphoreInitialize k0 j v m).2

/-- Calls by any process, and whatever leaves this semaphore alone. -/
inductive Step (j : Fin 5) : Queue → QueueEvent → Queue → Prop where
  | aquire {k : Queue} {s : Slot} {r : Int} {sys : SemSys} :
      semaphoreAquire k.sys s j = .ok (r, sys) →
      Step j k (.aquire s) ⟨sys, k.past.aquire s (sys.sems j).value⟩
  | release {k : Queue} {r : Int} {sys : SemSys} :
      semaphoreRelease k.sys j = .ok (r, sys) →
      Step j k .release ⟨sys, k.past.release (sys.sems j).value⟩
  | other {k : Queue} {sys : SemSys} :
      sys.sems j = k.sys.sems j → Step j k (.other sys) ⟨sys, k.past⟩

/-- At most 20 entries are in the queue after the call, and the counter does not overflow. -/
def Fits (j : Fin 5) (k : Queue) : QueueEvent → Prop
  | .aquire _ => (k.sys.sems j).value ≤ 0 → k.past.pending.length < 20
  | .release => (k.sys.sems j).value ≠ 2 ^ 31 - 1
  | .other sys => sys.sems j = k.sys.sems j

def FitStep (j : Fin 5) (k : Queue) (e : QueueEvent) (k' : Queue) : Prop :=
  Step j k e k' ∧ k.Fits j e

/-- The semaphore is what its history makes it. -/
structure Fifo (j : Fin 5) (v : Int) (k : Queue) : Prop where
  ok : (k.sys.sems j).Ok
  value : (k.sys.sems j).value = v - k.past.aquires + k.past.releases
  length : (k.sys.sems j).numOfProcs = k.past.pending.length
  entry : ∀ i : Fin 20, i.val < k.past.pending.length →
    (k.sys.sems j).list i = k.past.pending[i.val]?

variable {j : Fin 5} {v m : Int} {k k' : Queue} {s : Slot}

theorem Started.fifo (hv : 0 ≤ v) (hv' : v < 2 ^ 31) (hm : 0 ≤ m) (h : k.Started j v m) :
    k.Fifo j v := by
  obtain ⟨hpast, k0, hinit⟩ := h
  obtain ⟨sem, hok, hsem, hval⟩ := semaphoreInitialize_ok k0 j hv hv' hm
  have hj : k.sys.sems j = sem := by
    rw [hinit, hok]
    exact update_self ..
  have hnum := hsem.num
  have hnone : k.past.pending = [] := by rw [hpast]; rfl
  refine ⟨hj ▸ hsem, ?_, ?_, ?_⟩
  · rw [hj, hval, hpast]
    simp [Waits.none]
  · rw [hj, hnone, hnum, hval]
    simpa using hv
  · intro i hi
    rw [hnone] at hi
    simp at hi

theorem Fifo.pending_nil (h : k.Fifo j v) (hval : 0 ≤ (k.sys.sems j).value) :
    k.past.pending = [] := by
  have hnum := h.ok.num
  have hlen := h.length
  rw [eq_nil_iff_length_eq_zero]
  omega

theorem Fifo.queue_eq (h : k.Fifo j v) : (k.sys.sems j).queue = k.past.pending.map some := by
  have hnum := h.ok.num
  have hlo := h.ok.lo
  have hlen := h.length
  apply ext_getElem
  · simp only [Sem.queue, length_take, length_ofFn, length_map]
    omega
  · intro i hi hi'
    rw [length_map] at hi'
    simp only [Sem.queue, getElem_take, List.getElem_ofFn, getElem_map]
    rw [h.entry ⟨i, by omega⟩ hi']
    exact getElem?_eq_getElem hi'

theorem stored_unique {f : Fin 5 → Sem} {x y : Sem} {t t' : PTable}
    {r : Except Fault (Int × SemSys)} (h : r = .ok (1, ⟨update f j x, t⟩))
    (h' : r = .ok (1, ⟨update f j y, t'⟩)) : x = y := by
  rw [h] at h'
  simp only [Except.ok.injEq, Prod.mk.injEq, SemSys.mk.injEq, true_and] at h'
  exact update_injective f j h'.1

theorem Fifo.aquire (h : k.Fifo j v) (hd : k.past.dequeued ≤ k.past.enqueued.length)
    (hfit : k.Fits j (.aquire s)) : ∃ sys, semaphoreAquire k.sys s j = .ok (1, sys) ∧
      Fifo j v ⟨sys, k.past.aquire s (sys.sems j).value⟩ := by
  have hnum := h.ok.num
  have hlen := h.length
  have hvalue := h.value
  by_cases hv : 0 < (k.sys.sems j).value
  · refine ⟨_, semaphoreAquire_unit h.ok s hv, ?_⟩
    obtain ⟨sem, t, hok, hsem, hval⟩ := semaphoreAquire_ok h.ok s (.inl hv)
    have hsem' := stored_unique (semaphoreAquire_unit h.ok s hv) hok
    have hnil := h.pending_nil (by omega)
    have hkeep : ¬ (k.sys.sems j).value - 1 < 0 := by omega
    have hpend : (k.past.aquire s ((k.sys.sems j).value - 1)).pending = [] := by
      rw [← hnil]
      simp only [Waits.pending, Waits.aquire, if_neg hkeep]
    refine ⟨by simpa [hsem'] using hsem, ?_, ?_, ?_⟩
    · simp only [update_self, Waits.aquire]
      push_cast
      omega
    · simp only [update_self, hpend]
      rw [hlen, hnil]
    · intro i hi
      simp only [update_self, hpend] at hi
      simp at hi
  · have hroom := hfit (not_lt.mp hv)
    obtain ⟨sem, t, hok, hsem, hval⟩ := semaphoreAquire_ok h.ok s (.inr (by omega))
    generalize hi : (⟨k.past.pending.length, hroom⟩ : Fin 20) = i
    have hiv : i.val = k.past.pending.length := by rw [← hi]
    have hrun := semaphoreAquire_queue h.ok s (not_lt.mp hv) (i := i) (by rw [hlen, hiv])
    refine ⟨_, hrun, ?_⟩
    have hsem' := stored_unique hrun hok
    have hneg : (k.sys.sems j).value - 1 < 0 := by omega
    have hpend := Waits.pending_aquire k.past s hneg hd
    refine ⟨by simpa [hsem'] using hsem, ?_, ?_, ?_⟩
    · simp only [update_self, Waits.aquire]
      push_cast
      omega
    · simp only [update_self, hpend, length_append, length_singleton]
      push_cast
      omega
    · intro q hq
      simp only [update_self, hpend, length_append, length_singleton] at hq ⊢
      by_cases hqi : q = i
      · subst hqi
        rw [update_self, hiv, getElem?_concat_length]
      · have hne : q.val ≠ i.val := fun heq => hqi (Fin.ext heq)
        rw [update_of_ne hqi, getElem?_append_left (by omega)]
        exact h.entry q (by omega)

/-- What a release does to the process table: it wakes whoever was enqueued first of those still in
the queue, if the counter says that there is one. -/
def Wakes (k : Queue) (j : Fin 5) (sys : SemSys) : Prop :=
  if (sys.sems j).value ≤ 0 then
    ∃ p, k.past.enqueued[k.past.dequeued]? = some p ∧
      sys.ptable = update k.sys.ptable p { k.sys.ptable p with state := .runnable }
  else sys.ptable = k.sys.ptable

theorem Fifo.release (h : k.Fifo j v) (hfit : k.Fits j .release) :
    ∃ sys, semaphoreRelease k.sys j = .ok (1, sys) ∧
      Fifo j v ⟨sys, k.past.release (sys.sems j).value⟩ ∧ k.Wakes j sys := by
  have hnum := h.ok.num
  have hlo := h.ok.lo
  have hlen := h.length
  have hvalue := h.value
  obtain ⟨sem, t, hok, hsem, hval⟩ := semaphoreRelease_ok h.ok hfit
  by_cases hv : 0 ≤ (k.sys.sems j).value
  · have hrun := semaphoreRelease_unit h.ok hv hfit
    refine ⟨_, hrun, ?_⟩
    have hsem' := stored_unique hrun hok
    have hnil := h.pending_nil hv
    have hpos : ¬ (k.sys.sems j).value + 1 ≤ 0 := by omega
    have hpend : (k.past.release ((k.sys.sems j).value + 1)).pending = [] := by
      rw [← hnil]
      simp only [Waits.pending, Waits.release, if_neg hpos]
    refine ⟨⟨by simpa [hsem'] using hsem, ?_, ?_, ?_⟩, ?_⟩
    · simp only [update_self, Waits.release]
      push_cast
      omega
    · simp only [update_self, hpend]
      rw [hlen, hnil]
    · intro i hi
      simp only [update_self, hpend] at hi
      simp at hi
    · simp only [Wakes, update_self, if_neg hpos]
  · obtain ⟨p, list', hp, hlist, hrun⟩ := semaphoreRelease_queue h.ok (not_le.mp hv)
    refine ⟨_, hrun, ?_⟩
    have hsem' := stored_unique hrun hok
    have hle : (k.sys.sems j).value + 1 ≤ 0 := by omega
    have hpend := Waits.pending_release k.past hle
    refine ⟨⟨by simpa [hsem'] using hsem, ?_, ?_, ?_⟩, ?_⟩
    · simp only [update_self, Waits.release]
      push_cast
      omega
    · simp only [update_self, hpend, length_tail]
      omega
    · intro q hq
      simp only [update_self, hpend, length_tail] at hq ⊢
      have hlt : q.val + 1 < 20 := by omega
      rw [hlist q ⟨q.val + 1, hlt⟩ rfl (by simp only; omega), h.entry ⟨q.val + 1, hlt⟩
        (by simp only; omega), getElem?_tail]
    · have hfirst := h.entry 0 (by simp only [Fin.val_zero]; omega)
      rw [hp] at hfirst
      simp only [Wakes, update_self, if_pos hle]
      refine ⟨p, ?_, rfl⟩
      rw [hfirst, Fin.val_zero, Waits.pending, getElem?_drop, Nat.add_zero]

/-- Nobody is taken out before being put in. -/
structure Orderly (j : Fin 5) (v : Int) (k : Queue) : Prop extends Fifo j v k where
  dequeued : k.past.dequeued ≤ k.past.enqueued.length

theorem Orderly.step {e : QueueEvent} (h : k.Orderly j v) (hs : k.FitStep j e k') :
    k'.Orderly j v := by
  obtain ⟨hstep, hfit⟩ := hs
  have hd := h.dequeued
  cases hstep with
  | aquire hok =>
    obtain ⟨sys, hok', hf⟩ := h.toFifo.aquire hd hfit
    rw [hok] at hok'
    cases hok'
    refine ⟨hf, ?_⟩
    simp only [Waits.aquire]
    split
    · rw [length_append]
      omega
    · exact hd
  | release hok =>
    obtain ⟨sys, hok', hf, hw⟩ := h.toFifo.release hfit
    rw [hok] at hok'
    cases hok'
    refine ⟨hf, ?_⟩
    simp only [Waits.release]
    split
    · rename_i hle
      simp only [Wakes, if_pos hle] at hw
      obtain ⟨p, hp, -⟩ := hw
      exact (List.getElem?_eq_some_iff.mp hp).1
    · exact hd
  | other hsys => exact ⟨⟨hsys ▸ h.ok, hsys ▸ h.value, hsys ▸ h.length, hsys ▸ h.entry⟩, hd⟩

theorem reach_orderly (hv : 0 ≤ v) (hv' : v < 2 ^ 31) (hm : 0 ≤ m)
    (h : Reach (Started j v m) (FitStep j) k) : k.Orderly j v := by
  refine h.invariant (fun k hk => ⟨hk.fifo hv hv' hm, ?_⟩) fun _ _ _ => Orderly.step
  rw [hk.1]
  exact Nat.le_refl 0

/-- In every run on one semaphore that keeps within the array and the counter: the counter and the
length are those of the history, the array holds those that are still queued, in order, every
further such call returns, and a release wakes the one that was enqueued first, and nobody else. -/
theorem sem_fifo (j : Fin 5) {v m : Int} (hv : 0 ≤ v) (hv' : v < 2 ^ 31) (hm : 0 ≤ m) {k : Queue}
    (h : Reach (Started j v m) (FitStep j) k) :
    (k.sys.sems j).numOfProcs = max 0 (-(k.sys.sems j).value) ∧
    (k.sys.sems j).value = v - k.past.aquires + k.past.releases ∧
    (k.sys.sems j).queue = (k.past.enqueued.drop k.past.dequeued).map some ∧
    (∀ e, k.Fits j e → ∃ k', FitStep j k e k') ∧
    ∀ k', FitStep j k .release k' → k.Wakes j k'.sys := by
  have hk := reach_orderly hv hv' hm h
  refine ⟨hk.ok.num, hk.value, hk.queue_eq, ?_, ?_⟩
  · intro e hfit
    cases e with
    | aquire s =>
      obtain ⟨sys, hok, -⟩ := hk.toFifo.aquire hk.dequeued hfit
      exact ⟨_, .aquire hok, hfit⟩
    | release =>
      obtain ⟨sys, hok, -⟩ := hk.toFifo.release hfit
      exact ⟨_, .release hok, hfit⟩
    | other sys => exact ⟨_, .other hfit, hfit⟩
  · rintro k' ⟨hstep, hfit⟩
    obtain ⟨sys, hok, -, hw⟩ := hk.toFifo.release hfit
    cases hstep with
    | release hok' =>
      rw [hok] at hok'
      cases hok'
      exact hw

/-- The first semaphore, set up without units. -/
def noUnits : Queue := ⟨(semaphoreInitialize .boot 0 0 0).2, .none⟩

theorem noUnits_started : noUnits.Started 0 0 0 := ⟨rfl, .boot, rfl⟩

/-- Slot 3 waits and then slot 5, and a release wakes the first. -/
theorem sem_fifo_wakes :
    ∃ k k', Reach (Started 0 0 0) (FitStep 0) k ∧ (k.sys.sems 0).queue = [some 3, some 5] ∧
      FitStep 0 k .release k' ∧ k.Wakes 0 k'.sys ∧ (k'.sys.ptable 3).state = .runnable ∧
      (k'.sys.ptable 5).state = .sleeping ∧ (k'.sys.sems 0).queue = [some 5] := by
  have h1 := (Reach.start noUnits_started).step
    (show FitStep 0 _ (.aquire 3) _ from ⟨.aquire rfl, fun _ => by decide⟩)
  have h2 := h1.step (show FitStep 0 _ (.aquire 5) _ from ⟨.aquire rfl, fun _ => by decide⟩)
  have hwake := (sem_fifo 0 (by decide) (by decide) (by decide) h2).2.2.2.2
  have hfit : ∀ k : Queue, (k.sys.sems 0).value = -2 → Fits 0 k .release := fun k hk => by
    rw [Fits, hk]
    decide
  refine ⟨_, _, h2, rfl, ⟨.release rfl, hfit _ rfl⟩, ?_, rfl, rfl, rfl⟩
  exact hwake _ ⟨.release rfl, hfit _ rfl⟩

/-- A call with `m < 0` is refused and sets nothing. -/
theorem refused_keeps_value : ∃ k, Reach (Started 0 5 (-1)) (FitStep 0) k ∧
      (k.sys.sems 0).value ≠ 5 - k.past.aquires + k.past.releases := by
  refine ⟨⟨(semaphoreInitialize .boot 0 5 (-1)).2, .none⟩, .start ⟨rfl, .boot, rfl⟩, ?_⟩
  decide

end Queue

end Xv6.Kernel
