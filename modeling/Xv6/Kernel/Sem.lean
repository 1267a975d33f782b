import Xv6.Kernel.Table
import Xv6.Lib.Run

/-!
# Xv6.Kernel.Sem

The semaphore system calls.

`semaphore_aquire` and `semaphore_release` use the semaphore id they are given, and the number of
queued processes as an index into the queue. An access outside is `Fault.outside`. A caller that
finds no unit left is queued and marked as sleeping, and the call returns to it all the same.
-/

namespace Xv6.Kernel

open Function Finset

structure Sem where
  value : Int
  m : Int
  numOfProcs : Int
  list : Fin 20 → Option Slot

/-- `system_semaphores`, with the process table their queues point into. -/
structure SemSys where
  sems : Fin 5 → Sem
  ptable : PTable

/-- `system_semaphores` at boot. -/
def Sem.zero : Sem := ⟨0, 0, 0, fun _ => none⟩

/-- `system_semaphores[sid]`. -/
def semAt (sid : Int) : Except Fault (Fin 5) :=
  if h : 0 ≤ sid ∧ sid < 5 then .ok ⟨sid.toNat, by omega⟩ else .error .outside

/-- `list[i]`. -/
def listAt (i : Int) : Except Fault (Fin 20) :=
  if h : 0 ≤ i ∧ i < 20 then .ok ⟨i.toNat, by omega⟩ else .error .outside

def setState (t : PTable) (p : Option Slot) (st : ProcState) : Except Fault PTable :=
  match p with
  | none => .error .outside
  | some p => .ok (update t p { t p with state := st })

def semaphoreAquire (k : SemSys) (curproc : Slot) (sid : Int) : Except Fault (Int × SemSys) := do
  let j ← semAt sid
  let sem := { k.sems j with value := wrap ((k.sems j).value - 1) }
  if sem.value < 0 then
    let i ← listAt sem.numOfProcs
    let sem := { sem with
      list := update sem.list i (some curproc)
      numOfProcs := wrap (sem.numOfProcs + 1) }
    let t := update k.ptable curproc { k.ptable curproc with state := .sleeping }
    return (1, { k with sems := update k.sems j sem, ptable := t })
  else return (1, { k with sems := update k.sems j sem })

/-- `n` rounds of the loop of `semaphore_release`, from index `i` on. -/
def shiftQueue (list : Fin 20 → Option Slot) : Nat → Int → Except Fault (Fin 20 → Option Slot)
  | 0, _ => .ok list
  | n + 1, i => do
    let src ← listAt i
    let dst ← listAt (i - 1)
    shiftQueue (update list dst (list src)) n (i + 1)

def semaphoreRelease (k : SemSys) (sid : Int) : Except Fault (Int × SemSys) := do
  let j ← semAt sid
  let sem := { k.sems j with value := wrap ((k.sems j).value + 1) }
  if sem.value ≤ 0 then
    let t ← setState k.ptable (sem.list 0) .runnable
    let list ← shiftQueue sem.list (sem.numOfProcs - 1).toNat 1
    let sem := { sem with list, numOfProcs := wrap (sem.numOfProcs - 1) }
    return (1, { k with sems := update k.sems j sem, ptable := t })
  else return (1, { k with sems := update k.sems j sem })

def semaphoreInitialize (k : SemSys) (sid v m : Int) : Int × SemSys :=
  if h : sid < 0 ∨ sid > 4 ∨ v < 0 ∨ m < 0 then (0, k)
  else
    let j : Fin 5 := ⟨sid.toNat, by omega⟩
    let sem := { k.sems j with value := v, m, numOfProcs := 0 }
    (1, { k with sems := update k.sems j sem })

/-- The system calls, with the words found by `argint`. -/
inductive SemCall where
  | init (sid v m : Int)
  | aquire (sid : Int)
  | release (sid : Int)

def SemCall.sid : SemCall → Int
  | .init sid _ _ => wrap sid
  | .aquire sid => wrap sid
  | .release sid => wrap sid

/-- A call by `curproc`: the result and the new state. -/
def SemSys.call (k : SemSys) (curproc : Slot) : SemCall → Except Fault (Int × SemSys)
  | .init sid v m => .ok (semaphoreInitialize k (wrap sid) (wrap v) (wrap m))
  | .aquire sid => semaphoreAquire k curproc (wrap sid)
  | .release sid => semaphoreRelease k (wrap sid)

theorem wrap_of_int {i : Int} (h1 : -2 ^ 31 ≤ i) (h2 : i < 2 ^ 31) : wrap i = i := by
  unfold wrap
  exact Int.bmod_eq_of_le (by omega) (by omega)

theorem wrap_bounds (i : Int) : -2 ^ 31 ≤ wrap i ∧ wrap i < 2 ^ 31 := by
  unfold wrap
  have h1 := Int.le_bmod (x := i) (m := 2 ^ 32) (by norm_num)
  have h2 := Int.bmod_lt (x := i) (m := 2 ^ 32) (by norm_num)
  omega

theorem semAt_coe (j : Fin 5) : semAt j = .ok j := by
  have h : (0 : Int) ≤ j ∧ (j : Int) < 5 := ⟨Int.natCast_nonneg _, by omega⟩
  rw [semAt, dif_pos h]
  rfl

theorem semAt_outside {sid : Int} (h : ¬ (0 ≤ sid ∧ sid ≤ 4)) : semAt sid = .error .outside := by
  rw [semAt, dif_neg]
  omega

theorem listAt_coe (i : Fin 20) : listAt i = .ok i := by
  have h : (0 : Int) ≤ i ∧ (i : Int) < 20 := ⟨Int.natCast_nonneg _, by omega⟩
  rw [listAt, dif_pos h]
  rfl

/-- The queue holds one process for each unit that is owed. -/
structure Sem.Ok (sem : Sem) : Prop where
  num : sem.numOfProcs = max 0 (-sem.value)
  lo : -20 ≤ sem.value
  hi : sem.value < 2 ^ 31
  queued : ∀ i : Fin 20, (i : Int) < sem.numOfProcs → (sem.list i).isSome

theorem Sem.Ok.setValue {sem : Sem} (h : sem.Ok) (hn : 0 ≤ sem.value) {v : Int} (h0 : 0 ≤ v)
    (h1 : v < 2 ^ 31) : Sem.Ok { sem with value := v } := by
  have hnum := h.num
  refine ⟨?_, ?_, h1, ?_⟩
  · simp only
    omega
  · simp only
    omega
  · intro i hi
    simp only at hi
    omega

theorem Sem.ok_zero : Sem.zero.Ok where
  num := by rfl
  lo := by decide
  hi := by decide
  queued i hi := by
    simp only [Sem.zero] at hi
    omega

section Call

variable {k : SemSys} {j : Fin 5} (h : (k.sems j).Ok)
include h

theorem semaphoreAquire_unit (s : Slot) (hv : 0 < (k.sems j).value) :
    semaphoreAquire k s j = .ok (1, { k with
      sems := update k.sems j { k.sems j with value := (k.sems j).value - 1 } }) := by
  have hlo := h.lo
  have hhi := h.hi
  have hw : wrap ((k.sems j).value - 1) = (k.sems j).value - 1 := wrap_of_int (by omega) (by omega)
  have hneg : ¬ (k.sems j).value - 1 < 0 := by omega
  unfold semaphoreAquire
  rw [semAt_coe]
  simp only [bind, Except.bind, hw, hneg, if_false]
  rfl

theorem semaphoreAquire_queue (s : Slot) (hv : (k.sems j).value ≤ 0) {i : Fin 20}
    (hi : (k.sems j).numOfProcs = i) : semaphoreAquire k s j = .ok (1, { k with
        sems := update k.sems j { k.sems j with
          value := (k.sems j).value - 1
          list := update (k.sems j).list i (some s)
          numOfProcs := (k.sems j).numOfProcs + 1 }
        ptable := update k.ptable s { k.ptable s with state := .sleeping } }) := by
  have hlo := h.lo
  have hil := i.isLt
  have hw : wrap ((k.sems j).value - 1) = (k.sems j).value - 1 := wrap_of_int (by omega) (by omega)
  have hw' : wrap ((k.sems j).numOfProcs + 1) = (k.sems j).numOfProcs + 1 :=
    wrap_of_int (by omega) (by omega)
  have hneg : (k.sems j).value - 1 < 0 := by omega
  unfold semaphoreAquire
  rw [semAt_coe]
  simp only [bind, Except.bind, hw, hneg, if_true, hw']
  rw [hi, listAt_coe]
  rfl

theorem semaphoreRelease_unit (hv : 0 ≤ (k.sems j).value) (hmax : (k.sems j).value ≠ 2 ^ 31 - 1) :
    semaphoreRelease k j = .ok (1, { k with
      sems := update k.sems j { k.sems j with value := (k.sems j).value + 1 } }) := by
  have hhi := h.hi
  have hw : wrap ((k.sems j).value + 1) = (k.sems j).value + 1 := wrap_of_int (by omega) (by omega)
  have hpos : ¬ (k.sems j).value + 1 ≤ 0 := by omega
  unfold semaphoreRelease
  rw [semAt_coe]
  simp only [bind, Except.bind, hw, hpos, if_false]
  rfl

end Call

theorem shiftQueue_ok (n : Nat) : ∀ (list : Fin 20 → Option Slot) (a : Nat), a + 1 + n ≤ 20 →
      ∃ list', shiftQueue list n (a + 1 : Nat) = .ok list' ∧
        (∀ q q' : Fin 20, q'.val = q.val + 1 → a ≤ q.val → q.val < a + n → list' q = list q') ∧
        ∀ q : Fin 20, ¬ (a ≤ q.val ∧ q.val < a + n) → list' q = list q := by
  induction n with
  | zero =>
    intro list a _
    exact ⟨list, rfl, fun q q' _ h1 h2 => absurd h2 (by omega), fun _ _ => rfl⟩
  | succ n ih =>
    intro list a ha
    generalize hs : (⟨a + 1, by omega⟩ : Fin 20) = src
    generalize hd : (⟨a, by omega⟩ : Fin 20) = dst
    have hsv : src.val = a + 1 := by rw [← hs]
    have hdv : dst.val = a := by rw [← hd]
    obtain ⟨list', hok, hin, hout⟩ := ih (update list dst (list src)) (a + 1) (by omega)
    have hsrc : listAt ((a + 1 : Nat) : Int) = .ok src := by rw [← hsv, listAt_coe]
    have hdst : listAt (((a + 1 : Nat) : Int) - 1) = .ok dst := by
      rw [show ((a + 1 : Nat) : Int) - 1 = dst by omega, listAt_coe]
    have hnext : ((a + 1 : Nat) : Int) + 1 = ((a + 1 + 1 : Nat) : Int) := by omega
    refine ⟨list', ?_, ?_, ?_⟩
    · rw [shiftQueue, hsrc, hdst, hnext]
      exact hok
    · intro q q' hq h1 h2
      by_cases hqa : q.val = a
      · have hqd : q = dst := Fin.ext (by omega)
        have hqs : q' = src := Fin.ext (by omega)
        rw [hout q (by omega), hqd, update_self, hqs]
      · have hne : q' ≠ dst := by
          intro heq
          have := congrArg Fin.val heq
          omega
        rw [hin q q' hq (by omega) (by omega), update_of_ne hne]
    · intro q hq
      have hne : q ≠ dst := by
        intro heq
        have := congrArg Fin.val heq
        omega
      rw [hout q (by omega), update_of_ne hne]

theorem semaphoreRelease_queue {k : SemSys} {j : Fin 5} (h : (k.sems j).Ok)
    (hv : (k.sems j).value < 0) : ∃ p list', (k.sems j).list 0 = some p ∧
      (∀ q q' : Fin 20, q'.val = q.val + 1 → (q' : Int) < (k.sems j).numOfProcs →
        list' q = (k.sems j).list q') ∧
      semaphoreRelease k j = .ok (1, { k with
          sems := update k.sems j { k.sems j with
            value := (k.sems j).value + 1
            list := list'
            numOfProcs := (k.sems j).numOfProcs - 1 }
          ptable := update k.ptable p { k.ptable p with state := .runnable } }) := by
  have hlo := h.lo
  have hnum := h.num
  have hnum' : (k.sems j).numOfProcs = -(k.sems j).value := by omega
  obtain ⟨p, hp⟩ := Option.isSome_iff_exists.mp (h.queued 0 (by simp; omega))
  obtain ⟨list', hok, hin, -⟩ :=
    shiftQueue_ok ((k.sems j).numOfProcs - 1).toNat (k.sems j).list 0 (by omega)
  have hw : wrap ((k.sems j).value + 1) = (k.sems j).value + 1 := wrap_of_int (by omega) (by omega)
  have hw' : wrap ((k.sems j).numOfProcs - 1) = (k.sems j).numOfProcs - 1 :=
    wrap_of_int (by omega) (by omega)
  have hneg : (k.sems j).value + 1 ≤ 0 := by omega
  refine ⟨p, list', hp, fun q q' hq hlt => hin q q' hq (by omega) (by omega), ?_⟩
  unfold semaphoreRelease
  rw [semAt_coe]
  have hok' : shiftQueue (k.sems j).list ((k.sems j).numOfProcs - 1).toNat 1 = .ok list' := hok
  simp only [bind, Except.bind, hw, hneg, if_true, hp, setState, hok', hw']
  rfl

theorem semaphoreAquire_ok {k : SemSys} {j : Fin 5} (h : (k.sems j).Ok) (s : Slot)
    (hc : 0 < (k.sems j).value ∨ (k.sems j).numOfProcs < 20) :
    ∃ sem t, semaphoreAquire k s j = .ok (1, ⟨update k.sems j sem, t⟩) ∧ sem.Ok ∧
      sem.value = (k.sems j).value - 1 := by
  have hnum := h.num
  have hlo := h.lo
  have hhi := h.hi
  by_cases hv : 0 < (k.sems j).value
  · exact ⟨_, _, semaphoreAquire_unit h s hv, h.setValue (by omega) (by omega) (by omega), rfl⟩
  · have hlt : (k.sems j).numOfProcs < 20 := hc.resolve_left hv
    generalize hi : (⟨(k.sems j).numOfProcs.toNat, by omega⟩ : Fin 20) = i
    have hiv : (k.sems j).numOfProcs = i := by
      rw [← hi]
      simp only
      omega
    refine ⟨_, _, semaphoreAquire_queue h s (not_lt.mp hv) hiv, ?_, rfl⟩
    refine ⟨by simp only; omega, by simp only; omega, by simp only; omega, ?_⟩
    intro q hqlt
    by_cases hqi : q = i
    · subst hqi; simp
    · have hne : q.val ≠ i.val := fun heq => hqi (Fin.ext heq)
      simp only [update_of_ne hqi]
      exact h.queued q (by simp only at hqlt; omega)

theorem semaphoreRelease_ok {k : SemSys} {j : Fin 5} (h : (k.sems j).Ok)
    (hc : (k.sems j).value ≠ 2 ^ 31 - 1) :
    ∃ sem t, semaphoreRelease k j = .ok (1, ⟨update k.sems j sem, t⟩) ∧ sem.Ok ∧
      sem.value = (k.sems j).value + 1 := by
  have hnum := h.num
  have hlo := h.lo
  have hhi := h.hi
  by_cases hv : 0 ≤ (k.sems j).value
  · exact ⟨_, _, semaphoreRelease_unit h hv hc, h.setValue hv (by omega) (by omega), rfl⟩
  · obtain ⟨p, list', hp, hlist, hok⟩ := semaphoreRelease_queue h (not_le.mp hv)
    refine ⟨_, _, hok, ?_, rfl⟩
    refine ⟨by simp only; omega, by simp only; omega, by simp only; omega, ?_⟩
    intro q hqlt
    simp only at hqlt
    have hlt : q.val + 1 < 20 := by omega
    show (list' q).isSome
    rw [hlist q ⟨q.val + 1, hlt⟩ rfl (by simp only; omega)]
    exact h.queued _ (by simp only; omega)

theorem semaphoreInitialize_ok (k : SemSys) (j : Fin 5) {v m : Int} (hv : 0 ≤ v) (hv' : v < 2 ^ 31)
    (hm : 0 ≤ m) :
    ∃ sem, semaphoreInitialize k j v m = (1, { k with sems := update k.sems j sem }) ∧
      sem.Ok ∧ sem.value = v := by
  have hgood : ¬ ((j : Int) < 0 ∨ (j : Int) > 4 ∨ v < 0 ∨ m < 0) := by omega
  refine ⟨_, by rw [semaphoreInitialize, dif_neg hgood]; rfl, ?_, rfl⟩
  exact ⟨by simp only; omega, by simp only; omega, hv', fun i hi => absurd hi (by simp only; omega)⟩

/-- A call that stays inside: the semaphore exists; an aquire that has to wait finds room in the
queue; a release does not overflow the counter. -/
def SemCall.Inside (k : SemSys) : SemCall → Prop
  | .init _ _ _ => True
  | .aquire sid => ∃ j : Fin 5, wrap sid = j ∧
      (0 < (k.sems j).value ∨ (k.sems j).numOfProcs < 20)
  | .release sid => ∃ j : Fin 5, wrap sid = j ∧ (k.sems j).value ≠ 2 ^ 31 - 1

/-- What a call may do: the semaphores stay consistent, the others stay as they are, and an id that
is out of range is refused. -/
structure Contained (k : SemSys) (c : SemCall) (r : Int) (k' : SemSys) : Prop where
  ok : ∀ j, (k'.sems j).Ok
  others : ∀ j : Fin 5, c.sid ≠ j → k'.sems j = k.sems j
  refused : ¬ (0 ≤ c.sid ∧ c.sid ≤ 4) → r = 0 ∧ k' = k

theorem contained_update {k : SemSys} {c : SemCall} {j : Fin 5} {sem : Sem} {t : PTable}
    (h : ∀ j, (k.sems j).Ok) (hc : c.sid = j) (hs : sem.Ok) :
    Contained k c 1 ⟨update k.sems j sem, t⟩ where
  ok i := by
    by_cases hi : i = j
    · subst hi; simpa using hs
    · simpa [hi] using h i
  others i hi := by
    refine update_of_ne ?_ _ _
    rintro rfl
    exact hi hc
  refused hn := absurd ⟨by rw [hc]; exact Int.natCast_nonneg _, by rw [hc]; omega⟩ hn

theorem call_contained {k : SemSys} (h : ∀ j, (k.sems j).Ok) (s : Slot) (c : SemCall)
    (hc : c.Inside k) : ∃ r k', k.call s c = .ok (r, k') ∧ Contained k c r k' := by
  cases c with
  | init sid v m =>
    by_cases hbad : wrap sid < 0 ∨ wrap sid > 4 ∨ wrap v < 0 ∨ wrap m < 0
    · refine ⟨0, k, ?_, h, fun _ _ => rfl, fun _ => ⟨rfl, rfl⟩⟩
      rw [SemSys.call, semaphoreInitialize, dif_pos hbad]
    · generalize hj : (⟨(wrap sid).toNat, by omega⟩ : Fin 5) = j
      have hsid : wrap sid = j := by
        rw [← hj]
        simp only
        omega
      obtain ⟨sem, hok, hsem, -⟩ := semaphoreInitialize_ok k j (v := wrap v) (m := wrap m)
        (by omega) (wrap_bounds v).2 (by omega)
      exact ⟨1, _, by rw [SemSys.call, hsid, hok], contained_update h hsid hsem⟩
  | aquire sid =>
    obtain ⟨j, hj, hroom⟩ := hc
    obtain ⟨sem, t, hok, hsem, -⟩ := semaphoreAquire_ok (h j) s hroom
    exact ⟨1, _, by rw [SemSys.call, hj, hok], contained_update h hj hsem⟩
  | release sid =>
    obtain ⟨j, hj, hmax⟩ := hc
    obtain ⟨sem, t, hok, hsem, -⟩ := semaphoreRelease_ok (h j) hmax
    exact ⟨1, _, by rw [SemSys.call, hj, hok], contained_update h hj hsem⟩

/-- What happens: a call by some process, or anything else to the process table. -/
inductive SemEvent where
  | call (curproc : Slot) (c : SemCall)
  | other (t : PTable)

def SemSys.Boot (k : SemSys) : Prop := ∀ j, k.sems j = .zero

/-- A step whose call stays inside. -/
inductive SemSys.Step : SemSys → SemEvent → SemSys → Prop where
  | call {k k' : SemSys} {s : Slot} {c : SemCall} {r : Int} :
      c.Inside k → k.call s c = .ok (r, k') → Step k (.call s c) k'
  | other {k : SemSys} {t : PTable} : Step k (.other t) { k with ptable := t }

theorem Step.keeps_ok {k k' : SemSys} {e : SemEvent} (h : ∀ j, (k.sems j).Ok)
    (hs : SemSys.Step k e k') : ∀ j, (k'.sems j).Ok := by
  cases hs with
  | call hin hok =>
    obtain ⟨r, k'', hok', hcon⟩ := call_contained h _ _ hin
    rw [hok] at hok'
    cases hok'
    exact hcon.ok
  | other => exact h

theorem reach_ok {k : SemSys} (h : Reach SemSys.Boot SemSys.Step k) : ∀ j, (k.sems j).Ok := by
  refine h.invariant (P := fun k => ∀ j, (k.sems j).Ok) ?_ (fun k e k' hk => Step.keeps_ok hk)
  intro k hk j
  rw [hk j]
  exact Sem.ok_zero

/-- In a run of calls that stay inside, every further such call is contained. -/
theorem sem_calls_contained {k : SemSys} (h : Reach SemSys.Boot SemSys.Step k) (s : Slot)
    (c : SemCall) (hc : c.Inside k) : ∃ r k', k.call s c = .ok (r, k') ∧ Contained k c r k' :=
  call_contained (reach_ok h) s c hc

def SemSys.boot : SemSys := ⟨fun _ => .zero, fun _ => .zero⟩

/-- A process frees the first semaphore, which nobody holds. -/
theorem sem_calls_contained_release : (SemCall.release 0).Inside SemSys.boot ∧
    ∃ r k', SemSys.boot.call 0 (.release 0) = .ok (r, k') ∧
      Contained SemSys.boot (.release 0) r k' := by
  have hin : (SemCall.release 0).Inside SemSys.boot := ⟨0, by decide, by decide⟩
  exact ⟨hin, sem_calls_contained (.start fun _ => rfl) 0 _ hin⟩

theorem aquire_outside (k : SemSys) (s : Slot) {sid : Int} (h : ¬ (0 ≤ wrap sid ∧ wrap sid ≤ 4)) :
    k.call s (.aquire sid) = .error .outside := by
  rw [SemSys.call, semaphoreAquire, semAt_outside h]
  rfl

/-- The first call after boot, with the first id past the end. -/
theorem aquire_five_outside : SemSys.boot.call 0 (.aquire 5) = .error .outside :=
  aquire_outside SemSys.boot 0 (by decide)

/-- The semaphores with the processes between the return of their aquire and their release. -/
structure Critical where
  sys : SemSys
  holders : Finset Slot

inductive CriticalEvent where
  | aquire (s : Slot)
  | release (s : Slot)

/-- `semaphore_initialize(sid, v, m)` has returned, and nobody has called since. -/
def Critical.Started (j : Fin 5) (v m : Int) (k : Critical) : Prop :=
  k.holders = ∅ ∧ ∃ k0, k.sys = (semaphoreInitialize k0 j v m).2

/-- A process aquires while a unit is left, or it is inside already and the queue has room. -/
def Critical.Guarded (j : Fin 5) (k : Critical) (s : Slot) : Prop :=
  0 < (k.sys.sems j).value ∨ s ∈ k.holders ∧ (k.sys.sems j).numOfProcs < 20

/-- Calls by any process, the releases after an aquire. -/
inductive Critical.Step (j : Fin 5) : Critical → CriticalEvent → Critical → Prop where
  | aquire {k : Critical} {s : Slot} {r : Int} {sys : SemSys} :
      semaphoreAquire k.sys s j = .ok (r, sys) →
      Step j k (.aquire s) ⟨sys, insert s k.holders⟩
  | release {k : Critical} {s : Slot} {r : Int} {sys : SemSys} :
      s ∈ k.holders → semaphoreRelease k.sys j = .ok (r, sys) →
      Step j k (.release s) ⟨sys, k.holders.erase s⟩

/-- The steps whose aquires are guarded. -/
def Critical.GuardedStep (j : Fin 5) (k : Critical) (e : CriticalEvent) (k' : Critical) : Prop :=
  Critical.Step j k e k' ∧ ∀ s, e = .aquire s → k.Guarded j s

/-- No unit is both left and with a process inside, and no process is inside without one. -/
structure Critical.Bounded (j : Fin 5) (v : Int) (k : Critical) : Prop where
  ok : (k.sys.sems j).Ok
  units : k.holders.card + (k.sys.sems j).value ≤ v
  inside : k.holders.card ≤ v

namespace Critical

variable {j : Fin 5} {v m : Int} {k k' : Critical} {s : Slot}

theorem Started.bounded (hv : 0 ≤ v) (hv' : v < 2 ^ 31) (hm : 0 ≤ m) (h : k.Started j v m) :
    k.Bounded j v := by
  obtain ⟨hh, k0, hinit⟩ := h
  obtain ⟨sem, hok, hsem, hval⟩ := semaphoreInitialize_ok k0 j hv hv' hm
  have hj : k.sys.sems j = sem := by
    rw [hinit, hok]
    exact update_self ..
  have hcard : k.holders.card = 0 := by rw [hh, card_empty]
  exact ⟨hj ▸ hsem, by rw [hj, hval]; omega, by omega⟩

theorem Bounded.aquire (h : k.Bounded j v) (hg : k.Guarded j s) :
    ∃ r sys, semaphoreAquire k.sys s j = .ok (r, sys) ∧
      Bounded j v ⟨sys, insert s k.holders⟩ := by
  have hroom : 0 < (k.sys.sems j).value ∨ (k.sys.sems j).numOfProcs < 20 := by
    cases hg with
    | inl h => exact .inl h
    | inr h => exact .inr h.2
  obtain ⟨sem, t, hok, hsem, hval⟩ := semaphoreAquire_ok h.ok s hroom
  have hunits := h.units
  have hinside := h.inside
  have hcard : (insert s k.holders).card ≤ k.holders.card + 1 := card_insert_le s k.holders
  refine ⟨1, _, hok, by simpa using hsem, ?_, ?_⟩
  · simp only [update_self, hval]
    omega
  · cases hg with
    | inl hpos =>
      show ((insert s k.holders).card : Int) ≤ v
      omega
    | inr hin =>
      show ((insert s k.holders).card : Int) ≤ v
      rw [insert_eq_of_mem hin.1]
      exact hinside

theorem Bounded.release (hv : v < 2 ^ 31) (h : k.Bounded j v) (hs : s ∈ k.holders) :
    ∃ r sys, semaphoreRelease k.sys j = .ok (r, sys) ∧
      Bounded j v ⟨sys, k.holders.erase s⟩ := by
  have hunits := h.units
  have hinside := h.inside
  have hpos : 0 < k.holders.card := card_pos.mpr ⟨s, hs⟩
  have hcard : (k.holders.erase s).card = k.holders.card - 1 := card_erase_of_mem hs
  obtain ⟨sem, t, hok, hsem, hval⟩ := semaphoreRelease_ok h.ok (by omega)
  refine ⟨1, _, hok, by simpa using hsem, ?_, ?_⟩
  · simp only [update_self, hval, hcard]
    omega
  · show ((k.holders.erase s).card : Int) ≤ v
    omega

theorem Bounded.step (hv : v < 2 ^ 31) {e : CriticalEvent} (h : k.Bounded j v)
    (hs : k.GuardedStep j e k') : k'.Bounded j v := by
  obtain ⟨hstep, hg⟩ := hs
  cases hstep with
  | aquire hok =>
    obtain ⟨r, sys, hok', hb⟩ := h.aquire (hg _ rfl)
    rw [hok] at hok'
    cases hok'
    exact hb
  | release hin hok =>
    obtain ⟨r, sys, hok', hb⟩ := h.release hv hin
    rw [hok] at hok'
    cases hok'
    exact hb

/-- At most `v` processes are inside, in every run in which a process that is not inside aquires
only while a unit is left. The calls of such a run return. -/
theorem mutual_exclusion (j : Fin 5) {v m : Int} (hv : 0 ≤ v) (hv' : v < 2 ^ 31) (hm : 0 ≤ m)
    {k : Critical} (h : Reach (Started j v m) (GuardedStep j) k) : (k.holders.card : Int) ≤ v ∧
    (∀ s, k.Guarded j s → ∃ k', GuardedStep j k (.aquire s) k') ∧
    ∀ s ∈ k.holders, ∃ k', GuardedStep j k (.release s) k' := by
  have hb : k.Bounded j v := h.invariant (fun k => Started.bounded hv hv' hm)
    (fun k e k' hk => hk.step hv')
  refine ⟨hb.inside, ?_, ?_⟩
  · intro s hg
    obtain ⟨r, sys, hok, -⟩ := hb.aquire hg
    refine ⟨_, .aquire hok, ?_⟩
    intro s' hs'
    cases hs'
    exact hg
  · intro s hs
    obtain ⟨r, sys, hok, -⟩ := hb.release hv' hs
    refine ⟨_, .release hs hok, ?_⟩
    intro s' hs'
    cases hs'

/-- The first semaphore, set up with one unit. -/
def oneUnit : Critical := ⟨(semaphoreInitialize .boot 0 1 0).2, ∅⟩

theorem oneUnit_started : oneUnit.Started 0 1 0 := ⟨rfl, .boot, rfl⟩

theorem mutual_exclusion_one : oneUnit.Guarded 0 0 ∧
    ∃ k, GuardedStep 0 oneUnit (.aquire 0) k ∧ (k.holders.card : Int) ≤ 1 := by
  have hg : oneUnit.Guarded 0 0 := .inl (by decide)
  have hstart : Reach (Started 0 1 0) (GuardedStep 0) oneUnit := .start oneUnit_started
  obtain ⟨k, hk⟩ := (mutual_exclusion 0 (v := 1) (m := 0) (by decide) (by decide) (by decide)
    hstart).2.1 0 hg
  exact ⟨hg, k, hk, (mutual_exclusion 0 (by decide) (by decide) (by decide) (hstart.step hk)).1⟩

/-- Two processes aquire one unit: the second is queued and inside. -/
theorem two_inside :
    ∃ k, Reach (Started 0 1 0) (Step 0) k ∧ k.holders = {1, 0} ∧ ¬ (k.holders.card : Int) ≤ 1 := by
  have hb : oneUnit.Bounded 0 1 :=
    oneUnit_started.bounded (by decide) (by decide) (by decide)
  obtain ⟨sem, t, hfirst, hsem, hval⟩ := semaphoreAquire_ok hb.ok 0 (.inl (by decide))
  generalize hsys : (⟨update oneUnit.sys.sems 0 sem, t⟩ : SemSys) = sys at hfirst
  have hj : sys.sems 0 = sem := by simp [← hsys]
  have hzero : sem.value = 0 := by rw [hval]; rfl
  have hroom : (sys.sems 0).numOfProcs < 20 := by
    rw [hj, hsem.num, hzero]
    decide
  obtain ⟨sem', t', hsecond, -, -⟩ := semaphoreAquire_ok (hj ▸ hsem) 1 (.inr hroom)
  refine ⟨_, .step (.step (.start oneUnit_started) (.aquire hfirst)) (.aquire hsecond), rfl, ?_⟩
  show ¬ ((({1, 0} : Finset Slot).card : Int) ≤ 1)
  decide

end Critical

end Xv6.Kernel
