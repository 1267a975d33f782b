import Xv6.Lib.Run

/-!
# Xv6.Kernel.SleepLock

One sleep lock and any number of processes.

A step takes or gives back one spin lock, or runs the code between two such places. `lk->lk`
protects `locked` and `pid`; `ptable.lock` protects the states of the processes. `sleep` takes
`ptable.lock` before it gives `lk->lk` back, and `sched` leaves `ptable.lock` to the scheduler, so
that nobody can call `wakeup` between the test of `locked` and the sleep. `Inv` says what each place
in the code may rely on.

A process that is preempted stays where it is; only `sleep` gives its processor up here.
-/

namespace Xv6.Kernel

open Function Option

/-- Where a process is: in `acquiresleep`, in `sleep` called from there, holding the lock, or in
`releasesleep`. -/
inductive LockPc where
  | idle
  /-- `acquire(&lk->lk)`, also at the end of `sleep`. -/
  | acquire
  /-- `while (lk->locked)`, and what follows. -/
  | test
  /-- `release(&lk->lk)` at the end of `acquiresleep`. -/
  | release
  /-- `acquire(&ptable.lock)` in `sleep`. -/
  | sleepAcquire
  /-- `release(lk)` in `sleep`. -/
  | sleepRelease
  /-- `p->chan = chan; p->state = SLEEPING; sched()`. -/
  | sleepSched
  | asleep
  /-- `p->chan = 0; release(&ptable.lock)`. -/
  | woken
  /-- Between the two calls. -/
  | inside
  /-- `acquire(&lk->lk)` in `releasesleep`. -/
  | exitAcquire
  /-- `lk->locked = 0; lk->pid = 0`. -/
  | clear
  /-- `acquire(&ptable.lock)` in `wakeup`. -/
  | wakeAcquire
  /-- `wakeup1(chan)`. -/
  | wake
  /-- `release(&ptable.lock)` in `wakeup`. -/
  | wakeRelease
  /-- `release(&lk->lk)` at the end of `releasesleep`. -/
  | exitRelease
  deriving DecidableEq, Repr

namespace LockPc

def holdsLk : LockPc → Bool
  | .test | .release | .sleepAcquire | .sleepRelease => true
  | .clear | .wakeAcquire | .wake | .wakeRelease | .exitRelease => true
  | _ => false

def holdsPtable : LockPc → Bool
  | .sleepRelease | .sleepSched | .woken | .wake | .wakeRelease => true
  | _ => false

/-- `acquiresleep` has set `locked` for this process, and `releasesleep` has not cleared it. -/
def owns : LockPc → Bool
  | .release | .inside | .exitAcquire | .clear => true
  | _ => false

/-- In `releasesleep`, after `locked` is cleared and before the wakeup is done. -/
def waking : LockPc → Bool
  | .wakeAcquire | .wake => true
  | _ => false

end LockPc

inductive Sleeper where
  | running
  | runnable
  | sleeping
  deriving DecidableEq, Repr

/-- Who holds `ptable.lock`: a process, a scheduler, or somebody else in the kernel. -/
inductive PtableHolder (ι : Type) where
  | proc (p : ι)
  | scheduler
  | other
  deriving DecidableEq

/-- `struct sleeplock`, the holders of the two spin locks, and the processes. -/
structure LockSys (ι : Type) where
  lk : Option ι
  locked : Bool
  pid : Int
  ptable : Option (PtableHolder ι)
  pc : ι → LockPc
  state : ι → Sleeper
  /-- `p->chan` is this lock. -/
  chan : ι → Bool

inductive LockEvent (ι : Type) where
  /-- A call of `acquiresleep`. -/
  | call (p : ι)
  /-- A call of `releasesleep`. -/
  | leave (p : ι)
  /-- The next step of a process in these functions. -/
  | next (p : ι)
  | schedAcquire
  | schedRelease
  | dispatch (p : ι)
  | otherAcquire
  | otherRelease
  | kill (p : ι)

namespace LockSys

variable {ι : Type} [DecidableEq ι]

def goto (s : LockSys ι) (p : ι) (pc : LockPc) : LockSys ι :=
  { s with pc := update s.pc p pc }

def wakeup1 (s : LockSys ι) : LockSys ι :=
  { s with state := fun q =>
      if s.state q = .sleeping ∧ s.chan q = true then .runnable else s.state q }

/-- The next step of process `p`; `none` where it waits. -/
def next (pidOf : ι → Int) (s : LockSys ι) (p : ι) : Option (LockSys ι) :=
  match s.pc p with
  | .idle => none
  | .acquire => if s.lk = none then some ({ s with lk := some p }.goto p .test) else none
  | .test =>
    if s.locked then some (s.goto p .sleepAcquire)
    else some ({ s with locked := true, pid := pidOf p }.goto p .release)
  | .release => some ({ s with lk := none }.goto p .inside)
  | .sleepAcquire =>
    if s.ptable = none then some ({ s with ptable := some (.proc p) }.goto p .sleepRelease)
    else none
  | .sleepRelease => some ({ s with lk := none }.goto p .sleepSched)
  | .sleepSched => some ({ s with
      chan := update s.chan p true
      state := update s.state p .sleeping
      ptable := some .scheduler }.goto p .asleep)
  | .asleep => none
  | .woken =>
    some ({ s with chan := update s.chan p false, ptable := none }.goto p .acquire)
  | .inside => none
  | .exitAcquire => if s.lk = none then some ({ s with lk := some p }.goto p .clear) else none
  | .clear => some ({ s with locked := false, pid := 0 }.goto p .wakeAcquire)
  | .wakeAcquire =>
    if s.ptable = none then some ({ s with ptable := some (.proc p) }.goto p .wake) else none
  | .wake => some (s.wakeup1.goto p .wakeRelease)
  | .wakeRelease => some ({ s with ptable := none }.goto p .exitRelease)
  | .exitRelease => some ({ s with lk := none }.goto p .idle)

/-- One step; `none` where the event cannot happen. -/
def step (pidOf : ι → Int) (s : LockSys ι) : LockEvent ι → Option (LockSys ι)
  | .call p => if s.pc p = .idle then some (s.goto p .acquire) else none
  | .leave p => if s.pc p = .inside then some (s.goto p .exitAcquire) else none
  | .next p => s.next pidOf p
  | .schedAcquire => if s.ptable = none then some { s with ptable := some .scheduler } else none
  | .schedRelease => if s.ptable = some .scheduler then some { s with ptable := none } else none
  | .dispatch p =>
    if s.ptable = some .scheduler ∧ s.state p = .runnable then
      some ({ s with
        state := update s.state p .running
        ptable := some (.proc p) }.goto p .woken)
    else none
  | .otherAcquire => if s.ptable = none then some { s with ptable := some .other } else none
  | .otherRelease => if s.ptable = some .other then some { s with ptable := none } else none
  | .kill p =>
    if s.ptable = some .other then
      some (if s.state p = .sleeping then { s with state := update s.state p .runnable }
        else s)
    else none

/-- A free lock, and all processes outside. -/
def Init (s : LockSys ι) : Prop :=
  s.lk = none ∧ s.locked = false ∧ s.ptable = none ∧ (∀ p, s.pc p = .idle) ∧
    ∀ p, s.state p = .running

def Step (pidOf : ι → Int) (s : LockSys ι) (e : LockEvent ι) (s' : LockSys ι) : Prop :=
  s.step pidOf e = some s'

/-- `holdingsleep(lk)`, between its two locks. -/
def holdingsleep (pidOf : ι → Int) (s : LockSys ι) (p : ι) : Bool := s.locked && s.pid == pidOf p

section Guards

variable {f : LockPc → Bool} {pc : ι → LockPc} {o : Option ι} {p q : ι} {x : LockPc}

/-- The processes at the places `f` are the holder `o` of a lock. -/
def Guards (f : LockPc → Bool) (pc : ι → LockPc) (o : Option ι) : Prop :=
  ∀ q, f (pc q) = true ↔ o = some q

theorem Guards.keep (h : Guards f pc o) (hx : f x = f (pc p)) : Guards f (update pc p x) o :=
  fun q => update_cases q (hx ▸ h p) fun q _ => h q

theorem Guards.take (h : Guards f pc none) (hx : f x = true) :
    Guards f (update pc p x) (some p) := by
  refine fun q => update_cases q ⟨fun _ => rfl, fun _ => hx⟩ fun q hq => ?_
  exact ⟨fun hf => absurd ((h q).mp hf) (by simp), fun heq => absurd (Option.some.inj heq).symm hq⟩

theorem Guards.give (h : Guards f pc o) (hp : f (pc p) = true) (hx : f x = false) :
    Guards f (update pc p x) none := by
  refine fun q => update_cases q ⟨fun hf => ?_, fun heq => by cases heq⟩ fun q hq =>
    ⟨fun hf => ?_, fun heq => by cases heq⟩
  · rw [hx] at hf
    cases hf
  · exact absurd (Option.some.inj (((h q).mp hf).symm.trans ((h p).mp hp))) hq

omit [DecidableEq ι] in
theorem Guards.unique (h : Guards f pc o) (hp : f (pc p) = true) (hq : f (pc q) = true) : q = p :=
  Option.some.inj (((h q).mp hq).symm.trans ((h p).mp hp))

end Guards

def ptableProc (s : LockSys ι) : Option ι :=
  match s.ptable with
  | some (.proc p) => some p
  | _ => none

/-- The sleep lock has an owner exactly while it is locked, and `pid` is the owner's. -/
def Owned (pidOf : ι → Int) (s : LockSys ι) : Prop :=
  ∃ o, Guards LockPc.owns s.pc o ∧ s.locked = o.isSome ∧ ∀ p, o = some p → s.pid = pidOf p

def SleepsOn (s : LockSys ι) (p : ι) : Prop := s.state p = .sleeping ∧ s.chan p = true

/-- Nobody sleeps, or is about to, without somebody to wake it up. -/
structure Rested (s : LockSys ι) : Prop where
  /-- One that has seen the lock taken keeps it so as long as it has `lk->lk`. -/
  seen : ∀ p, s.pc p = .sleepAcquire ∨ s.pc p = .sleepRelease → s.locked = true
  /-- Then it has `ptable.lock`, for which the wakeup has to wait. -/
  going : ∀ p, s.pc p = .sleepSched → s.locked = true ∨ ∃ q, s.pc q = .wakeAcquire
  sleeping : ∀ p, s.SleepsOn p → s.locked = true ∨ ∃ q, (s.pc q).waking = true

structure Inv (pidOf : ι → Int) (s : LockSys ι) : Prop where
  lk : Guards LockPc.holdsLk s.pc s.lk
  ptable : Guards LockPc.holdsPtable s.pc s.ptableProc
  owned : s.Owned pidOf
  rested : s.Rested
  /-- Who is not running is in `sleep`. -/
  resting : ∀ p, s.state p ≠ .running → s.pc p = .asleep

variable {pidOf : ι → Int} {s s' : LockSys ι} {p q : ι} {x : LockPc}

theorem resting_goto (h : ∀ q, s.state q ≠ .running → s.pc q = .asleep) (hp : s.pc p ≠ .asleep) :
    ∀ q, s.state q ≠ .running → update s.pc p x q = .asleep := by
  intro q hq
  have hne : q ≠ p := by
    rintro rfl
    exact hp (h q hq)
  rw [update_of_ne hne]
  exact h q hq

theorem goto_ne {pc : ι → LockPc} {y : LockPc} (h : update pc p x q = y) (hy : y ≠ x) :
    q ≠ p ∧ pc q = y := by
  revert h
  exact update_cases q (fun h => absurd h.symm hy) fun _ hq h => ⟨hq, h⟩

theorem Rested.goto (h : s.Rested) (hpc : s'.pc = update s.pc p x)
    (hlocked : s.locked = true → s'.locked = true) (hsleep : ∀ q, s'.SleepsOn q → s.SleepsOn q)
    (hx : x ≠ .sleepAcquire ∧ x ≠ .sleepRelease ∧ x ≠ .sleepSched)
    (hwake : (s.pc p).waking = false) : s'.Rested := by
  have hne : ∀ {q y}, s'.pc q = y → y ≠ x → s.pc q = y := fun hq hy =>
    (goto_ne (by rwa [hpc] at hq) hy).2
  have hkeep : ∀ q, (s.pc q).waking = true → s'.pc q = s.pc q := by
    intro q hq
    rw [hpc, update_of_ne]
    rintro rfl
    rw [hwake] at hq
    cases hq
  refine ⟨fun q hq => hlocked (h.seen q ?_), fun q hq => ?_, fun q hq => ?_⟩
  · exact hq.imp (hne · hx.1.symm) (hne · hx.2.1.symm)
  · refine (h.going q (hne hq hx.2.2.symm)).imp hlocked ?_
    rintro ⟨q', hq'⟩
    exact ⟨q', (hkeep q' (by rw [hq']; rfl)).trans hq'⟩
  · refine (h.sleeping q (hsleep q hq)).imp hlocked ?_
    rintro ⟨q', hq'⟩
    exact ⟨q', by rwa [hkeep q' hq']⟩

theorem Owned.goto (h : s.Owned pidOf) (hpc : s'.pc = update s.pc p x)
    (hlocked : s'.locked = s.locked) (hpid : s'.pid = s.pid) (hx : x.owns = (s.pc p).owns) :
    s'.Owned pidOf := by
  obtain ⟨o, ho, hl, hp⟩ := h
  refine ⟨o, ?_, hlocked.trans hl, fun q hq => hpid.trans (hp q hq)⟩
  rw [hpc]
  exact ho.keep hx

omit [DecidableEq ι] in
theorem ptableProc_none (h : s.ptable = none) : s.ptableProc = none := by
  rw [ptableProc, h]

theorem Inv.goto (h : Inv pidOf s) (hp : s.pc p ≠ .asleep) {o : Option ι}
    (hlk : Guards LockPc.holdsLk (update s.pc p x) o)
    (hpt : x.holdsPtable = (s.pc p).holdsPtable) (hown : x.owns = (s.pc p).owns)
    (hx : x ≠ .sleepAcquire ∧ x ≠ .sleepRelease ∧ x ≠ .sleepSched)
    (hwake : (s.pc p).waking = false) : Inv pidOf ({ s with lk := o }.goto p x) where
  lk := hlk
  ptable := h.ptable.keep hpt
  owned := h.owned.goto rfl rfl rfl hown
  rested := h.rested.goto rfl id (fun _ => id) hx hwake
  resting := resting_goto h.resting hp

theorem Inv.test (h : Inv pidOf s) (hpc : s.pc p = .test) (hs : s.next pidOf p = some s') :
    Inv pidOf s' := by
  simp only [LockSys.next, hpc] at hs
  have hlk : LockPc.holdsLk (s.pc p) = true := by rw [hpc]; rfl
  split at hs
  · rename_i hlocked
    cases hs
    refine ⟨h.lk.keep (by rw [hpc]; rfl), h.ptable.keep (by rw [hpc]; rfl),
      h.owned.goto rfl rfl rfl (by rw [hpc]; rfl), ?_, resting_goto h.resting (by simp [hpc])⟩
    exact ⟨fun _ _ => hlocked, fun _ _ => .inl hlocked, fun _ _ => .inl hlocked⟩
  · rename_i hlocked
    cases hs
    refine ⟨h.lk.keep (by rw [hpc]; rfl), h.ptable.keep (by rw [hpc]; rfl), ?_, ?_,
      resting_goto h.resting (by simp [hpc])⟩
    · obtain ⟨o, ho, hl, -⟩ := h.owned
      obtain rfl : o = none := by
        rw [hl, Bool.not_eq_true, isSome_eq_false_iff, isNone_iff_eq_none] at hlocked
        exact hlocked
      exact ⟨some p, ho.take rfl, rfl, fun q hq => by rw [← Option.some.inj hq]; rfl⟩
    · exact ⟨fun _ _ => rfl, fun _ _ => .inl rfl, fun _ _ => .inl rfl⟩

theorem Inv.sleepAcquire (h : Inv pidOf s) (hpc : s.pc p = .sleepAcquire)
    (hfree : s.ptable = none) :
    Inv pidOf ({ s with ptable := some (.proc p) }.goto p .sleepRelease) := by
  have hlocked := h.rested.seen p (.inl hpc)
  have hpt := h.ptable
  rw [ptableProc_none hfree] at hpt
  exact ⟨h.lk.keep (by rw [hpc]; rfl), hpt.take rfl, h.owned.goto rfl rfl rfl (by rw [hpc]; rfl),
    ⟨fun _ _ => hlocked, fun _ _ => .inl hlocked, fun _ _ => .inl hlocked⟩,
    resting_goto h.resting (by simp [hpc])⟩

theorem Inv.sleepRelease (h : Inv pidOf s) (hpc : s.pc p = .sleepRelease) :
    Inv pidOf ({ s with lk := none }.goto p .sleepSched) := by
  have hlocked := h.rested.seen p (.inr hpc)
  exact ⟨h.lk.give (by rw [hpc]; rfl) rfl, h.ptable.keep (by rw [hpc]; rfl),
    h.owned.goto rfl rfl rfl (by rw [hpc]; rfl),
    ⟨fun _ _ => hlocked, fun _ _ => .inl hlocked, fun _ _ => .inl hlocked⟩,
    resting_goto h.resting (by simp [hpc])⟩

theorem Inv.sleepSched (h : Inv pidOf s) (hpc : s.pc p = .sleepSched) : Inv pidOf ({ s with
      chan := update s.chan p true
      state := update s.state p .sleeping
      ptable := some .scheduler }.goto p .asleep) := by
  have hwake : ∀ q, s.pc q = .wakeAcquire → update s.pc p .asleep q = .wakeAcquire := by
    intro q hq
    rwa [update_of_ne]
    rintro rfl
    rw [hpc] at hq
    cases hq
  have hgoing : s.locked = true ∨ ∃ q, (update s.pc p .asleep q).waking = true :=
    (h.rested.going p hpc).imp_right fun ⟨q, hq⟩ => ⟨q, by rw [hwake q hq]; rfl⟩
  refine ⟨h.lk.keep (by rw [hpc]; rfl), h.ptable.give (by rw [hpc]; rfl) rfl,
    h.owned.goto rfl rfl rfl (by rw [hpc]; rfl), ⟨fun q hq => ?_, fun q hq => ?_, fun q _ =>
      hgoing⟩, fun q => ?_⟩
  · exact h.rested.seen q (hq.imp (fun hq => (goto_ne hq (by decide)).2)
      fun hq => (goto_ne hq (by decide)).2)
  · refine (h.rested.going q (goto_ne hq (by decide)).2).imp_right ?_
    rintro ⟨q', hq'⟩
    exact ⟨q', hwake q' hq'⟩
  · simp only [LockSys.goto]
    refine update_cases q (fun _ => update_self ..) fun q hqp hq => ?_
    rw [update_of_ne hqp]
    exact h.resting q hq

theorem Inv.woken (h : Inv pidOf s) (hpc : s.pc p = .woken) : Inv pidOf
      ({ s with chan := update s.chan p false, ptable := none }.goto p .acquire) := by
  refine ⟨h.lk.keep (by rw [hpc]; rfl), h.ptable.give (by rw [hpc]; rfl) rfl,
    h.owned.goto rfl rfl rfl (by rw [hpc]; rfl), ?_, resting_goto h.resting (by simp [hpc])⟩
  refine h.rested.goto rfl id (fun q hq => ⟨hq.1, ?_⟩) ⟨by decide, by decide, by decide⟩
    (by rw [hpc]; rfl)
  have hchan : update s.chan p false q = true := hq.2
  revert hchan
  exact update_cases q (fun hchan => by cases hchan) fun _ _ => id

theorem Inv.clear (h : Inv pidOf s) (hpc : s.pc p = .clear) :
    Inv pidOf ({ s with locked := false, pid := 0 }.goto p .wakeAcquire) := by
  have hhere : update s.pc p .wakeAcquire p = .wakeAcquire := update_self _ _ _
  refine ⟨h.lk.keep (by rw [hpc]; rfl), h.ptable.keep (by rw [hpc]; rfl), ?_,
    ⟨fun q hq => ?_, fun _ _ => .inr ⟨p, hhere⟩, fun _ _ => .inr ⟨p, by simp [LockSys.goto]; rfl⟩⟩,
    resting_goto h.resting (by simp [hpc])⟩
  · obtain ⟨o, ho, -, -⟩ := h.owned
    exact ⟨none, ho.give (by rw [hpc]; rfl) rfl, rfl, fun _ hq => by cases hq⟩
  · -- whoever has seen the lock taken would hold `lk->lk`, as this process does
    have hlk : (s.pc p).holdsLk = true := by rw [hpc]; rfl
    have hother : q ≠ p ∧ (s.pc q).holdsLk = true := by
      rcases hq with hq | hq
      · exact ⟨(goto_ne hq (by decide)).1, by rw [(goto_ne hq (by decide)).2]; rfl⟩
      · exact ⟨(goto_ne hq (by decide)).1, by rw [(goto_ne hq (by decide)).2]; rfl⟩
    exact absurd (h.lk.unique hlk hother.2) hother.1

theorem Inv.wakeAcquire (h : Inv pidOf s) (hpc : s.pc p = .wakeAcquire) (hfree : s.ptable = none) :
    Inv pidOf ({ s with ptable := some (.proc p) }.goto p .wake) := by
  have hpt := h.ptable
  rw [ptableProc_none hfree] at hpt
  have hhere : (update s.pc p .wake p).waking = true := by
    rw [update_self]
    rfl
  refine ⟨h.lk.keep (by rw [hpc]; rfl), hpt.take rfl, h.owned.goto rfl rfl rfl (by rw [hpc]; rfl),
    ⟨fun q hq => ?_, fun q hq => ?_, fun _ _ => .inr ⟨p, hhere⟩⟩,
    resting_goto h.resting (by simp [hpc])⟩
  · exact h.rested.seen q (hq.imp (fun hq => (goto_ne hq (by decide)).2)
      fun hq => (goto_ne hq (by decide)).2)
  · have hq' := (hpt q).mp (by rw [(goto_ne hq (by decide)).2]; rfl)
    cases hq'

theorem Inv.wake (h : Inv pidOf s) (hpc : s.pc p = .wake) :
    Inv pidOf (s.wakeup1.goto p .wakeRelease) := by
  have hpt : (s.pc p).holdsPtable = true := by rw [hpc]; rfl
  refine ⟨h.lk.keep (by rw [hpc]; rfl), h.ptable.keep (by rw [hpc]; rfl),
    h.owned.goto rfl rfl rfl (by rw [hpc]; rfl), ⟨fun q hq => ?_, fun q hq => ?_, fun q hq => ?_⟩,
    fun q hq => ?_⟩
  · exact h.rested.seen q (hq.imp (fun hq => (goto_ne hq (by decide)).2)
      fun hq => (goto_ne hq (by decide)).2)
  · -- one that is going to sleep would hold `ptable.lock`
    have hgoing : s.pc q = .sleepSched := (goto_ne hq (by decide)).2
    exact absurd (h.ptable.unique hpt (by rw [hgoing]; rfl)) (goto_ne hq (by decide)).1
  · obtain ⟨hstate, hchan⟩ := hq
    simp only [LockSys.goto, wakeup1] at hstate hchan
    split at hstate
    · cases hstate
    · rename_i hno
      exact absurd ⟨hstate, hchan⟩ hno
  · have hrest : s.state q ≠ .running := by
      simp only [LockSys.goto, wakeup1] at hq
      split at hq
      · rename_i hsl
        rw [hsl.1]
        decide
      · exact hq
    exact resting_goto h.resting (by simp [hpc]) q hrest

theorem Inv.wakeRelease (h : Inv pidOf s) (hpc : s.pc p = .wakeRelease) :
    Inv pidOf ({ s with ptable := none }.goto p .exitRelease) :=
  ⟨h.lk.keep (by rw [hpc]; rfl), h.ptable.give (by rw [hpc]; rfl) rfl,
    h.owned.goto rfl rfl rfl (by rw [hpc]; rfl),
    h.rested.goto rfl id (fun _ => id) ⟨by decide, by decide, by decide⟩ (by rw [hpc]; rfl),
    resting_goto h.resting (by simp [hpc])⟩

theorem Inv.next (h : Inv pidOf s) (hs : s.next pidOf p = some s') : Inv pidOf s' := by
  cases hpc : s.pc p with
  | idle | asleep | inside => simp [LockSys.next, hpc] at hs
  | test => exact h.test hpc hs
  | acquire | exitAcquire =>
    simp only [LockSys.next, hpc, ite_none_right_eq_some, Option.some.injEq] at hs
    obtain ⟨hfree, rfl⟩ := hs
    have hlk := h.lk
    rw [hfree] at hlk
    exact h.goto (by simp [hpc]) (hlk.take rfl) (by rw [hpc]; rfl) (by rw [hpc]; rfl)
      ⟨by decide, by decide, by decide⟩ (by rw [hpc]; rfl)
  | release | exitRelease =>
    simp only [LockSys.next, hpc, Option.some.injEq] at hs
    subst hs
    exact h.goto (by simp [hpc]) (h.lk.give (by rw [hpc]; rfl) rfl) (by rw [hpc]; rfl)
      (by rw [hpc]; rfl) ⟨by decide, by decide, by decide⟩ (by rw [hpc]; rfl)
  | sleepAcquire =>
    simp only [LockSys.next, hpc, ite_none_right_eq_some, Option.some.injEq] at hs
    obtain ⟨hfree, rfl⟩ := hs
    exact h.sleepAcquire hpc hfree
  | wakeAcquire =>
    simp only [LockSys.next, hpc, ite_none_right_eq_some, Option.some.injEq] at hs
    obtain ⟨hfree, rfl⟩ := hs
    exact h.wakeAcquire hpc hfree
  | sleepRelease =>
    simp only [LockSys.next, hpc, Option.some.injEq] at hs
    exact hs ▸ h.sleepRelease hpc
  | sleepSched =>
    simp only [LockSys.next, hpc, Option.some.injEq] at hs
    exact hs ▸ h.sleepSched hpc
  | woken =>
    simp only [LockSys.next, hpc, Option.some.injEq] at hs
    exact hs ▸ h.woken hpc
  | clear =>
    simp only [LockSys.next, hpc, Option.some.injEq] at hs
    exact hs ▸ h.clear hpc
  | wake =>
    simp only [LockSys.next, hpc, Option.some.injEq] at hs
    exact hs ▸ h.wake hpc
  | wakeRelease =>
    simp only [LockSys.next, hpc, Option.some.injEq] at hs
    exact hs ▸ h.wakeRelease hpc

omit [DecidableEq ι] in
theorem Inv.handOver (h : Inv pidOf s) {o : Option (PtableHolder ι)}
    (hold : s.ptableProc = none) (hnew : ptableProc { s with ptable := o } = none) :
    Inv pidOf { s with ptable := o } := by
  refine ⟨h.lk, ?_, h.owned, ⟨h.rested.seen, h.rested.going, h.rested.sleeping⟩, h.resting⟩
  rw [hnew, ← hold]
  exact h.ptable

omit [DecidableEq ι] in
theorem ptableProc_eq {o : PtableHolder ι} (h : s.ptable = some o) (ho : ∀ p, o ≠ .proc p) :
    s.ptableProc = none := by
  rw [ptableProc, h]
  cases o with
  | proc p => exact absurd rfl (ho p)
  | scheduler => rfl
  | other => rfl

theorem Inv.dispatch (h : Inv pidOf s) (hpt : s.ptable = some .scheduler)
    (hstate : s.state p = .runnable) : Inv pidOf ({ s with
      state := update s.state p .running
      ptable := some (.proc p) }.goto p .woken) := by
  have hpc : s.pc p = .asleep := h.resting p (by rw [hstate]; decide)
  have hfree := h.ptable
  rw [ptableProc_eq hpt fun _ => by simp] at hfree
  refine ⟨h.lk.keep (by rw [hpc]; rfl), hfree.take rfl,
    h.owned.goto rfl rfl rfl (by rw [hpc]; rfl), ?_, fun q => ?_⟩
  · refine h.rested.goto rfl id (fun q hq => ⟨?_, hq.2⟩) ⟨by decide, by decide, by decide⟩
      (by rw [hpc]; rfl)
    have hsl : update s.state p .running q = .sleeping := hq.1
    revert hsl
    exact update_cases q (fun hsl => by cases hsl) fun _ _ => id
  · simp only [LockSys.goto]
    refine update_cases q (fun hq => absurd rfl hq) fun q hqp hq => ?_
    rw [update_of_ne hqp]
    exact h.resting q hq

theorem Inv.kill (h : Inv pidOf s) (hsl : s.state p = .sleeping) :
    Inv pidOf { s with state := update s.state p .runnable } := by
  refine ⟨h.lk, h.ptable, h.owned, ⟨h.rested.seen, h.rested.going, fun q hq => ?_⟩, ?_⟩
  · refine h.rested.sleeping q ⟨?_, hq.2⟩
    have hstate : update s.state p .runnable q = .sleeping := hq.1
    revert hstate
    exact update_cases q (fun _ => hsl) fun _ _ => id
  · dsimp only
    refine fun q => update_cases q (fun _ => h.resting p ?_) fun q _ => h.resting q
    rw [hsl]
    decide

theorem Inv.step {e : LockEvent ι} (h : Inv pidOf s) (hs : s.Step pidOf e s') : Inv pidOf s' := by
  cases e with
  | next p => exact h.next hs
  | call p | leave p =>
    simp only [Step, LockSys.step, ite_none_right_eq_some, Option.some.injEq] at hs
    obtain ⟨hpc, rfl⟩ := hs
    exact h.goto (by simp [hpc]) (h.lk.keep (by rw [hpc]; rfl)) (by rw [hpc]; rfl)
      (by rw [hpc]; rfl) ⟨by decide, by decide, by decide⟩ (by rw [hpc]; rfl)
  | schedAcquire | otherAcquire =>
    simp only [Step, LockSys.step, ite_none_right_eq_some, Option.some.injEq] at hs
    obtain ⟨hfree, rfl⟩ := hs
    exact h.handOver (ptableProc_none hfree) rfl
  | schedRelease | otherRelease =>
    simp only [Step, LockSys.step, ite_none_right_eq_some, Option.some.injEq] at hs
    obtain ⟨hheld, rfl⟩ := hs
    exact h.handOver (ptableProc_eq hheld fun _ => by simp) rfl
  | dispatch p =>
    simp only [Step, LockSys.step, ite_none_right_eq_some, Option.some.injEq] at hs
    obtain ⟨⟨hheld, hstate⟩, rfl⟩ := hs
    exact h.dispatch hheld hstate
  | kill p =>
    simp only [Step, LockSys.step, ite_none_right_eq_some, Option.some.injEq] at hs
    obtain ⟨-, rfl⟩ := hs
    split
    · exact h.kill ‹_›
    · exact h

omit [DecidableEq ι] in
theorem Init.inv (h : Init s) : Inv pidOf s := by
  obtain ⟨hlk, hlocked, hpt, hpc, hstate⟩ := h
  have hidle : ∀ {f : LockPc → Bool}, f .idle = false → Guards f s.pc none := fun hf q => by
    rw [hpc q, hf]
    simp
  refine ⟨hlk ▸ hidle rfl, ptableProc_none hpt ▸ hidle rfl,
    ⟨none, hidle rfl, hlocked, fun _ hq => by cases hq⟩, ⟨fun q hq => ?_, fun q hq => ?_,
      fun q hq => ?_⟩,
    fun q hq => absurd (hstate q) hq⟩
  · rw [hpc q] at hq
    rcases hq with hq | hq <;> cases hq
  · rw [hpc q] at hq
    cases hq
  · rw [SleepsOn, hstate q] at hq
    cases hq.1

theorem reach_inv (h : Reach Init (Step pidOf) s) : Inv pidOf s :=
  h.invariant (fun _ => Init.inv) fun _ _ _ hi hs => hi.step hs

/-- At most one process is between its two calls, and nobody sleeps on a lock that is free, unless
the process that has freed it is about to wake it up. -/
theorem sleeplock_safe (h : Reach Init (Step pidOf) s) :
    (∀ p q, (s.pc p).owns = true → (s.pc q).owns = true → p = q) ∧
    ∀ p, s.SleepsOn p → s.locked = true ∨ ∃ q, (s.pc q).waking = true := by
  have hinv := reach_inv h
  refine ⟨fun p q hp hq => ?_, hinv.rested.sleeping⟩
  obtain ⟨o, ho, -, -⟩ := hinv.owned
  exact ho.unique hq hp

/-- `holdingsleep` tells the process between its two calls from all others, in every state. -/
theorem holdingsleep_iff (h : Reach Init (Step pidOf) s) (hinj : Function.Injective pidOf) (p : ι) :
    s.holdingsleep pidOf p = true ↔ (s.pc p).owns = true := by
  obtain ⟨o, ho, hlocked, hpid⟩ := (reach_inv h).owned
  rw [ho p, holdingsleep, hlocked]
  cases o with
  | none => simp
  | some q =>
    rw [hpid q rfl]
    simp [hinj.eq_iff]

/-- Two processes, with pids 1 and 2, outside. -/
def twoIdle : LockSys (Fin 2) :=
  ⟨none, false, 0, none, fun _ => .idle, fun _ => .running, fun _ => false⟩

def twoPids (p : Fin 2) : Int := p.val + 1

/-- Process 0 takes the lock, process 1 goes to sleep on it, and process 0 gives it back up to its
wakeup. -/
def contended : List (LockEvent (Fin 2)) :=
  [.call 0, .next 0, .next 0, .next 0, .call 1, .next 1, .next 1, .next 1, .next 1, .next 1,
    .schedRelease, .leave 0, .next 0, .next 0]

theorem reach_contended {n : Nat} {s : LockSys (Fin 2)}
    (h : (contended.take n).foldlM (step twoPids) twoIdle = some s) : Reach Init (Step twoPids) s :=
  (Reach.start ⟨rfl, rfl, rfl, fun _ => rfl, fun _ => rfl⟩).follow (f := step twoPids)
    (Q := fun _ => True) (fun _ _ _ _ h => h) (fun _ _ => trivial) h

/-- Process 0 holds the lock, and process 1 sleeps on it. -/
theorem holdingsleep_iff_held : ∃ s, Reach Init (Step twoPids) s ∧ s.SleepsOn 1 ∧
    (s.holdingsleep twoPids 0 = true ∧ (s.pc 0).owns = true) ∧
    s.holdingsleep twoPids 1 = false ∧ (s.pc 1).owns = false := by
  have hrun : (((contended.take 11).foldlM (step twoPids) twoIdle).any fun s =>
      s.state 1 = .sleeping ∧ s.chan 1 = true ∧ (s.pc 0).owns = true ∧
        (s.pc 1).owns = false) = true := by
    decide +kernel
  obtain ⟨s, hs, h⟩ := (any_eq_true _ _).mp hrun
  obtain ⟨hstate, hchan, hheld, hnot⟩ := of_decide_eq_true h
  have hiff := holdingsleep_iff (reach_contended hs) (show Function.Injective twoPids by decide)
  refine ⟨s, reach_contended hs, ⟨hstate, hchan⟩, ⟨(hiff 0).mpr hheld, hheld⟩, ?_, hnot⟩
  rw [Bool.eq_false_iff, Ne, hiff 1, hnot]
  exact Bool.false_ne_true

theorem sleeplock_safe_contended : ∃ s, Reach Init (Step twoPids) s ∧
    s.SleepsOn 1 ∧ s.locked = false ∧ ∃ q, (s.pc q).waking = true := by
  have hrun : (((contended.take 14).foldlM (step twoPids) twoIdle).any fun s =>
      s.state 1 = .sleeping ∧ s.chan 1 = true ∧ s.locked = false) = true := by
    decide +kernel
  obtain ⟨s, hs, h⟩ := (any_eq_true _ _).mp hrun
  obtain ⟨hstate, hchan, hlocked⟩ := of_decide_eq_true h
  have hreach := reach_contended hs
  have hwaking := (sleeplock_safe hreach).2 1 ⟨hstate, hchan⟩
  rw [hlocked] at hwaking
  exact ⟨s, hreach, ⟨hstate, hchan⟩, hlocked, hwaking.resolve_left (by simp)⟩

end LockSys

end Xv6.Kernel
