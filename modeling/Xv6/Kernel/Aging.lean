import Xv6.Kernel.Lottery

/-!
# Xv6.Kernel.Aging

How long a process waits on a machine with one processor.

`Single` adds to the processes where `scheduler` is: before `level_finder`, with the level it has
returned, or in the loop of the policy over the table. `level_finder` counts up `waited` of every
process that is runnable, and moves a process to level 1 when the count reaches the limit. A
dispatch counts down. It does so also after the aging has set the count to 0, and for a process
that was woken since `level_finder`, so the count can be negative; how long the process waits then
is decided by the count it starts with.
-/

namespace Xv6.Kernel

open Function

variable {w : Int} {es : List SingleEvent} {e : SingleEvent}

def Proc.standing (p : Proc) : Int × Int := (p.level, p.waited)

/-- What `level_finder` does to the level and the count of a runnable process. -/
def tickStanding (a : Int × Int) : Int × Int :=
  if MAX_WAITING_TIME ≤ wrap (a.2 + 1) then (1, 0) else (a.1, wrap (a.2 + 1))

theorem standing_tick (p : Proc) : (tick p).standing = tickStanding p.standing := by
  rw [tick, tickStanding]
  by_cases h : MAX_WAITING_TIME ≤ wrap (p.waited + 1)
  · simp only [Proc.standing, if_pos h, agging]
    exact (if_pos h).symm
  · simp only [Proc.standing, if_neg h]
    exact (if_neg h).symm

theorem limit_eq : MAX_WAITING_TIME = 10000 := rfl

def IsInt (i : Int) : Prop := -2 ^ 31 ≤ i ∧ i < 2 ^ 31

theorem wrap_of_isInt {i : Int} (h : IsInt i) : wrap i = i := by
  obtain ⟨h1, h2⟩ := h
  rw [wrap, Int.bmod_eq_of_le]
  · omega
  · omega

/-- Where the scheduler is: before `level_finder`; with the level it returned; in the loop of a
policy, with the slots to go, and the process it looks for where there is one. -/
inductive Pos where
  | top
  | found (level : Int)
  | pass (want : Option Slot) (todo : List Slot)
  deriving DecidableEq

structure Single extends Kern where
  pos : Pos

/-- From the level to the loop: levels 2 and 3 draw a process first. -/
def choose (t : PTable) (clock : RtcDate) (level : Int) : Except Fault Pos :=
  if level = 1 then .ok (.pass none slots)
  else (draw t clock level).map fun
    | none => .top
    | some w => .pass (some w) slots

inductive SingleEvent where
  | find
  | draw (clock : RtcDate)
  | scan
  | wakeup (chan : Chan)
  | op (o : Op)

/-- `level_finder` is called. -/
def SingleEvent.isFind : SingleEvent → Bool
  | .find => true
  | _ => false

/-- How often `level_finder` is called. -/
def finds (es : List SingleEvent) : Nat := es.countP SingleEvent.isFind

namespace Single

/-- The loop looks at the next slot, or ends. -/
def scan (m : Single) : Option (Except Fault Single) :=
  match m.pos with
  | .pass _ [] => some (.ok { m with pos := .top })
  | .pass want (p :: ps) =>
    if (m.ptable p).state ≠ .runnable ∨ (m.ptable p).level ≠ 1 then
      some (.ok { m with pos := .pass want ps })
    else if want ≠ none ∧ want ≠ some p then some (.ok { m with pos := .pass want ps })
    else some ((m.toKern.dispatch 0 p).map fun k => ⟨k, .pass want ps⟩)
  | _ => none

/-- One step; `none` where the event cannot happen. While a process runs, the scheduler stands at
the next slot; while it looks at slots, it holds the lock that `wakeup` needs. -/
def step (m : Single) : SingleEvent → Option (Except Fault Single)
  | .find =>
    if m.cpu 0 = none ∧ m.pos = .top then
      let (level, t) := levelFinder m.ptable
      some (.ok { m with ptable := t, pos := .found level })
    else none
  | .draw clock =>
    match m.pos with
    | .found level => some ((choose m.ptable clock level).map fun pos => { m with pos })
    | _ => none
  | .scan => if m.cpu 0 = none then m.scan else none
  | .wakeup chan =>
    match m.cpu 0, m.pos with
    | none, .pass _ _ => none
    | _, _ => some (.ok ⟨m.toKern.wakeup chan, m.pos⟩)
  | .op o =>
    match m.cpu 0 with
    | none => none
    | some s => (m.toKern.exec 0 s o (m.pc s)).map (·.map fun k => ⟨k, m.pos⟩)

def Init (m : Single) : Prop := Kern.Init m.toKern ∧ m.pos = .top

def Step (m : Single) (e : SingleEvent) (m' : Single) : Prop :=
  (∀ call, e ≠ .op (.sem call)) ∧ m.step e = some (.ok m')

end Single

/-! ## What the processes do to levels and counts -/

namespace Kern

variable {k k' : Kern} {c : Cpu} {q p : Slot}

theorem wakeup1_standing (t : PTable) (chan : Chan) (p : Slot) :
    (wakeup1 t chan p).standing = (t p).standing := by
  unfold wakeup1
  split <;> rfl

theorem reparent_standing (init s : Slot) (l : List Slot) : ∀ (t : PTable) (p : Slot),
    (reparent init s l t p).standing = (t p).standing := by
  induction l with
  | nil => exact fun _ _ => rfl
  | cons q l ih =>
    intro t p
    have hq := Machine.update_field Proc.standing (t := t) (n := q)
      (r := { t q with parent := some init }) rfl p
    simp only [reparent]
    split
    · rw [ih]
      split
      · rw [wakeup1_standing, hq]
      · exact hq
    · exact ih t p

theorem exit_standing (h : k.exit c q = .ok k') (p : Slot) :
    (k'.ptable p).standing = (k.ptable p).standing := by
  unfold exit at h
  split at h
  · cases h
  · cases h
    simp only [sched]
    rw [Machine.update_field Proc.standing (by rfl), reparent_standing, wakeup1_standing]
    exact Machine.update_field Proc.standing (by rfl) p

theorem wait_standing {r : Option Int × Kern} (h : k.wait c q = .ok r) (p : Slot) :
    (r.2.ptable p).standing = (k.ptable p).standing := by
  unfold wait at h
  split at h
  · split at h
    · cases h
    · split at h
      · cases h
      · cases h
        exact Machine.update_field Proc.standing (by rfl) p
  · split at h
    · cases h; rfl
    · cases h
      exact Machine.update_field Proc.standing (by rfl) p

/-- What the process in slot `q` does may set the level and the count in slot `p`: `allocproc` finds
the slot free, `fork` fills it, or `level_change` copies records. -/
def Sets (k : Kern) (q : Slot) (p : Slot) : Op → Prop
  | .forkStart _ => (k.ptable p).state = .unused
  | .forkCopy _ _ => k.pc q = .forkCopy p
  | .levelChange _ _ _ => True
  | _ => False

theorem exec_standing {o : Op} {pc : Pc} (hsem : ∀ call, o ≠ .sem call) (hpc : k.pc q = pc)
    (h : k.exec c q o pc = some (.ok k')) (p : Slot) :
    (k'.ptable p).standing = (k.ptable p).standing ∨
    k.Sets q p o ∧ ((k'.ptable p).waited = 0 ∨ ∃ r, (k'.ptable p).waited =
      (k.ptable r).waited) := by
  cases exec_done h with
  | yield => exact .inl (Machine.update_field Proc.standing (by rfl) p)
  | sleep => exact .inl (Machine.update_field Proc.standing (by rfl) p)
  | kill =>
    left
    unfold kill
    split
    · rfl
    · refine Machine.update_field Proc.standing ?_ p
      split <;> rfl
  | exit he => exact .inl (exit_standing he p)
  | wait hw => exact .inl (wait_standing hw p)
  | forkStart =>
    unfold forkStart
    split
    · exact .inl rfl
    · rename_i np hnp
      have hfree : (k.ptable np).state = .unused := by simpa using List.find?_some hnp
      simp only [forking]
      exact update_cases p (.inr ⟨hfree, .inl rfl⟩) fun _ _ => .inl rfl
  | forkStack =>
    unfold forkStack
    left
    split
    · exact Machine.update_field Proc.standing (by rfl) p
    · exact Machine.update_field Proc.standing (by rfl) p
  | forkCopy =>
    unfold forkCopy
    split
    · exact .inl (Machine.update_field Proc.standing (by rfl) p)
    · simp only [forking]
      exact update_cases p (.inr ⟨hpc, .inl rfl⟩) fun _ _ => .inl rfl
  | forkRun => exact .inl (Machine.update_field Proc.standing (by rfl) p)
  | sem => exact absurd rfl (hsem _)
  | @levelChange temp pid level =>
    have hw := @levelChange_writes (fun r => ∃ s, r.waited = (k.ptable s).waited)
      (fun _ _ h => h) temp k.ptable pid level (fun s _ => ⟨s, rfl⟩) (fun n _ => ⟨n, rfl⟩) p
    rcases hw with hsame | hw
    · left
      simp only [hsame]
    · exact .inr ⟨trivial, .inr hw⟩

theorem dispatch_chosen (h : k.dispatch c q = .ok k') : (k'.ptable q).state = .running ∧
    (k'.ptable q).standing = ((k.ptable q).level, wrap ((k.ptable q).waited - 1)) := by
  cases dispatch_resumed h <;> simp only [update_self] <;> exact ⟨rfl, rfl⟩

theorem dispatch_cpu (h : k.dispatch c q = .ok k') : k'.cpu c = some q := by
  cases dispatch_resumed h <;> exact update_self ..

end Kern

namespace Single

variable {m m' : Single} {s : Slot}

/-- What one step does to the level and the count in a slot. -/
inductive Effect (m m' : Single) (e : SingleEvent) (s : Slot) : Prop where
  | same (h : (m'.ptable s).standing = (m.ptable s).standing) (he : e.isFind = false)
  | skip (h : m'.ptable s = m.ptable s) (hs : (m.ptable s).state ≠ .runnable)
  | tick (he : e = .find) (hs : (m.ptable s).state = .runnable)
      (h : (m'.ptable s).standing = tickStanding (m.ptable s).standing)
  | dispatch (hc : m.cpu 0 = none) (hc' : m'.cpu 0 = some s) (hs : (m'.ptable s).state = .running)
      (h : (m'.ptable s).waited = wrap ((m.ptable s).waited - 1))
  | sets (q : Slot) (o : Op) (hq : m.cpu 0 = some q) (he : e = .op o) (ho : m.Sets q s o)
      (h : (m'.ptable s).waited = 0 ∨ ∃ r, (m'.ptable s).waited = (m.ptable r).waited)

theorem scan_effect (hc : m.cpu 0 = none) (h : m.scan = some (.ok m')) : Effect m m' .scan s := by
  unfold scan at h
  split at h
  · cases h; exact .same rfl rfl
  · rename_i want p ps _
    split at h
    · cases h; exact .same rfl rfl
    · split at h
      · cases h; exact .same rfl rfl
      · have h := Option.some.inj h
        cases hd : m.toKern.dispatch 0 p with
        | error f => rw [hd] at h; cases h
        | ok k =>
          rw [hd] at h
          cases h
          by_cases hsp : s = p
          · subst hsp
            obtain ⟨hrun, hst⟩ := Kern.dispatch_chosen hd
            exact .dispatch hc (Kern.dispatch_cpu hd) hrun (congrArg Prod.snd hst)
          · exact .same (by simp only [Kern.dispatch_stays hd hsp]) rfl
  · cases h

theorem Step.effect (h : Step m e m') (s : Slot) : Effect m m' e s := by
  obtain ⟨hsem, h⟩ := h
  cases e with
  | find =>
    simp only [step] at h
    split at h
    · cases h
      by_cases hs : (m.ptable s).state = .runnable
      · refine .tick rfl hs ?_
        simp only [levelFinder_table, if_pos hs, standing_tick]
      · refine .skip ?_ hs
        simp only [levelFinder_table, if_neg hs]
    · cases h
  | draw clock =>
    simp only [step] at h
    split at h
    · rename_i level _
      have h := Option.some.inj h
      cases hch : choose m.ptable clock level with
      | error f => rw [hch] at h; cases h
      | ok pos => rw [hch] at h; cases h; exact .same rfl rfl
    · cases h
  | scan =>
    simp only [step] at h
    split at h
    · exact scan_effect ‹_› h
    · cases h
  | wakeup chan =>
    simp only [step] at h
    split at h
    · cases h
    · cases h
      exact .same (Kern.wakeup1_standing _ _ s) rfl
  | op o =>
    simp only [step] at h
    split at h
    · cases h
    · rename_i q hq
      cases he : m.toKern.exec 0 q o (m.pc q) with
      | none => rw [he] at h; cases h
      | some r =>
        rw [he] at h
        cases r with
        | error f => cases h
        | ok k =>
          cases h
          rcases Kern.exec_standing (fun call hcall => hsem call (by rw [hcall])) rfl he s with
            hsame | ⟨hsets, hw⟩
          · exact .same hsame rfl
          · exact .sets q o hq rfl hsets hw

/-! ## The counts in a run -/

theorem reach_counts {P : Int → Prop} {step : Single → SingleEvent → Single → Prop}
    (hstep : ∀ m e m', step m e m' → Step m e m') (h0 : P 0)
    (htick : ∀ a, P a.2 → P (tickStanding a).2)
    (hdown : ∀ m e m' s, step m e m' → m.cpu 0 = none → m'.cpu 0 = some s →
      P (m.ptable s).waited → P (wrap ((m.ptable s).waited - 1)))
    (h : Reach Init step m) : ∀ s, P (m.ptable s).waited := by
  refine h.invariant (P := fun m => ∀ s, P (m.ptable s).waited) ?_ ?_
  · rintro m ⟨⟨kstack, pgdir, cwd, clock, -, -, hk⟩, -⟩ s
    have hzero : (m.ptable s).waited = 0 := by
      rw [hk]
      by_cases hs : s = 0
      · subst hs; rfl
      · simp [Kern.userinit, hs, Proc.zero]
    rw [hzero]
    exact h0
  · intro m e m' hP hs s
    cases (hstep m e m' hs).effect s with
    | same h _ =>
      have hw : (m'.ptable s).waited = (m.ptable s).waited := congrArg Prod.snd h
      exact hw ▸ hP s
    | skip h _ => exact h ▸ hP s
    | tick _ _ h =>
      have hw : (m'.ptable s).waited = (tickStanding (m.ptable s).standing).2 := congrArg Prod.snd h
      rw [hw]
      exact htick _ (hP s)
    | dispatch hc hc' _ h => exact h ▸ hdown m e m' s hs hc hc' (hP s)
    | sets q o _ _ _ h =>
      rcases h with h | ⟨r, h⟩
      · exact h ▸ h0
      · exact h ▸ hP r

/-- No process writes what `g` reads of the level and the count in slot `s`: `level_change` leaves
it alone, and no `fork` takes the slot for that of its child. -/
def Undisturbed {α : Type} (g : Int × Int → α) (s : Slot) (m : Single) : SingleEvent → Prop
  | .op (.levelChange temp pid level) =>
    g ((levelChange temp m.ptable pid level).2 s).standing = g (m.ptable s).standing
  | .op (.forkCopy _ _) => ∀ q, m.cpu 0 = some q → m.pc q ≠ .forkCopy s
  | _ => True

/-- A step in which the process in slot `s` stays runnable. -/
def WaitStep (s : Slot) (m : Single) (e : SingleEvent) (m' : Single) : Prop :=
  Step m e m' ∧ (m.ptable s).state = .runnable ∧ (m'.ptable s).state = .runnable

theorem WaitStep.standing {α : Type} {g : Int × Int → α} (h : WaitStep s m e m')
    (hu : Undisturbed g s m e) :
    g (m'.ptable s).standing = g (tickStanding^[finds [e]] (m.ptable s).standing) := by
  obtain ⟨hst, hr, hr'⟩ := h
  cases hst.effect s with
  | same h he =>
    have hfinds : finds [e] = 0 := by simp [finds, he]
    rw [hfinds, h]
    rfl
  | skip _ hs => exact absurd hr hs
  | tick he _ h => rw [h, he]; rfl
  | dispatch _ _ hs _ => rw [hr'] at hs; cases hs
  | sets q o hq he ho _ =>
    subst he
    cases o with
    | forkStart clock => exact absurd (hr.symm.trans ho) (by decide)
    | forkCopy pgdir clock => exact absurd ho (hu q hq)
    | levelChange temp pid level =>
      have h := hst.2
      simp only [step, hq] at h
      cases hpc : m.pc q with
      | idle => rw [hpc] at h; cases h; exact hu
      | _ => rw [hpc] at h; cases h
    | _ => exact ho.elim

/-- Nothing but the process in slot `s` is runnable, and it is of level 2. -/
structure Lone (m : Single) (s : Slot) : Prop where
  free : m.cpu 0 = none
  top : m.pos = .top
  second : Machine.Second (m.ptable s)
  tickets : (m.ptable s).tickets = 1
  alone : ∀ p, p ≠ s → (m.ptable p).state ≠ .runnable
  pids : findWithPid m.ptable (-123) = none

/-- The same state with another count. -/
def withCount (m : Single) (s : Slot) (w : Int) : Single :=
  { m with ptable := update m.ptable s { m.ptable s with waited := w } }

theorem withCount_other {p : Slot} (w : Int) (hp : p ≠ s) :
    (m.withCount s w).ptable p = m.ptable p := update_of_ne hp _ _

theorem withCount_same (w : Int) :
    (m.withCount s w).ptable s = { m.ptable s with waited := w } := update_self _ _ _

theorem Lone.withCount (h : Lone m s) (w : Int) : Lone (m.withCount s w) s where
  free := h.free
  top := h.top
  second := by rw [withCount_same]; exact h.second
  tickets := by rw [withCount_same]; exact h.tickets
  alone p hp := by rw [withCount_other w hp]; exact h.alone p hp
  pids := by
    have hpid : ∀ p, ((m.withCount s w).ptable p).pid = (m.ptable p).pid :=
      Machine.update_field Proc.pid (by rfl)
    have hp := h.pids
    unfold findWithPid at hp ⊢
    simp only [hpid]
    exact hp

theorem Lone.levelFinder (h : Lone m s) (hw : (m.ptable s).waited = w)
    (h0 : -2 ^ 31 ≤ w) (hlt : w + 1 < 10000) :
    levelFinder m.ptable = (2, (m.withCount s (w + 1)).ptable) := by
  have hwrap : wrap (w + 1) = w + 1 := wrap_of_isInt ⟨by omega, by omega⟩
  have htick : tick (m.ptable s) = { m.ptable s with waited := w + 1 } := by
    simp only [tick, hw, hwrap, limit_eq]
    exact if_neg (by omega)
  have hdue : ∀ p, ¬ Due (m.ptable p) := by
    rintro p ⟨hr, hd⟩
    by_cases hp : p = s
    · subst hp
      rw [hw, hwrap, limit_eq, h.second.2] at hd
      omega
    · exact h.alone p hp hr
  have htable : (Kernel.levelFinder m.ptable).2 = (m.withCount s (w + 1)).ptable := by
    funext p
    rw [levelFinder_table]
    by_cases hp : p = s
    · subst hp
      rw [if_pos h.second.1, htick, withCount_same]
    · rw [if_neg (h.alone p hp), withCount_other _ hp]
  have hlevel : (Kernel.levelFinder m.ptable).1 = 2 := by
    rcases levelFinder_level m.ptable with ⟨-, hno⟩ | ⟨-, p, hp⟩ | ⟨h23, hrun, -⟩
    · exact absurd h.second.1 (hno s)
    · exact absurd hp (hdue p)
    · refine h23.resolve_right fun h3 => ?_
      refine ((levelFinder_three hrun).mp h3 s h.second.1).2 ?_
      rw [htick]
      exact h.second.2
  rw [← htable, ← hlevel]

theorem Lone.choose (h : Lone m s) (clock : RtcDate) :
    choose m.ptable clock 2 = .ok (.pass (some s) slots) := by
  have honly : ∀ p, Machine.Second (m.ptable p) ↔ p = s := fun p =>
    ⟨fun hp => by
      by_contra hne
      exact h.alone p hne hp.1, fun hp => hp ▸ h.second⟩
  have hstake : stake m.ptable = 1 := by
    simp only [stake, honly, Finset.filter_eq', Finset.mem_univ, if_true, Finset.sum_singleton,
      h.tickets]
  have hone : ∀ p, Machine.Second (m.ptable p) → 1 ≤ (m.ptable p).tickets := by
    intro p hp
    rw [(honly p).mp hp, h.tickets]
  obtain ⟨p, hp, hsecond⟩ :=
    findWinner_second hone (by rw [hstake]; decide) ⟨s, h.second⟩ clock
  obtain rfl := (honly p).mp hsecond
  simp only [Kernel.choose, draw, h.pids, hp]
  rfl

/-- The state after a step that does not fault. -/
def next (m : Single) (e : SingleEvent) : Option Single :=
  match m.step e with
  | some (.ok m') => some m'
  | _ => none

theorem step_of_next (h : m.next e = some m') : m.step e = some (.ok m') := by
  unfold next at h
  split at h
  · cases h
    assumption
  · cases h

/-- The round in which the child is aged: it runs, goes back to level 2 and yields. -/
def turn : List SingleEvent :=
  [.find, .draw ⟨0, 0, 0⟩, .scan, .scan, .op (.levelChange .zero 2 2), .op .yield] ++
    List.replicate 63 .scan

end Single

end Xv6.Kernel
