import Xv6.Kernel.Levels

/-!
# Xv6.Kernel.Divide

The divisions of the scheduler, on several processors.

A processor that is between processes runs `level_finder`, releases `ptable.lock`, and takes it
again in the policy of the level it found. `Machine` adds that level to the state: `chosen c` is
what processor `c` goes by until its policy has drawn. In between, another processor may age the
processes, and a process may change tickets and levels. `Orderly` says which steps leave the
divisors alone. Since `level_change` copies records between slots, a slot that a processor runs or
a `fork` builds may say `RUNNABLE`; only a process that is `Parked` is sure to stay so.
-/

namespace Xv6.Kernel

open Function Option

variable {e : Event} {pid : Int} {t : PTable} {p : Slot}

def setTickets (t : PTable) (pid tickets : Int) : Int × PTable :=
  match lastWithPid t pid with
  | none => (0, t)
  | some n => (1, update t n { t n with tickets })

def changeRatiosPl (t : PTable) (pid priorityRatio arrivalTimeRatio ecRation : Int) :
    Int × PTable :=
  match lastWithPid t pid with
  | none => (0, t)
  | some n => (1, update t n { t n with
      priorityRatio
      arrivalTimeRatio
      executedCycleRatio := ecRation })

/-- No processor runs the slot, and no `fork` builds it. -/
def Kern.Parked (k : Kern) (s : Slot) : Prop :=
  (∀ c, k.cpu c ≠ some s) ∧ ∀ q, (k.pc q).child ≠ some s

structure Machine extends Kern where
  chosen : Cpu → Option Int

/-- What a scheduler computes under its second lock, up to the choice of a process. -/
def draw (t : PTable) (clock : RtcDate) (level : Int) : Except Fault (Option Slot) :=
  if level = 2 then
    match findWithPid t (-123) with
    | some p => .ok (some p)
    | none => findWinner clock t
  else if level = 3 then findBestJob t
  else .ok none

inductive MachineEvent where
  | kern (e : Event)
  | find (c : Cpu)
  | draw (c : Cpu) (clock : RtcDate)
  | setTickets (c : Cpu) (pid tickets : Int)
  | changeRatiosPl (c : Cpu) (pid priorityRatio arrivalTimeRatio ecRation : Int)
  | changeRatiosSl (c : Cpu) (priorityRatio arrivalTimeRatio ecRation : Int)

namespace Machine

/-- The process on processor `c` makes a system call that changes the table to `t`. -/
def calls (m : Machine) (c : Cpu) (t : PTable) : Option (Except Fault Machine) :=
  match m.cpu c with
  | none => none
  | some s => if m.pc s = .idle then some (.ok { m with ptable := t }) else none

/-- One step; `none` where the event cannot happen. The three policies switch to processes of
level 1 only. -/
def step (m : Machine) : MachineEvent → Option (Except Fault Machine)
  | .kern (.dispatch c p) =>
    if m.chosen c = none ∧ (m.ptable p).level = 1 then
      (m.toKern.step (.dispatch c p)).map (·.map fun k => { m with toKern := k })
    else none
  | .kern e => (m.toKern.step e).map (·.map fun k => { m with toKern := k })
  | .find c =>
    if m.cpu c = none ∧ m.chosen c = none then
      let (level, t) := levelFinder m.ptable
      some (.ok { m with ptable := t, chosen := update m.chosen c (some level) })
    else none
  | .draw c clock =>
    match m.chosen c with
    | none => none
    | some level => some ((Kernel.draw m.ptable clock level).map fun _ =>
        { m with chosen := update m.chosen c none })
  | .setTickets c pid tickets => m.calls c (Kernel.setTickets m.ptable pid tickets).2
  | .changeRatiosPl c pid pr ar ec => m.calls c (Kernel.changeRatiosPl m.ptable pid pr ar ec).2
  | .changeRatiosSl c pr ar ec =>
    (m.calls c m.ptable).map (·.map fun m => { m with ratios := ⟨pr, ar, ec⟩ })

def Init (m : Machine) : Prop := Kern.Init m.toKern ∧ ∀ c, m.chosen c = none

def Step (m : Machine) (e : MachineEvent) (m' : Machine) : Prop :=
  (∀ e', e = .kern e' → e'.Scheduling) ∧ m.step e = some (.ok m')

/-- The scheduler that is about to divide finds no zero. -/
structure Divides (m : Machine) : Prop where
  bestJob : ∀ c, m.chosen c = some 3 → ∀ p, (m.ptable p).state = .runnable →
    (m.ptable p).level = 3 → (m.ptable p).tickets ≠ 0
  winner : ∀ c, m.chosen c = some 2 → findWithPid m.ptable (-123) = none → 0 < ticketSum m.ptable

def Second (p : Proc) : Prop := p.state = .runnable ∧ p.level = 2

instance (p : Proc) : Decidable (Second p) := inferInstanceAs (Decidable (_ ∧ _))

/-- Some processor has chosen level 2 and not drawn yet. -/
def Lottery (m : Machine) : Prop := ∃ c, m.chosen c = some 2

/-- Tickets of which the table can hold 64 without an overflow. -/
def Fair (n : Int) : Prop := 0 < n ∧ n < 2 ^ 25

instance (n : Int) : Decidable (Fair n) := inferInstanceAs (Decidable (_ ∧ _))

/-- A process of level 2 is in the slot, and the next step of nobody else is there. -/
def Waits (m : Machine) (s : Slot) : Prop := Second (m.ptable s) ∧ m.toKern.Parked s

/-- Tickets are positive and not too many, those of the record that `level_change` copies included.
While a processor is about to draw from level 2, `level_change` leaves a process waiting there, and
so does the aging, which runs too when a processor chooses level 2. -/
def Orderly (m : Machine) : MachineEvent → Prop
  | .kern (.op _ (.levelChange temp pid level)) =>
    (∀ n, lastWithPid m.ptable pid = some n → n.val + 1 = NPROC ∨ Fair (m.ptable n).tickets) ∧
      (m.Lottery → ∃ s, { m with ptable := (levelChange temp m.ptable pid level).2 }.Waits s)
  | .find _ => m.Lottery ∨ (levelFinder m.ptable).1 = 2 →
      ∃ s, m.Waits s ∧ ¬ Due (m.ptable s)
  | .setTickets _ _ tickets => Fair tickets
  | _ => True

def OrderlyStep (m : Machine) (e : MachineEvent) (m' : Machine) : Prop :=
  m.Orderly e ∧ m.Step e m'

end Machine

theorem wrap_of_lt {i : Int} (h0 : 0 ≤ i) (h : i < 2 ^ 31) : wrap i = i := by
  rw [wrap, Int.bmod_eq_of_le]
  · omega
  · omega

open Machine in
theorem ticketSum_loop (ht : ∀ s, Second (t s) → Fair (t s).tickets)
    (l : List Slot) : ∀ mod : Int, 0 ≤ mod → mod + l.length * 2 ^ 25 ≤ 2 ^ 31 →
      mod ≤ l.foldl (fun mod p => if (t p).state ≠ .runnable ∨ (t p).level ≠ 2 then mod
        else wrap (mod + (t p).tickets)) mod ∧
      ((∃ s ∈ l, Second (t s)) → mod < l.foldl (fun mod p =>
        if (t p).state ≠ .runnable ∨ (t p).level ≠ 2 then mod
        else wrap (mod + (t p).tickets)) mod) := by
  induction l with
  | nil => exact fun mod _ _ => ⟨le_refl _, fun ⟨_, h, _⟩ => absurd h (List.not_mem_nil)⟩
  | cons p l ih =>
    intro mod h0 hlt
    rw [List.length_cons] at hlt
    push_cast at hlt
    rw [List.foldl_cons, List.exists_mem_cons_iff]
    by_cases hp : Second (t p)
    · obtain ⟨h1, h2⟩ := ht p hp
      have hskip : ¬ ((t p).state ≠ .runnable ∨ (t p).level ≠ 2) := by
        rw [not_or, not_not, not_not]
        exact hp
      have hsum : wrap (mod + (t p).tickets) = mod + (t p).tickets :=
        wrap_of_lt (by omega) (by omega)
      rw [if_neg hskip, hsum]
      obtain ⟨hle, -⟩ := ih (mod + (t p).tickets) (by omega) (by omega)
      exact ⟨by omega, fun _ => by omega⟩
    · have hskip : (t p).state ≠ .runnable ∨ (t p).level ≠ 2 := not_and_or.mp hp
      rw [if_pos hskip]
      obtain ⟨hle, hlt'⟩ := ih mod h0 (by omega)
      refine ⟨hle, fun h => hlt' (h.resolve_left hp)⟩

open Machine in
theorem ticketSum_pos (ht : ∀ s, Second (t s) → Fair (t s).tickets) {s : Slot}
    (hs : Second (t s)) : 0 < ticketSum t := by
  refine (ticketSum_loop ht slots 0 (le_refl 0) ?_).2 ⟨s, mem_slots s, hs⟩
  simp [slots]

namespace Kern

variable {k k' : Kern} {s : Slot} {c : Cpu}

/-- A parked process is runnable, with these tickets and this level. -/
def Rests (k : Kern) (p : Slot) (sh : Int × Int) : Prop :=
  k.Parked p ∧ (k.ptable p).state = .runnable ∧ (k.ptable p).share = sh

variable {sh : Int × Int}

theorem Rests.table (h : Rests k p sh) (hr : (t p).state = .runnable) (hsh : (t p).share = sh) :
    Rests { k with ptable := t } p sh := ⟨h.1, hr, hsh⟩

theorem Rests.calm (h : Rests k p sh) (hc : Calm k.ptable t)
    (hsh : (t p).share = (k.ptable p).share) : Rests { k with ptable := t } p sh :=
  h.table (hc.state_eq h.2.1 (by decide)) (hsh.trans h.2.2)

theorem Rests.ne_running (h : Rests k p sh) (hc : k.cpu c = some s) : p ≠ s := by
  rintro rfl
  exact h.1.1 c hc

theorem Rests.ne_child (h : Rests k p sh) {np : Slot} (hq : (k.pc s).child = some np) : p ≠ np := by
  rintro rfl
  exact h.1.2 s hq

theorem Rests.ne_state (h : Rests k p sh) {q : Slot} {state : ProcState}
    (hq : (k.ptable q).state = state) (hst : state ≠ .runnable) : p ≠ q := by
  rintro rfl
  exact hst (hq.symm.trans h.2.1)

theorem Rests.sched {pc : Pc} (h : Rests k p sh) (hpc : pc.child = none ∨ pc = k.pc s)
    (hr : (t p).state = .runnable) (hsh : (t p).share = sh) : Rests (k.sched c s pc t) p sh := by
  refine ⟨⟨fun c' => ?_, fun q => ?_⟩, hr, hsh⟩
  · simp only [Kern.sched]
    exact update_cases c' (Option.some_ne_none p).symm fun c' _ => h.1.1 c'
  · simp only [Kern.sched]
    refine update_cases q ?_ fun q _ => h.1.2 q
    rcases hpc with hpc | rfl
    · rw [hpc]
      exact (Option.some_ne_none p).symm
    · exact h.1.2 s

theorem Rests.forking {np : Slot} {r : Proc} {pc : Pc} (h : Rests k p sh) (hp : p ≠ np)
    (hpc : pc.child = none ∨ pc.child = some np) : Rests (k.forking s np r pc) p sh := by
  refine ⟨⟨h.1.1, fun q => ?_⟩, ?_⟩
  · simp only [Kern.forking]
    refine update_cases q ?_ fun q _ => h.1.2 q
    rcases hpc with hpc | hpc
    · rw [hpc]
      exact (Option.some_ne_none p).symm
    · rw [hpc]
      exact fun heq => hp (Option.some.inj heq).symm
  · simp only [Kern.forking, update_of_ne hp]
    exact h.2

theorem rests_exit (h : Rests k p sh) (hc : k.cpu c = some s) (he : k.exit c s = .ok k') :
    Rests k' p sh := by
  have hne := h.ne_running hc
  unfold exit at he
  split at he
  · cases he
  · cases he
    refine h.sched (.inl rfl) ?_ ?_
    · rw [update_of_ne hne]
      refine ((Calm.wakeup1 _ _).trans (Calm.reparent _ _ _ _)).state_eq ?_ (by decide)
      rw [update_of_ne hne]
      exact h.2.1
    · rw [update_of_ne hne, reparent_share, wakeup1_share, update_of_ne hne]
      exact h.2.2

theorem rests_wait (h : Rests k p sh) (hc : k.cpu c = some s) {r : Option Int × Kern}
    (hw : k.wait c s = .ok r) : Rests r.2 p sh := by
  unfold wait at hw
  split at hw
  · rename_i q hq
    have hz : (k.ptable q).state = .zombie := by
      have := List.find?_some hq
      simp only [Bool.decide_and, Bool.and_eq_true, decide_eq_true_eq] at this
      exact this.2
    have hne : p ≠ q := h.ne_state hz (by decide)
    split at hw
    · cases hw
    · split at hw
      · cases hw
      · cases hw
        refine ⟨⟨h.1.1, fun q' => ?_⟩, ?_⟩
        · dsimp only
          exact update_cases q' (Option.some_ne_none p).symm fun q' _ => h.1.2 q'
        · dsimp only
          rw [update_of_ne hne]
          exact h.2
  · split at hw
    · cases hw
      exact h
    · cases hw
      have hne := h.ne_running hc
      refine h.sched (.inl rfl) ?_ ?_
      · rw [update_of_ne hne]
        exact h.2.1
      · rw [update_of_ne hne]
        exact h.2.2

theorem exec_rests (h : Rests k p sh) (hc : k.cpu c = some s) {o : Op}
    (ho : (Event.op c o).Ordinary) {pc : Pc} (hpc : k.pc s = pc)
    (hr : k.exec c s o pc = some (.ok k')) : Rests k' p sh := by
  have hne := h.ne_running hc
  have hleft : ∀ r, (update k.ptable s r p).state = .runnable ∧
      (update k.ptable s r p).share = sh := fun r => by
    rw [update_of_ne hne]
    exact h.2
  have hchild : ∀ {np}, pc.child = some np → p ≠ np := fun hnp => h.ne_child (hpc ▸ hnp)
  cases exec_done hr with
  | yield => exact h.sched (.inr rfl) (hleft _).1 (hleft _).2
  | sleep => exact h.sched (.inl rfl) (hleft _).1 (hleft _).2
  | @kill pid =>
    rw [kill_eq]
    refine h.calm (Calm.kill k pid) ?_
    unfold kill
    split
    · rfl
    · refine update_share ?_ p
      split <;> rfl
  | exit he => exact rests_exit h hc he
  | wait hw => exact rests_wait h hc hw
  | forkStart =>
    unfold forkStart
    split
    · exact h
    · rename_i np hnp
      have hu : (k.ptable np).state = .unused := by simpa using List.find?_some hnp
      exact h.forking (h.ne_state hu (by decide)) (.inr rfl)
  | forkStack =>
    unfold forkStack
    split
    · exact h.forking (hchild rfl) (.inl rfl)
    · exact h.forking (hchild rfl) (.inr rfl)
  | forkCopy =>
    unfold forkCopy
    split
    · exact h.forking (hchild rfl) (.inl rfl)
    · exact h.forking (hchild rfl) (.inr rfl)
  | forkRun => exact h.forking (hchild rfl) (.inl rfl)
  | sem => exact ho.elim
  | levelChange => exact ho.elim

theorem dispatch_stays {q : Slot} (hd : k.dispatch c q = .ok k') (hp : p ≠ q) :
    k'.ptable p = k.ptable p := by
  cases dispatch_resumed hd <;> exact update_of_ne hp ..

theorem dispatch_rests {q : Slot} (h : Rests k p sh) (hd : k.dispatch c q = .ok k')
    (hp : p ≠ q) : Rests k' p sh := by
  have hcpu : ∀ c', update k.cpu c (some q) c' ≠ some p := fun c' =>
    update_cases c' (fun heq => hp (Option.some.inj heq).symm) fun c' _ => h.1.1 c'
  have hrec : (k'.ptable p).state = .runnable ∧ (k'.ptable p).share = sh := by
    rw [dispatch_stays hd hp]
    exact h.2
  cases dispatch_resumed hd with
  | runs => exact ⟨⟨hcpu, h.1.2⟩, hrec⟩
  | woken =>
    refine ⟨⟨hcpu, fun q' => ?_⟩, hrec⟩
    dsimp only
    exact update_cases q' (Option.some_ne_none p).symm fun q' _ => h.1.2 q'

/-- Nobody but the scheduler takes a process that rests from its level. -/
theorem step_rests (h : Rests k p sh) (he : e.Ordinary) (hst : k.step e = some (.ok k'))
    (hd : ∀ c q, e = .dispatch c q → p ≠ q) : Rests k' p sh := by
  cases e with
  | dispatch c q =>
    simp only [step] at hst
    split at hst
    · exact dispatch_rests h (Option.some.inj hst) (hd c q rfl)
    · cases hst
  | wakeup chan =>
    cases hst
    exact h.calm (Calm.wakeup1 _ _) (wakeup1_share _ _ _)
  | op c o =>
    cases hc : k.cpu c with
    | none => simp [step, hc] at hst
    | some s =>
      simp only [step, hc] at hst
      exact exec_rests h hc he rfl hst

end Kern

namespace Machine

variable {m m' : Machine} {s : Slot} {c : Cpu}

structure Stocked (m : Machine) : Prop where
  fair : ∀ s, m.toKern.Touched s → Fair (m.ptable s).tickets
  second : m.Lottery → ∃ s, m.Waits s

theorem Init.stocked (h : Init m) : Stocked m := by
  refine ⟨fun s hs => ?_, fun ⟨c, hc⟩ => ?_⟩
  · have hten : (m.ptable s).tickets = 10 := congrArg Prod.fst (h.1.touched hs)
    rw [hten]
    decide
  · rw [h.2 c] at hc
    cases hc

theorem Stocked.table {r : Ratios} (h : Stocked m) (hstate : ∀ s, (t s).state = (m.ptable s).state)
    (hlevel : ∀ s, (t s).level = (m.ptable s).level)
    (hfair : ∀ s, Fair (m.ptable s).tickets → Fair (t s).tickets) :
    Stocked { m with ptable := t, ratios := r } := by
  refine ⟨fun s hs => hfair s (h.fair s ?_), fun hl => ?_⟩
  · exact hs.imp_left fun hl => by rwa [PTable.Live, hstate] at hl
  · obtain ⟨s, hs, hparked⟩ := h.second hl
    refine ⟨s, ?_, hparked⟩
    rw [Second, hstate, hlevel]
    exact hs

theorem calls_eq (h : m.calls c t = some (.ok m')) : m' = { m with ptable := t } := by
  unfold calls at h
  split at h
  · cases h
  · split at h
    · cases h
      rfl
    · cases h

theorem update_field {α : Type} (f : Proc → α) {n : Slot} {r : Proc}
    (hr : f r = f (t n)) (s : Slot) : f (update t n r s) = f (t s) :=
  update_cases s hr fun _ _ => rfl

theorem levelChange_stocked {temp : Proc} {level : Int} {k : Kern} (h : Stocked m)
    (ha : m.Orderly (.kern (.op c (.levelChange temp pid level))))
    (hk : k = { m.toKern with ptable := (levelChange temp m.ptable pid level).2 }) :
    Stocked { m with toKern := k } := by
  subst hk
  refine ⟨fun s hs => ?_, ha.2⟩
  cases hl : lastWithPid m.ptable pid with
  | none =>
    simp only [levelChange, hl] at hs ⊢
    exact h.fair s hs
  | some n =>
    rcases ha.1 n hl with hlast | hfair
    · -- nothing is copied from the last slot
      simp only [levelChange_last hl hlast] at hs ⊢
      rw [update_field Proc.tickets (by rfl)]
      refine h.fair s (hs.of_table fun hlive => ?_)
      rwa [PTable.Live, update_field Proc.state (by rfl)] at hlive
    · refine Kern.levelChange_touched (P := fun r => Fair r.tickets) (fun _ _ h => h) h.fair
        (fun n' hn' => ?_) s hs
      cases hl.symm.trans hn'
      exact hfair

theorem ordinary_stocked {k : Kern} (h : Stocked m) (he : e.Ordinary)
    (hd : ∀ c p, e = .dispatch c p → (m.ptable p).level = 1)
    (hk : m.toKern.step e = some (.ok k)) : Stocked { m with toKern := k } := by
  refine ⟨(Kern.step_inherits he hk).touched (P := fun sh => Fair sh.1) (by decide) (by decide)
    h.fair, fun hl => ?_⟩
  obtain ⟨s, hs, hparked⟩ := h.second hl
  have hrest : Kern.Rests m.toKern s (m.ptable s).share := ⟨hparked, hs.1, rfl⟩
  obtain ⟨hparked', hr, hsh⟩ := Kern.step_rests hrest he hk fun c q heq hsq => by
    have hone := hd c q heq
    rw [← hsq, hs.2] at hone
    cases hone
  exact ⟨s, ⟨hr, (congrArg Prod.snd hsh).trans hs.2⟩, hparked'⟩

theorem tick_tickets (p : Proc) : (tick p).tickets = p.tickets := by
  simp only [tick]
  split <;> rfl

theorem tick_second {p : Proc} (h : Second p) (hd : ¬ Due p) : (tick p).level = 2 := by
  have hw : ¬ MAX_WAITING_TIME ≤ wrap (p.waited + 1) := fun hw => hd ⟨h.1, .inr hw⟩
  simp only [tick, if_neg hw]
  exact h.2

theorem find_stocked (h : Stocked m) (c : Cpu)
    (ha : m.Lottery ∨ (levelFinder m.ptable).1 = 2 → ∃ s, m.Waits s ∧ ¬ Due (m.ptable s)) :
    Stocked { m with
      ptable := (levelFinder m.ptable).2
      chosen := update m.chosen c (some (levelFinder m.ptable).1) } := by
  refine ⟨fun s hs => ?_, fun ⟨c', hc'⟩ => ?_⟩
  · have hfair := h.fair s (Kern.levelFinder_touched hs)
    simp only [levelFinder_table]
    split
    · rwa [tick_tickets]
    · exact hfair
  · have hwait : m.Lottery ∨ (levelFinder m.ptable).1 = 2 := by
      revert hc'
      dsimp only
      exact update_cases c' (fun hc' => .inr (Option.some.inj hc')) fun c' _ hc' => .inl ⟨c', hc'⟩
    obtain ⟨s, ⟨hs, hparked⟩, hd⟩ := ha hwait
    refine ⟨s, ?_, hparked.1, hparked.2⟩
    simp only [levelFinder_table, if_pos hs.1]
    exact ⟨(tick_state _).trans hs.1, tick_second hs hd⟩

theorem setTickets_stocked {tickets : Int} (h : Stocked m) (ht : Fair tickets) :
    Stocked { m with ptable := (setTickets m.ptable pid tickets).2 } := by
  unfold setTickets
  split
  · exact h
  · refine h.table (update_field Proc.state rfl) (update_field Proc.level rfl) fun s hs => ?_
    revert hs
    dsimp only
    exact update_cases s (fun _ => ht) fun _ _ => id

theorem changeRatiosPl_stocked {pr ar ec : Int} (h : Stocked m) :
    Stocked { m with ptable := (changeRatiosPl m.ptable pid pr ar ec).2 } := by
  unfold changeRatiosPl
  split
  · exact h
  · refine h.table (update_field Proc.state rfl) (update_field Proc.level rfl) fun s hs => ?_
    rwa [update_field Proc.tickets (by rfl)]

theorem kern_stocked {r : Except Fault Kern} (h : Stocked m) (he : e.Scheduling)
    (ha : m.Orderly (.kern e)) (hd : ∀ c p, e = .dispatch c p → (m.ptable p).level = 1)
    (hk : m.toKern.step e = some r) (hm : r.map (fun k => { m with toKern := k }) = .ok m') :
    Stocked m' := by
  cases r with
  | error f => cases hm
  | ok k =>
    cases hm
    cases e with
    | dispatch c p => exact ordinary_stocked h (by trivial) hd hk
    | wakeup chan => exact ordinary_stocked h (by trivial) hd hk
    | op c o =>
      cases o with
      | sem call => exact he.elim
      | levelChange temp pid level =>
        cases hc : m.cpu c with
        | none => simp [Kern.step, hc] at hk
        | some s =>
          simp only [Kern.step, hc] at hk
          cases hpc : m.pc s with
          | idle =>
            rw [hpc] at hk
            exact levelChange_stocked h ha (Except.ok.inj (Option.some.inj hk)).symm
          | _ =>
            rw [hpc] at hk
            cases hk
      | _ => exact ordinary_stocked h (by trivial) hd hk

theorem OrderlyStep.stocked {e : MachineEvent} (hs : OrderlyStep m e m') (h : Stocked m) :
    Stocked m' := by
  obtain ⟨ha, hsem, hst⟩ := hs
  cases e with
  | kern e =>
    have he := hsem e rfl
    cases e with
    | dispatch c p =>
      simp only [step] at hst
      split at hst
      · rename_i hcp
        obtain ⟨r, hr, hm⟩ := map_eq_some_iff.mp hst
        refine kern_stocked h he ha (fun c' p' heq => ?_) hr hm
        cases heq
        exact hcp.2
      · cases hst
    | wakeup chan | op c o =>
      simp only [step] at hst
      obtain ⟨r, hr, hm⟩ := map_eq_some_iff.mp hst
      exact kern_stocked h he ha (fun _ _ heq => by cases heq) hr hm
  | find c =>
    simp only [step] at hst
    split at hst
    · cases hst
      exact find_stocked h c ha
    · cases hst
  | draw c clock =>
    simp only [step] at hst
    split at hst
    · cases hst
    · rename_i level hl
      generalize Kernel.draw m.ptable clock level = r at hst
      cases r with
      | error f => cases hst
      | ok p =>
      cases hst
      refine ⟨h.fair, fun ⟨c', hc'⟩ => h.second ⟨c', ?_⟩⟩
      revert hc'
      dsimp only
      exact update_cases c' (fun hc' => by cases hc') fun _ _ => id
  | setTickets c pid tickets =>
    rw [calls_eq hst]
    exact setTickets_stocked h ha
  | changeRatiosPl c pid pr ar ec =>
    rw [calls_eq hst]
    exact changeRatiosPl_stocked h
  | changeRatiosSl c pr ar ec =>
    obtain ⟨r, hr, hm⟩ := map_eq_some_iff.mp hst
    cases r with
    | error f => cases hm
    | ok m₁ =>
    cases hm
    rw [calls_eq hr]
    exact h.table (fun _ => rfl) (fun _ => rfl) fun _ => id

theorem divides_of_stocked (h : Stocked m) : Divides m := by
  have hfair : ∀ s, (m.ptable s).state = .runnable → Fair (m.ptable s).tickets := fun s hs =>
    h.fair s (.inl (by rw [PTable.Live, hs]; decide))
  constructor
  · intro c _ p hp _
    exact (hfair p hp).1.ne'
  · intro c hc _
    obtain ⟨s, hs⟩ := h.second ⟨c, hc⟩
    exact ticketSum_pos (fun s hs => hfair s hs.1) hs.1

/-- In every run of orderly steps, no scheduler divides by zero. -/
theorem scheduler_divides (h : Reach Init OrderlyStep m) : Divides m :=
  divides_of_stocked (h.invariant (fun _ => Init.stocked) fun _ _ _ hm hs => hs.stocked hm)

def firstMachine : Machine := { Kern.firstKern with chosen := fun _ => none }

theorem firstMachine_init : Init firstMachine := ⟨Kern.firstKern_init, fun _ => rfl⟩

/-- The state after a step that does not fault. -/
def next (m : Machine) (e : MachineEvent) : Option Machine :=
  match m.step e with
  | some (.ok m') => some m'
  | _ => none

theorem step_of_next {e : MachineEvent} (h : m.next e = some m') : m.step e = some (.ok m') := by
  unfold next at h
  split at h
  · cases h
    assumption
  · cases h

instance (m : Machine) : DecidablePred m.toKern.Parked :=
  fun _ => inferInstanceAs (Decidable (_ ∧ _))

instance (m : Machine) : DecidablePred m.Waits := fun _ => inferInstanceAs (Decidable (_ ∧ _))

instance (m : Machine) : Decidable m.Lottery := inferInstanceAs (Decidable (∃ _, _))

instance (m : Machine) (e : MachineEvent) : Decidable (m.Orderly e) := by
  unfold Orderly
  split <;> infer_instance

/-- The state after an orderly step. -/
def orderlyNext (m : Machine) (e : MachineEvent) : Option Machine :=
  if m.Orderly e then m.next e else none

theorem reach_orderly {es : List MachineEvent} (hes : ∀ e ∈ es, ∀ e', e = .kern e' → e'.Scheduling)
    (hm : es.foldlM orderlyNext firstMachine = some m) : Reach Init OrderlyStep m := by
  refine (Reach.start firstMachine_init).follow (fun _ _ _ hq hn => ?_) hes hm
  unfold orderlyNext at hn
  split at hn
  · exact ⟨‹_›, hq, step_of_next hn⟩
  · cases hn

/-- `init` forks, gives its child so many tickets, makes some calls and waits. -/
def endows (tickets : Int) (calls : List Op) : List MachineEvent :=
  [.kern (.dispatch 0 0), .kern (.op 0 (.forkStart ⟨0, 0, 0⟩)), .kern (.op 0 (.forkStack 12288)),
    .kern (.op 0 (.forkCopy 16384 ⟨0, 0, 0⟩)), .kern (.op 0 .forkRun), .setTickets 0 2 tickets] ++
    calls.map (fun o => .kern (.op 0 o)) ++ [.kern (.op 0 .wait), .find 0]

/-- The child is chosen for the lottery, or, once `init` has moved it to level 3, as a best job. -/
theorem scheduler_divides_fork :
    (∃ m, Reach Init OrderlyStep m ∧ m.chosen 0 = some 2 ∧ Second (m.ptable 1) ∧ Divides m) ∧
    ∃ m, Reach Init OrderlyStep m ∧ m.chosen 0 = some 3 ∧ (m.ptable 1).state = .runnable ∧
      (m.ptable 1).level = 3 ∧ (m.ptable 1).tickets = 5 ∧ Divides m := by
  have hlottery : (((endows 5 []).foldlM orderlyNext firstMachine).any fun m =>
      m.chosen 0 = some 2 ∧ Second (m.ptable 1)) = true := by
    decide +kernel
  have hbest : (((endows 5 [.levelChange .zero 2 3]).foldlM orderlyNext firstMachine).any fun m =>
      m.chosen 0 = some 3 ∧ (m.ptable 1).state = .runnable ∧ (m.ptable 1).level = 3 ∧
        (m.ptable 1).tickets = 5) = true := by
    decide +kernel
  obtain ⟨m, hm, h⟩ := (any_eq_true _ _).mp hlottery
  obtain ⟨h2, hs⟩ := of_decide_eq_true h
  obtain ⟨m', hm', h'⟩ := (any_eq_true _ _).mp hbest
  obtain ⟨h3, hr, hl, ht⟩ := of_decide_eq_true h'
  have hreach := reach_orderly (by simp [endows, Event.Scheduling]) hm
  have hreach' := reach_orderly (by simp [endows, Event.Scheduling]) hm'
  exact ⟨⟨m, hreach, h2, hs, scheduler_divides hreach⟩,
    m', hreach', h3, hr, hl, ht, scheduler_divides hreach'⟩

/-- The only runnable process has no tickets: `random_number(0)`. -/
theorem scheduler_divides_no_tickets : ∃ m, Reach Init Step m ∧ ¬ Divides m ∧
      m.step (.draw 0 ⟨0, 0, 0⟩) = some (.error .divide) := by
  have hrun : (((endows 0 []).foldlM next firstMachine).any fun m =>
      m.chosen 0 = some 2 ∧ findWithPid m.ptable (-123) = none ∧ ticketSum m.ptable = 0) =
        true := by
    decide +kernel
  obtain ⟨m, hm, h⟩ := (any_eq_true _ _).mp hrun
  obtain ⟨h2, hnone, hsum⟩ := of_decide_eq_true h
  have hes : ∀ e ∈ endows 0 [], ∀ e', e = .kern e' → e'.Scheduling := by
    simp [endows, Event.Scheduling]
  refine ⟨m, (Reach.start firstMachine_init).follow (fun _ _ _ hq hn =>
    ⟨hq, step_of_next hn⟩) hes hm,
    fun hd => ?_, ?_⟩
  · have := hd.winner 0 h2 hnone
    rw [hsum] at this
    exact absurd this (lt_irrefl 0)
  · have hdraw : Kernel.draw m.ptable ⟨0, 0, 0⟩ 2 = .error .divide := by
      simp only [Kernel.draw, if_pos, hnone, findWinner, hsum]
      rfl
    simp only [step, h2, hdraw]
    rfl

end Machine

end Xv6.Kernel
