import Xv6.Kernel.LifeSafe

/-!
# Xv6.Kernel.Levels

Tickets and levels over whole runs.

`fork` gives a new process its tickets and its level; after that only `level_finder`, `set_tickets`
and `level_change` change them. `Inherits` says so for the other steps, slot by slot, and without
the invariant of `LifeSafe`: a `level_change` that moves processes breaks that one. What it leads to
for `level_finder` is that the level it returns is populated when `level_change` is only called with
the levels 1, 2 and 3.
-/

namespace Xv6.Kernel

open Function

/-- What the scheduler goes by. -/
def Proc.share (p : Proc) : Int × Int := (p.tickets, p.level)

namespace Kern

variable {k k' : Kern} {s : Slot} {c : Cpu}

/-- The slot is in use, or a processor or a `fork` refers to it. -/
def Touched (k : Kern) (s : Slot) : Prop :=
  k.ptable.Live s ∨ (∃ c, k.cpu c = some s) ∨ ∃ q, (k.pc q).child = some s

theorem Touched.of_table {t : PTable} (h : ({ k with ptable := t } : Kern).Touched s)
    (hlive : t.Live s → k.ptable.Live s) : k.Touched s :=
  h.imp_left hlive

/-- Every slot keeps its tickets and its level, or gets those of a new process. -/
def Inherits (k k' : Kern) : Prop := ∀ s,
  (k'.Touched s → k.Touched s ∨ (k'.ptable s).share = (10, 1)) ∧
  ((k'.ptable s).share = (k.ptable s).share ∨ (k'.ptable s).share = (10, 1) ∨
    (k'.ptable s).share = (1, 2))

theorem Inherits.of (hshare : ∀ s, (k'.ptable s).share = (k.ptable s).share)
    (hlive : ∀ s, k'.ptable.Live s → k.Touched s) (hcpu : ∀ c s, k'.cpu c = some s → k.Touched s)
    (hpc : ∀ q s, (k'.pc q).child = some s → k.Touched s) : Inherits k k' := by
  refine fun s => ⟨fun ht => .inl ?_, .inl (hshare s)⟩
  rcases ht with h | ⟨c, h⟩ | ⟨q, h⟩
  · exact hlive s h
  · exact hcpu c s h
  · exact hpc q s h

theorem Inherits.table {t : PTable} (hshare : ∀ s, (t s).share = (k.ptable s).share)
    (hlive : ∀ s, t.Live s → k.ptable.Live s) : Inherits k { k with ptable := t } :=
  .of hshare (fun s h => .inl (hlive s h)) (fun c _ h => .inr (.inl ⟨c, h⟩))
    fun q _ h => .inr (.inr ⟨q, h⟩)

theorem update_share {t : PTable} {r : Proc} (h : r.share = (t s).share) (p : Slot) :
    (update t s r p).share = (t p).share :=
  update_cases p h fun _ _ => rfl

theorem wakeup1_share (t : PTable) (chan : Chan) (p : Slot) :
    (wakeup1 t chan p).share = (t p).share := by
  unfold wakeup1
  split <;> rfl

theorem reparent_share (init s : Slot) (l : List Slot) : ∀ (t : PTable) (p : Slot),
    (reparent init s l t p).share = (t p).share := by
  induction l with
  | nil => exact fun _ _ => rfl
  | cons q l ih =>
    intro t p
    have hq : (update t q { t q with parent := some init } p).share = (t p).share :=
      update_share (by rfl) p
    simp only [reparent]
    split
    · rw [ih]
      split
      · rw [wakeup1_share, hq]
      · exact hq
    · exact ih t p

theorem Calm.live {t t' : PTable} (h : Calm t t') (hs : t'.Live s) : t.Live s := fun hu =>
  hs (h.state_eq hu (by decide))

theorem Inherits.sched {pc : Pc} {t : PTable} (hc : k.cpu c = some s)
    (hpc : pc.child = none ∨ pc = k.pc s) (hshare : ∀ p, (t p).share = (k.ptable p).share)
    (hlive : ∀ p, p ≠ s → t.Live p → k.ptable.Live p) : Inherits k (k.sched c s pc t) := by
  refine .of hshare (fun p h => ?_) (fun c' p => ?_) fun q p => ?_
  · by_cases hp : p = s
    · exact .inr (.inl ⟨c, hp ▸ hc⟩)
    · exact .inl (hlive p hp h)
  · simp only [Kern.sched]
    exact update_cases c' (fun h => by cases h) fun c' _ h => .inr (.inl ⟨c', h⟩)
  · simp only [Kern.sched]
    refine update_cases q (fun h => ?_) fun q _ h => .inr (.inr ⟨q, h⟩)
    rcases hpc with h0 | rfl
    · rw [h0] at h
      cases h
    · exact .inr (.inr ⟨s, h⟩)

theorem inherits_leave {pc : Pc} {r : Proc} (hc : k.cpu c = some s)
    (hpc : pc.child = none ∨ pc = k.pc s) (hshare : r.share = (k.ptable s).share) :
    Inherits k (k.sched c s pc (update k.ptable s r)) :=
  .sched hc hpc (update_share hshare) fun p hp h => by
    rwa [PTable.Live, update_of_ne hp] at h

theorem inherits_exit (hc : k.cpu c = some s) (h : k.exit c s = .ok k') : Inherits k k' := by
  unfold exit at h
  split at h
  · cases h
  · cases h
    refine .sched hc (.inl rfl) (fun p => ?_) fun p hp hl => ?_
    · rw [update_share (by rfl), reparent_share, wakeup1_share, update_share (by rfl)]
    · rw [PTable.Live, update_of_ne hp] at hl
      have hl := Calm.live ((Calm.wakeup1 _ _).trans (Calm.reparent _ _ _ _)) hl
      rwa [PTable.Live, update_of_ne hp] at hl

theorem inherits_wait {r : Option Int × Kern} (hc : k.cpu c = some s)
    (h : k.wait c s = .ok r) : Inherits k r.2 := by
  unfold wait at h
  split at h
  · rename_i p hp
    split at h
    · cases h
    · split at h
      · cases h
      · cases h
        refine .of (update_share rfl) (fun q => ?_) (fun c' q hq => .inr (.inl ⟨c', hq⟩))
          fun q q' => ?_
        all_goals simp only [PTable.Live]
        · exact update_cases q (fun hq => absurd rfl hq) fun _ _ => .inl
        · exact update_cases q (fun hq => by cases hq) fun q _ hq => .inr (.inr ⟨q, hq⟩)
  · split at h
    · cases h
      exact .table (fun _ => rfl) fun _ h => h
    · cases h
      exact inherits_leave hc (.inl rfl) rfl

theorem inherits_forking {np : Slot} {r : Proc} {pc : Pc} {k'' : Kern}
    (hk : k''.ptable = (k.forking s np r pc).ptable) (hcpu : k''.cpu = k.cpu)
    (hpcs : k''.pc = (k.forking s np r pc).pc) (hnp : k.Touched np ∨ r.share = (10, 1))
    (hpc : ∀ p, pc.child = some p → p = np)
    (hr : r.share = (k.ptable np).share ∨ r.share = (10, 1) ∨ r.share = (1, 2)) :
    Inherits k k'' := by
  intro p
  by_cases hp : p = np
  · subst hp
    have hrec : k''.ptable p = r := by simp only [hk, forking, update_self]
    rw [hrec]
    exact ⟨fun _ => hnp, hr⟩
  · have hrec : k''.ptable p = k.ptable p := by
      simp only [hk, forking, update_of_ne hp]
    rw [hrec]
    refine ⟨fun ht => .inl ?_, .inl rfl⟩
    rcases ht with h | ⟨c, h⟩ | ⟨q, h⟩
    · rw [PTable.Live, hrec] at h
      exact .inl h
    · exact .inr (.inl ⟨c, hcpu ▸ h⟩)
    · revert h
      simp only [hpcs, forking]
      exact update_cases q (fun h => absurd (hpc p h) hp) fun q _ h => .inr (.inr ⟨q, h⟩)

theorem inherits_dispatch {p : Slot} (hr : (k.ptable p).state = .runnable)
    (h : k.dispatch c p = .ok k') : Inherits k k' := by
  have hlive : k.ptable.Live p := by
    rw [PTable.Live, hr]
    decide
  have hkeep : ∀ {r : Proc} {pcs : Slot → Pc}, r.share = (k.ptable p).share →
      (∀ q, (pcs q).child = none ∨ pcs q = k.pc q) →
      Inherits k { k with
        ptable := update k.ptable p r
        cpu := update k.cpu c (some p)
        pc := pcs } := by
    intro r pcs hshare hpcs
    refine .of (update_share hshare) (fun q => ?_) (fun c' q => ?_) fun q q' h => ?_
    · simp only [PTable.Live]
      exact update_cases q (fun _ => .inl hlive) fun _ _ => .inl
    · dsimp only
      exact update_cases c' (fun h => .inl (Option.some.inj h ▸ hlive)) fun c' _ h =>
        .inr (.inl ⟨c', h⟩)
    · rcases hpcs q with h0 | h0
      · rw [h0] at h
        cases h
      · exact .inr (.inr ⟨q, h0 ▸ h⟩)
  cases dispatch_resumed h with
  | runs => exact hkeep rfl fun _ => .inr rfl
  | woken => exact hkeep rfl fun q => update_cases q (.inl rfl) fun _ _ => .inr rfl

end Kern

/-- The events of processes, `level_change` and the semaphores apart. -/
def Event.Ordinary : Event → Prop
  | .op _ (.sem _) => False
  | .op _ (.levelChange _ _ _) => False
  | _ => True

namespace Kern

variable {k k' : Kern} {s : Slot} {c : Cpu}

theorem ordinary_allowed {e : Event} (he : e.Ordinary) : k.Allowed e := by
  cases e with
  | dispatch c p => trivial
  | wakeup chan => trivial
  | op c o =>
    cases o with
    | sem call => exact he.elim
    | levelChange temp pid level => exact he.elim
    | _ => trivial

theorem exec_inherits {o : Op} (ho : (Event.op c o).Ordinary) (hc : k.cpu c = some s) {pc : Pc}
    (hpc : k.pc s = pc) (h : k.exec c s o pc = some (.ok k')) : Inherits k k' := by
  have hchild : ∀ np, pc.child = some np → k.Touched np := fun np hnp =>
    .inr (.inr ⟨s, hpc ▸ hnp⟩)
  cases exec_done h with
  | yield => exact inherits_leave hc (.inr rfl) rfl
  | sleep => exact inherits_leave hc (.inl rfl) rfl
  | @kill pid =>
    rw [kill_eq]
    refine .table (fun p => ?_) fun p hp => Calm.live (Calm.kill k pid) hp
    unfold kill
    split
    · rfl
    · refine update_share ?_ p
      split <;> rfl
  | exit he => exact inherits_exit hc he
  | wait hw => exact inherits_wait hc hw
  | forkStart =>
    unfold forkStart
    split
    · exact .table (fun _ => rfl) fun _ h => h
    · exact inherits_forking rfl rfl rfl (.inr rfl) (fun p hp => (Option.some.inj hp).symm)
        (.inr (.inl rfl))
  | @forkStack np =>
    unfold forkStack
    split
    · exact inherits_forking rfl rfl rfl (.inl (hchild np rfl)) (fun p hp => by cases hp)
        (.inl rfl)
    · exact inherits_forking rfl rfl rfl (.inl (hchild np rfl))
        (fun p hp => (Option.some.inj hp).symm) (.inl rfl)
  | @forkCopy np =>
    unfold forkCopy
    split
    · exact inherits_forking rfl rfl rfl (.inl (hchild np rfl)) (fun p hp => by cases hp)
        (.inl rfl)
    · exact inherits_forking rfl rfl rfl (.inl (hchild np rfl))
        (fun p hp => (Option.some.inj hp).symm) (.inr (.inr rfl))
  | @forkRun np =>
    exact inherits_forking rfl rfl rfl (.inl (hchild np rfl)) (fun p hp => by cases hp) (.inl rfl)
  | sem => exact ho.elim
  | levelChange => exact ho.elim

theorem step_inherits {e : Event} (he : e.Ordinary) (h : k.step e = some (.ok k')) :
    Inherits k k' := by
  cases e with
  | dispatch c p =>
    simp only [step] at h
    split at h
    · rename_i hg
      exact inherits_dispatch hg.2 (Option.some.inj h)
    · cases h
  | wakeup chan =>
    cases h
    exact .table (wakeup1_share _ _) fun p hp => Calm.live (Calm.wakeup1 _ _) hp
  | op c o =>
    cases hc : k.cpu c with
    | none => simp [step, hc] at h
    | some s =>
      simp only [step, hc] at h
      exact exec_inherits he hc rfl h

theorem shiftDown_writes {P : Proc → Prop} (hsz : ∀ r z, P r → P { r with sz := z }) {temp : Proc}
    (htemp : P temp) (l : List Slot) : ∀ t : PTable, (∀ s, t.Live s → P (t s)) →
      ∀ s, shiftDown temp l t s = t s ∨ P (shiftDown temp l t s) := by
  induction l with
  | nil => exact fun _ _ _ => .inl rfl
  | cons p l ih =>
    intro t ht s
    rw [shiftDown]
    split
    · exact update_cases s (.inr (hsz temp _ htemp)) fun _ _ => .inl rfl
    · rename_i hp
      have hcopy : P (copyProc (t p) (t (prevSlot p))) := hsz _ _ (ht p hp)
      have ht' : ∀ s, PTable.Live (update t (prevSlot p) (copyProc (t p) (t (prevSlot p)))) s →
          P (update t (prevSlot p) (copyProc (t p) (t (prevSlot p))) s) := by
        simp only [PTable.Live]
        exact fun s => update_cases s (fun _ => hcopy) fun s _ => ht s
      rcases ih _ ht' s with h | h
      · rw [h]
        exact update_cases s (.inr hcopy) fun _ _ => .inl rfl
      · exact .inr h

theorem levelChange_writes {P : Proc → Prop} (hsz : ∀ r z, P r → P { r with sz := z })
    {temp : Proc} {t : PTable} {pid level : Int} (ht : ∀ s, t.Live s → P (t s))
    (hn : ∀ n, lastWithPid t pid = some n → P { t n with level }) (s : Slot) :
    (levelChange temp t pid level).2 s = t s ∨ P ((levelChange temp t pid level).2 s) := by
  cases hl : lastWithPid t pid with
  | none =>
    rw [levelChange, hl]
    exact .inl rfl
  | some n =>
    have hnew := hn n hl
    have ht' : ∀ s, PTable.Live (update t n { t n with level }) s →
        P (update t n { t n with level } s) := by
      simp only [PTable.Live]
      exact fun s => update_cases s (fun _ => hnew) fun s _ => ht s
    rw [levelChange_found hl]
    have htemp : P (copyProc { t n with level } temp) := hsz _ _ hnew
    rcases shiftDown_writes hsz htemp _ _ ht' s with h | h
    · rw [h]
      exact update_cases s (.inr hnew) fun _ _ => .inl rfl
    · exact .inr h

end Kern

/-- The level that `level_finder` has just returned is the smallest of those that are runnable, and
4 stands for none. -/
structure Populated (t : PTable) : Prop where
  level : ∀ l t', levelFinder t = (l, t') → l ∈ ({1, 2, 3} : Set Int) →
    (∃ s, (t' s).state = .runnable ∧ (t' s).level = l) ∧
    ∀ s, (t' s).state = .runnable → l ≤ (t' s).level
  none_iff : (levelFinder t).1 = 4 ↔ ∀ s, (t s).state ≠ .runnable

/-- A level that the scheduler has a policy for. -/
def Proc.Leveled (p : Proc) : Prop := 1 ≤ p.level ∧ p.level ≤ 3

instance (p : Proc) : Decidable p.Leveled := inferInstanceAs (Decidable (_ ∧ _))

theorem Proc.Leveled.tick {p : Proc} (h : p.Leveled) : (tick p).Leveled := by
  rw [Kernel.tick]
  split
  · exact ⟨le_refl 1, show (1 : Int) ≤ 3 by decide⟩
  · exact h

theorem foldl_level_three (l : List Slot) : ∀ a : Scan, l.Nodup → a.level ∈ ({1, 2, 3} : Set Int) →
    ((l.foldl levelFinderStep a).level = 3 ↔ a.level = 3 ∧ ∀ s ∈ l, (a.table s).state = .runnable →
      (tick (a.table s)).level ≠ 1 ∧ (tick (a.table s)).level ≠ 2) := by
  induction l with
  | nil => intro a _ _; simp
  | cons p l ih =>
    intro a hnd hlv
    obtain ⟨hp, hnd⟩ := List.nodup_cons.mp hnd
    rw [List.foldl_cons, List.forall_mem_cons]
    by_cases hr : (a.table p).state = .runnable
    · generalize ha' : levelFinderStep a p = a'
      have hother : ∀ s ∈ l, a'.table s = a.table s := by
        intro s hs
        rw [← ha', levelFinderStep, if_neg (not_not_intro hr)]
        exact update_of_ne (ne_of_mem_of_not_mem hs hp) _ _
      have hlevel : a'.level ∈ ({1, 2, 3} : Set Int) ∧ (a'.level = 3 ↔ a.level = 3 ∧
          (tick (a.table p)).level ≠ 1 ∧ (tick (a.table p)).level ≠ 2) := by
        rw [← ha', levelFinderStep, if_neg (not_not_intro hr)]
        simp only [Set.mem_insert_iff, Set.mem_singleton_iff] at hlv ⊢
        split_ifs <;> grind
      have hrest : (∀ s ∈ l, (a'.table s).state = .runnable →
          (tick (a'.table s)).level ≠ 1 ∧ (tick (a'.table s)).level ≠ 2) ↔
          ∀ s ∈ l, (a.table s).state = .runnable →
            (tick (a.table s)).level ≠ 1 ∧ (tick (a.table s)).level ≠ 2 :=
        forall₂_congr fun s hs => by rw [hother s hs]
      rw [ih a' hnd hlevel.1, hlevel.2, hrest, and_assoc]
      simp [hr]
    · have hskip : levelFinderStep a p = a := by rw [levelFinderStep, if_pos hr]
      rw [hskip, ih a hnd hlv]
      simp [hr]

theorem levelFinder_three {t : PTable} (hrun : ∃ s, (t s).state = .runnable) :
    (levelFinder t).1 = 3 ↔ ∀ s, (t s).state = .runnable →
      (tick (t s)).level ≠ 1 ∧ (tick (t s)).level ≠ 2 := by
  have hnd := List.nodup_finRange NPROC
  have hflag := (foldl_levelFinderStep slots ⟨3, false, t⟩ hnd (by simp)).2.1
  have hthree := foldl_level_three slots ⟨3, false, t⟩ hnd (by simp)
  simp only [mem_slots, true_and, Bool.false_eq_true, false_or, true_imp_iff] at hflag hthree
  simp only [levelFinder, hflag.mpr hrun, Bool.true_eq_false, if_false]
  exact hthree

theorem levelFinder_two {t : PTable} (h : (levelFinder t).1 = 2) :
    ∃ s, (t s).state = .runnable ∧ (tick (t s)).level = 2 := by
  rcases levelFinder_level t with ⟨h4, -⟩ | ⟨hone, -⟩ | ⟨-, hrun, hdue⟩
  · rw [h] at h4
    cases h4
  · rw [h] at hone
    cases hone
  · have hthree := levelFinder_three hrun
    rw [h] at hthree
    have hex : ¬ ∀ s, (t s).state = .runnable →
        (tick (t s)).level ≠ 1 ∧ (tick (t s)).level ≠ 2 := fun hall =>
      absurd (hthree.mpr hall) (by decide)
    push Not at hex
    obtain ⟨s, hs, hlevel⟩ := hex
    exact ⟨s, hs, hlevel fun h1 => hdue s ((ready_tick _ hs).mp h1)⟩

theorem populated_of_leveled {t : PTable}
    (h : ∀ s, (t s).state = .runnable → (t s).Leveled) : Populated t := by
  have hstate : ∀ s, ((levelFinder t).2 s).state = (t s).state := by
    intro s
    rw [levelFinder_table]
    split
    · exact tick_state _
    · rfl
  have hrec : ∀ s, (t s).state = .runnable → (levelFinder t).2 s = tick (t s) := by
    intro s hs
    rw [levelFinder_table, if_pos hs]
  have htick : ∀ s, (t s).state = .runnable → (tick (t s)).Leveled := fun s hs => (h s hs).tick
  constructor
  · intro l t' hl hmem
    obtain rfl : (levelFinder t).1 = l := congrArg Prod.fst hl
    obtain rfl : (levelFinder t).2 = t' := congrArg Prod.snd hl
    clear hl
    rcases levelFinder_level t with ⟨h4, -⟩ | ⟨hone, s, hdue⟩ | ⟨h23, hrun, hdue⟩
    · rw [h4] at hmem
      simp at hmem
    · rw [hone]
      refine ⟨⟨s, (hstate s).trans hdue.1, ?_⟩, fun s' hs' => ?_⟩
      · rw [hrec s hdue.1]
        exact (ready_tick _ hdue.1).mpr hdue
      · rw [hstate] at hs'
        rw [hrec s' hs']
        exact (htick s' hs').1
    · -- nothing is of level 1, so all are of level 2 or 3
      have hne : ∀ s, (t s).state = .runnable → (tick (t s)).level ≠ 1 := fun s hs h1 =>
        hdue s ((ready_tick _ hs).mp h1)
      rcases h23 with h2 | h3
      · obtain ⟨s, hs, hlevel⟩ := levelFinder_two h2
        rw [h2]
        refine ⟨⟨s, (hstate s).trans hs, ?_⟩, fun s' hs' => ?_⟩
        · rw [hrec s hs]
          exact hlevel
        · rw [hstate] at hs'
          rw [hrec s' hs']
          have h1 := (htick s' hs').1
          have h1' := hne s' hs'
          omega
      · have hall := (levelFinder_three hrun).mp h3
        rw [h3]
        have heq : ∀ s, (t s).state = .runnable → (tick (t s)).level = 3 := by
          intro s hs
          obtain ⟨h1, h3⟩ := htick s hs
          obtain ⟨n1, n2⟩ := hall s hs
          omega
        obtain ⟨s, hs⟩ := hrun
        refine ⟨⟨s, (hstate s).trans hs, ?_⟩, fun s' hs' => ?_⟩
        · rw [hrec s hs, heq s hs]
        · rw [hstate] at hs'
          rw [hrec s' hs', heq s' hs']
  · rcases levelFinder_level t with ⟨h4, hno⟩ | ⟨hone, s, hdue⟩ | ⟨h23, ⟨s, hs⟩, -⟩
    · exact iff_of_true h4 hno
    · refine iff_of_false (by rw [hone]; decide) fun hno => hno s hdue.1
    · refine iff_of_false ?_ fun hno => hno s hs
      rcases h23 with h2 | h3
      · rw [h2]; decide
      · rw [h3]; decide

/-- Anything but the semaphores. -/
def Event.Scheduling : Event → Prop
  | .op _ (.sem _) => False
  | _ => True

/-- `level_change` is given one of the three levels. -/
def Event.Ranked : Event → Prop
  | .op _ (.levelChange _ _ level) => 1 ≤ level ∧ level ≤ 3
  | _ => True

namespace Kern

variable {k k' : Kern} {s : Slot}

/-- A step of a process or of the scheduler; `none` stands for `level_finder`, with its aging. -/
def LevelStep (k : Kern) (e : Option Event) (k' : Kern) : Prop :=
  match e with
  | none => k' = { k with ptable := (levelFinder k.ptable).2 }
  | some e => e.Scheduling ∧ k.step e = some (.ok k')

/-- The same, with levels that exist. -/
def RankedStep (k : Kern) (e : Option Event) (k' : Kern) : Prop :=
  LevelStep k e k' ∧ ∀ e', e = some e' → e'.Ranked

/-- Every slot that is or may come into use has one of the three levels. -/
def Leveled (k : Kern) : Prop := ∀ s, k.Touched s → (k.ptable s).Leveled

theorem Init.touched (h : Init k) (hs : k.Touched s) : (k.ptable s).share = (10, 1) := by
  obtain ⟨kstack, pgdir, cwd, clock, -, -, rfl⟩ := h
  by_cases h0 : s = 0
  · subst h0
    rfl
  · rcases hs with hl | ⟨c, hc⟩ | ⟨q, hq⟩
    · refine absurd ?_ hl
      simp [userinit, h0, Proc.zero]
    · cases hc
    · cases hq

theorem Init.leveled (h : Init k) : Leveled k := fun s hs => by
  have hone : (k.ptable s).level = 1 := congrArg Prod.snd (h.touched hs)
  rw [Proc.Leveled, hone]
  decide

/-- What holds of the tickets and the level of every new process stays true of all of them. -/
theorem Inherits.touched {P : Int × Int → Prop} (h10 : P (10, 1)) (h1 : P (1, 2))
    (h : Inherits k k') (hk : ∀ s, k.Touched s → P (k.ptable s).share) :
    ∀ s, k'.Touched s → P (k'.ptable s).share := by
  intro s hs
  obtain ⟨ht, hs'⟩ := h s
  rcases hs' with hsame | hnew | hnew
  · rcases ht hs with hold | hnew
    · rw [hsame]
      exact hk s hold
    · rwa [hnew]
  · rwa [hnew]
  · rwa [hnew]

theorem levelFinder_touched
    (hs : ({ k with ptable := (levelFinder k.ptable).2 } : Kern).Touched s) : k.Touched s := by
  refine hs.of_table fun hl => ?_
  rw [PTable.Live, levelFinder_table] at hl
  split at hl
  · rwa [tick_state] at hl
  · exact hl

theorem levelChange_touched {P : Proc → Prop} (hsz : ∀ r z, P r → P { r with sz := z })
    {temp : Proc} {pid level : Int} (hk : ∀ s, k.Touched s → P (k.ptable s))
    (hn : ∀ n, lastWithPid k.ptable pid = some n → P { k.ptable n with level }) (s : Slot)
    (hs : ({ k with ptable := (levelChange temp k.ptable pid level).2 } : Kern).Touched s) :
    P ((levelChange temp k.ptable pid level).2 s) := by
  rcases levelChange_writes hsz (fun s hl => hk s (.inl hl)) hn s with hsame | hnew
  · rw [hsame]
    refine hk s (hs.of_table fun hl => ?_)
    rwa [PTable.Live, hsame] at hl
  · exact hnew

theorem RankedStep.leveled {e : Option Event} (h : RankedStep k e k') (hk : Leveled k) :
    Leveled k' := by
  obtain ⟨hst, hrank⟩ := h
  cases e with
  | none =>
    cases hst
    intro s hs
    have hold := hk s (levelFinder_touched hs)
    simp only [levelFinder_table]
    split
    · exact hold.tick
    · exact hold
  | some e =>
    obtain ⟨hsem, hstep⟩ := hst
    by_cases hord : e.Ordinary
    · exact (step_inherits hord hstep).touched (P := fun sh => 1 ≤ sh.2 ∧ sh.2 ≤ 3) (by decide)
        (by decide) hk
    · cases e with
      | dispatch c p => exact absurd trivial hord
      | wakeup chan => exact absurd trivial hord
      | op c o =>
        cases o with
        | levelChange temp pid level =>
          cases hc : k.cpu c with
          | none => simp [step, hc] at hstep
          | some q =>
            simp only [step, hc] at hstep
            cases hpc : k.pc q with
            | idle =>
              rw [hpc] at hstep
              cases hstep
              exact levelChange_touched (fun _ _ h => h) hk fun n _ => hrank _ rfl
            | _ =>
              rw [hpc] at hstep
              cases hstep
        | sem call => exact hsem.elim
        | _ => exact absurd trivial hord

/-- When `level_change` is only given levels 1 to 3, the level that `level_finder` returns is
populated in every state. -/
theorem level_populated (h : Reach Init RankedStep k) : Populated k.ptable := by
  have hk : Leveled k := h.invariant (fun _ => Init.leveled) fun _ _ _ hk hs => hs.leveled hk
  exact populated_of_leveled fun s hs => hk s (.inl (by rw [PTable.Live, hs]; decide))

/-- `init` gives itself the level and goes back to the scheduler. -/
def movesTo (level : Int) : List Event :=
  [.dispatch 0 0, .op 0 (.levelChange .zero 1 level), .op 0 .yield]

theorem level_populated_three :
    ∃ k, Reach Init RankedStep k ∧ (levelFinder k.ptable).1 = 3 ∧ Populated k.ptable := by
  have hrun : ((firstKern.after (movesTo 3)).any fun k => (levelFinder k.ptable).1 = 3) = true := by
    decide +kernel
  obtain ⟨k, hk, hlevel⟩ := (Option.any_eq_true _ _).mp hrun
  have hes : ∀ e ∈ movesTo 3, e.Scheduling ∧ e.Ranked := by
    simp [movesTo, Event.Scheduling, Event.Ranked]
  have hreach : Reach Init RankedStep k := reach_events some
    (fun _ _ _ hq h => ⟨⟨hq.1, h⟩, fun _ he => Option.some.inj he ▸ hq.2⟩) hes
    (.start firstKern_init) hk
  exact ⟨k, hreach, by simpa using hlevel, level_populated hreach⟩

/-- A process of level 7 is runnable, and `level_finder` returns 3. -/
theorem level_seven_unpopulated : ∃ k, Reach Init LevelStep k ∧ ¬ Populated k.ptable := by
  have hrun : ((firstKern.after (movesTo 7)).any fun k => (levelFinder k.ptable).1 = 3 ∧
      ∀ s, ((levelFinder k.ptable).2 s).state = .runnable →
        ((levelFinder k.ptable).2 s).level ≠ 3) = true := by
    decide +kernel
  obtain ⟨k, hk, h⟩ := (Option.any_eq_true _ _).mp hrun
  obtain ⟨hthree, hno⟩ := of_decide_eq_true h
  have hes : ∀ e ∈ movesTo 7, e.Scheduling := by simp [movesTo, Event.Scheduling]
  refine ⟨k, reach_events some (fun _ _ _ hq h => ⟨hq, h⟩) hes (.start firstKern_init) hk,
    fun hp => ?_⟩
  generalize hfind : levelFinder k.ptable = r at hthree hno
  obtain ⟨l, t'⟩ := r
  obtain rfl : l = 3 := hthree
  obtain ⟨⟨s, hs, hlevel⟩, -⟩ := hp.level 3 t' hfind (by simp)
  exact hno s hs hlevel

end Kern

end Xv6.Kernel
