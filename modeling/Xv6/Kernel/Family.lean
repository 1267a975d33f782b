import Xv6.Kernel.LifeSafe

/-!
# Xv6.Kernel.Family

Parents, children and `wait`.

The steps here are those of `fork`, `exit`, `wait`, `kill`, `sleep` and `wakeup`, and of the
scheduler; a `sleep` outside `wait` is on the address of something that is not a process. `Family`
is the invariant: who has a parent, that a parent is alive, and that nobody sleeps in `wait` next to
a child that has exited. A run is labelled with the exits and the results of `wait`, and
`life_protocol` reads off this history that every child is reaped once, by its parent, under its own
pid.
-/

namespace Xv6.Kernel

open Function List

variable {ret : Option Int} {pc : Pc} {r : Proc}

/-- SLEEPING, RUNNABLE or RUNNING. -/
def ProcState.Alive (st : ProcState) : Prop := st.Settled ∧ st ≠ .zombie

instance (st : ProcState) : Decidable st.Alive := inferInstanceAs (Decidable (_ ∧ _))

/-! ## Wakeups -/

/-- Some sleeping processes have become runnable; nobody's channel or pid has changed. -/
def Woken (t t' : PTable) : Prop := ∀ s,
  ((t' s).state = (t s).state ∨ (t s).state = .sleeping ∧ (t' s).state = .runnable) ∧
  (t' s).chan = (t s).chan ∧ (t' s).pid = (t s).pid

def NoSleeper (t : PTable) (chan : Chan) : Prop :=
  ∀ s, (t s).state = .sleeping → (t s).chan ≠ chan

namespace Woken

variable {t t' t'' : PTable} {s : Slot} {chan : Chan}

theorem refl (t : PTable) : Woken t t := fun _ => ⟨.inl rfl, rfl, rfl⟩

theorem sleeping (h : Woken t t') (hs : (t' s).state = .sleeping) : (t s).state = .sleeping := by
  rcases (h s).1 with heq | hw
  · exact heq ▸ hs
  · exact hw.1

theorem state_iff (h : Woken t t') (st : ProcState) (h1 : st ≠ .sleeping) (h2 : st ≠ .runnable) :
    (t' s).state = st ↔ (t s).state = st := by
  rcases (h s).1 with heq | hw
  · rw [heq]
  · rw [hw.1, hw.2]
    exact iff_of_false (fun h => h2 h.symm) (fun h => h1 h.symm)

theorem alive_iff (h : Woken t t') : (t' s).state.Alive ↔ (t s).state.Alive := by
  rcases (h s).1 with heq | hw
  · rw [heq]
  · rw [hw.1, hw.2]
    decide

theorem settled_iff (h : Woken t t') : (t' s).state.Settled ↔ (t s).state.Settled := by
  rcases (h s).1 with heq | hw
  · rw [heq]
  · rw [hw.1, hw.2]
    decide

theorem trans (h : Woken t t') (h' : Woken t' t'') : Woken t t'' := by
  intro s
  obtain ⟨h1, hc, hp⟩ := h s
  obtain ⟨h1', hc', hp'⟩ := h' s
  refine ⟨?_, hc'.trans hc, hp'.trans hp⟩
  rcases h1 with heq | hw
  · rw [heq] at h1'
    exact h1'
  · rcases h1' with heq | hw'
    · exact .inr ⟨hw.1, heq.trans hw.2⟩
    · rw [hw.2] at hw'
      cases hw'.1

theorem update
    (hst : r.state = (t s).state ∨ (t s).state = .sleeping ∧ r.state = .runnable)
    (hc : r.chan = (t s).chan) (hp : r.pid = (t s).pid) : Woken t (update t s r) :=
  fun q => update_cases q ⟨hst, hc, hp⟩ fun q _ => refl t q

theorem wakeup1 (t : PTable) (chan : Chan) : Woken t (Kernel.wakeup1 t chan) := by
  intro s
  unfold Kernel.wakeup1
  split
  · rename_i h
    exact ⟨.inr ⟨h.1, rfl⟩, rfl, rfl⟩
  · exact refl t s

theorem reparent (init s : Slot) (l : List Slot) : ∀ t : PTable,
    Woken t (Kernel.reparent init s l t) := by
  induction l with
  | nil => exact refl
  | cons p l ih =>
    intro t
    simp only [Kernel.reparent]
    split
    · have h1 : Woken t (Function.update t p { t p with parent := some init }) :=
        update (.inl rfl) rfl rfl
      split
      · exact (h1.trans (wakeup1 _ _)).trans (ih _)
      · exact h1.trans (ih _)
    · exact ih t

theorem kill (k : Kern) (pid : Int) : Woken k.ptable (k.kill pid).2.ptable := by
  unfold Kern.kill
  cases findWithPid k.ptable pid with
  | none => exact refl _
  | some p =>
    simp only
    split
    · rename_i h
      exact update (.inr ⟨h, rfl⟩) rfl rfl
    · exact update (.inl rfl) rfl rfl

theorem noSleeper (h : Woken t t') (hq : NoSleeper t chan) : NoSleeper t' chan := by
  intro s hs
  rw [(h s).2.1]
  exact hq s (h.sleeping hs)

end Woken

theorem noSleeper_wakeup1 (t : PTable) (chan : Chan) : NoSleeper (wakeup1 t chan) chan := by
  intro s hs
  unfold wakeup1 at hs ⊢
  split at hs
  · cases hs
  · rename_i hn
    rw [if_neg hn]
    exact fun hc => hn ⟨hs, hc⟩

theorem wakeup1_parent (t : PTable) (chan : Chan) (s : Slot) :
    (wakeup1 t chan s).parent = (t s).parent := by
  unfold wakeup1
  split <;> rfl

theorem kill_parent (k : Kern) (pid : Int) (s : Slot) :
    ((k.kill pid).2.ptable s).parent = (k.ptable s).parent := by
  unfold Kern.kill
  cases findWithPid k.ptable pid with
  | none => rfl
  | some p =>
    by_cases hs : s = p
    · subst hs
      simp only [update_self]
      split <;> rfl
    · simp only [update_of_ne hs]

/-! ## The children of a process that exits -/

section Reparent

variable {init s p : Slot} {l : List Slot} {t : PTable}

theorem reparent_parent : ∀ (l : List Slot) (t : PTable),
    (reparent init s l t p).parent =
      if p ∈ l ∧ (t p).parent = some s then some init else (t p).parent := by
  intro l
  induction l with
  | nil => intro t; simp [reparent]
  | cons q l ih =>
    intro t
    simp only [reparent]
    split
    · rename_i hq
      -- the table after the turn of `q`
      have hstep : ∀ t', (∀ x, (t' x).parent =
          (update t q { t q with parent := some init } x).parent) →
          (reparent init s l t' p).parent =
            if p ∈ q :: l ∧ (t p).parent = some s then some init else (t p).parent := by
        intro t' ht'
        rw [ih, ht']
        refine update_cases p ?_ fun p hpq => ?_
        · simp [hq]
        · simp [hpq]
      split
      · exact hstep _ fun x => wakeup1_parent _ _ x
      · exact hstep _ fun x => rfl
    · rename_i hq
      rw [ih]
      by_cases hpq : p = q
      · subst hpq
        simp [hq]
      · simp [hpq]

theorem reparent_noSleeper : ∀ (l : List Slot) (t : PTable), p ∈ l → (t p).parent = some s →
    (t p).state = .zombie → NoSleeper (reparent init s l t) (.proc init) := by
  intro l
  induction l with
  | nil => intro t hp; cases hp
  | cons q l ih =>
    intro t hp hparent hz
    simp only [reparent]
    by_cases hpq : p = q
    · subst hpq
      rw [if_pos hparent, update_self, if_pos hz]
      exact (Woken.reparent _ _ _ _).noSleeper (noSleeper_wakeup1 _ _)
    · have hmem : p ∈ l := (mem_cons.mp hp).resolve_left hpq
      split
      · have hold : update t q { t q with parent := some init } p = t p :=
          update_of_ne hpq _ _
        split
        · refine ih _ hmem ?_ ?_
          · rw [wakeup1_parent, hold]
            exact hparent
          · rw [(Woken.wakeup1 _ _).state_iff _ (by decide) (by decide), hold]
            exact hz
        · exact ih _ hmem (by rw [hold]; exact hparent) (by rw [hold]; exact hz)
      · exact ih t hmem hparent hz

end Reparent

namespace Kern

structure Family (k : Kern) : Prop where
  init : (k.ptable k.initproc).state.Alive ∧ (k.ptable k.initproc).parent = none
  parented : ∀ s, s ≠ k.initproc → (k.ptable s).state.Settled → (k.ptable s).parent ≠ none
  alive : ∀ s q, (k.ptable s).parent = some q → (k.ptable q).state.Alive ∧ q ≠ s
  unborn : ∀ s, (k.ptable s).state = .unused → (k.ptable s).parent = none
  /-- `fork` names the parent after `copyuvm`, when it cannot fail any more. -/
  young : ∀ q np, k.pc q = .forkStack np ∨ k.pc q = .forkCopy np → (k.ptable np).parent = none
  born : ∀ q np, k.pc q = .forkRun np → (k.ptable np).parent = some q
  /-- No process sleeps in `wait` while it has a child that has exited. -/
  awake : ∀ s p, (k.ptable s).state = .sleeping → (k.ptable s).chan = .proc s →
    (k.ptable p).parent = some s → (k.ptable p).state ≠ .zombie

/-- The pid of a process that has exited and was not reaped yet. -/
def corpse (k : Kern) (p : Slot) : Option Int :=
  if (k.ptable p).state = .zombie then some (k.ptable p).pid else none

theorem Init.family {k : Kern} (h : Init k) : Family k := by
  obtain ⟨kstack, pgdir, cwd, clock, -, -, rfl⟩ := h
  have hparent : ∀ s, ((userinit kstack pgdir cwd clock).ptable s).parent = none := by
    intro s
    by_cases hs : s = 0
    · subst hs; rfl
    · simp [userinit, hs, Proc.zero]
  refine ⟨⟨show ProcState.Alive .runnable by decide, hparent 0⟩, ?_, ?_, fun s _ => hparent s,
    ?_, ?_, ?_⟩
  · intro s hs hset
    have hs' : s ≠ 0 := hs
    simp [userinit, hs', Proc.zero, ProcState.Settled] at hset
  · intro s q hq
    rw [hparent] at hq
    cases hq
  · intro q np hq
    exact hparent np
  · intro q np hq
    cases hq
  · intro s p _ _ hp
    rw [hparent] at hp
    cases hp

variable {k k' : Kern} {s np : Slot} {c : Cpu}

/-! ## The kinds of steps -/

theorem Family.woken {t : PTable} (h : Family k) (hw : Woken k.ptable t)
    (hp : ∀ s, (t s).parent = (k.ptable s).parent) : Family { k with ptable := t } where
  init := ⟨hw.alive_iff.mpr h.init.1, (hp _).trans h.init.2⟩
  parented s hs hset := by
    rw [hp]
    exact h.parented s hs (hw.settled_iff.mp hset)
  alive s q hq := by
    rw [hp] at hq
    exact ⟨hw.alive_iff.mpr (h.alive s q hq).1, (h.alive s q hq).2⟩
  unborn s hs := by
    rw [hp]
    exact h.unborn s ((hw.state_iff _ (by decide) (by decide)).mp hs)
  young q np hq := (hp np).trans (h.young q np hq)
  born q np hq := (hp np).trans (h.born q np hq)
  awake s p hs hc hps := by
    rw [(hw s).2.1] at hc
    rw [hp] at hps
    rw [ne_eq, hw.state_iff _ (by decide) (by decide)]
    exact h.awake s p (hw.sleeping hs) hc hps

theorem corpse_woken {t : PTable} (hw : Woken k.ptable t) (p : Slot) :
    corpse { k with ptable := t } p = k.corpse p := by
  simp only [corpse, hw.state_iff .zombie (by decide) (by decide), (hw p).2.2]

theorem Family.touch (h : Family k) (hs : (k.ptable s).state.Alive)
    (hr : r.state.Alive) (hp : r.parent = (k.ptable s).parent)
    (hpc : ∀ np, pc.child = some np → k.pc s = pc)
    (hwait : r.state = .sleeping → r.chan = .proc s →
      ∀ p, (k.ptable p).parent = some s → (k.ptable p).state ≠ .zombie)
    (cpu : Cpu → Option Slot) :
    Family { k with
      ptable := update k.ptable s r
      cpu
      pc := update k.pc s pc } := by
  have hparent : ∀ p, (update k.ptable s r p).parent = (k.ptable p).parent := fun p =>
    update_cases p hp fun _ _ => rfl
  have hstate : ∀ p st, ¬ st.Alive →
      ((update k.ptable s r p).state = st ↔ (k.ptable p).state = st) := fun p st hst =>
    update_cases p (iff_of_false (fun he => hst (he ▸ hr)) fun he => hst (he ▸ hs)) fun _ _ => .rfl
  have halive : ∀ p, (k.ptable p).state.Alive → (update k.ptable s r p).state.Alive := fun p =>
    update_cases p (fun _ => hr) fun _ _ => id
  constructor
  · exact ⟨halive _ h.init.1, (hparent _).trans h.init.2⟩
  · intro p hpi hset
    rw [hparent]
    refine h.parented p hpi ⟨?_, ?_⟩
    · exact fun he => hset.1 ((hstate p _ (by decide)).mpr he)
    · exact fun he => hset.2 ((hstate p _ (by decide)).mpr he)
  · intro p q hq
    rw [hparent] at hq
    exact ⟨halive q (h.alive p q hq).1, (h.alive p q hq).2⟩
  · intro p hp
    rw [hparent]
    exact h.unborn p ((hstate p _ (by decide)).mp hp)
  · intro q np hq
    rw [hparent]
    refine h.young q np ?_
    rcases hq with hq | hq
    · exact .inl (pc_update hpc rfl hq)
    · exact .inr (pc_update hpc rfl hq)
  · intro q np hq
    rw [hparent]
    exact h.born q np (pc_update hpc rfl hq)
  · intro q p
    rw [hparent, ne_eq, hstate p _ (by decide)]
    dsimp only
    exact update_cases q (fun hq hc => hwait hq hc p) fun q _ => h.awake q p

theorem corpse_update (hs : (k.ptable s).state ≠ .zombie) (hr : r.state ≠ .zombie)
    (ht : k'.ptable = update k.ptable s r) (p : Slot) : k'.corpse p = k.corpse p := by
  rw [corpse, corpse, ht]
  refine update_cases p ?_ fun _ _ => rfl
  rw [if_neg hs, if_neg hr]

theorem Family.reap (h : Family k) (hsafe : Safe k) (hz : (k.ptable s).state = .zombie) :
    Family { k with
      ptable := update k.ptable s (k.ptable s).reaped
      pc := update k.pc s .idle
      pgdirs := k.pgdirs.erase (k.ptable s).pgdir } := by
  have hdead : ¬ (k.ptable s).state.Alive := by rw [hz]; decide
  have hne : ∀ {q}, (k.ptable q).state.Alive → q ≠ s := fun hq he => hdead (he ▸ hq)
  have hparent : ∀ p q, (update k.ptable s (k.ptable s).reaped p).parent = some q →
      p ≠ s ∧ (k.ptable p).parent = some q := fun p q =>
    update_cases p (fun hq => by cases hq) fun _ hps hq => ⟨hps, hq⟩
  have hidle : ∀ np, Pc.child .idle = some np → k.pc s = .idle := by
    intro np hnp
    cases hnp
  have hemb : ∀ q np, (k.pc q).child = some np → np ≠ s := by
    rintro q np hq rfl
    rw [(hsafe.forking q np hq).1] at hz
    cases hz
  constructor
  all_goals dsimp only
  · have hi := hne h.init.1
    simp only [update_of_ne hi]
    exact h.init
  · exact fun p => update_cases p (fun _ hset => absurd rfl hset.1) fun p _ => h.parented p
  · intro p q hq
    obtain ⟨-, hq⟩ := hparent p q hq
    have ha := h.alive p q hq
    simp only [update_of_ne (hne ha.1)]
    exact ha
  · exact fun p => update_cases p (fun _ => rfl) fun p _ => h.unborn p
  · intro q np hq
    have hq' : k.pc q = .forkStack np ∨ k.pc q = .forkCopy np :=
      hq.imp (pc_update hidle rfl) (pc_update hidle rfl)
    have hnp : np ≠ s := by
      rcases hq' with hq' | hq'
      · exact hemb q np (by rw [hq']; rfl)
      · exact hemb q np (by rw [hq']; rfl)
    simp only [update_of_ne hnp]
    exact h.young q np hq'
  · intro q np hq
    have hq' : k.pc q = .forkRun np := pc_update hidle rfl hq
    have hnp : np ≠ s := hemb q np (by rw [hq']; rfl)
    simp only [update_of_ne hnp]
    exact h.born q np hq'
  · intro q p hq hc hpq
    obtain ⟨hps, hpq⟩ := hparent p q hpq
    have hqs : q ≠ s := hne (h.alive p q hpq).1
    simp only [update_of_ne hqs] at hq hc
    simp only [update_of_ne hps]
    exact h.awake q p hq hc hpq

theorem Family.fork (h : Family k) (hsafe : Safe k) (hc : k.cpu c = some s)
    (hnp : (k.pc s).child = some np ∨ (k.pc s).child = none ∧ (k.ptable np).state = .unused)
    (hchild : ∀ p, pc.child = some p → p = np) (hz : r.state ≠ .zombie)
    (hset : r.state.Settled → r.parent = some s) (hunused : r.state = .unused → r.parent = none)
    (hparent : r.parent = none ∨ r.parent = some s)
    (hyoung : pc = .forkStack np ∨ pc = .forkCopy np → r.parent = none)
    (hborn : pc = .forkRun np → r.parent = some s) (n : Int) (dirs : Finset Nat) :
    Family { k.forking s np r pc with nextpid := n, pgdirs := dirs } := by
  have hrun := hsafe.running c s hc
  have hnp_dead : ¬ (k.ptable np).state.Alive := by
    intro ha
    exact ne_of_settled hsafe hnp ha.1 rfl
  have hne : ∀ {q}, (k.ptable q).state.Alive → q ≠ np := fun hq he => hnp_dead (he ▸ hq)
  have halive : (k.ptable s).state.Alive := by rw [hrun]; decide
  constructor
  all_goals simp only [forking]
  · simp only [update_of_ne (hne h.init.1)]
    exact h.init
  · refine fun p => update_cases p (fun _ hs => ?_) fun p _ => h.parented p
    rw [hset hs]
    exact Option.some_ne_none s
  · refine fun p q => update_cases p (fun hq => ?_) fun p _ hq => ?_
    · rcases hparent with hn | hn
      · rw [hn] at hq; cases hq
      · rw [hn] at hq
        cases hq
        simp only [update_of_ne (hne halive)]
        exact ⟨halive, hne halive⟩
    · have ha := h.alive p q hq
      simp only [update_of_ne (hne ha.1)]
      exact ha
  · exact fun p => update_cases p hunused fun p _ => h.unborn p
  · intro q p hq
    have hqc : (update k.pc s pc q).child = some p := by
      rcases hq with hq | hq
      · exact (congrArg Pc.child hq).trans rfl
      · exact (congrArg Pc.child hq).trans rfl
    rcases forking_child hsafe hnp hchild hqc with ⟨rfl, rfl, -⟩ | ⟨hqs, hpn, -⟩
    · simp only [update_self] at hq ⊢
      exact hyoung hq
    · simp only [update_of_ne hqs] at hq
      simp only [update_of_ne hpn]
      exact h.young q p hq
  · intro q p hq
    have hqc : (update k.pc s pc q).child = some p := (congrArg Pc.child hq).trans rfl
    rcases forking_child hsafe hnp hchild hqc with ⟨rfl, rfl, -⟩ | ⟨hqs, hpn, -⟩
    · simp only [update_self] at hq ⊢
      exact hborn hq
    · simp only [update_of_ne hqs] at hq
      simp only [update_of_ne hpn]
      exact h.born q p hq
  · intro q p
    refine update_cases p (fun _ _ _ => hz) fun p _ => update_cases q (fun _ _ hpq => ?_) fun q _ =>
      h.awake q p
    -- the child of a `fork` has no children
    exact absurd (h.alive p np hpq).1 hnp_dead

/-- What `exit` leaves, before the process becomes a zombie: its children are children of `init`,
and its parent is awake, and so is `init` if one of the children had exited. -/
structure Orphaned (init s : Slot) (t t' : PTable) : Prop where
  woken : Woken t t'
  parent : ∀ p, (t' p).parent =
    if (t p).parent = some s then some init else (t p).parent
  notified : NoSleeper t' (.ofProc (t s).parent)
  adopted : ∀ p, (t p).parent = some s → (t p).state = .zombie → NoSleeper t' (.proc init)

theorem exit_eq (h : k.exit c s = .ok k') :
    s ≠ k.initproc ∧ ∃ t, Orphaned k.initproc s k.ptable t ∧
      k' = k.sched c s .exited (update t s { t s with state := .zombie }) := by
  unfold exit at h
  split at h
  · cases h
  · rename_i hs
    cases h
    refine ⟨hs, _, ⟨?_, ?_, ?_, ?_⟩, rfl⟩
    · have h1 : Woken k.ptable (update k.ptable s
          { k.ptable s with ofile := fun _ => 0, cwd := 0 }) := .update (.inl rfl) rfl rfl
      exact (h1.trans (.wakeup1 _ _)).trans (.reparent _ _ _ _)
    · intro p
      rw [reparent_parent, wakeup1_parent]
      by_cases hp : p = s
      · subst hp; simp [slots]
      · simp [slots, hp]
    · refine (Woken.reparent _ _ _ _).noSleeper ?_
      simp only [update_self]
      exact noSleeper_wakeup1 _ _
    · intro p hp hz
      have hps : (update k.ptable s
          { k.ptable s with ofile := fun _ => 0, cwd := 0 } p).parent = some s ∧
          (update k.ptable s
          { k.ptable s with ofile := fun _ => 0, cwd := 0 } p).state = .zombie := by
        revert hp hz
        exact update_cases p (fun hp hz => ⟨hp, hz⟩) fun _ _ hp hz => ⟨hp, hz⟩
      refine reparent_noSleeper _ _ (by simp [slots]) ((wakeup1_parent _ _ _).trans hps.1) ?_
      rw [(Woken.wakeup1 _ _).state_iff _ (by decide) (by decide)]
      exact hps.2

theorem Family.exit (h : Family k) (hsafe : Safe k) (hc : k.cpu c = some s)
    (he : k.exit c s = .ok k') : Family k' := by
  obtain ⟨hinit, t, ho, rfl⟩ := exit_eq he
  have hrun := hsafe.running c s hc
  have hw := ho.woken
  have hother : ∀ p, p ≠ s → update t s { t s with state := .zombie } p = t p :=
    fun p hp => update_of_ne hp _ _
  have hparent : ∀ p, (update t s { t s with state := .zombie } p).parent =
      if (k.ptable p).parent = some s then some k.initproc else (k.ptable p).parent := by
    intro p
    rw [← ho.parent p]
    exact update_cases p rfl fun _ _ => rfl
  -- a parent after `exit` is `init`, or was the parent before and is not `s`
  have hback : ∀ {p q}, (update t s { t s with state := .zombie } p).parent = some q →
      (k.ptable p).parent = some s ∧ q = k.initproc ∨ (k.ptable p).parent = some q ∧ q ≠ s := by
    intro p q hq
    rw [hparent] at hq
    split at hq
    · rename_i hp
      cases hq
      exact .inl ⟨hp, rfl⟩
    · rename_i hp
      refine .inr ⟨hq, ?_⟩
      rintro rfl
      exact hp hq
  have hkeep : ∀ {p q}, q ≠ s → (k.ptable p).parent = some q →
      (update t s { t s with state := .zombie } p).parent = some q := by
    intro p q hq hp
    rw [hparent, if_neg, hp]
    rw [hp]
    exact fun heq => hq (Option.some.inj heq)
  have hnone : ∀ {p}, (k.ptable p).parent = none →
      (update t s { t s with state := .zombie } p).parent = none := by
    intro p hp
    rw [hparent, if_neg, hp]
    rw [hp]
    exact (Option.some_ne_none s).symm
  have hpc : ∀ np, Pc.child .exited = some np → k.pc s = .exited := by
    intro np hnp
    cases hnp
  have hidle : ∀ {q np x}, Pc.child x = some np → update k.pc s .exited q = x →
      q ≠ s ∧ k.pc q = x := by
    intro q np x hx hq
    refine ⟨?_, pc_update hpc hx hq⟩
    rintro rfl
    rw [update_self] at hq
    rw [← hq] at hx
    cases hx
  have hialive : (t k.initproc).state.Alive := hw.alive_iff.mpr h.init.1
  constructor
  · simp only [sched, hother _ (Ne.symm hinit)]
    refine ⟨hialive, ?_⟩
    have := hnone h.init.2
    rwa [hother _ (Ne.symm hinit)] at this
  · intro p hpi hset
    have hset' : (k.ptable p).state.Settled := by
      by_cases hp : p = s
      · subst hp; rw [hrun]; decide
      · simp only [sched, hother p hp] at hset
        exact hw.settled_iff.mp hset
    simp only [sched, hparent]
    split
    · exact Option.some_ne_none _
    · exact h.parented p hpi hset'
  · intro p q hq
    rcases hback hq with ⟨hp, rfl⟩ | ⟨hp, hqs⟩
    · simp only [sched, hother _ (Ne.symm hinit)]
      refine ⟨hialive, ?_⟩
      rintro rfl
      rw [h.init.2] at hp
      cases hp
    · have ha := h.alive p q hp
      simp only [sched, hother q hqs]
      exact ⟨hw.alive_iff.mpr ha.1, ha.2⟩
  · intro p hp
    have hps : p ≠ s := by
      rintro rfl
      simp [sched] at hp
    simp only [sched, hother p hps] at hp
    exact hnone (h.unborn p ((hw.state_iff _ (by decide) (by decide)).mp hp))
  · intro q np hq
    refine hnone (h.young q np ?_)
    rcases hq with hq | hq
    · exact .inl (hidle rfl hq).2
    · exact .inr (hidle rfl hq).2
  · intro q np hq
    obtain ⟨hqs, hq⟩ := hidle rfl hq
    exact hkeep hqs (h.born q np hq)
  · intro q p hq hch hpq
    have hqs : q ≠ s := by
      rintro rfl
      simp [sched] at hq
    simp only [sched, hother q hqs] at hq hch
    intro hz
    by_cases hps : p = s
    · -- the parent of `s` has been woken
      subst hps
      rcases hback hpq with ⟨hp, -⟩ | ⟨hp, -⟩
      · exact (h.alive p p hp).2 rfl
      · have hn := ho.notified
        rw [hp] at hn
        exact hn q hq hch
    · simp only [sched, hother p hps] at hz
      have hz' := (hw.state_iff _ (by decide) (by decide)).mp hz
      rcases hback hpq with ⟨hp, rfl⟩ | ⟨hp, -⟩
      · exact ho.adopted p hp hz' _ hq hch
      · refine h.awake q p (hw.sleeping hq) ?_ hp hz'
        rw [← (hw q).2.1]
        exact hch

theorem corpse_exit (he : k.exit c s = .ok k') :
    k'.corpse = update k.corpse s (some (k.ptable s).pid) := by
  obtain ⟨-, t, ho, rfl⟩ := exit_eq he
  funext p
  by_cases hp : p = s
  · subst hp
    simp only [corpse, sched, update_self, if_true, (ho.woken p).2.2]
  · simp only [corpse, sched, update_of_ne hp, (ho.woken p).2.2,
      ho.woken.state_iff (s := p) .zombie (by decide) (by decide)]

theorem wait_cases (h : k.wait c s = .ok (ret, k')) :
    (∃ p, (k.ptable p).state = .zombie ∧ (k.ptable p).parent = some s ∧
      ret = some (k.ptable p).pid ∧
      k' = { k with
        ptable := update k.ptable p (k.ptable p).reaped
        pc := update k.pc p .idle
        pgdirs := k.pgdirs.erase (k.ptable p).pgdir }) ∨
    ret = some (-1) ∧ k' = k ∧
      ((∀ p, (k.ptable p).parent ≠ some s) ∨ (k.ptable s).killed ≠ 0) ∨
    ret = none ∧ k' = k.sleep c s (.proc s) ∧
      ∀ p, (k.ptable p).parent = some s → (k.ptable p).state ≠ .zombie := by
  unfold wait at h
  cases hz : findZombie k.ptable s with
  | some p =>
    have hp := List.find?_some hz
    rw [decide_eq_true_eq] at hp
    simp only [hz] at h
    split at h
    · cases h
    · split at h
      · cases h
      · cases h
        exact .inl ⟨p, hp.2, hp.1, rfl, rfl⟩
  | none =>
    simp only [hz] at h
    split at h
    · rename_i hno
      cases h
      exact .inr (.inl ⟨rfl, rfl, hno⟩)
    · cases h
      refine .inr (.inr ⟨rfl, rfl, fun p hp hzp => ?_⟩)
      have := List.find?_eq_none.mp hz p (by simp [slots])
      rw [decide_eq_true_eq] at this
      exact this ⟨hp, hzp⟩

theorem Family.sleep (h : Family k) (hsafe : Safe k) (hc : k.cpu c = some s) {chan : Chan}
    (hwait : chan = .proc s → ∀ p, (k.ptable p).parent = some s → (k.ptable p).state ≠ .zombie) :
    Family (k.sleep c s chan) := by
  have hrun := hsafe.running c s hc
  have hpc : ∀ np, Pc.child .asleep = some np → k.pc s = .asleep := fun np hnp => nomatch hnp
  refine h.touch (r := { k.ptable s with chan, state := .sleeping }) ?_ ?_ rfl hpc
    (fun _ => hwait) (update k.cpu c none)
  · rw [hrun]; decide
  · exact show ProcState.Alive .sleeping by decide

theorem Family.wait (h : Family k) (hsafe : Safe k) (hc : k.cpu c = some s)
    (hw : k.wait c s = .ok (ret, k')) : Family k' := by
  rcases wait_cases hw with ⟨p, hz, -, -, rfl⟩ | ⟨-, rfl, -⟩ | ⟨-, rfl, hno⟩
  · exact h.reap hsafe hz
  · exact h
  · exact h.sleep hsafe hc fun _ => hno

/-- The processes that were reaped between two states. -/
def gone (k k' : Kern) : List Slot :=
  slots.filter fun p => (k.ptable p).state = .zombie ∧ (k'.ptable p).state ≠ .zombie

theorem gone_eq_nil (h : k'.corpse = k.corpse) : gone k k' = [] := by
  refine filter_eq_nil_iff.mpr fun p _ hp => ?_
  rw [decide_eq_true_eq] at hp
  have := congrFun h p
  rw [corpse, corpse, if_pos hp.1, if_neg hp.2] at this
  cases this

theorem gone_reap {p : Slot} (hz : (k.ptable p).state = .zombie)
    (ht : k'.ptable = update k.ptable p (k.ptable p).reaped) : gone k k' = [p] := by
  have hiff : ∀ q, ((k.ptable q).state = .zombie ∧ (k'.ptable q).state ≠ .zombie) ↔ q = p := by
    intro q
    rw [ht]
    by_cases hq : q = p
    · subst hq
      rw [update_self]
      exact iff_of_true ⟨hz, nofun⟩ rfl
    · rw [update_of_ne hq]
      exact iff_of_false (fun h => h.2 h.1) hq
  simp only [gone, hiff]
  have hbeq : (fun q => decide (q = p)) = (· == p) := by
    funext q
    exact Bool.eq_iff_iff.mpr (by simp)
  rw [hbeq, filter_beq, slots,
    count_eq_one_of_mem (nodup_finRange NPROC) (mem_slots p)]
  rfl

end Kern

/-- What a step reports: that a process exits, or how a round of `wait` by `s` ended (`none` when it
goes to sleep) and whom it reaped. -/
inductive Report where
  | exited (p : Slot) (pid : Int)
  | waited (s : Slot) (ret : Option Int) (gone : List Slot)
  | other

/-- Those who have exited and were not reaped, after a report. -/
def Report.record (d : Slot → Option Int) : Report → Slot → Option Int
  | .exited p pid => Function.update d p (some pid)
  | .waited _ _ gone => fun p => if gone.contains p then none else d p
  | .other => d

/-- The report says that `p` exits or is reaped. -/
def Report.About (p : Slot) : Report → Prop
  | .exited q _ => q = p
  | .waited _ _ gone => p ∈ gone
  | .other => False

/-- The events of `fork`, `kill`, `sleep`, `wakeup` and the scheduler. -/
def Event.Plain : Event → Prop
  | .op _ .exit => False
  | .op _ .wait => False
  | .op _ (.sem _) => False
  | .op _ (.levelChange _ _ _) => False
  | .op _ (.sleep chan) => ∀ p, chan ≠ .proc p
  | _ => True

namespace Kern

variable {k k' : Kern} {s np : Slot} {c : Cpu}

inductive LifeStep : Kern → Report → Kern → Prop where
  | exit {k k' : Kern} {c : Cpu} {s : Slot} : k.cpu c = some s → k.pc s = .idle →
      k.exit c s = .ok k' → LifeStep k (.exited s (k.ptable s).pid) k'
  | wait {k k' : Kern} {c : Cpu} {s : Slot} {ret : Option Int} : k.cpu c = some s →
      k.pc s = .idle → k.wait c s = .ok (ret, k') → LifeStep k (.waited s ret (gone k k')) k'
  | plain {k k' : Kern} {e : Event} : e.Plain → k.step e = some (.ok k') → LifeStep k .other k'

theorem allowed_of_plain {e : Event} (he : e.Plain) (k : Kern) : k.Allowed e := by
  cases e with
  | dispatch c p => trivial
  | wakeup chan => trivial
  | op c o =>
    cases o with
    | sem call => exact he.elim
    | levelChange temp pid level => exact he.elim
    | _ => trivial

theorem LifeStep.safe {r : Report} (hs : LifeStep k r k') (h : Safe k) : Safe k' := by
  cases hs with
  | exit hc hpc he =>
    have hfine := exit_fine h hc (.op 0 .exit)
    rw [he] at hfine
    exact (ends_ok.mp hfine).1
  | wait hc hpc hw =>
    have hfine := wait_fine h hc
    rw [hw] at hfine
    exact (ends_ok.mp hfine).1
  | plain he hst => exact (ends_ok.mp (h.step (allowed_of_plain he k) hst)).1

/-- Nothing is reported of a step that keeps the invariant and those who have exited. -/
def Keeps (k k' : Kern) : Prop := Family k' ∧ ∀ p, k'.corpse p = k.corpse p

theorem Keeps.woken {t : PTable} (h : Family k) (hw : Woken k.ptable t)
    (hp : ∀ s, (t s).parent = (k.ptable s).parent) : Keeps k { k with ptable := t } :=
  ⟨h.woken hw hp, corpse_woken hw⟩

theorem dispatch_keeps (h : Family k) {p : Slot} (hr : (k.ptable p).state = .runnable)
    (hd : k.dispatch c p = .ok k') : Keeps k k' := by
  have halive : (k.ptable p).state.Alive := by rw [hr]; decide
  have hz : (k.ptable p).state ≠ .zombie := halive.2
  cases dispatch_resumed hd with
  | woken =>
    have hpc : ∀ np, Pc.child .idle = some np → k.pc p = .idle := by
      intro np hnp
      cases hnp
    refine ⟨h.touch halive (r := { (k.ptable p).chosen with chan := .null }) ?_ rfl hpc ?_ _,
      corpse_update hz ?_ rfl⟩
    · exact show ProcState.Alive .running by decide
    · intro hs
      cases hs
    · exact show ProcState.running ≠ .zombie by decide
  | runs =>
    have hpc : ∀ np, (k.pc p).child = some np → k.pc p = k.pc p := fun _ _ => rfl
    have hs : (k.ptable p).chosen.state ≠ .sleeping :=
      show ProcState.running ≠ .sleeping by decide
    have hf := h.touch halive (r := (k.ptable p).chosen)
      (show ProcState.Alive .running by decide) rfl hpc (fun he => absurd he hs)
      (update k.cpu c (some p))
    rw [update_eq_self] at hf
    exact ⟨hf, corpse_update (r := (k.ptable p).chosen) hz
      (show ProcState.running ≠ .zombie by decide) rfl⟩

theorem forkStart_keeps (h : Family k) (hsafe : Safe k) (hc : k.cpu c = some s)
    (hpc : k.pc s = .idle) (clock : RtcDate) : Keeps k (k.forkStart s clock) := by
  unfold forkStart
  cases hu : slots.find? fun p => (k.ptable p).state = .unused with
  | none => exact ⟨h, fun _ => rfl⟩
  | some np =>
    have hfree : (k.ptable np).state = .unused := by
      have := List.find?_some hu
      simpa using this
    have hparent : ((k.ptable np).embryo k.nextpid clock k.ratios).parent = none :=
      h.unborn np hfree
    have hst : ((k.ptable np).embryo k.nextpid clock k.ratios).state = .embryo := rfl
    constructor
    · refine h.fork hsafe hc (.inr ⟨by rw [hpc]; rfl, hfree⟩) ?_ ?_ ?_ (fun _ => hparent)
        (.inl hparent) (fun _ => hparent) ?_ _ _
      · rintro p ⟨⟩; rfl
      · rw [hst]; decide
      · intro hset
        exact absurd hst hset.2
      · intro hrun
        cases hrun
    · refine corpse_update (r := (k.ptable np).embryo k.nextpid clock k.ratios) ?_ ?_ rfl
      · rw [hfree]; decide
      · rw [hst]; decide

theorem Family.fork_young (h : Family k) (hsafe : Safe k) (hc : k.cpu c = some s)
    (hpc : k.pc s = .forkStack np ∨ k.pc s = .forkCopy np)
    (hparent : r.parent = (k.ptable np).parent)
    (hnew : pc = .idle ∧ r.state = .unused ∨ pc = .forkCopy np ∧ r.state = .embryo) :
    Keeps k (k.forking s np r pc) := by
  have hchild : (k.pc s).child = some np := by
    rcases hpc with hpc | hpc
    · rw [hpc]; rfl
    · rw [hpc]; rfl
  have hnone : r.parent = none := hparent.trans (h.young s np hpc)
  have hemb := (hsafe.forking s np hchild).1
  have hr : r.state ≠ .zombie ∧ ¬ r.state.Settled := by
    rcases hnew with ⟨-, hst⟩ | ⟨-, hst⟩
    · rw [hst]; decide
    · rw [hst]; decide
  refine ⟨h.fork hsafe hc (.inl hchild) ?_ hr.1 (fun hset => absurd hset hr.2) (fun _ => hnone)
    (.inl hnone) (fun _ => hnone) ?_ _ _, corpse_update (s := np) ?_ hr.1 rfl⟩
  · intro p hp
    rcases hnew with ⟨rfl, -⟩ | ⟨rfl, -⟩
    · cases hp
    · cases hp; rfl
  · intro hp
    rcases hnew with ⟨rfl, -⟩ | ⟨rfl, -⟩
    · cases hp
    · cases hp
  · rw [hemb]; decide

theorem forkStack_keeps (h : Family k) (hsafe : Safe k) (hc : k.cpu c = some s)
    (hpc : k.pc s = .forkStack np) (kstack : Nat) : Keeps k (k.forkStack s np kstack) := by
  have hemb := (hsafe.forking s np (by rw [hpc]; rfl)).1
  unfold forkStack
  split
  · exact h.fork_young hsafe hc (.inl hpc) rfl (.inl ⟨rfl, rfl⟩)
  · exact h.fork_young hsafe hc (.inl hpc) rfl (.inr ⟨rfl, hemb⟩)

theorem forkCopy_keeps (h : Family k) (hsafe : Safe k) (hc : k.cpu c = some s)
    (hpc : k.pc s = .forkCopy np) (pgdir : Nat) (clock : RtcDate) :
    Keeps k (k.forkCopy s np pgdir clock) := by
  have hchild : (k.pc s).child = some np := by rw [hpc]; rfl
  have hemb := (hsafe.forking s np hchild).1
  unfold forkCopy
  split
  · exact h.fork_young hsafe hc (.inr hpc) rfl (.inl ⟨rfl, rfl⟩)
  · have hst : ((k.ptable np).copyFrom s (k.ptable s) pgdir clock k.ratios).state = .embryo := hemb
    refine ⟨h.fork hsafe hc (.inl hchild) ?_ ?_ (fun _ => rfl) ?_ (.inr rfl) ?_ (fun _ => rfl) _ _,
      corpse_update (s := np) ?_ ?_ rfl⟩
    · rintro p ⟨⟩; rfl
    · rw [hst]; decide
    · intro hu
      rw [hst] at hu
      cases hu
    · intro hp
      rcases hp with hp | hp
      · cases hp
      · cases hp
    · rw [hemb]; decide
    · rw [hst]; decide

theorem forkRun_keeps (h : Family k) (hsafe : Safe k) (hc : k.cpu c = some s)
    (hpc : k.pc s = .forkRun np) : Keeps k (k.forkRun s np) := by
  have hchild : (k.pc s).child = some np := by rw [hpc]; rfl
  have hemb := (hsafe.forking s np hchild).1
  have hborn := h.born s np hpc
  constructor
  · refine h.fork (r := { k.ptable np with state := .runnable }) hsafe hc (.inl hchild) ?_ ?_
      (fun _ => hborn) ?_ (.inr hborn) ?_ ?_ k.nextpid k.pgdirs
    · intro p hp
      cases hp
    · exact fun hz => nomatch hz
    · exact fun hu => nomatch hu
    · intro hp
      rcases hp with hp | hp
      · cases hp
      · cases hp
    · intro hp
      cases hp
  · refine corpse_update (r := { k.ptable np with state := .runnable }) ?_
      (fun hz => nomatch hz) rfl
    rw [hemb]; decide

theorem yield_keeps (h : Family k) (hsafe : Safe k) (hc : k.cpu c = some s) :
    Keeps k (k.yield c s) := by
  have hrun := hsafe.running c s hc
  have hpc : ∀ np, (k.pc s).child = some np → k.pc s = k.pc s := fun _ _ => rfl
  refine ⟨?_, corpse_update (r := { k.ptable s with state := .runnable }) ?_
    (fun hz => nomatch hz) rfl⟩
  · refine h.touch (r := { k.ptable s with state := .runnable }) ?_ ?_ rfl hpc
      (fun hs => nomatch hs) (update k.cpu c none)
    · rw [hrun]; decide
    · exact show ProcState.Alive .runnable by decide
  · rw [hrun]; decide

theorem sleep_keeps (h : Family k) (hsafe : Safe k) (hc : k.cpu c = some s) {chan : Chan}
    (hwait : chan = .proc s → ∀ p, (k.ptable p).parent = some s → (k.ptable p).state ≠ .zombie) :
    Keeps k (k.sleep c s chan) := by
  refine ⟨h.sleep hsafe hc hwait, corpse_update (r := { k.ptable s with chan, state := .sleeping })
    ?_ (fun hz => nomatch hz) rfl⟩
  rw [hsafe.running c s hc]
  decide

theorem exec_keeps (h : Family k) (hsafe : Safe k) (hc : k.cpu c = some s) {o : Op}
    (hplain : Event.Plain (.op c o)) (hpc : k.pc s = pc)
    (he : k.exec c s o pc = some (.ok k')) : Keeps k k' := by
  cases exec_done he with
  | yield => exact yield_keeps h hsafe hc
  | sleep => exact sleep_keeps h hsafe hc fun hch => absurd hch (hplain s)
  | @kill pid =>
    rw [kill_eq]
    exact .woken h (Woken.kill k pid) (kill_parent k pid)
  | exit => exact hplain.elim
  | wait => exact hplain.elim
  | @forkStart clock => exact forkStart_keeps h hsafe hc hpc clock
  | @forkStack np kstack => exact forkStack_keeps h hsafe hc hpc kstack
  | @forkCopy np pgdir clock => exact forkCopy_keeps h hsafe hc hpc pgdir clock
  | forkRun => exact forkRun_keeps h hsafe hc hpc
  | sem => exact hplain.elim
  | levelChange => exact hplain.elim

theorem plain_keeps (h : Family k) (hsafe : Safe k) {e : Event} (hplain : e.Plain)
    (hst : k.step e = some (.ok k')) : Keeps k k' := by
  cases e with
  | dispatch c p =>
    simp only [Kern.step] at hst
    split at hst
    · rename_i hg
      exact dispatch_keeps h hg.2 (Option.some.inj hst)
    · cases hst
  | wakeup chan =>
    cases hst
    exact .woken h (Woken.wakeup1 k.ptable chan) (wakeup1_parent k.ptable chan)
  | op c o =>
    cases hc : k.cpu c with
    | none => simp [Kern.step, hc] at hst
    | some s =>
      simp only [Kern.step, hc] at hst
      exact exec_keeps h hsafe hc hplain rfl hst

theorem LifeStep.family {r : Report} (hs : LifeStep k r k') (h : Family k) (hsafe : Safe k) :
    Family k' := by
  cases hs with
  | exit hc hpc he => exact h.exit hsafe hc he
  | wait hc hpc hw => exact h.wait hsafe hc hw
  | plain he hst => exact (plain_keeps h hsafe he hst).1

theorem corpse_eq_some {p : Slot} {pid : Int} :
    k.corpse p = some pid ↔ (k.ptable p).state = .zombie ∧ (k.ptable p).pid = pid := by
  rw [Kern.corpse]
  split
  · rename_i hz
    simp [hz]
  · rename_i hz
    simp [hz]

theorem wait_report (h : Family k) (hsafe : Safe k) (hc : k.cpu c = some s)
    (hw : k.wait c s = .ok (ret, k')) :
    (∃ p, gone k k' = [p] ∧ (k.ptable p).state = .zombie ∧ (k.ptable p).parent = some s ∧
      ret = some (k.ptable p).pid ∧ k'.corpse = update k.corpse p none) ∨
    gone k k' = [] ∧ k'.corpse = k.corpse ∧ ∀ v, ret = some v →
      v = -1 ∧ ((∀ p, (k.ptable p).parent ≠ some s) ∨ (k.ptable s).killed ≠ 0) := by
  rcases wait_cases hw with ⟨p, hz, hp, hret, heq⟩ | ⟨hret, rfl, hno⟩ | ⟨hret, heq, hno⟩
  · have ht : k'.ptable = update k.ptable p (k.ptable p).reaped := by rw [heq]
    refine .inl ⟨p, gone_reap hz ht, hz, hp, hret, ?_⟩
    funext q
    rw [Kern.corpse, ht]
    by_cases hq : q = p
    · subst hq
      rw [update_self, update_self]
      rfl
    · rw [update_of_ne hq, update_of_ne hq]
      rfl
  · refine .inr ⟨gone_eq_nil rfl, rfl, fun v hv => ⟨?_, hno⟩⟩
    rw [hret] at hv
    exact (Option.some.inj hv).symm
  · have hk : k'.corpse = k.corpse := by
      rw [heq]
      exact funext (sleep_keeps h hsafe hc fun _ => hno).2
    refine .inr ⟨gone_eq_nil hk, hk, fun v hv => ?_⟩
    rw [hret] at hv
    cases hv

theorem LifeStep.corpse {r : Report} (hs : LifeStep k r k') (h : Family k) (hsafe : Safe k) :
    k'.corpse = r.record k.corpse := by
  cases hs with
  | exit hc hpc he => exact corpse_exit he
  | wait hc hpc hw =>
    rcases wait_report h hsafe hc hw with ⟨p, hg, -, -, -, hk⟩ | ⟨hg, hk, -⟩
    · rw [hg, hk]
      funext q
      by_cases hq : q = p
      · subst hq
        simp [Report.record]
      · simp [Report.record, hq]
    · rw [hg, hk]
      rfl
  | plain he hst => exact funext (plain_keeps h hsafe he hst).2

end Kern

/-- Who has exited and was not reaped, by the reports so far. -/
def unreaped (rs : List Report) : Slot → Option Int := rs.foldl Report.record fun _ => none

theorem unreaped_snoc (rs : List Report) (r : Report) :
    unreaped (rs ++ [r]) = r.record (unreaped rs) := by
  rw [unreaped, foldl_append]
  rfl

theorem last_exit {p : Slot} {pid : Int} {rs : List Report} (h : unreaped rs p = some pid) :
    ∃ a b, rs = a ++ .exited p pid :: b ∧ ∀ r ∈ b, ¬ r.About p := by
  induction rs using List.reverseRecOn with
  | nil => cases h
  | append_singleton rs r ih =>
    rw [unreaped_snoc] at h
    -- either `r` is the exit, or it is about somebody else
    have hold : unreaped rs p = some pid → ¬ r.About p →
        ∃ a b, rs ++ [r] = a ++ .exited p pid :: b ∧ ∀ x ∈ b, ¬ x.About p := by
      intro hp hr
      obtain ⟨a, b, rfl, hb⟩ := ih hp
      refine ⟨a, b ++ [r], by simp, fun x hx => ?_⟩
      rcases mem_append.mp hx with hx | hx
      · exact hb x hx
      · rw [mem_singleton.mp hx]; exact hr
    cases r with
    | exited q pid' =>
      by_cases hq : p = q
      · subst hq
        simp only [Report.record, update_self, Option.some.injEq] at h
        subst h
        exact ⟨rs, [], rfl, nofun⟩
      · simp only [Report.record, update_of_ne hq] at h
        exact hold h fun ha => hq ha.symm
    | waited s ret gone =>
      simp only [Report.record] at h
      split at h
      · cases h
      · rename_i hg
        exact hold h fun hp => hg (contains_iff_mem.mpr hp)
    | other => exact hold h id

namespace Kern

variable {k k0 : Kern} {rs : List Report}

theorem run_family (h0 : Init k0) (h : Run LifeStep k0 rs k) :
    Family k ∧ Safe k ∧ k.corpse = unreaped rs := by
  induction h with
  | nil =>
    refine ⟨h0.family, h0.safe, ?_⟩
    obtain ⟨kstack, pgdir, cwd, clock, -, -, rfl⟩ := h0
    funext p
    have hz : ((userinit kstack pgdir cwd clock).ptable p).state ≠ .zombie := by
      by_cases hp : p = 0
      · subst hp; exact fun hz => nomatch hz
      · simp [userinit, hp, Proc.zero]
    exact if_neg hz
  | snoc _ hst ih =>
    obtain ⟨hf, hs, hc⟩ := ih
    refine ⟨hst.family hf hs, hst.safe hs, ?_⟩
    rw [unreaped_snoc, ← hc]
    exact hst.corpse hf hs

/-- In every run of `fork`, `exit`, `wait`, `kill`, `sleep` and `wakeup`: a process other than
`init` has a parent that has not exited; nobody sleeps in `wait` with a child that has exited; a
`wait` that reaps a process returns the pid under which it exited last, and nobody else was told so;
and a process that has exited stays until a `wait` of its parent returns its pid, while a `wait`
without such a process returns -1, when its caller has no children or was killed. -/
theorem life_protocol (h0 : Init k0) (h : Run LifeStep k0 rs k) :
    (∀ s, s ≠ k.initproc → (k.ptable s).state.Settled →
      ∃ q, (k.ptable s).parent = some q ∧ (k.ptable q).state ≠ .unused ∧
        (k.ptable q).state ≠ .zombie) ∧
    (∀ s p, (k.ptable s).state = .sleeping → (k.ptable s).chan = .proc s →
      (k.ptable p).parent = some s → (k.ptable p).state ≠ .zombie) ∧
    (∀ a b s ret gone p, rs = a ++ .waited s ret gone :: b → p ∈ gone →
      ∃ pid a1 a2, ret = some pid ∧ gone = [p] ∧ a = a1 ++ .exited p pid :: a2 ∧
        ∀ r ∈ a2, ¬ r.About p) ∧
    (∀ r k' p, LifeStep k r k' → (k.ptable p).state = .zombie →
      (k'.ptable p).state = .zombie ∧ (k'.ptable p).pid = (k.ptable p).pid ∨
      ∃ s, r = .waited s (some (k.ptable p).pid) [p] ∧ (k.ptable p).parent = some s) ∧
    ∀ s v gone k', LifeStep k (.waited s (some v) gone) k' →
      (∃ p, gone = [p] ∧ (k.ptable p).state = .zombie ∧ (k.ptable p).parent = some s ∧
        v = (k.ptable p).pid) ∨
      gone = [] ∧ v = -1 ∧ ((∀ p, (k.ptable p).parent ≠ some s) ∨ (k.ptable s).killed ≠ 0) := by
  obtain ⟨hf, hsafe, -⟩ := run_family h0 h
  refine ⟨?_, hf.awake, ?_, ?_, ?_⟩
  · intro s hs hset
    obtain ⟨q, hq⟩ := Option.ne_none_iff_exists'.mp (hf.parented s hs hset)
    have ha := (hf.alive s q hq).1
    exact ⟨q, hq, ha.1.1, ha.2⟩
  · intro a b s ret gone p heq hp
    obtain ⟨k1, k2, hrun, hst⟩ := h.split heq
    obtain ⟨hf1, hs1, hc1⟩ := run_family h0 hrun
    cases hst with
    | wait hc hpc hw =>
      rcases wait_report hf1 hs1 hc hw with ⟨p', hg, hz, -, hret, -⟩ | ⟨hg, -, -⟩
      · rw [hg] at hp ⊢
        cases mem_singleton.mp hp
        have hd : unreaped a p = some (k1.ptable p).pid := by
          rw [← hc1]
          exact corpse_eq_some.mpr ⟨hz, rfl⟩
        obtain ⟨a1, a2, ha, hno⟩ := last_exit hd
        exact ⟨_, a1, a2, hret, rfl, ha, hno⟩
      · rw [hg] at hp
        cases hp
  · intro r k' p hst hz
    have hold : k.corpse p = some (k.ptable p).pid := corpse_eq_some.mpr ⟨hz, rfl⟩
    cases hst with
    | @exit _ c s hc hpc he =>
      have hps : p ≠ s := by
        rintro rfl
        rw [hsafe.running c p hc] at hz
        cases hz
      left
      rw [← corpse_eq_some, corpse_exit he, update_of_ne hps, hold]
    | wait hc hpc hw =>
      rcases wait_report hf hsafe hc hw with ⟨q, hg, -, hq, hret, hk⟩ | ⟨-, hk, -⟩
      · by_cases hpq : p = q
        · subst hpq
          right
          exact ⟨_, by rw [hg, hret], hq⟩
        · left
          rw [← corpse_eq_some, hk, update_of_ne hpq, hold]
      · left
        rw [← corpse_eq_some, hk, hold]
    | plain he hst =>
      left
      rw [← corpse_eq_some, (plain_keeps hf hsafe he hst).2, hold]
  · intro s v gone k' hst
    cases hst with
    | wait hc hpc hw =>
      rcases wait_report hf hsafe hc hw with ⟨p, hg, hz, hp, hret, -⟩ | ⟨hg, -, hret⟩
      · exact .inl ⟨p, hg, hz, hp, Option.some.inj hret⟩
      · obtain ⟨hv, hno⟩ := hret v rfl
        exact .inr ⟨hg, hv, hno⟩

/-- `init` forks, the child exits, and `init` reaps it under its pid. -/
theorem life_protocol_child :
    ∃ (k : Kern) (rs a1 a2 : List Report), Run LifeStep firstKern rs k ∧
      rs = (a1 ++ .exited 1 2 :: a2) ++ [.waited 0 (some 2) [1]] ∧ ∀ r ∈ a2, ¬ r.About 1 := by
  have h1 : Run LifeStep firstKern _ _ := .single (.plain (e := .dispatch 0 0) trivial rfl)
  have h2 := h1.snoc (.plain (e := .op 0 (.forkStart ⟨0, 0, 0⟩)) trivial rfl)
  have h3 := h2.snoc (.plain (e := .op 0 (.forkStack 12288)) trivial rfl)
  have h4 := h3.snoc (.plain (e := .op 0 (.forkCopy 16384 ⟨0, 0, 0⟩)) trivial rfl)
  have h5 := h4.snoc (.plain (e := .op 0 .forkRun) trivial rfl)
  have h6 := h5.snoc (.plain (e := .dispatch 1 1) trivial rfl)
  have h7 := h6.snoc (.exit (c := 1) (s := 1) rfl rfl rfl)
  have h8 := h7.snoc (.wait (c := 0) (s := 0) rfl rfl rfl)
  obtain ⟨pid, a1, a2, hret, hgone, ha, hno⟩ := (life_protocol firstKern_init h8).2.2.1 _ [] 0
    (some 2) _ 1 rfl (mem_filter.mpr ⟨mem_slots 1, rfl⟩)
  cases hret
  exact ⟨_, _, a1, a2, h8, by rw [← ha, ← hgone]; rfl, hno⟩

end Kern
end Xv6.Kernel
