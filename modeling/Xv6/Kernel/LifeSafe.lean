import Xv6.Kernel.Life
import Xv6.Lib.Ends

/-!
# Xv6.Kernel.LifeSafe

Safety of the life of a process.

Every step is one of five kinds, each with one lemma that keeps `Safe`: a calm change of the table,
which at most wakes processes; a process that leaves its processor; one that gets it; a child that
is reaped; and a part of `fork`.
-/

namespace Xv6.Kernel

open Function

variable {c : Cpu} {e : Event} {pc : Pc} {r : Proc} {q : Slot}

/-! ## Calm changes -/

/-- Only sleeping processes change their state, to runnable, and processes keep what they own. -/
def Calm (t t' : PTable) : Prop := ∀ s,
  ((t' s).state = (t s).state ∨ (t s).state = .sleeping ∧ (t' s).state = .runnable) ∧
  ((t s).state ≠ .unused → (t' s).kstack = (t s).kstack ∧ (t' s).pgdir = (t s).pgdir)

namespace Calm

variable {t t' t'' : PTable} {s : Slot}

theorem refl (t : PTable) : Calm t t := fun _ => ⟨.inl rfl, fun _ => ⟨rfl, rfl⟩⟩

theorem trans (h : Calm t t') (h' : Calm t' t'') : Calm t t'' := by
  intro s
  obtain ⟨h1, h2⟩ := h s
  obtain ⟨h1', h2'⟩ := h' s
  constructor
  · cases h1 with
    | inl heq =>
      rw [heq] at h1'
      exact h1'
    | inr hw =>
      cases h1' with
      | inl heq => exact .inr ⟨hw.1, heq.trans hw.2⟩
      | inr hw' =>
        rw [hw.2] at hw'
        cases hw'.1
  · intro hne
    have hne' : (t' s).state ≠ .unused := by
      cases h1 with
      | inl heq => rwa [heq]
      | inr hw => rw [hw.2]; decide
    exact ⟨(h2' hne').1.trans (h2 hne).1, (h2' hne').2.trans (h2 hne).2⟩

theorem update
    (hst : r.state = (t s).state ∨ (t s).state = .sleeping ∧ r.state = .runnable)
    (hown : (t s).state ≠ .unused → r.kstack = (t s).kstack ∧ r.pgdir = (t s).pgdir) :
    Calm t (update t s r) :=
  fun p => update_cases p ⟨hst, hown⟩ fun p _ => refl t p

theorem state_of_ne (h : Calm t t') (hs : (t s).state ≠ .sleeping) :
    (t' s).state = (t s).state := by
  cases (h s).1 with
  | inl heq => exact heq
  | inr hw => exact absurd hw.1 hs

theorem state_eq (h : Calm t t') {st : ProcState} (hs : (t s).state = st) (hne : st ≠ .sleeping) :
    (t' s).state = st :=
  (h.state_of_ne (hs ▸ hne)).trans hs

theorem settled_iff (h : Calm t t') : (t' s).state.Settled ↔ (t s).state.Settled := by
  cases (h s).1 with
  | inl heq => rw [heq]
  | inr hw =>
    rw [hw.1, hw.2]
    decide

theorem wakeup1 (t : PTable) (chan : Chan) : Calm t (Kernel.wakeup1 t chan) := by
  intro s
  unfold Kernel.wakeup1
  split
  · rename_i h
    exact ⟨.inr ⟨h.1, rfl⟩, fun _ => ⟨rfl, rfl⟩⟩
  · exact refl t s

theorem reparent (init s : Slot) (l : List Slot) :
    ∀ t : PTable, Calm t (Kernel.reparent init s l t) := by
  induction l with
  | nil => exact refl
  | cons p l ih =>
    intro t
    simp only [Kernel.reparent]
    split
    · have h1 : Calm t (Function.update t p { t p with parent := some init }) :=
        update (.inl rfl) fun _ => ⟨rfl, rfl⟩
      split
      · exact (h1.trans (wakeup1 _ _)).trans (ih _)
      · exact h1.trans (ih _)
    · exact ih t

theorem kill (k : Kern) (pid : Int) : Calm k.ptable (k.kill pid).2.ptable := by
  unfold Kern.kill
  cases findWithPid k.ptable pid with
  | none => exact refl _
  | some p =>
    simp only
    split
    · rename_i h
      exact update (.inr ⟨h, rfl⟩) fun _ => ⟨rfl, rfl⟩
    · exact update (.inl rfl) fun _ => ⟨rfl, rfl⟩

end Calm

/-- `level_change` of `pid` moves no process: the last slot with that pid is the last of the table,
or it is free and so is the next. -/
def Still (t : PTable) (pid : Int) : Prop :=
  ∀ n, lastWithPid t pid = some n →
    n.val + 1 = NPROC ∨ ¬ t.Live n ∧ ∃ p : Slot, p.val = n.val + 1 ∧ ¬ t.Live p

theorem Still.calm {t : PTable} {pid : Int} (h : Still t pid) (temp : Proc) (level : Int) :
    Calm t (levelChange temp t pid level).2 := by
  cases hn : lastWithPid t pid with
  | none =>
    have heq : (levelChange temp t pid level).2 = t := by simp [levelChange, hn]
    rw [heq]
    exact .refl t
  | some n =>
    cases h n hn with
    | inl hlast =>
      rw [levelChange_last hn hlast]
      exact .update (.inl rfl) fun _ => ⟨rfl, rfl⟩
    | inr hfree =>
      obtain ⟨hnf, p, hp, hpf⟩ := hfree
      rw [levelChange_next temp level hn hp hpf]
      have hpn : p ≠ n := by
        rintro rfl
        omega
      have h1 : Calm t (update t n { t n with level }) :=
        .update (.inl rfl) fun _ => ⟨rfl, rfl⟩
      refine h1.trans (.update (.inl ?_) ?_)
      · rw [update_of_ne hpn]
        exact (not_not.mp hnf).trans (not_not.mp hpf).symm
      · intro hlive
        rw [update_of_ne hpn] at hlive
        exact absurd hlive hpf

/-! ## What the slots own -/

namespace Kern

variable {k k' : Kern} {s np : Slot}

theorem HasSpace.hasStack (h : k.HasSpace s) : k.HasStack s := by
  cases h with
  | inl hs => exact .inl hs
  | inr hq =>
    obtain ⟨q, hq⟩ := hq
    exact .inr ⟨q, .inr hq⟩

theorem child_of_stack (h : pc = .forkCopy np ∨ pc = .forkRun np) :
    pc.child = some np := by
  cases h with
  | inl h => rw [h]; rfl
  | inr h => rw [h]; rfl

theorem Safe.live (h : Safe k) (hs : k.HasStack s) : (k.ptable s).state ≠ .unused := by
  cases hs with
  | inl hs => exact hs.1
  | inr hq =>
    obtain ⟨q, hq⟩ := hq
    rw [(h.forking q s (child_of_stack hq)).1]
    decide

theorem Owning.shrink (h : k.Owning)
    (hstack : ∀ s, k'.HasStack s → k.HasStack s ∧ (k'.ptable s).kstack = (k.ptable s).kstack)
    (hspace : ∀ s, k'.HasSpace s → k.HasSpace s ∧ (k'.ptable s).pgdir = (k.ptable s).pgdir ∧
      (k.ptable s).pgdir ∈ k'.pgdirs) : k'.Owning where
  stack s hs := by
    obtain ⟨h1, h2⟩ := hstack s hs
    rw [h2]
    exact h.stack s h1
  space s hs := by
    obtain ⟨h1, h2, h3⟩ := hspace s hs
    rw [h2]
    exact ⟨(h.space s h1).1, h3⟩
  alone s s' hs hs' heq := by
    obtain ⟨h1, h2, -⟩ := hspace s hs
    obtain ⟨h1', h2', -⟩ := hspace s' hs'
    rw [h2, h2'] at heq
    exact h.alone s s' h1 h1' heq

theorem hasStack_off (ht : k'.ptable s = k.ptable s)
    (hpc : ∀ q x, Pc.child x = some s → k'.pc q = x → k.pc q = x) (h : k'.HasStack s) :
    k.HasStack s := by
  cases h with
  | inl hs => exact .inl (ht ▸ hs)
  | inr hq =>
    obtain ⟨q, hq⟩ := hq
    cases hq with
    | inl hq => exact .inr ⟨q, .inl (hpc q _ rfl hq)⟩
    | inr hq => exact .inr ⟨q, .inr (hpc q _ rfl hq)⟩

theorem hasSpace_off (ht : k'.ptable s = k.ptable s)
    (hpc : ∀ q x, Pc.child x = some s → k'.pc q = x → k.pc q = x) (h : k'.HasSpace s) :
    k.HasSpace s := by
  cases h with
  | inl hs => exact .inl (ht ▸ hs)
  | inr hq =>
    obtain ⟨q, hq⟩ := hq
    exact .inr ⟨q, hpc q _ rfl hq⟩

theorem Owning.replace (h : k.Owning) (np : Slot) (ht : ∀ p, p ≠ np → k'.ptable p = k.ptable p)
    (hpc : ∀ p, p ≠ np → ∀ q x, Pc.child x = some p → k'.pc q = x → k.pc q = x)
    (hdirs : ∀ p, p ≠ np → k.HasSpace p → (k.ptable p).pgdir ∈ k'.pgdirs)
    (hstack : k'.HasStack np → (k'.ptable np).kstack ≠ 0)
    (hspace : k'.HasSpace np → (k'.ptable np).pgdir ≠ 0 ∧ (k'.ptable np).pgdir ∈ k'.pgdirs ∧
      ∀ p, p ≠ np → k.HasSpace p → (k.ptable p).pgdir ≠ (k'.ptable np).pgdir) : k'.Owning where
  stack p hp := by
    by_cases hpn : p = np
    · subst hpn; exact hstack hp
    · rw [ht p hpn]
      exact h.stack p (hasStack_off (ht p hpn) (hpc p hpn) hp)
  space p hp := by
    by_cases hpn : p = np
    · subst hpn
      exact ⟨(hspace hp).1, (hspace hp).2.1⟩
    · have hp' := hasSpace_off (ht p hpn) (hpc p hpn) hp
      rw [ht p hpn]
      exact ⟨(h.space p hp').1, hdirs p hpn hp'⟩
  alone p p' hp hp' heq := by
    by_cases hpn : p = np
    · by_cases hpn' : p' = np
      · rw [hpn, hpn']
      · have hold := hasSpace_off (ht p' hpn') (hpc p' hpn') hp'
        subst hpn
        rw [ht p' hpn'] at heq
        exact absurd heq.symm ((hspace hp).2.2 p' hpn' hold)
    · have hold := hasSpace_off (ht p hpn) (hpc p hpn) hp
      rw [ht p hpn] at heq
      by_cases hpn' : p' = np
      · subst hpn'
        exact absurd heq ((hspace hp').2.2 p hpn hold)
      · rw [ht p' hpn'] at heq
        exact h.alone p p' hold (hasSpace_off (ht p' hpn') (hpc p' hpn') hp') heq

theorem pc_update (hpc : ∀ np, pc.child = some np → k.pc s = pc) {x : Pc}
    (hx : x.child = some np) (hq : update k.pc s pc q = x) : k.pc q = x := by
  revert hq
  refine update_cases q (fun hq => ?_) fun _ _ => id
  rw [← hq] at hx ⊢
  exact hpc np hx

theorem child_update (hpc : ∀ np, pc.child = some np → k.pc s = pc)
    (hq : (update k.pc s pc q).child = some np) : (k.pc q).child = some np := by
  rwa [pc_update hpc hq rfl]

theorem Safe.not_child (h : Safe k) (hs : (k.ptable s).state ≠ .embryo) (q : Slot) :
    (k.pc q).child ≠ some s :=
  fun hq => hs (h.forking q s hq).1

theorem Safe.not_on_cpu (h : Safe k) (hs : (k.ptable s).state ≠ .running) (c : Cpu) :
    k.cpu c ≠ some s :=
  fun hc => hs (h.running c s hc)

theorem Owning.touch (h : k.Owning) (hs : (k.ptable s).state.Settled)
    (hk : r.kstack = (k.ptable s).kstack) (hp : r.pgdir = (k.ptable s).pgdir)
    (hpc : ∀ np, pc.child = some np → k.pc s = pc) (cpu : Cpu → Option Slot) :
    Owning { k with
      ptable := update k.ptable s r
      cpu
      pc := update k.pc s pc } := by
  have hsp : k.HasSpace s := .inl hs
  have hsp' := h.space s hsp
  refine h.replace s (fun p hps => update_of_ne hps _ _)
    (fun p _ q x hx hq => pc_update hpc hx hq) (fun p _ hp => (h.space p hp).2) ?_ ?_
  · intro _
    simp only [update_self, hk]
    exact h.stack s hsp.hasStack
  · intro _
    simp only [update_self, hp]
    exact ⟨hsp'.1, hsp'.2, fun p hps hpp heq => hps (h.alone p s hpp hsp heq)⟩

/-! ## The five kinds of steps -/

theorem Safe.calm {t : PTable} (h : Safe k) (hc : Calm k.ptable t) :
    Safe { k with ptable := t } := by
  have hstack : ∀ s, HasStack { k with ptable := t } s → k.HasStack s := fun s =>
    Or.imp_left hc.settled_iff.mp
  have hspace : ∀ s, HasSpace { k with ptable := t } s → k.HasSpace s := fun s =>
    Or.imp_left hc.settled_iff.mp
  constructor
  · refine h.owning.shrink ?_ ?_
    · intro s hs
      exact ⟨hstack s hs, ((hc s).2 (h.live (hstack s hs))).1⟩
    · intro s hs
      have hsp := hspace s hs
      exact ⟨hsp, ((hc s).2 (h.live hsp.hasStack)).2, (h.owning.space s hsp).2⟩
  · intro c s hcs
    have hrun := h.running c s hcs
    exact hc.state_eq hrun (by decide)
  · exact h.alone
  · intro s np hnp
    obtain ⟨h1, h2⟩ := h.forking s np hnp
    have hns : (k.ptable s).state ≠ .sleeping := by
      cases h2 with
      | inl h2 => rw [h2]; decide
      | inr h2 => rw [h2]; decide
    refine ⟨hc.state_eq h1 (by decide), ?_⟩
    rw [← hc.state_of_ne hns] at h2
    exact h2
  · exact h.forkAlone
  · intro s hs
    have hz := h.exited s hs
    exact hc.state_eq hz (by decide)
  · exact h.sems

theorem Safe.sched (h : Safe k) (hc : k.cpu c = some s)
    (hk : r.kstack = (k.ptable s).kstack) (hp : r.pgdir = (k.ptable s).pgdir)
    (hpc : ∀ np, pc.child = some np → k.pc s = pc ∧ r.state = .runnable)
    (hex : pc = .exited → r.state = .zombie) :
    Safe (k.sched c s pc (update k.ptable s r)) := by
  have hrun := h.running c s hc
  have hset : (k.ptable s).state.Settled := by rw [hrun]; decide
  have hsame : ∀ np, pc.child = some np → k.pc s = pc := fun np hnp => (hpc np hnp).1
  constructor
  · exact h.owning.touch hset hk hp hsame _
  · intro c' s' hcs
    have hne : c' ≠ c := by
      rintro rfl
      simp [Kern.sched] at hcs
    have hcs' : k.cpu c' = some s' := by simpa [Kern.sched, hne] using hcs
    have hss : s' ≠ s := by
      rintro rfl
      exact hne (h.alone c' c s' hcs' hc)
    simpa [Kern.sched, hss] using h.running c' s' hcs'
  · intro c1 c2 s' h1 h2
    have hback : ∀ c', update k.cpu c none c' = some s' → k.cpu c' = some s' := fun c' =>
      update_cases c' (fun hc' => by cases hc') fun _ _ => id
    exact h.alone c1 c2 s' (hback c1 h1) (hback c2 h2)
  · intro q np hq
    have hold := child_update hsame hq
    obtain ⟨h1, h2⟩ := h.forking q np hold
    have hnps : np ≠ s := fun heq => h.not_child hset.2 q (heq ▸ hold)
    refine ⟨by simpa [Kern.sched, hnps] using h1, ?_⟩
    by_cases hqs : q = s
    · subst hqs
      have hq' : pc.child = some np := by simpa [Kern.sched] using hq
      exact .inl (by simpa [Kern.sched] using (hpc np hq').2)
    · simpa [Kern.sched, hqs] using h2
  · intro q q' np hq hq'
    exact h.forkAlone q q' np (child_update hsame hq) (child_update hsame hq')
  · intro q
    simp only [Kern.sched]
    refine update_cases q ?_ fun q hqs hq => ?_
    · rwa [update_self]
    · rw [update_of_ne hqs]
      exact h.exited q hq
  · exact h.sems

theorem Safe.dispatched (h : Safe k) (hr : (k.ptable s).state = .runnable)
    (hst : r.state = .running) (hk : r.kstack = (k.ptable s).kstack)
    (hp : r.pgdir = (k.ptable s).pgdir)
    (hpc : ∀ np, pc.child = some np → k.pc s = pc) (hex : pc ≠ .exited) :
    Safe { k with
      ptable := update k.ptable s r
      cpu := update k.cpu c (some s)
      pc := update k.pc s pc } := by
  have hset : (k.ptable s).state.Settled := by rw [hr]; decide
  have hcpu : ∀ c' s', update k.cpu c (some s) c' = some s' →
      c' = c ∧ s' = s ∨ s' ≠ s ∧ k.cpu c' = some s' := by
    intro c' s'
    refine update_cases c' (fun hcs => .inl ⟨rfl, (Option.some.inj hcs).symm⟩) fun c' _ hcs =>
      .inr ⟨?_, hcs⟩
    rintro rfl
    exact h.not_on_cpu (by rw [hr]; decide) c' hcs
  constructor
  · exact h.owning.touch hset hk hp hpc _
  · intro c' s' hcs
    cases hcpu c' s' hcs with
    | inl heq => simpa [heq.2] using hst
    | inr hne => simpa [hne.1] using h.running c' s' hne.2
  · intro c1 c2 s' h1 h2
    cases hcpu c1 s' h1 with
    | inl heq1 =>
      cases hcpu c2 s' h2 with
      | inl heq2 => rw [heq1.1, heq2.1]
      | inr hne => exact absurd heq1.2 hne.1
    | inr hne1 =>
      cases hcpu c2 s' h2 with
      | inl heq => exact absurd heq.2 hne1.1
      | inr hne2 => exact h.alone c1 c2 s' hne1.2 hne2.2
  · intro q np hq
    have hold := child_update hpc hq
    obtain ⟨h1, h2⟩ := h.forking q np hold
    have hnps : np ≠ s := fun heq => h.not_child hset.2 q (heq ▸ hold)
    refine ⟨by simpa [hnps] using h1, ?_⟩
    by_cases hqs : q = s
    · exact .inr (by simpa [hqs] using hst)
    · simpa [hqs] using h2
  · intro q q' np hq hq'
    exact h.forkAlone q q' np (child_update hpc hq) (child_update hpc hq')
  · intro q
    dsimp only
    refine update_cases q (fun hq => absurd hq hex) fun q hqs hq => ?_
    rw [update_of_ne hqs]
    exact h.exited q hq
  · exact h.sems

theorem Safe.reap (h : Safe k) (hz : (k.ptable s).state = .zombie)
    (hst : r.state = .unused) :
    Safe { k with
      ptable := update k.ptable s r
      pc := update k.pc s .idle
      pgdirs := k.pgdirs.erase (k.ptable s).pgdir } := by
  have hset : (k.ptable s).state.Settled := by rw [hz]; decide
  have hidle : ∀ np, Pc.child .idle = some np → k.pc s = .idle := by
    intro np hnp
    cases hnp
  have hnone : ¬ HasStack { k with
      ptable := update k.ptable s r
      pc := update k.pc s .idle
      pgdirs := k.pgdirs.erase (k.ptable s).pgdir } s := by
    intro hs
    cases hs with
    | inl hs => exact hs.1 (by simpa using hst)
    | inr hq =>
      obtain ⟨q, hq⟩ := hq
      exact h.not_child hset.2 q (child_update hidle (child_of_stack hq))
  constructor
  · refine h.owning.replace s (fun p hps => update_of_ne hps _ _)
      (fun p _ q x hx hq => pc_update hidle hx hq) ?_ (fun hs => absurd hs hnone)
      (fun hs => absurd hs.hasStack hnone)
    intro p hps hp
    refine Finset.mem_erase.mpr ⟨?_, (h.owning.space p hp).2⟩
    intro heq
    exact hps (h.owning.alone p s hp (.inl hset) heq)
  · intro c s' hc
    have hss : s' ≠ s := by
      rintro rfl
      exact h.not_on_cpu (by rw [hz]; decide) c hc
    simpa [hss] using h.running c s' hc
  · exact h.alone
  · intro q np hq
    have hold := child_update hidle hq
    obtain ⟨h1, h2⟩ := h.forking q np hold
    have hnps : np ≠ s := fun heq => h.not_child hset.2 q (heq ▸ hold)
    have hqs : q ≠ s := by
      rintro rfl
      simp [Pc.child] at hq
    exact ⟨by simpa [hnps] using h1, by simpa [hqs] using h2⟩
  · intro q q' np hq hq'
    exact h.forkAlone q q' np (child_update hidle hq) (child_update hidle hq')
  · intro q hq
    have hqs : q ≠ s := by
      rintro rfl
      simp at hq
    have hq' : k.pc q = .exited := by simpa [hqs] using hq
    simpa [hqs] using h.exited q hq'
  · exact h.sems

section Fork

variable (h : Safe k)
  (hnp : (k.pc s).child = some np ∨ (k.pc s).child = none ∧ (k.ptable np).state = .unused)

include h hnp

theorem ne_of_settled {p : Slot} (hp : (k.ptable p).state.Settled) : p ≠ np := by
  rintro rfl
  cases hnp with
  | inl hchild => exact hp.2 (h.forking s p hchild).1
  | inr hfree => exact hp.1 hfree.2

theorem child_ne_of_ne (hqs : q ≠ s) : (k.pc q).child ≠ some np := by
  intro hq
  cases hnp with
  | inl hchild => exact hqs (h.forkAlone q s np hq hchild)
  | inr hfree => exact h.not_child (by rw [hfree.2]; decide) q hq

theorem forking_child (hpc : ∀ p, pc.child = some p → p = np) {p : Slot}
    (hq : (update k.pc s pc q).child = some p) :
    q = s ∧ p = np ∧ pc.child = some p ∨ q ≠ s ∧ p ≠ np ∧ (k.pc q).child = some p := by
  revert hq
  refine update_cases q (fun hq => .inl ⟨rfl, hpc p hq, hq⟩) fun q hqs hq => .inr ⟨hqs, ?_, hq⟩
  rintro rfl
  exact child_ne_of_ne h hnp hqs hq

theorem forking_owning {dirs : Finset Nat}
    (hpc : ∀ p, pc.child = some p → p = np) (hdirs : k.pgdirs ⊆ dirs)
    (hstack : r.state.Settled ∨ pc = .forkCopy np ∨ pc = .forkRun np → r.kstack ≠ 0)
    (hspace : r.state.Settled ∨ pc = .forkRun np → r.pgdir ≠ 0 ∧ r.pgdir ∈ dirs ∧
      ∀ p, p ≠ np → k.HasSpace p → (k.ptable p).pgdir ≠ r.pgdir) :
    Owning { k.forking s np r pc with pgdirs := dirs } := by
  have hmine : ∀ q x, Pc.child x = some np → update k.pc s pc q = x → pc = x := by
    intro q x hx
    refine update_cases q id fun q hqs hq => ?_
    exact absurd (hq ▸ hx) (child_ne_of_ne h hnp hqs)
  refine h.owning.replace np (fun p hp => update_of_ne hp _ _) ?_
    (fun p _ hp => hdirs (h.owning.space p hp).2) ?_ ?_
  · intro p hp q x hx
    simp only [Kern.forking]
    exact update_cases q (fun hq => absurd (hpc p (hq ▸ hx)) hp) fun _ _ => id
  · intro hs
    have hs' : r.state.Settled ∨ pc = .forkCopy np ∨ pc = .forkRun np := by
      cases hs with
      | inl hs => exact .inl (by simpa [Kern.forking] using hs)
      | inr hq =>
        obtain ⟨q, hq⟩ := hq
        exact .inr (hq.imp (hmine q _ rfl) (hmine q _ rfl))
    simpa [Kern.forking] using hstack hs'
  · intro hs
    have hs' : r.state.Settled ∨ pc = .forkRun np := by
      cases hs with
      | inl hs => exact .inl (by simpa [Kern.forking] using hs)
      | inr hq =>
        obtain ⟨q, hq⟩ := hq
        exact .inr (hmine q _ rfl hq)
    simpa [Kern.forking] using hspace hs'

theorem Safe.fork (hc : k.cpu c = some s) {dirs : Finset Nat}
    (hex : pc ≠ .exited)
    (hpc : pc.child = some np ∧ r.state = .embryo ∨ pc.child = none ∧ r.state ≠ .embryo)
    (hdirs : k.pgdirs ⊆ dirs)
    (hstack : r.state.Settled ∨ pc = .forkCopy np ∨ pc = .forkRun np → r.kstack ≠ 0)
    (hspace : r.state.Settled ∨ pc = .forkRun np → r.pgdir ≠ 0 ∧ r.pgdir ∈ dirs ∧
      ∀ p, p ≠ np → k.HasSpace p → (k.ptable p).pgdir ≠ r.pgdir) :
    Safe { k.forking s np r pc with pgdirs := dirs } := by
  have hrun := h.running c s hc
  have hsnp : s ≠ np := ne_of_settled h hnp (by rw [hrun]; decide)
  have hself : ∀ p, pc.child = some p → p = np ∧ r.state = .embryo := by
    intro p hp
    cases hpc with
    | inl hpc =>
      rw [hpc.1, Option.some.injEq] at hp
      exact ⟨hp.symm, hpc.2⟩
    | inr hpc =>
      rw [hpc.1] at hp
      cases hp
  have hchild := fun q p => forking_child h hnp (fun p hp => (hself p hp).1) (q := q) (p := p)
  constructor
  · exact forking_owning h hnp (fun p hp => (hself p hp).1) hdirs hstack hspace
  · intro c' s' hcs
    have hrun' := h.running c' s' hcs
    have hs' : s' ≠ np := ne_of_settled h hnp (by rw [hrun']; decide)
    simpa [Kern.forking, hs'] using hrun'
  · exact h.alone
  · intro q p hq
    rcases hchild q p hq with ⟨rfl, rfl, hp⟩ | ⟨hqs, hp, hq'⟩
    · have he := (hself p hp).2
      exact ⟨by simpa [Kern.forking] using he, .inr (by simpa [Kern.forking, hsnp] using hrun)⟩
    · obtain ⟨h1, h2⟩ := h.forking q p hq'
      have hqn : q ≠ np := ne_of_settled h hnp (by
        cases h2 with
        | inl h2 => rw [h2]; decide
        | inr h2 => rw [h2]; decide)
      exact ⟨by simpa [Kern.forking, hp] using h1, by simpa [Kern.forking, hqn] using h2⟩
  · intro q q' p hq hq'
    rcases hchild q p hq with ⟨rfl, rfl, -⟩ | ⟨-, hp, hq1⟩
    · rcases hchild q' _ hq' with ⟨rfl, -, -⟩ | ⟨-, hp, -⟩
      · rfl
      · exact absurd rfl hp
    · rcases hchild q' p hq' with ⟨-, rfl, -⟩ | ⟨-, -, hq2⟩
      · exact absurd rfl hp
      · exact h.forkAlone q q' p hq1 hq2
  · intro q hq
    have hqs : q ≠ s := by
      rintro rfl
      exact hex (by simpa [Kern.forking] using hq)
    have hq' : k.pc q = .exited := by simpa [Kern.forking, hqs] using hq
    have hz := h.exited q hq'
    have hqn : q ≠ np := ne_of_settled h hnp (by rw [hz]; decide)
    simpa [Kern.forking, hqn] using hz
  · exact h.sems

end Fork

end Kern

/-- What a step may do to free slots and to processes that have exited. -/
def Legal (e : Event) (t t' : PTable) : Prop := ∀ s,
  ((t s).state = .unused → (t' s).state ≠ .unused →
    (∃ c clock, e = .op c (.forkStart clock)) ∧ (t' s).state = .embryo) ∧
  ((t s).state = .zombie → (t' s).state ≠ .zombie →
    (∃ c, e = .op c .wait) ∧ (t' s).state = .unused)

theorem Legal.update {t : PTable} {s : Slot}
    (hu : (t s).state = .unused → r.state ≠ .unused →
      (∃ c clock, e = .op c (.forkStart clock)) ∧ r.state = .embryo)
    (hz : (t s).state = .zombie → r.state ≠ .zombie → (∃ c, e = .op c .wait) ∧ r.state = .unused) :
    Legal e t (update t s r) :=
  fun p => update_cases p ⟨hu, hz⟩ fun _ _ => ⟨absurd, absurd⟩

theorem Calm.legal {t t' : PTable} (h : Calm t t') (e : Event) : Legal e t t' := by
  intro s
  constructor
  · intro hu hu'
    exact absurd (h.state_eq hu (by decide)) hu'
  · intro hz hz'
    exact absurd (h.state_eq hz (by decide)) hz'

theorem Calm.legal_update {t t' : PTable} (h : Calm t t') {s : Slot} (e : Event)
    (hs : (t s).state ≠ .unused ∧ (t s).state ≠ .zombie) :
    Legal e t (Function.update t' s r) :=
  fun p => update_cases p ⟨fun hu => absurd hu hs.1, fun hz => absurd hz hs.2⟩ fun p _ =>
    h.legal e p

namespace Kern

variable {k : Kern} {s np : Slot}

/-- The steps on which safety rests: a semaphore call names a semaphore, an aquire finds a unit, a
release does not overflow the counter, and `level_change` moves no process. -/
def Allowed (k : Kern) : Event → Prop
  | .op _ (.sem (.aquire sid)) => ∃ j : Fin 5, wrap sid = j ∧ 0 < (k.sems j).value
  | .op _ (.sem (.release sid)) => ∃ j : Fin 5, wrap sid = j ∧ (k.sems j).value ≠ 2 ^ 31 - 1
  | .op _ (.levelChange _ pid _) => Still k.ptable pid
  | _ => True

/-- The outcome of a step from a safe state: the kernel stops only where `init` exits. -/
def Fine (k : Kern) (e : Event) (r : Except Fault Kern) : Prop :=
  Ends r (fun f => f = .initExiting) fun k' => Safe k' ∧ Legal e k.ptable k'.ptable

theorem Safe.loaded (h : Safe k) (hs : (k.ptable s).state.Settled) : Loaded (k.ptable s) :=
  ⟨h.owning.stack s (.inl hs), (h.owning.space s (.inl hs)).1⟩

theorem dispatch_fine (h : Safe k) (hr : (k.ptable s).state = .runnable) :
    Fine k (.dispatch c s) (k.dispatch c s) := by
  have hlegal : ∀ r, Legal (.dispatch c s) k.ptable (update k.ptable s r) := fun r =>
    (Calm.refl _).legal_update _ (by rw [hr]; decide)
  have hex : k.pc s ≠ .exited := by
    intro he
    have := h.exited s he
    rw [hr] at this
    cases this
  have hidle : ∀ np, Pc.child .idle = some np → k.pc s = .idle := by
    intro np hnp
    cases hnp
  rw [dispatch, switchuvm_ok (h.loaded (by rw [hr]; decide))]
  show Fine k _ (resume _ s)
  unfold resume
  split
  · exact absurd ‹_› hex
  · have hsafe : Safe { k with
        ptable := update k.ptable s { (k.ptable s).chosen with chan := .null }
        cpu := update k.cpu c (some s)
        pc := update k.pc s .idle } := h.dispatched hr rfl rfl rfl hidle (by decide)
    simp only [update_idem, update_self]
    exact ⟨hsafe, hlegal _⟩
  · have hsafe : Safe { k with
        ptable := update k.ptable s (k.ptable s).chosen
        cpu := update k.cpu c (some s)
        pc := update k.pc s (k.pc s) } :=
      h.dispatched hr rfl rfl rfl (fun _ _ => rfl) hex
    rw [update_eq_self] at hsafe
    exact ⟨hsafe, hlegal _⟩

theorem Safe.on_cpu (h : Safe k) (hc : k.cpu c = some s) :
    (k.ptable s).state ≠ .unused ∧ (k.ptable s).state ≠ .zombie := by
  rw [h.running c s hc]
  decide

theorem yield_fine (h : Safe k) (hc : k.cpu c = some s) (e : Event) :
    Fine k e (.ok (k.yield c s)) := by
  have hex : k.pc s ≠ .exited := fun he => (h.on_cpu hc).2 (h.exited s he)
  exact ⟨h.sched hc rfl rfl (fun _ _ => ⟨rfl, rfl⟩) (fun he => absurd he hex),
    (Calm.refl _).legal_update e (h.on_cpu hc)⟩

theorem sleep_fine (h : Safe k) (hc : k.cpu c = some s) (chan : Chan) (e : Event) :
    Fine k e (.ok (k.sleep c s chan)) :=
  ⟨h.sched hc rfl rfl (fun _ hnp => nomatch hnp) (fun he => nomatch he),
    (Calm.refl _).legal_update e (h.on_cpu hc)⟩

theorem exit_fine (h : Safe k) (hc : k.cpu c = some s) (e : Event) :
    Fine k e (k.exit c s) := by
  unfold exit
  split
  · exact rfl
  · generalize ht1 : update k.ptable s
      { k.ptable s with ofile := fun _ => 0, cwd := 0 } = t1
    have hcalm : Calm k.ptable (reparent k.initproc s slots
        (wakeup1 t1 (.ofProc (t1 s).parent))) := by
      have h1 : Calm k.ptable t1 := ht1 ▸ .update (.inl rfl) fun _ => ⟨rfl, rfl⟩
      exact (h1.trans (.wakeup1 _ _)).trans (.reparent _ _ _ _)
    exact ⟨(h.calm hcalm).sched hc rfl rfl (fun _ hnp => nomatch hnp) (fun _ => rfl),
      hcalm.legal_update e (h.on_cpu hc)⟩

theorem wait_fine (h : Safe k) (hc : k.cpu c = some s) :
    Fine k (.op c .wait) ((k.wait c s).map Prod.snd) := by
  unfold wait
  cases hz : findZombie k.ptable s with
  | some p =>
    have hp : (k.ptable p).state = .zombie := by
      have := List.find?_some hz
      simp only [decide_eq_true_eq] at this
      exact this.2
    have hload := h.loaded (s := p) (by rw [hp]; decide)
    simp only [hload.1, hload.2, if_false]
    refine ⟨h.reap hp rfl, .update ?_ fun _ _ => ⟨⟨c, rfl⟩, rfl⟩⟩
    intro hu
    rw [hp] at hu
    cases hu
  | none =>
    simp only
    split
    · exact ⟨h, (Calm.refl _).legal _⟩
    · exact sleep_fine h hc _ _

theorem Safe.nextpid (h : Safe k) (n : Int) : Safe { k with nextpid := n } where
  owning := ⟨h.owning.stack, h.owning.space, h.owning.alone⟩
  running := h.running
  alone := h.alone
  forking := h.forking
  forkAlone := h.forkAlone
  exited := h.exited
  sems := h.sems

theorem forkStart_fine (h : Safe k) (hc : k.cpu c = some s) (hpc : k.pc s = .idle)
    (clock : RtcDate) :
    Fine k (.op c (.forkStart clock)) (.ok (k.forkStart s clock)) := by
  unfold forkStart
  cases hu : slots.find? fun p => (k.ptable p).state = .unused with
  | none => exact ⟨h, (Calm.refl _).legal _⟩
  | some np =>
    have hfree : (k.ptable np).state = .unused := by
      have := List.find?_some hu
      simpa using this
    have hsafe : Safe { k.forking s np ((k.ptable np).embryo k.nextpid clock k.ratios)
        (.forkStack np) with pgdirs := k.pgdirs } := by
      refine h.fork (.inr ⟨by rw [hpc]; rfl, hfree⟩) hc nofun (.inl ⟨rfl, rfl⟩)
        (Finset.Subset.refl _) ?_ ?_
      · simp [Proc.embryo, Proc.custom, ProcState.Settled]
      · simp [Proc.embryo, Proc.custom, ProcState.Settled]
    refine ⟨hsafe.nextpid _, .update (fun _ _ => ⟨⟨c, clock, rfl⟩, rfl⟩) ?_⟩
    intro hz
    rw [hfree] at hz
    cases hz

theorem legal_embryo (he : (k.ptable np).state = .embryo) :
    Legal e k.ptable (update k.ptable np r) :=
  (Calm.refl _).legal_update e (by rw [he]; decide)

theorem Safe.abandon (h : Safe k) (hc : k.cpu c = some s)
    (hnp : (k.pc s).child = some np) (hr : r.state = .unused) :
    Safe (k.forking s np r .idle) := by
  have hne : r.state ≠ .embryo := by rw [hr]; decide
  refine h.fork (.inl hnp) hc nofun (.inr ⟨rfl, hne⟩) (Finset.Subset.refl _) ?_ ?_
  · simp [hr, ProcState.Settled]
  · simp [hr, ProcState.Settled]

theorem forkStack_fine (h : Safe k) (hc : k.cpu c = some s)
    (hpc : k.pc s = .forkStack np) (kstack : Nat) (e : Event) :
    Fine k e (.ok (k.forkStack s np kstack)) := by
  have hchild : (k.pc s).child = some np := by rw [hpc]; rfl
  have he := (h.forking s np hchild).1
  unfold forkStack
  split
  · exact ⟨h.abandon hc hchild rfl, legal_embryo he⟩
  · rename_i hk
    refine ⟨?_, legal_embryo he⟩
    refine h.fork (.inl hchild) hc nofun (.inl ⟨rfl, he⟩) (Finset.Subset.refl _)
      (fun _ => hk) ?_
    simp [Proc.withStack, he, ProcState.Settled]

theorem forkCopy_fine (h : Safe k) (hc : k.cpu c = some s)
    (hpc : k.pc s = .forkCopy np) {pgdir : Nat} (hfresh : pgdir ∉ k.pgdirs) (clock : RtcDate)
    (e : Event) : Fine k e (.ok (k.forkCopy s np pgdir clock)) := by
  have hchild : (k.pc s).child = some np := by rw [hpc]; rfl
  have he := (h.forking s np hchild).1
  unfold forkCopy
  split
  · exact ⟨h.abandon hc hchild rfl, legal_embryo he⟩
  · rename_i hd
    refine ⟨?_, legal_embryo he⟩
    refine h.fork (.inl hchild) hc nofun (.inl ⟨rfl, he⟩) (Finset.subset_insert _ _)
      (fun _ => h.owning.stack np (.inr ⟨s, .inl hpc⟩)) (fun _ => ?_)
    refine ⟨hd, Finset.mem_insert_self _ _, fun p _ hp heq => hfresh ?_⟩
    have hmem := (h.owning.space p hp).2
    rwa [heq] at hmem

theorem forkRun_fine (h : Safe k) (hc : k.cpu c = some s)
    (hpc : k.pc s = .forkRun np) (e : Event) : Fine k e (.ok (k.forkRun s np)) := by
  have hchild : (k.pc s).child = some np := by rw [hpc]; rfl
  have hsp : k.HasSpace np := .inr ⟨s, hpc⟩
  have hspace := h.owning.space np hsp
  refine ⟨?_, legal_embryo (h.forking s np hchild).1⟩
  refine h.fork (.inl hchild) hc nofun (.inr ⟨rfl, nofun⟩) (Finset.Subset.refl _)
    (fun _ => h.owning.stack np hsp.hasStack) (fun _ => ⟨hspace.1, hspace.2, ?_⟩)
  intro p hp hpp heq
  exact hp (h.owning.alone p np hpp hsp heq)

theorem Safe.setSem (h : Safe k) (j : Fin 5) {sem : Sem} (hs : sem.Ok) (hv : 0 ≤ sem.value) :
    Safe { k with sems := update k.sems j sem } where
  owning := ⟨h.owning.stack, h.owning.space, h.owning.alone⟩
  running := h.running
  alone := h.alone
  forking := h.forking
  forkAlone := h.forkAlone
  exited := h.exited
  sems i := by
    dsimp only
    exact update_cases i ⟨hs, hv⟩ fun i _ => h.sems i

theorem sem_fine (h : Safe k) (call : SemCall) (ha : k.Allowed (.op c (.sem call))) :
    Fine k (.op c (.sem call))
      ((k.toSemSys.call s call).map fun r => { k with toSemSys := r.2 }) := by
  have hlegal : Legal (.op c (.sem call)) k.ptable k.ptable := (Calm.refl _).legal _
  cases call with
  | init sid v m =>
    unfold SemSys.call semaphoreInitialize
    simp only [Except.map]
    split
    · exact ⟨h, hlegal⟩
    · rename_i hgood
      have hok : ∀ sem : Sem,
          Sem.Ok { sem with value := wrap v, m := wrap m, numOfProcs := 0 } := by
        intro sem
        exact ⟨by simp only; omega, by simp only; omega, (wrap_bounds v).2,
          fun i hi => absurd hi (by simp only; omega)⟩
      exact ⟨h.setSem _ (hok _) (by simp only; omega), hlegal⟩
  | aquire sid =>
    obtain ⟨j, hj, hv⟩ := ha
    obtain ⟨hok, hv0⟩ := h.sems j
    have hhi := hok.hi
    rw [SemSys.call, hj, semaphoreAquire_unit hok s hv]
    exact ⟨h.setSem j (hok.setValue hv0 (by omega) (by omega)) (by simp only; omega), hlegal⟩
  | release sid =>
    obtain ⟨j, hj, hmax⟩ := ha
    obtain ⟨hok, hv0⟩ := h.sems j
    have hhi := hok.hi
    rw [SemSys.call, hj, semaphoreRelease_unit hok hv0 hmax]
    exact ⟨h.setSem j (hok.setValue hv0 (by omega) (by omega)) (by simp only; omega), hlegal⟩

theorem kill_eq (k : Kern) (pid : Int) :
    (k.kill pid).2 = { k with ptable := (k.kill pid).2.ptable } := by
  unfold kill
  cases findWithPid k.ptable pid with
  | none => rfl
  | some p => rfl

/-- What switching to `p` leaves: its thread goes on, or comes back out of `sleep`. -/
inductive Resumed (k : Kern) (c : Cpu) (p : Slot) : Kern → Prop where
  | runs : Resumed k c p { k with
      ptable := update k.ptable p (k.ptable p).chosen
      cpu := update k.cpu c (some p) }
  | woken : Resumed k c p { k with
      ptable := update k.ptable p { (k.ptable p).chosen with chan := .null }
      cpu := update k.cpu c (some p)
      pc := update k.pc p .idle }

theorem dispatch_resumed (h : k.dispatch c s = .ok k') : Resumed k c s k' := by
  unfold dispatch at h
  cases hload : switchuvm (k.ptable s) with
  | error f =>
    rw [hload] at h
    cases h
  | ok _ =>
    rw [hload, ok_bind] at h
    unfold resume at h
    split at h
    · cases h
    · cases h
      simp only [update_idem, update_self]
      exact .woken
    · cases h
      exact .runs

/-- What a process has done, with its thread at a place. -/
inductive Done (k : Kern) (c : Cpu) (s : Slot) : Op → Pc → Kern → Prop where
  | yield {pc : Pc} : Done k c s .yield pc (k.yield c s)
  | sleep {chan : Chan} : Done k c s (.sleep chan) .idle (k.sleep c s chan)
  | kill {pid : Int} : Done k c s (.kill pid) .idle (k.kill pid).2
  | exit {k' : Kern} : k.exit c s = .ok k' → Done k c s .exit .idle k'
  | wait {r : Option Int × Kern} : k.wait c s = .ok r → Done k c s .wait .idle r.2
  | forkStart {clock : RtcDate} : Done k c s (.forkStart clock) .idle (k.forkStart s clock)
  | forkStack {np : Slot} {kstack : Nat} :
      Done k c s (.forkStack kstack) (.forkStack np) (k.forkStack s np kstack)
  | forkCopy {np : Slot} {pgdir : Nat} {clock : RtcDate} :
      Done k c s (.forkCopy pgdir clock) (.forkCopy np) (k.forkCopy s np pgdir clock)
  | forkRun {np : Slot} : Done k c s .forkRun (.forkRun np) (k.forkRun s np)
  | sem {call : SemCall} {r : Int × SemSys} : k.toSemSys.call s call = .ok r →
      Done k c s (.sem call) .idle { k with toSemSys := r.2 }
  | levelChange {temp : Proc} {pid level : Int} : Done k c s (.levelChange temp pid level) .idle
      { k with ptable := (levelChange temp k.ptable pid level).2 }

theorem exec_done {o : Op} (h : k.exec c s o pc = some (.ok k')) : Done k c s o pc k' := by
  unfold exec at h
  split at h
  · cases h; exact .yield
  · cases h; exact .sleep
  · cases h; exact .kill
  · exact .exit (Option.some.inj h)
  · have h := Option.some.inj h
    cases hw : k.wait c s with
    | error f => rw [hw] at h; cases h
    | ok r => rw [hw] at h; cases h; exact .wait hw
  · cases h; exact .forkStart
  · cases h; exact .forkStack
  · split at h
    · cases h
    · cases h; exact .forkCopy
  · cases h; exact .forkRun
  · rename_i call
    have h := Option.some.inj h
    cases hcall : k.toSemSys.call s call with
    | error f => rw [hcall] at h; cases h
    | ok r => rw [hcall] at h; cases h; exact .sem hcall
  · cases h; exact .levelChange
  · cases h

theorem exec_fine (h : Safe k) (hc : k.cpu c = some s) {o : Op}
    (ha : k.Allowed (.op c o)) (hpc : k.pc s = pc) {r : Except Fault Kern}
    (hr : k.exec c s o pc = some r) : Fine k (.op c o) r := by
  cases o with
  | yield =>
    cases pc <;> cases hr <;> exact yield_fine h hc _
  | sleep chan =>
    cases pc with
    | idle => cases hr; exact sleep_fine h hc chan _
    | _ => cases hr
  | kill pid =>
    cases pc with
    | idle =>
      cases hr
      have hcalm := Calm.kill k pid
      have hsafe := h.calm hcalm
      rw [← kill_eq] at hsafe
      exact ⟨hsafe, hcalm.legal _⟩
    | _ => cases hr
  | exit =>
    cases pc with
    | idle => cases hr; exact exit_fine h hc _
    | _ => cases hr
  | wait =>
    cases pc with
    | idle => cases hr; exact wait_fine h hc
    | _ => cases hr
  | forkStart clock =>
    cases pc with
    | idle => cases hr; exact forkStart_fine h hc hpc clock
    | _ => cases hr
  | forkStack kstack =>
    cases pc with
    | forkStack np => cases hr; exact forkStack_fine h hc hpc kstack _
    | _ => cases hr
  | forkCopy pgdir clock =>
    cases pc with
    | forkCopy np =>
      simp only [exec] at hr
      split at hr
      · cases hr
      · rename_i hfresh
        cases hr
        exact forkCopy_fine h hc hpc hfresh clock _
    | _ => cases hr
  | forkRun =>
    cases pc with
    | forkRun np => cases hr; exact forkRun_fine h hc hpc _
    | _ => cases hr
  | sem call =>
    cases pc with
    | idle => cases hr; exact sem_fine h call ha
    | _ => cases hr
  | levelChange temp pid level =>
    cases pc with
    | idle =>
      cases hr
      have hcalm : Calm k.ptable _ := Still.calm ha temp level
      exact ⟨h.calm hcalm, hcalm.legal _⟩
    | _ => cases hr

theorem Safe.step (h : Safe k) (ha : k.Allowed e) {r : Except Fault Kern}
    (hr : k.step e = some r) : Fine k e r := by
  cases e with
  | dispatch c p =>
    simp only [Kern.step] at hr
    split at hr
    · rename_i hg
      cases hr
      exact dispatch_fine h hg.2
    · cases hr
  | wakeup chan =>
    cases hr
    have hcalm := Calm.wakeup1 k.ptable chan
    exact ⟨h.calm hcalm, hcalm.legal _⟩
  | op c o =>
    cases hc : k.cpu c with
    | none => simp [Kern.step, hc] at hr
    | some s =>
      simp only [Kern.step, hc] at hr
      exact exec_fine h hc ha rfl hr

theorem Init.safe (h : Init k) : Safe k := by
  obtain ⟨kstack, pgdir, cwd, clock, hk, hp, rfl⟩ := h
  have hstate : ∀ s, s ≠ 0 → ((userinit kstack pgdir cwd clock).ptable s).state = .unused := by
    intro s hs
    simp [userinit, hs, Proc.zero]
  have hzero : ∀ s, (userinit kstack pgdir cwd clock).HasStack s → s = 0 := by
    intro s hs
    by_contra hne
    cases hs with
    | inl hs => exact hs.1 (hstate s hne)
    | inr hq =>
      obtain ⟨q, hq⟩ := hq
      cases hq with
      | inl hq => cases hq
      | inr hq => cases hq
  constructor
  · constructor
    · intro s hs
      obtain rfl := hzero s hs
      simpa [userinit, Proc.withStack] using hk
    · intro s hs
      obtain rfl := hzero s hs.hasStack
      simpa [userinit] using hp
    · intro s s' hs hs' _
      rw [hzero s hs.hasStack, hzero s' hs'.hasStack]
  · intro c s hc
    cases hc
  · intro c c' s hc
    cases hc
  · intro s np hnp
    cases hnp
  · intro s s' np hnp
    cases hnp
  · intro s hs
    cases hs
  · intro j
    exact ⟨Sem.ok_zero, le_refl 0⟩

def AllowedStep (k : Kern) (e : Event) (k' : Kern) : Prop :=
  k.Allowed e ∧ k.step e = some (.ok k')

theorem reach_safe (h : Reach Init AllowedStep k) : Safe k := by
  refine h.invariant (fun _ => Init.safe) ?_
  intro k e k' hk hs
  exact (ends_ok.mp (hk.step hs.1 hs.2)).1

/-- In every state of an allowed run, what is runnable or running has its stack and its page
directory, and an allowed step neither takes a slot out of the free or the exited ones in another
way than `allocproc` and `wait`, nor stops the kernel unless `init` exits. -/
theorem life_cycle_safe (h : Reach Init AllowedStep k) :
    (∀ s, (k.ptable s).state = .runnable ∨ (k.ptable s).state = .running →
      (k.ptable s).kstack ≠ 0 ∧ (k.ptable s).pgdir ≠ 0 ∧ (k.ptable s).pgdir ∈ k.pgdirs) ∧
    ∀ e, k.Allowed e →
      (∀ f, k.step e = some (.error f) → f = .initExiting) ∧
      ∀ k', k.step e = some (.ok k') → Legal e k.ptable k'.ptable := by
  have hsafe := reach_safe h
  constructor
  · intro s hs
    have hset : (k.ptable s).state.Settled := by
      cases hs with
      | inl hs => rw [hs]; decide
      | inr hs => rw [hs]; decide
    exact ⟨hsafe.owning.stack s (.inl hset), hsafe.owning.space s (.inl hset)⟩
  · intro e ha
    constructor
    · intro f hf
      have hfine : Fine k e (.error f) := hsafe.step ha hf
      exact hfine
    · intro k' hk'
      exact (ends_ok.mp (hsafe.step ha hk')).2

/-- `init` in the first slot, after `userinit`. -/
def firstKern : Kern := userinit 4096 8192 0 ⟨0, 0, 0⟩

theorem firstKern_init : Init firstKern :=
  ⟨4096, 8192, 0, ⟨0, 0, 0⟩, by decide, by decide, rfl⟩

/-- The state after the events, if each of them can happen. -/
def after : Kern → List Event → Option Kern
  | k, [] => some k
  | k, e :: es =>
    match k.step e with
    | some (.ok k') => k'.after es
    | _ => none

variable {k' : Kern}

theorem step_of_after {e : Event} (h : k.after [e] = some k') : k.step e = some (.ok k') := by
  simp only [after] at h
  split at h
  · cases h
    assumption
  · cases h

theorem reach_events {ε : Type} {step : Kern → ε → Kern → Prop} {Q : Event → Prop}
    {init : Kern → Prop} (f : Event → ε)
    (hstep : ∀ k e k', Q e → k.step e = some (.ok k') → step k (f e) k') {es : List Event}
    (hes : ∀ e ∈ es, Q e) (h : Reach init step k) (hr : k.after es = some k') :
    Reach init step k' := by
  induction es generalizing k with
  | nil => cases hr; exact h
  | cons e es ih =>
    simp only [after] at hr
    obtain ⟨he, hes⟩ := List.forall_mem_cons.mp hes
    split at hr
    · exact ih hes (h.step (hstep _ _ _ he ‹_›)) hr
    · cases hr

/-- `init` forks, and the child runs. -/
def childRuns : List Event :=
  [.dispatch 0 0, .op 0 (.forkStart ⟨0, 0, 0⟩), .op 0 (.forkStack 12288),
    .op 0 (.forkCopy 16384 ⟨0, 0, 0⟩), .op 0 .forkRun, .dispatch 1 1]

/-- The child has what it needs, and its `exit` leaves it to `wait`. -/
theorem life_cycle_safe_child :
    ∃ k k', Reach Init AllowedStep k ∧ (k.ptable 1).state = .running ∧ (k.ptable 1).kstack ≠ 0 ∧
      (k.ptable 1).pgdir ∈ k.pgdirs ∧ k.step (.op 1 .exit) = some (.ok k') ∧
      (k'.ptable 1).state = .zombie ∧ Legal (.op 1 .exit) k.ptable k'.ptable := by
  have hrun : ((firstKern.after childRuns).any fun k => (k.ptable 1).state = .running ∧
      (k.after [.op 1 .exit]).any fun k' => (k'.ptable 1).state = .zombie) = true := by
    decide +kernel
  obtain ⟨k, hk, h⟩ := (Option.any_eq_true _ _).mp hrun
  obtain ⟨hr, h⟩ := of_decide_eq_true h
  obtain ⟨k', hk', hz⟩ := (Option.any_eq_true _ _).mp h
  have hallowed : ∀ e ∈ childRuns, ∀ k, Allowed k e := by simp [childRuns, Allowed]
  have hreach : Reach Init AllowedStep k :=
    reach_events id (fun _ _ _ hq hs => ⟨hq _, hs⟩) hallowed (.start firstKern_init) hk
  obtain ⟨hown, hstep⟩ := life_cycle_safe hreach
  have hchild := hown 1 (.inr hr)
  exact ⟨k, k', hreach, hr, hchild.1, hchild.2.2, step_of_after hk', of_decide_eq_true hz,
    (hstep (.op 1 .exit) trivial).2 k' (step_of_after hk')⟩

def Step (k : Kern) (e : Event) (k' : Kern) : Prop := k.step e = some (.ok k')

def stops (k : Kern) (e : Event) (f : Fault) : Bool :=
  match k.step e with
  | some (.error f') => f' = f
  | _ => false

/-- The child finds no unit at the first semaphore, and exits. -/
def childExits : List Event := childRuns ++ [.op 1 (.sem (.aquire 0)), .op 1 .exit]

/-- The release by `init` makes the child runnable again, and the scheduler runs it into the last
`panic` of `exit`. -/
theorem release_wakes_zombie :
    ∃ k k', Reach Init Step k ∧ (k.ptable 1).state = .zombie ∧
      Step k (.op 0 (.sem (.release 0))) k' ∧ (k'.ptable 1).state = .runnable ∧
      k'.stops (.dispatch 1 1) .zombieExit = true := by
  have hrun : ((firstKern.after childExits).any fun k => (k.ptable 1).state = .zombie ∧
      (k.after [.op 0 (.sem (.release 0))]).any fun k' => (k'.ptable 1).state = .runnable ∧
        k'.stops (.dispatch 1 1) .zombieExit = true) = true := by
    decide +kernel
  obtain ⟨k, hk, h⟩ := (Option.any_eq_true _ _).mp hrun
  obtain ⟨hz, h⟩ := of_decide_eq_true h
  obtain ⟨k', hk', h'⟩ := (Option.any_eq_true _ _).mp h
  obtain ⟨hr, hstop⟩ := of_decide_eq_true h'
  have hreach : Reach Init Step k :=
    reach_events id (fun _ _ _ _ hs => hs) (fun _ _ => trivial) (.start firstKern_init) hk
  exact ⟨k, k', hreach, hz, step_of_after hk', hr, hstop⟩

end Kern

end Xv6.Kernel
