import Xv6.Kernel.Levels

/-!
# Xv6.Kernel.Kill

Whom `kill` hits, and how a process starts.

`kill` takes the first slot with the pid, in whatever state it is. `wait` leaves a free slot with
pid 0, and a `fork` that fails leaves one with the pid it was about to use; `allocproc` does not
clear `killed`. `Named` asks that the slot that `kill` finds holds a process that `fork` has
finished.
-/

namespace Xv6.Kernel
namespace Kern

open Option

variable {k k' : Kern} {s : Slot} {c : Cpu} {pid : Int}

/-- The record of a process that has been killed. -/
def killedProc (p : Proc) : Proc :=
  { p with killed := 1, state := if p.state = .sleeping then .runnable else p.state }

/-- If a process has the pid, then `kill` returns 0 and kills that process only. Otherwise it
returns -1 and changes nothing. -/
structure KillExact (k : Kern) (pid : Int) : Prop where
  hit : (∃ p, k.ptable.Live p ∧ (k.ptable p).pid = pid) → ∃ p, k.ptable.Live p ∧
    (k.ptable p).pid = pid ∧
    k.kill pid = (0, { k with ptable := Function.update k.ptable p (killedProc (k.ptable p)) })
  miss : (¬ ∃ p, k.ptable.Live p ∧ (k.ptable p).pid = pid) → k.kill pid = (-1, k)

/-- `kill` is exact, and the child that `fork` makes runnable is not killed. -/
def Exact (k : Kern) : Event → Prop
  | .op _ (.kill pid) => KillExact k pid
  | .op c .forkRun => ∀ s np, k.cpu c = some s → k.pc s = .forkRun np →
      ((k.forkRun s np).ptable np).killed = 0
  | _ => True

/-- The slot that `kill` finds, if any, holds a process that `fork` has finished. -/
def Named (k : Kern) : Event → Prop
  | .op _ (.kill pid) => ∀ p, findWithPid k.ptable pid = some p → (k.ptable p).state.Settled
  | _ => True

def OrdinaryStep (k : Kern) (e : Event) (k' : Kern) : Prop :=
  e.Ordinary ∧ k.step e = some (.ok k')

def NamedStep (k : Kern) (e : Event) (k' : Kern) : Prop := k.Named e ∧ OrdinaryStep k e k'

theorem kill_some {p : Slot} (h : findWithPid k.ptable pid = some p) : k.kill pid =
      (0, { k with ptable := Function.update k.ptable p (killedProc (k.ptable p)) }) := by
  rw [kill, h]
  simp only [killedProc]
  by_cases hs : (k.ptable p).state = .sleeping
  · simp only [hs, if_true]
  · simp only [hs, if_false]

theorem killExact_of_settled
    (h : ∀ p, findWithPid k.ptable pid = some p → (k.ptable p).state.Settled) :
    KillExact k pid := by
  cases hf : findWithPid k.ptable pid with
  | none =>
    have hno : ∀ p, (k.ptable p).pid ≠ pid := fun p hp => by
      have := List.find?_eq_none.mp hf p (mem_slots p)
      simp [hp] at this
    refine ⟨fun hlive => hlive.elim fun p hp => absurd hp.2 (hno p), fun _ => ?_⟩
    rw [kill, hf]
  | some p =>
    have hp : (k.ptable p).pid = pid := by simpa using List.find?_some hf
    have hlive : k.ptable.Live p := (h p hf).1
    exact ⟨fun _ => ⟨p, hlive, hp, kill_some hf⟩, fun hno => absurd ⟨p, hlive, hp⟩ hno⟩

/-- A slot that is free, or being filled by `fork`, is not marked as killed. -/
def Unmarked (p : Proc) : Prop := p.state.Settled ∨ p.killed = 0

def Clean (t : PTable) : Prop := ∀ s, Unmarked (t s)

namespace Clean

variable {t : PTable}

theorem update {r : Proc} (h : Clean t) (hr : Unmarked r) : Clean (Function.update t s r) := by
  intro p
  by_cases hp : p = s
  · subst hp
    rwa [Function.update_self]
  · rw [Function.update_of_ne hp]
    exact h p

theorem settled {r : Proc} (h : Clean t) (hr : r.state.Settled) : Clean (Function.update t s r) :=
  h.update (.inl hr)

theorem wakeup1 (h : Clean t) (chan : Chan) : Clean (Kernel.wakeup1 t chan) := by
  intro p
  simp only [Kernel.wakeup1]
  split
  · exact .inl ⟨by simp, by simp⟩
  · exact h p

theorem reparent {init s : Slot} (l : List Slot) (h : Clean t) :
    Clean (Kernel.reparent init s l t) := by
  induction l generalizing t with
  | nil => exact h
  | cons p l ih =>
    simp only [Kernel.reparent]
    split
    · have hp : Clean (Function.update t p { t p with parent := some init }) := h.update (h p)
      refine ih ?_
      split
      · exact hp.wakeup1 _
      · exact hp
    · exact ih h

end Clean

theorem Unmarked.killed {p : Proc} (h : Unmarked p) (hs : ¬ p.state.Settled) : p.killed = 0 :=
  h.resolve_left hs

theorem Safe.child_killed (h : Safe k) (hk : Clean k.ptable) {np : Slot}
    (hq : (k.pc s).child = some np) : (k.ptable np).killed = 0 := by
  refine (hk np).killed ?_
  rw [(h.forking s np hq).1]
  decide

theorem exec_clean (h : Safe k) (hk : Clean k.ptable) {o : Op} (ho : (Event.op c o).Ordinary)
    (hn : k.Named (.op c o)) {pc : Pc} (hpc : k.pc s = pc)
    (hr : k.exec c s o pc = some (.ok k')) : Clean k'.ptable := by
  cases exec_done hr with
  | yield => exact hk.settled ⟨by simp, by simp⟩
  | sleep => exact hk.settled ⟨by simp, by simp⟩
  | @kill pid =>
    cases hf : findWithPid k.ptable pid with
    | none =>
      rw [kill, hf]
      exact hk
    | some p =>
      rw [kill_some hf]
      refine hk.settled ?_
      simp only [killedProc]
      split
      · exact ⟨by decide, by decide⟩
      · exact hn p hf
  | exit he =>
    unfold exit at he
    split at he
    · cases he
    · cases he
      have h0 : Clean (Function.update k.ptable s
          { k.ptable s with ofile := fun _ => 0, cwd := 0 }) := hk.update (hk s)
      exact ((h0.wakeup1 _).reparent slots).settled ⟨by simp, by simp⟩
  | wait hw =>
    unfold wait at hw
    split at hw
    · split at hw
      · cases hw
      · split at hw
        · cases hw
        · cases hw
          exact hk.update (.inr rfl)
    · split at hw
      · cases hw
        exact hk
      · cases hw
        exact hk.settled ⟨by simp, by simp⟩
  | forkStart =>
    unfold forkStart
    split
    · exact hk
    · rename_i np hnp
      have hu : (k.ptable np).state = .unused := by simpa using List.find?_some hnp
      refine hk.update (.inr ((hk np).killed ?_))
      rw [hu]
      decide
  | @forkStack np =>
    have h0 : (k.ptable np).killed = 0 := h.child_killed hk (s := s) (by rw [hpc]; rfl)
    unfold forkStack
    split
    · exact hk.update (.inr h0)
    · exact hk.update (.inr h0)
  | @forkCopy np =>
    have h0 : (k.ptable np).killed = 0 := h.child_killed hk (s := s) (by rw [hpc]; rfl)
    unfold forkCopy
    split
    · exact hk.update (.inr h0)
    · exact hk.update (.inr h0)
  | forkRun => exact hk.settled ⟨by simp, by simp⟩
  | sem => exact ho.elim
  | levelChange => exact ho.elim

theorem step_clean (h : Safe k) (hk : Clean k.ptable) {e : Event} (hs : NamedStep k e k') :
    Clean k'.ptable := by
  obtain ⟨hn, he, hst⟩ := hs
  cases e with
  | dispatch c p =>
    simp only [step] at hst
    split at hst
    · cases dispatch_resumed (Option.some.inj hst) <;>
        exact hk.settled ⟨by simp [Proc.chosen], by simp [Proc.chosen]⟩
    · cases hst
  | wakeup chan =>
    cases hst
    exact hk.wakeup1 chan
  | op c o =>
    cases hc : k.cpu c with
    | none => simp [step, hc] at hst
    | some s =>
      simp only [step, hc] at hst
      exact exec_clean h hk he hn rfl hst

theorem Init.clean (h : Init k) : Clean k.ptable := by
  obtain ⟨kstack, pgdir, cwd, clock, -, -, rfl⟩ := h
  exact Clean.update (fun _ => .inr rfl) (.inr rfl)

theorem reach_clean (h : Reach Init NamedStep k) : Safe k ∧ Clean k.ptable := by
  refine h.invariant (P := fun k => Safe k ∧ Clean k.ptable)
    (fun _ hi => ⟨hi.safe, hi.clean⟩) fun k e k' hk hs => ?_
  exact ⟨(ends_ok.mp (hk.1.step (ordinary_allowed hs.2.1) hs.2.2)).1, step_clean hk.1 hk.2 hs⟩

/-- In every run in which each `kill` finds a process, `kill` is exact and processes start clean. -/
theorem kill_exact {e : Event} (h : Reach Init NamedStep k) (hs : NamedStep k e k') :
    k.Exact e := by
  obtain ⟨hsafe, hclean⟩ := reach_clean h
  cases e with
  | dispatch c p => trivial
  | wakeup chan => trivial
  | op c o =>
    cases o with
    | kill pid => exact killExact_of_settled hs.1
    | forkRun =>
      intro s np _ hpc
      simp only [forkRun, forking, Function.update_self]
      exact hsafe.child_killed hclean (by rw [hpc]; rfl)
    | _ => trivial

theorem kill_exact_init : ∃ k k', Reach Init NamedStep k ∧ NamedStep k (.op 0 (.kill 1)) k' ∧
    (k'.ptable 0).killed = 1 ∧ k.Exact (.op 0 (.kill 1)) := by
  have hrun : ((firstKern.after [.dispatch 0 0]).any fun k =>
      findWithPid k.ptable 1 = some 0 ∧ (k.ptable 0).state.Settled ∧
        (k.after [.op 0 (.kill 1)]).any fun k' => (k'.ptable 0).killed = 1) = true := by
    decide +kernel
  obtain ⟨k, hk, h⟩ := (any_eq_true _ _).mp hrun
  obtain ⟨hfind, hset, h⟩ := of_decide_eq_true h
  obtain ⟨k', hk', h1⟩ := (any_eq_true _ _).mp h
  have hreach : Reach Init NamedStep k :=
    (Reach.start firstKern_init).step ⟨by trivial, by trivial, step_of_after hk⟩
  have hstep : NamedStep k (.op 0 (.kill 1)) k' := by
    refine ⟨fun p hp => ?_, trivial, step_of_after hk'⟩
    rw [hfind] at hp
    cases hp
    exact hset
  exact ⟨k, k', hreach, hstep, of_decide_eq_true h1, kill_exact hreach hstep⟩

/-- `init` kills pid 0 and forks, up to the last step of `fork`. -/
def killsZero : List Event :=
  [.dispatch 0 0, .op 0 (.kill 0), .op 0 (.forkStart ⟨0, 0, 0⟩), .op 0 (.forkStack 12288),
    .op 0 (.forkCopy 16384 ⟨0, 0, 0⟩)]

/-- `kill(0)` marks a free slot, and the next child is born killed. -/
theorem kill_zero_marks_child :
    (∃ k k', Reach Init OrdinaryStep k ∧ OrdinaryStep k (.op 0 (.kill 0)) k' ∧
      ¬ k.Exact (.op 0 (.kill 0))) ∧
    ∃ k k', Reach Init OrdinaryStep k ∧ OrdinaryStep k (.op 0 .forkRun) k' ∧
      ¬ k.Exact (.op 0 .forkRun) := by
  constructor
  · have hrun : ((firstKern.after [.dispatch 0 0]).any fun k =>
        (∀ p, k.ptable.Live p → (k.ptable p).pid ≠ 0) ∧ (k.kill 0).1 = 0 ∧
          (k.after [.op 0 (.kill 0)]).isSome) = true := by
      decide +kernel
    obtain ⟨k, hk, h⟩ := (any_eq_true _ _).mp hrun
    obtain ⟨hno, hzero, h⟩ := of_decide_eq_true h
    obtain ⟨k', hk'⟩ := isSome_iff_exists.mp h
    refine ⟨k, k', (Reach.start firstKern_init).step ⟨by trivial, step_of_after hk⟩,
      ⟨trivial, step_of_after hk'⟩, fun hex => ?_⟩
    have hmiss := hex.miss fun ⟨p, hp, h0⟩ => hno p hp h0
    rw [hmiss] at hzero
    cases hzero
  · have hrun : ((firstKern.after killsZero).any fun k => k.cpu 0 = some 0 ∧ k.pc 0 = .forkRun 1 ∧
        ((k.forkRun 0 1).ptable 1).killed ≠ 0 ∧ (k.after [.op 0 .forkRun]).isSome) = true := by
      decide +kernel
    obtain ⟨k, hk, h⟩ := (any_eq_true _ _).mp hrun
    obtain ⟨hcpu, hpc, hkilled, h⟩ := of_decide_eq_true h
    obtain ⟨k', hk'⟩ := isSome_iff_exists.mp h
    have hes : ∀ e ∈ killsZero, e.Ordinary := by simp [killsZero, Event.Ordinary]
    exact ⟨k, k', reach_events id (fun _ _ _ hq hs => ⟨hq, hs⟩) hes (.start firstKern_init) hk,
      ⟨trivial, step_of_after hk'⟩, fun hex => hkilled (hex 0 1 hcpu hpc)⟩

end Kern

end Xv6.Kernel
