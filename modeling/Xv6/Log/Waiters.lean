import Xv6.Log.State
import Xv6.Lib.Run

/-!
# Xv6.Log.Waiters

Who sleeps in `begin_op`.

Any number of processes call `begin_op`, `log_write` and `end_op`. A step is what a process does
between two places where it takes or gives back `log.lock` or `ptable.lock`; `log_write` makes its
two tests before it takes `log.lock`, and `commit` clears the header without it. `sleep` takes
`ptable.lock` before it gives `log.lock` back, and keeps it until the process is asleep; `wakeup`
takes it too.

A process sleeps on `&log` for one of two reasons, a commit or a lack of space, and `end_op` calls
`wakeup` on some of its branches only. `Inv.stranded` is what makes that enough.
-/

namespace Xv6.Log

open Function Finset

/-- Where a process is. -/
inductive Pc where
  | idle
  /-- `acquire(&log.lock)` in `begin_op`, also at the end of `sleep`. -/
  | entering
  /-- `sleep`, with `log.lock` and not yet with `ptable.lock`. -/
  | drowsy
  /-- `sleep`, with `ptable.lock` only. -/
  | dozing
  | sleeping
  /-- Between `begin_op` and `end_op`. -/
  | active
  /-- `log_write(b)` after its tests. -/
  | logging (b : Nat)
  /-- `commit`, before `log.lh.n = 0`. -/
  | flushing
  /-- `end_op` after `commit`. -/
  | cleared
  /-- `wakeup(&log)` in `end_op`, with `log.lock`. -/
  | waking
  deriving DecidableEq, Repr

namespace Pc

def inOp : Pc → Bool
  | .active | .logging _ => true
  | _ => false

def holdsLog : Pc → Bool
  | .drowsy | .waking => true
  | _ => false

def commits : Pc → Bool
  | .flushing | .cleared => true
  | _ => false

/-- Refused by `begin_op` and not woken since. -/
def down : Pc → Bool
  | .drowsy | .dozing | .sleeping => true
  | _ => false

/-- What `wakeup(&log)` does to a process. -/
def woken : Pc → Pc
  | .sleeping => .entering
  | pc => pc

theorem inOp_woken (pc : Pc) : pc.woken.inOp = pc.inOp := by cases pc <;> rfl

theorem holdsLog_woken (pc : Pc) : pc.woken.holdsLog = pc.holdsLog := by cases pc <;> rfl

theorem commits_woken (pc : Pc) : pc.woken.commits = pc.commits := by cases pc <;> rfl

end Pc

namespace LogSt

/-- The tests of `log_write`. -/
def mayWrite (g : LogSt) : Prop :=
  ¬ (LOGSIZE ≤ g.lh.n ∨ (g.size : Int) - 1 ≤ g.lh.n) ∧ ¬ g.outstanding < 1

/-- The locked part of `log_write`; an entry past the array is not modelled. -/
def record (g : LogSt) (b : Nat) : Option LogSt :=
  if h : (absorb g.lh.blocks b).length ≤ LOGSIZE then some
    { g with lh := ⟨absorb g.lh.blocks b, h⟩ }
  else none

theorem record_some {g g' : LogSt} {b : Nat} (h : g.record b = some g') :
    g'.size = g.size ∧ g'.outstanding = g.outstanding ∧ g'.committing = g.committing := by
  unfold record at h
  split at h
  · cases h
    exact ⟨rfl, rfl, rfl⟩
  · cases h

theorem beginOp_alone {g : LogSt} (hc : g.committing = false) (ho : g.outstanding = 0)
    (hn : g.lh.n = 0) : g.beginOp = some { g with outstanding := g.outstanding + 1 } := by
  rw [beginOp, hc, ho, hn]
  rfl

end LogSt

/-- The log, its lock, `ptable.lock`, and the processes. -/
structure Waiting where
  log : LogSt
  lock : Option Nat
  ptable : Option Nat
  pc : Nat → Pc

inductive WaitEvent where
  | call (p : Nat)
  | enter (p : Nat)
  | refuse (p : Nat)
  | doze (p : Nat)
  | sleep (p : Nat)
  | test (p b : Nat)
  | record (p : Nat)
  | endOp (p : Nat)
  | commit (p : Nat)
  | endCommit (p : Nat)
  | wakeup (p : Nat)
  | kill (p : Nat)
  | takePtable (p : Nat)
  | givePtable (p : Nat)

namespace Waiting

def Init (s : Waiting) : Prop :=
  s.log.outstanding = 0 ∧ s.log.committing = false ∧ s.log.lh.blocks = [] ∧ s.lock = none ∧
    s.ptable = none ∧ ∀ p, s.pc p = .idle

def goto (s : Waiting) (p : Nat) (pc : Pc) : Waiting := { s with pc := update s.pc p pc }

inductive Step : Waiting → WaitEvent → Waiting → Prop where
  | call {s : Waiting} {p : Nat} : s.pc p = .idle → Step s (.call p) (s.goto p .entering)
  | enter {s : Waiting} {p : Nat} {g : LogSt} :
      s.pc p = .entering → s.lock = none → s.log.beginOp = some g →
      Step s (.enter p) ({ s with log := g }.goto p .active)
  | refuse {s : Waiting} {p : Nat} :
      s.pc p = .entering → s.lock = none → s.log.beginOp = none →
      Step s (.refuse p) ({ s with lock := some p }.goto p .drowsy)
  | doze {s : Waiting} {p : Nat} :
      s.pc p = .drowsy → s.ptable = none →
      Step s (.doze p) ({ s with lock := none, ptable := some p }.goto p .dozing)
  | sleep {s : Waiting} {p : Nat} :
      s.pc p = .dozing → Step s (.sleep p) ({ s with ptable := none }.goto p .sleeping)
  | test {s : Waiting} {p b : Nat} :
      s.pc p = .active → s.log.mayWrite → Step s (.test p b) (s.goto p (.logging b))
  | record {s : Waiting} {p b : Nat} {g : LogSt} :
      s.pc p = .logging b → s.lock = none → s.log.record b = some g →
      Step s (.record p) ({ s with log := g }.goto p .active)
  | endLast {s : Waiting} {p : Nat} {g : LogSt} :
      s.pc p = .active → s.lock = none → s.log.endOp = .ok (true, g) →
      Step s (.endOp p) ({ s with log := g }.goto p .flushing)
  | endOther {s : Waiting} {p : Nat} {g : LogSt} :
      s.pc p = .active → s.lock = none → s.log.endOp = .ok (false, g) →
      Step s (.endOp p) ({ s with log := g, lock := some p }.goto p .waking)
  | commit {s : Waiting} {p : Nat} :
      s.pc p = .flushing → Step s (.commit p) ({ s with log := s.log.commit }.goto p .cleared)
  | endCommit {s : Waiting} {p : Nat} :
      s.pc p = .cleared → s.lock = none →
      Step s (.endCommit p) ({ s with log := s.log.endCommit, lock := some p }.goto p .waking)
  | wakeup {s : Waiting} {p : Nat} :
      s.pc p = .waking → s.ptable = none →
      Step s (.wakeup p) ({ s with lock := none, pc := fun q => (s.pc q).woken }.goto p .idle)
  | kill {s : Waiting} {p : Nat} :
      s.pc p = .sleeping → s.ptable = none → Step s (.kill p) (s.goto p .entering)
  | takePtable {s : Waiting} {p : Nat} :
      s.ptable = none → Step s (.takePtable p) { s with ptable := some p }
  | givePtable {s : Waiting} {p : Nat} :
      s.ptable = some p → s.pc p ≠ .dozing → Step s (.givePtable p) { s with ptable := none }

/-- There are `n` processes in an operation. -/
def InOps (pc : Nat → Pc) (n : Int) : Prop :=
  ∃ S : Finset Nat, (∀ p, p ∈ S ↔ (pc p).inOp = true) ∧ n = S.card

section InOps

variable {pc : Nat → Pc} {n : Int} {p : Nat} {x : Pc}

theorem InOps.nonneg (h : InOps pc n) : 0 ≤ n := by
  obtain ⟨S, -, rfl⟩ := h
  exact Int.natCast_nonneg _

theorem InOps.pos (h : InOps pc n) (hp : (pc p).inOp = true) : 1 ≤ n := by
  obtain ⟨S, hS, rfl⟩ := h
  have : 0 < S.card := card_pos.mpr ⟨p, (hS p).mpr hp⟩
  omega

theorem InOps.congr {pc' : Nat → Pc} (h : InOps pc n) (heq : ∀ q, (pc' q).inOp = (pc q).inOp) :
    InOps pc' n := by
  obtain ⟨S, hS, hn⟩ := h
  exact ⟨S, fun q => by rw [hS, heq], hn⟩

theorem InOps.keep (h : InOps pc n) (hx : x.inOp = (pc p).inOp) : InOps (update pc p x) n := by
  exact h.congr fun q => update_cases q hx fun _ _ => rfl

theorem InOps.enter (h : InOps pc n) (hp : (pc p).inOp = false) (hx : x.inOp = true) :
    InOps (update pc p x) (n + 1) := by
  obtain ⟨S, hS, rfl⟩ := h
  have hpS : p ∉ S := by simp [hS, hp]
  refine ⟨insert p S, fun q => ?_, by rw [card_insert_of_notMem hpS]; push_cast; rfl⟩
  rw [mem_insert, hS]
  by_cases hq : q = p
  · subst hq
    simp [hx]
  · simp [hq]

theorem InOps.leave (h : InOps pc n) (hp : (pc p).inOp = true) (hx : x.inOp = false) :
    InOps (update pc p x) (n - 1) := by
  obtain ⟨S, hS, rfl⟩ := h
  have hpS : p ∈ S := (hS p).mpr hp
  have hpos : 0 < S.card := card_pos.mpr ⟨p, hpS⟩
  refine ⟨S.erase p, fun q => ?_, by rw [card_erase_of_mem hpS]; omega⟩
  rw [mem_erase, hS]
  by_cases hq : q = p
  · subst hq
    simp [hx]
  · simp [hq]

end InOps

structure Inv (s : Waiting) : Prop where
  holder : ∀ p, (s.pc p).holdsLog = true → s.lock = some p
  dozer : ∀ p, s.pc p = .dozing → s.ptable = some p
  count : InOps s.pc s.log.outstanding
  quiet : s.log.committing = true → s.log.outstanding = 0
  committer : ∀ p, (s.pc p).commits = true → s.log.committing = true
  unique : ∀ p q, (s.pc p).commits = true → (s.pc q).commits = true → p = q
  cleared : ∀ p, s.pc p = .cleared → s.log.lh.blocks = []
  empty : s.log.outstanding = 0 → s.log.committing = false → s.log.lh.blocks = []
  stranded : ∀ p, (s.pc p).down = true →
    s.log.committing = true ∨ 1 ≤ s.log.outstanding ∨ ∃ q, s.pc q = .waking

variable {s s' : Waiting}

theorem Inv.init (h : Init s) : Inv s := by
  obtain ⟨ho, hc, hb, -, -, hp⟩ := h
  refine ⟨?_, ?_, ⟨∅, ?_, ?_⟩, ?_, ?_, ?_, ?_, ?_, ?_⟩
  all_goals simp [ho, hc, hb, hp, Pc.holdsLog, Pc.inOp, Pc.commits, Pc.down]

theorem Inv.op_not_committing (h : Inv s) {p : Nat} (hp : (s.pc p).inOp = true) :
    s.log.committing = false := by
  have hpos := h.count.pos hp
  by_contra hc
  have := h.quiet (by simpa using hc)
  omega

theorem Inv.no_committer (h : Inv s) (hc : s.log.committing = false) (p : Nat) :
    (s.pc p).commits = false := by
  by_contra hp
  have := h.committer p (by simpa using hp)
  rw [hc] at this
  cases this

theorem Inv.move (h : Inv s) {p : Nat} {x y : Pc} {lock ptable : Option Nat} (hp : s.pc p = y)
    (hop : x.inOp = y.inOp) (hcom : x.commits = false) (hwake : y ≠ .waking)
    (hlock : x.holdsLog = true → lock = some p)
    (hlock' : ∀ q, q ≠ p → s.lock = some q → lock = some q) (hdoze : x = .dozing → ptable = some p)
    (hdoze' : ∀ q, q ≠ p → s.ptable = some q → ptable = some q)
    (hdown : x.down = true → y.down = true ∨ s.log.committing = true ∨ 1 ≤ s.log.outstanding) :
    Inv ({ s with lock, ptable }.goto p x) := by
  subst hp
  have hcommits : ∀ q, (update s.pc p x q).commits = true → (s.pc q).commits = true := fun q =>
    update_cases q (fun hq => by rw [hcom] at hq; cases hq) fun _ _ => id
  refine ⟨?_, ?_, h.count.keep hop, h.quiet, ?_, ?_, ?_, h.empty, ?_⟩
  all_goals simp only [goto]
  · exact fun q => update_cases q hlock fun q hqp hq => hlock' q hqp (h.holder q hq)
  · exact fun q => update_cases q hdoze fun q hqp hq => hdoze' q hqp (h.dozer q hq)
  · exact fun q hq => h.committer q (hcommits q hq)
  · exact fun q q' hq hq' => h.unique q q' (hcommits q hq) (hcommits q' hq')
  · refine fun q => update_cases q (fun hq => ?_) fun q _ => h.cleared q
    rw [hq] at hcom
    cases hcom
  · intro q hq
    have hold : s.log.committing = true ∨ 1 ≤ s.log.outstanding ∨ ∃ q, s.pc q = .waking := by
      revert hq
      refine update_cases q (fun hq => ?_) fun q _ => h.stranded q
      rcases hdown hq with hd | hc | ho
      · exact h.stranded p hd
      · exact .inl hc
      · exact .inr (.inl ho)
    refine hold.imp_right fun h' => h'.imp_right fun ⟨w, hw⟩ => ⟨w, ?_⟩
    rwa [update_of_ne fun heq : w = p => hwake (heq ▸ hw)]

theorem Inv.change (h : Inv s) {p : Nat} {x : Pc} {g : LogSt} {lock : Option Nat}
    (hnone : ∀ q, q ≠ p → (s.pc q).commits = false) (hlock : x.holdsLog = true → lock = some p)
    (hlock' : ∀ q, q ≠ p → s.lock = some q → lock = some q) (hdoze : x ≠ .dozing)
    (hcount : InOps (update s.pc p x) g.outstanding)
    (hquiet : g.committing = true → g.outstanding = 0) (hcom : x.commits = true → g.committing =
      true) (hempty : g.outstanding = 0 → g.committing = false → g.lh.blocks = [])
    (hcleared : x = .cleared → g.lh.blocks = [])
    (hstay : g.committing = true ∨ 1 ≤ g.outstanding ∨ x = .waking) :
    Inv ({ s with log := g, lock }.goto p x) := by
  have hself : update s.pc p x p = x := update_self ..
  have hcommits : ∀ q, (update s.pc p x q).commits = true → q = p := by
    intro q hq
    by_contra hqp
    rw [update_of_ne hqp, hnone q hqp] at hq
    cases hq
  refine ⟨?_, ?_, hcount, hquiet, ?_, ?_, ?_, hempty, ?_⟩
  all_goals simp only [goto]
  · exact fun q => update_cases q hlock fun q hqp hq => hlock' q hqp (h.holder q hq)
  · exact fun q => update_cases q (fun hq => absurd hq hdoze) fun q _ => h.dozer q
  · intro q hq
    obtain rfl := hcommits q hq
    exact hcom (hself ▸ hq)
  · intro q q' hq hq'
    rw [hcommits q hq, hcommits q' hq']
  · intro q hq
    obtain rfl := hcommits q (by rw [hq]; rfl)
    exact hcleared (hself ▸ hq)
  · intro q hq
    exact hstay.imp_right fun h' => h'.imp_right fun hx => ⟨p, hself.trans hx⟩

theorem Inv.wakeup (h : Inv s) {p : Nat} (hp : s.pc p = .waking) (hpt : s.ptable = none) :
    Inv ({ s with lock := none, pc := fun q => (s.pc q).woken }.goto p .idle) := by
  have hlock : s.lock = some p := h.holder p (by rw [hp]; rfl)
  have hothers : ∀ q, q ≠ p → (s.pc q).holdsLog = false := by
    intro q hqp
    by_contra hq
    have := h.holder q (by simpa using hq)
    rw [hlock] at this
    exact hqp (Option.some.inj this).symm
  have hcommits : ∀ q, (update (fun q => (s.pc q).woken) p .idle q).commits = true →
      (s.pc q).commits = true := by
    refine fun q => update_cases q Bool.noConfusion fun q _ hq => ?_
    rwa [Pc.commits_woken] at hq
  have hnap : ∀ q, s.pc q ≠ .dozing := by
    intro q hq
    have := h.dozer q hq
    rw [hpt] at this
    cases this
  refine ⟨?_, ?_, ?_, h.quiet, ?_, ?_, ?_, h.empty, ?_⟩
  all_goals simp only [goto]
  · refine fun q => update_cases q Bool.noConfusion fun q hqp hq => ?_
    rw [Pc.holdsLog_woken, hothers q hqp] at hq
    cases hq
  · refine fun q => update_cases q Pc.noConfusion fun q _ hq => ?_
    cases hx : s.pc q with
    | dozing => exact absurd hx (hnap q)
    | _ => rw [hx] at hq; cases hq
  · refine InOps.keep (h.count.congr fun q => Pc.inOp_woken _) ?_
    rw [hp]
    rfl
  · intro q hq
    exact h.committer q (hcommits q hq)
  · intro q q' hq hq'
    exact h.unique q q' (hcommits q hq) (hcommits q' hq')
  · refine fun q => update_cases q Pc.noConfusion fun q _ hq => h.cleared q ?_
    cases hx : s.pc q with
    | cleared => rfl
    | _ => rw [hx] at hq; cases hq
  · refine fun q => update_cases q Bool.noConfusion fun q hqp hq => ?_
    have hhold := hothers q hqp
    cases hx : s.pc q with
    | dozing => exact absurd hx (hnap q)
    | drowsy => rw [hx] at hhold; cases hhold
    | _ => rw [hx] at hq; cases hq

theorem Inv.refused (h : Inv s) (hg : s.log.beginOp = none) :
    s.log.committing = true ∨ 1 ≤ s.log.outstanding := by
  by_contra hno
  obtain ⟨hc, ho⟩ := not_or.mp hno
  have hc : s.log.committing = false := by simpa using hc
  have ho : s.log.outstanding = 0 := by
    have := h.count.nonneg
    omega
  have hn : s.log.lh.n = 0 := by rw [Header.n, h.empty ho hc, List.length_nil]
  rw [LogSt.beginOp_alone hc ho hn] at hg
  cases hg

theorem Inv.sole_committer (h : Inv s) {p : Nat} (hp : (s.pc p).commits = true) (q : Nat)
    (hqp : q ≠ p) : (s.pc q).commits = false := by
  by_contra hq
  exact hqp (h.unique q p (by simpa using hq) hp)

theorem not_other {lock l : Option Nat} {p : Nat} (h : lock = none ∨ lock = some p) (q : Nat)
    (hqp : q ≠ p) (hq : lock = some q) : l = some q := by
  subst hq
  rcases h with h | h
  · cases h
  · exact absurd (Option.some.inj h) hqp

section Steps

variable {p : Nat} {g : LogSt}

theorem Inv.enter (h : Inv s) (hp : s.pc p = .entering) (hl : s.lock = none)
    (hg : s.log.beginOp = some g) : Inv ({ s with log := g }.goto p .active) := by
  obtain ⟨hc, -, rfl⟩ := LogSt.beginOp_some hg
  have hpos := h.count.nonneg
  refine h.change (fun q _ => h.no_committer hc q) Bool.noConfusion (not_other (.inl hl))
    Pc.noConfusion (h.count.enter (by rw [hp]; rfl) rfl) ?_ Bool.noConfusion ?_ Pc.noConfusion
    (.inr (.inl ?_))
  · intro hc'
    rw [show s.log.committing = true from hc'] at hc
    cases hc
  · intro ho
    simp only at ho
    omega
  · show 1 ≤ s.log.outstanding + 1
    omega

theorem Inv.record {b : Nat} (h : Inv s) (hp : s.pc p = .logging b) (hl : s.lock = none)
    (hg : s.log.record b = some g) : Inv ({ s with log := g }.goto p .active) := by
  obtain ⟨-, ho, hcom⟩ := LogSt.record_some hg
  have hin : (s.pc p).inOp = true := by rw [hp]; rfl
  have hc := h.op_not_committing hin
  have hpos := h.count.pos hin
  refine h.change (fun q _ => h.no_committer hc q) Bool.noConfusion (not_other (.inl hl))
    Pc.noConfusion ?_ ?_ Bool.noConfusion ?_ Pc.noConfusion (.inr (.inl ?_))
  · rw [ho]
    exact h.count.keep hin.symm
  · intro hc'
    rw [hcom, hc] at hc'
    cases hc'
  · intro h0
    omega
  · omega

theorem Inv.endOp {last : Bool} (h : Inv s) (hp : s.pc p = .active) (hl : s.lock = none)
    (hg : s.log.endOp = .ok (last, g)) :
    Inv ({ s with log := g, lock := if last then s.lock else some p }.goto p
      (if last then .flushing else .waking)) := by
  obtain ⟨hc, hlast, rfl⟩ := LogSt.endOp_ok hg
  have hin : (s.pc p).inOp = true := by rw [hp]; rfl
  have hnone := fun q (_ : q ≠ p) => h.no_committer hc q
  cases last with
  | true =>
    have hzero := hlast.mp rfl
    exact h.change hnone Bool.noConfusion (not_other (.inl hl)) Pc.noConfusion
      (h.count.leave hin rfl) (fun _ => hzero) (fun _ => rfl) (fun _ => Bool.noConfusion)
      Pc.noConfusion (.inl rfl)
  | false =>
    refine h.change hnone (fun _ => rfl) (not_other (.inl hl)) Pc.noConfusion
      (h.count.leave hin rfl) Bool.noConfusion Bool.noConfusion ?_ Pc.noConfusion (.inr (.inr rfl))
    intro h0
    exact Bool.noConfusion (hlast.mpr h0)

theorem Inv.commit (h : Inv s) (hp : s.pc p = .flushing) :
    Inv ({ s with log := s.log.commit }.goto p .cleared) := by
  have hcom : (s.pc p).commits = true := by rw [hp]; rfl
  have hc := h.committer p hcom
  refine h.change (h.sole_committer hcom) Bool.noConfusion (fun _ _ => id) Pc.noConfusion ?_ ?_
    (fun _ => ?_) (fun _ _ => LogSt.commit_blocks _) (fun _ => LogSt.commit_blocks _) (.inl ?_)
  · rw [LogSt.commit_outstanding]
    refine h.count.keep ?_
    rw [hp]
    rfl
  · intro _
    rw [LogSt.commit_outstanding]
    exact h.quiet hc
  · rw [LogSt.commit_committing, hc]
  · rw [LogSt.commit_committing, hc]

theorem Inv.endCommit (h : Inv s) (hp : s.pc p = .cleared) (hl : s.lock = none) :
    Inv ({ s with log := s.log.endCommit, lock := some p }.goto p .waking) := by
  have hcom : (s.pc p).commits = true := by rw [hp]; rfl
  refine h.change (h.sole_committer hcom) (fun _ => rfl) (not_other (.inl hl)) Pc.noConfusion ?_
    Bool.noConfusion Bool.noConfusion ?_ Pc.noConfusion (.inr (.inr rfl))
  · refine h.count.keep ?_
    rw [hp]
    rfl
  · intro _ _
    exact h.cleared p hp

end Steps

theorem Inv.step {e : WaitEvent} (h : Inv s) (hs : Step s e s') : Inv s' := by
  cases hs with
  | call hp | test hp hw | kill hp hpt =>
    exact h.move hp rfl rfl Pc.noConfusion Bool.noConfusion (fun _ _ => id) Pc.noConfusion
      (fun _ _ => id) Bool.noConfusion
  | enter hp hl hg => exact h.enter hp hl hg
  | refuse hp hl hg =>
    exact h.move hp rfl rfl Pc.noConfusion (fun _ => rfl) (not_other (.inl hl)) Pc.noConfusion
      (fun _ _ => id) fun _ => .inr (h.refused hg)
  | doze hp hpt =>
    exact h.move hp rfl rfl Pc.noConfusion Bool.noConfusion
      (not_other (.inr (h.holder _ (by rw [hp]; rfl)))) (fun _ => rfl) (not_other (.inl hpt))
      fun _ => .inl rfl
  | sleep hp =>
    exact h.move hp rfl rfl Pc.noConfusion Bool.noConfusion (fun _ _ => id) Pc.noConfusion
      (not_other (.inr (h.dozer _ hp))) fun _ => .inl rfl
  | record hp hl hg => exact h.record hp hl hg
  | endLast hp hl hg | endOther hp hl hg => exact h.endOp hp hl hg
  | commit hp => exact h.commit hp
  | endCommit hp hl => exact h.endCommit hp hl
  | wakeup hp hpt => exact h.wakeup hp hpt
  | takePtable hpt =>
    refine { h with dozer := ?_ }
    intro q hq
    have := h.dozer q hq
    rw [hpt] at this
    cases this
  | givePtable hpt hp =>
    refine { h with dozer := ?_ }
    intro q hq
    have := h.dozer q hq
    rw [hpt] at this
    exact absurd (Option.some.inj this ▸ hq) hp

theorem reach_inv (h : Reach Init Step s) : Inv s :=
  h.invariant (P := Inv) (fun _ => Inv.init) fun _ _ _ => Inv.step

/-- Whenever `log.lock` is free, a process sleeps in `begin_op` only next to a commit or another
operation, and a log without either is empty, so that a lone `begin_op` is admitted. -/
theorem nobody_stranded (h : Reach Init Step s) (hlock : s.lock = none) :
    (∀ p, s.pc p = .sleeping → s.log.committing = true ∨ 1 ≤ s.log.outstanding) ∧
    (s.log.outstanding = 0 → s.log.committing = false →
      s.log.lh.n = 0 ∧ s.log.beginOp = some { s.log with outstanding := 1 }) := by
  have hi := reach_inv h
  constructor
  · intro p hp
    have hwait := hi.stranded p (by rw [hp]; rfl)
    refine hwait.imp_right fun hw => hw.resolve_right ?_
    rintro ⟨q, hq⟩
    have := hi.holder q (by rw [hq]; rfl)
    rw [hlock] at this
    cases this
  · intro ho hc
    have hn : s.log.lh.n = 0 := by rw [Header.n, hi.empty ho hc, List.length_nil]
    refine ⟨hn, ?_⟩
    rw [LogSt.beginOp_alone hc ho hn, ho]
    rfl

/-- A log of `LOGSIZE` blocks and no process in it. -/
def quiet : Waiting := ⟨⟨LOGSIZE, 0, false, .empty⟩, none, none, fun _ => .idle⟩

/-- Three operations fill the log; the fourth sleeps. -/
theorem nobody_stranded_fourth : ∃ s, Reach Init Step s ∧ s.lock = none ∧ s.pc 3 = .sleeping ∧
      (s.log.committing = true ∨ 1 ≤ s.log.outstanding) := by
  have h0 : Reach Init Step quiet := .start ⟨rfl, rfl, rfl, rfl, rfl, fun _ => rfl⟩
  have h1 := (h0.step (.call (p := 0) rfl)).step (.enter (p := 0) rfl rfl rfl)
  have h2 := (h1.step (.call (p := 1) rfl)).step (.enter (p := 1) rfl rfl rfl)
  have h3 := (h2.step (.call (p := 2) rfl)).step (.enter (p := 2) rfl rfl rfl)
  have h4 := (h3.step (.call (p := 3) rfl)).step (.refuse (p := 3) rfl rfl rfl)
  have h5 := (h4.step (.doze (p := 3) rfl rfl)).step (.sleep (p := 3) rfl)
  exact ⟨_, h5, rfl, rfl, (nobody_stranded h5 rfl).1 3 rfl⟩

end Waiting
end Xv6.Log
