import Xv6.Kernel.Table

/-!
# Xv6.Kernel.Sched

The multilevel scheduler.

`level_finder` ages the waiting processes and picks a level; `round_robin`, `lottery` and `BJF`
then run one pass of that level's policy. What happens while a process runs is the environment's
`swtch`. `FollowsPolicy` says that the pass dispatches what the policy selected. The passes of
levels 2 and 3 look for it among the processes of level 1, so they dispatch nothing.
-/

namespace Xv6.Kernel

open Function List

variable {d : List Slot} {t t' : PTable} {p s : Slot}

abbrev MAX_WAITING_TIME : Int := 10000

/-- `struct rtcdate`, the fields that are read. -/
structure RtcDate where
  second : UInt32
  minute : UInt32
  hour : UInt32

/-- What the scheduler does not decide: the clock, and what happens to the table from `swtch` to a
process until control is back. -/
structure Env where
  clock : RtcDate
  swtch : Slot → PTable → PTable

/-- `time` as it is computed from the clock. -/
def RtcDate.time (clock : RtcDate) : UInt32 :=
  clock.second + clock.minute * 100 + clock.hour * 10000

def agging (p : Proc) : Proc := { p with level := 1, waited := 0 }

/-- One more round of waiting. -/
def tick (p : Proc) : Proc :=
  let p := { p with waited := wrap (p.waited + 1) }
  if MAX_WAITING_TIME ≤ p.waited then agging p else p

/-- The variables of `level_finder`, with the table. -/
structure Scan where
  level : Int
  flag : Bool
  table : PTable

def levelFinderStep (a : Scan) (p : Slot) : Scan :=
  if (a.table p).state ≠ .runnable then a
  else
    let r := tick (a.table p)
    let level := if r.level = 1 then 1 else a.level
    let level := if r.level = 2 ∧ level ≠ 1 then 2 else level
    { level, flag := true, table := update a.table p r }

def levelFinder (t : PTable) : Int × PTable :=
  let a := slots.foldl levelFinderStep ⟨3, false, t⟩
  (if a.flag = false then 4 else a.level, a.table)

/-- `switchuvm(p)`, up to its checks. -/
def switchuvm (p : Proc) : Except Fault Unit :=
  if p.kstack = 0 then .error .noKstack
  else if p.pgdir = 0 then .error .noPgdir
  else .ok ()

/-- The process a pass switches to. -/
def Proc.chosen (p : Proc) : Proc :=
  { p with
    state := .running
    waited := wrap (p.waited - 1)
    executedCycle := p.executedCycle + 1 / 10 }

/-- Switch to `p` and come back. -/
def dispatch (m : Env) (p : Slot) (t : PTable) : Except Fault PTable := do
  switchuvm (t p)
  return m.swtch p (update t p (t p).chosen)

/-- The loop the three policies share, with the slots it dispatches: `pick` is the test before the
switch. All three skip what is not of level 1. -/
def dispatchLoop (m : Env) (pick : Slot → Bool) :
    List Slot → PTable → Except Fault (List Slot × PTable)
  | [], t => .ok ([], t)
  | p :: ps, t =>
    if (t p).state ≠ .runnable ∨ (t p).level ≠ 1 then dispatchLoop m pick ps t
    else if pick p = false then dispatchLoop m pick ps t
    else do
      let t ← dispatch m p t
      let (d, t) ← dispatchLoop m pick ps t
      return (p :: d, t)

def roundRobin (m : Env) (t : PTable) : Except Fault (List Slot × PTable) :=
  dispatchLoop m (fun _ => true) slots t

/-- The `idiv` instruction: the quotient and the remainder. -/
def idiv (a b : Int) : Except Fault (Int × Int) :=
  if b = 0 ∨ (a = -2 ^ 31 ∧ b = -1) then .error .divide else .ok (a.tdiv b, a.tmod b)

/-- The rank of a job, as an exact number. -/
def rank (p : Proc) : Except Fault ℚ := do
  let (q, _) ← idiv p.priorityRatio p.tickets
  return (q + p.arrivalTime * p.arrivalTimeRatio : Int) + p.executedCycle * p.executedCycleRatio

def bestJobStep (t : PTable) (min : ℚ × Option Slot) (p : Slot) : Except Fault (ℚ × Option Slot) :=
  if (t p).state ≠ .runnable ∨ (t p).level ≠ 3 then .ok min
  else do
    let rank ← rank (t p)
    if min.1 = -1 ∨ min.1 > rank then return (rank, some p) else return min

def findBestJob (t : PTable) : Except Fault (Option Slot) := do
  let (_, best) ← slots.foldlM (bestJobStep t) (-1, none)
  return best

def bjf (m : Env) (t : PTable) : Except Fault (List Slot × PTable) := do
  match ← findBestJob t with
  | none => return ([], t)
  | some best => dispatchLoop m (fun p => best = p) slots t

/-- One round of the generator in `random_number`. -/
def nextRandom (next : UInt32) : UInt32 := next * 1103515245 + 12345

def randomNumber (clock : RtcDate) (mod : Int) : Except Fault Int := do
  let next := nextRandom clock.time
  let result := next / 65536 % 2048
  let next := nextRandom next
  let result := (result <<< 10) ^^^ (next / 65536 % 1024)
  let next := nextRandom next
  let result := (result <<< 10) ^^^ (next / 65536 % 1024)
  let (_, r) ← idiv (wrap result.toNat) mod
  return wrap (r + 1)

/-- The tickets of level 2. -/
def ticketSum (t : PTable) : Int :=
  slots.foldl (fun mod p => if (t p).state ≠ .runnable ∨ (t p).level ≠ 2 then mod
    else wrap (mod + (t p).tickets)) 0

/-- The second loop of `find_winner`. -/
def drawWinner (t : PTable) : List Slot → Int → Option Slot
  | [], _ => none
  | p :: ps, winnerNumber =>
    if (t p).state ≠ .runnable ∨ (t p).level ≠ 2 then drawWinner t ps winnerNumber
    else
      let winnerNumber := wrap (winnerNumber - (t p).tickets)
      if winnerNumber ≤ 0 then some p else drawWinner t ps winnerNumber

def findWinner (clock : RtcDate) (t : PTable) : Except Fault (Option Slot) := do
  let winnerNumber ← randomNumber clock (ticketSum t)
  return drawWinner t slots winnerNumber

def findWithPid (t : PTable) (pid : Int) : Option Slot := slots.find? fun p => (t p).pid = pid

/-- `lottery(c, pid)`, with its result. -/
def lottery (m : Env) (pid : Int) (t : PTable) : Except Fault (Int × List Slot × PTable) := do
  let winner ← match findWithPid t pid with
    | some p => .ok (some p)
    | none => findWinner m.clock t
  match winner with
  | none => return (-123, [], t)
  | some winner =>
    let (d, t) ← dispatchLoop m (fun p => p = winner) slots t
    return (-123, d, t)

/-- One round of `scheduler`: the next `pid`, the slots it switched to and the table. -/
def schedulerRound (m : Env) (pid : Int) (t : PTable) : Except Fault (Int × List Slot × PTable) :=
  let (level, t) := levelFinder t
  if level = 1 then do
    let (d, t) ← roundRobin m t
    return (pid, d, t)
  else if level = 2 then lottery m pid t
  else if level = 3 then do
    let (d, t) ← bjf m t
    return (pid, d, t)
  else return (pid, [], t)

/-- A process that a pass can switch to. -/
def Ready (p : Proc) : Prop := p.state = .runnable ∧ p.level = 1

/-- A process that is of level 1 once `level_finder` has aged it. -/
def Due (p : Proc) : Prop :=
  p.state = .runnable ∧ (p.level = 1 ∨ MAX_WAITING_TIME ≤ wrap (p.waited + 1))

/-- What `switchuvm` asks for. -/
def Loaded (p : Proc) : Prop := p.kstack ≠ 0 ∧ p.pgdir ≠ 0

instance (p : Proc) : Decidable (Ready p) := inferInstanceAs (Decidable (_ ∧ _))
instance (p : Proc) : Decidable (Due p) := inferInstanceAs (Decidable (_ ∧ _))
instance (p : Proc) : Decidable (Loaded p) := inferInstanceAs (Decidable (_ ∧ _))

/-- While it runs, a process leaves the others that are ready alone, and makes no process ready that
cannot be switched to. -/
structure Quiet (swtch : Slot → PTable → PTable) : Prop where
  keeps : ∀ p t s, s ≠ p → Ready (t s) → swtch p t s = t s
  sound : ∀ p t s, s ≠ p → Ready (swtch p t s) → Ready (t s) ∨ Loaded (swtch p t s)

/-- One round of the scheduler dispatches what the policy of its level selects, and something
if it can. -/
structure FollowsPolicy (m : Env) (pid : Int) (t : PTable) : Prop where
  roundRobin : ∀ t', levelFinder t = (1, t') →
    ∃ d t'', roundRobin m t' = .ok (d, t'') ∧ ∀ s, Ready (t' s) → s ∈ d
  lottery : ∀ t', levelFinder t = (2, t') →
    ∃ w t'', findWinner m.clock t' = .ok w ∧ lottery m pid t' = .ok (-123, w.toList, t'')
  bjf : ∀ t', levelFinder t = (3, t') →
    ∃ b t'', findBestJob t' = .ok b ∧ bjf m t' = .ok (b.toList, t'')
  dispatches : (∃ s, (t s).state = .runnable) →
    ∃ pid' d t', schedulerRound m pid t = .ok (pid', d, t') ∧ d ≠ []

theorem ready_tick (p : Proc) (h : p.state = .runnable) : (tick p).level = 1 ↔ Due p := by
  unfold tick Due
  by_cases hw : MAX_WAITING_TIME ≤ wrap (p.waited + 1)
  · simp [hw, h, agging]
  · simp [hw, h]

theorem tick_state (p : Proc) : (tick p).state = p.state := by
  simp only [tick]
  split <;> rfl

theorem loaded_tick (p : Proc) : Loaded (tick p) ↔ Loaded p := by
  simp only [tick]
  split <;> rfl

def aged (t : PTable) (l : List Slot) : PTable := fun s =>
  if s ∈ l ∧ (t s).state = .runnable then tick (t s) else t s

theorem aged_cons {l : List Slot} (hp : p ∉ l) (hr : (t p).state = .runnable) :
    aged (update t p (tick (t p))) l = aged t (p :: l) := by
  funext s
  by_cases hs : s = p
  · subst hs
    simp [aged, hp, hr]
  · simp [aged, hs]

theorem aged_cons_skip {l : List Slot} (hr : (t p).state ≠ .runnable) :
    aged t l = aged t (p :: l) := by
  funext s
  by_cases hs : s = p
  · subst hs
    simp [aged, hr]
  · simp [aged, hs]

theorem foldl_levelFinderStep (l : List Slot) :
    ∀ (a : Scan), l.Nodup → a.level ∈ ({1, 2, 3} : Set Int) →
      (l.foldl levelFinderStep a).table = aged a.table l ∧
      ((l.foldl levelFinderStep a).flag = true ↔
        a.flag = true ∨ ∃ s ∈ l, (a.table s).state = .runnable) ∧
      (l.foldl levelFinderStep a).level ∈ ({1, 2, 3} : Set Int) ∧
      ((l.foldl levelFinderStep a).level = 1 ↔ a.level = 1 ∨ ∃ s ∈ l, Due (a.table s)) := by
  induction l with
  | nil =>
    intro a _ hlv
    exact ⟨by funext s; simp [aged], by simp, hlv, by simp⟩
  | cons p l ih =>
    intro a hnd hlv
    obtain ⟨hp, hnd⟩ := nodup_cons.mp hnd
    rw [foldl_cons]
    by_cases hr : (a.table p).state = .runnable
    · generalize ha' : levelFinderStep a p = a'
      have htable : a'.table = update a.table p (tick (a.table p)) := by
        rw [← ha', levelFinderStep, if_neg (not_not_intro hr)]
      have hflag : a'.flag = true := by
        rw [← ha', levelFinderStep, if_neg (not_not_intro hr)]
      have hlevel : a'.level ∈ ({1, 2, 3} : Set Int) ∧
          (a'.level = 1 ↔ a.level = 1 ∨ Due (a.table p)) := by
        rw [← ha', levelFinderStep, if_neg (not_not_intro hr), ← ready_tick _ hr]
        simp only [Set.mem_insert_iff, Set.mem_singleton_iff] at hlv ⊢
        split_ifs <;> grind
      have hother : ∀ s ∈ l, a'.table s = a.table s := by
        intro s hs
        rw [htable, update_of_ne (ne_of_mem_of_not_mem hs hp)]
      obtain ⟨h1, h2, h3, h4⟩ := ih a' hnd hlevel.1
      refine ⟨?_, ?_, h3, ?_⟩
      · rw [h1, htable, aged_cons hp hr]
      · simp [h2, hflag, hr]
      · rw [h4, hlevel.2, exists_mem_cons_iff, or_assoc]
        have hdue : (∃ s ∈ l, Due (a'.table s)) ↔ ∃ s ∈ l, Due (a.table s) :=
          exists_congr fun s => and_congr_right fun hs => by rw [hother s hs]
        rw [hdue]
    · have hskip : levelFinderStep a p = a := by rw [levelFinderStep, if_pos hr]
      obtain ⟨h1, h2, h3, h4⟩ := ih a hnd hlv
      rw [hskip]
      refine ⟨h1.trans (aged_cons_skip hr), ?_, h3, ?_⟩
      · rw [h2, exists_mem_cons_iff, or_iff_right hr]
      · rw [h4, exists_mem_cons_iff, or_iff_right fun h : Due _ => hr h.1]

theorem levelFinder_table (t : PTable) (s : Slot) :
    (levelFinder t).2 s = if (t s).state = .runnable then tick (t s) else t s := by
  have h := (foldl_levelFinderStep slots ⟨3, false, t⟩ (nodup_finRange NPROC) (by simp)).1
  simp only [levelFinder, h, aged, mem_slots, true_and]

theorem levelFinder_level (t : PTable) : (levelFinder t).1 = 4 ∧ (∀ s, (t s).state ≠ .runnable) ∨
    (levelFinder t).1 = 1 ∧ (∃ s, Due (t s)) ∨
    ((levelFinder t).1 = 2 ∨ (levelFinder t).1 = 3) ∧ (∃ s, (t s).state = .runnable) ∧
      ∀ s, ¬ Due (t s) := by
  obtain ⟨-, hflag, hmem, hone⟩ :=
    foldl_levelFinderStep slots ⟨3, false, t⟩ (nodup_finRange NPROC) (by simp)
  simp only [mem_slots, true_and, Bool.false_eq_true, false_or] at hflag hone
  rw [levelFinder]
  by_cases hf : (slots.foldl levelFinderStep ⟨3, false, t⟩).flag = true
  · have hrun := hflag.mp hf
    have h31 : ¬ (3 : Int) = 1 := by decide
    rw [or_iff_right h31] at hone
    simp only [hf, Bool.true_eq_false, if_false]
    by_cases hdue : ∃ s, Due (t s)
    · exact .inr (.inl ⟨hone.mpr hdue, hdue⟩)
    · have hne := mt hone.mp hdue
      simp only [Set.mem_insert_iff, Set.mem_singleton_iff, hne, false_or] at hmem
      exact .inr (.inr ⟨hmem, hrun, not_exists.mp hdue⟩)
  · have hnone := mt hflag.mpr hf
    simp only [Bool.not_eq_true] at hf
    exact .inl ⟨by simp [hf], not_exists.mp hnone⟩

theorem levelFinder_of_due (hs : Due (t s)) : (levelFinder t).1 = 1 := by
  rcases levelFinder_level t with ⟨-, hno⟩ | ⟨h1, -⟩ | ⟨-, -, hno⟩
  · exact absurd hs.1 (hno s)
  · exact h1
  · exact absurd hs (hno s)

theorem levelFinder_of_not_runnable (hno : ∀ s, (t s).state ≠ .runnable) :
    (levelFinder t).1 = 4 := by
  rcases levelFinder_level t with ⟨h4, -⟩ | ⟨-, s, hs⟩ | ⟨-, ⟨s, hs⟩, -⟩
  · exact h4
  · exact absurd hs.1 (hno s)
  · exact absurd hs (hno s)

theorem ready_levelFinder : Ready ((levelFinder t).2 s) ↔ Due (t s) := by
  rw [levelFinder_table]
  by_cases hr : (t s).state = .runnable
  · rw [if_pos hr, Ready, tick_state, ready_tick _ hr]
    exact and_iff_right hr
  · rw [if_neg hr]
    exact iff_of_false (fun h => hr h.1) (fun h => hr h.1)

theorem loaded_levelFinder : Loaded ((levelFinder t).2 s) ↔ Loaded (t s) := by
  rw [levelFinder_table]
  split
  · exact loaded_tick _
  · rfl

theorem switchuvm_ok {p : Proc} (h : Loaded p) : switchuvm p = .ok () := by
  rw [switchuvm, if_neg h.1, if_neg h.2]

theorem switchuvm_error {p : Proc} (h : ¬ Loaded p) : ∃ f, switchuvm p = .error f := by
  rw [switchuvm]
  by_cases hk : p.kstack = 0
  · exact ⟨_, if_pos hk⟩
  · have hp : p.pgdir = 0 := by
      by_contra hp
      exact h ⟨hk, hp⟩
    exact ⟨.noPgdir, by rw [if_neg hk, if_pos hp]⟩

section Loop

variable {m : Env} {pick : Slot → Bool}

theorem dispatchLoop_skip {ps : List Slot} (h : ¬ (Ready (t p) ∧ pick p = true)) :
    dispatchLoop m pick (p :: ps) t = dispatchLoop m pick ps t := by
  rw [dispatchLoop]
  by_cases hr : Ready (t p)
  · have hp : pick p = false := by
      cases hpp : pick p with
      | false => rfl
      | true => exact absurd ⟨hr, hpp⟩ h
    rw [if_pos hp, ite_self]
  · rw [Ready, Decidable.not_and_iff_not_or_not] at hr
    rw [if_pos hr]

theorem dispatchLoop_pick {ps : List Slot} (hr : Ready (t p)) (hp : pick p = true) :
    dispatchLoop m pick (p :: ps) t = do
      let t ← dispatch m p t
      let (d, t) ← dispatchLoop m pick ps t
      return (p :: d, t) := by
  have h1 : ¬ ((t p).state ≠ .runnable ∨ (t p).level ≠ 1) := by
    rw [← Decidable.not_and_iff_not_or_not, not_not]
    exact hr
  have h2 : ¬ pick p = false := by rw [hp]; decide
  rw [dispatchLoop, if_neg h1, if_neg h2]

theorem dispatchLoop_none (l : List Slot) (t : PTable) (h : ∀ s, ¬ Ready (t s)) :
    dispatchLoop m pick l t = .ok ([], t) := by
  induction l with
  | nil => rfl
  | cons p l ih => rw [dispatchLoop_skip fun hp => h p hp.1, ih]

theorem dispatch_ok (h : Loaded (t p)) :
    ∃ u, dispatch m p t = .ok (m.swtch p u) ∧ ∀ s, s ≠ p → u s = t s := by
  refine ⟨_, by rw [dispatch, switchuvm_ok h]; rfl, ?_⟩
  intro s hs
  exact update_of_ne hs _ _

theorem dispatch_error (h : ¬ Loaded (t p)) : ∃ f, dispatch m p t = .error f := by
  obtain ⟨f, hf⟩ := switchuvm_error h
  exact ⟨f, by rw [dispatch, hf]; rfl⟩

variable (hq : Quiet m.swtch)
include hq

theorem Quiet.back {u : PTable} (hu : ∀ s, s ≠ p → u s = t s) (hs : s ≠ p)
    (hr : Ready (t s)) : m.swtch p u s = t s := by
  rw [hq.keeps p u s hs (by rw [hu s hs]; exact hr), hu s hs]

theorem dispatchLoop_all (pick : Slot → Bool) (l : List Slot) :
    ∀ t : PTable, l.Nodup → (∀ s ∈ l, Ready (t s) → Loaded (t s)) →
      ∃ d t', dispatchLoop m pick l t = .ok (d, t') ∧
        ∀ s ∈ l, Ready (t s) → pick s = true → s ∈ d := by
  induction l with
  | nil => intro t _ _; exact ⟨[], t, rfl, by simp⟩
  | cons p l ih =>
    intro t hnd hl
    obtain ⟨hp, hnd⟩ := nodup_cons.mp hnd
    by_cases hpr : Ready (t p) ∧ pick p = true
    · obtain ⟨u, hu, hus⟩ := dispatch_ok (m := m) (hl p mem_cons_self hpr.1)
      have hload : ∀ s ∈ l, Ready (m.swtch p u s) → Loaded (m.swtch p u s) := by
        intro s hs hsr
        have hsp : s ≠ p := ne_of_mem_of_not_mem hs hp
        cases hq.sound p u s hsp hsr with
        | inl h =>
          rw [hus s hsp] at h
          rw [hq.back hus hsp h]
          exact hl s (mem_cons_of_mem p hs) h
        | inr h => exact h
      obtain ⟨d, t', hrun, hall⟩ := ih (m.swtch p u) hnd hload
      have hok : dispatchLoop m pick (p :: l) t = .ok (p :: d, t') := by
        rw [dispatchLoop_pick hpr.1 hpr.2, hu]
        simp [hrun, bind, Except.bind, pure, Except.pure]
      refine ⟨p :: d, t', hok, ?_⟩
      intro s hs hsr hsp
      cases mem_cons.mp hs with
      | inl h => exact h ▸ mem_cons_self
      | inr h =>
        have hne : s ≠ p := ne_of_mem_of_not_mem h hp
        exact mem_cons_of_mem p (hall s h (by rw [hq.back hus hne hsr]; exact hsr) hsp)
    · obtain ⟨d, t', hrun, hall⟩ := ih t hnd fun s hs => hl s (mem_cons_of_mem p hs)
      refine ⟨d, t', by rw [dispatchLoop_skip hpr, hrun], ?_⟩
      intro s hs hsr hsp
      cases mem_cons.mp hs with
      | inl h => exact absurd ⟨h ▸ hsr, h ▸ hsp⟩ hpr
      | inr h => exact hall s h hsr hsp

theorem dispatchLoop_error (pick : Slot → Bool) (l : List Slot) :
    ∀ t : PTable, l.Nodup → s ∈ l → Ready (t s) → pick s = true → ¬ Loaded (t s) →
      ∃ f, dispatchLoop m pick l t = .error f := by
  induction l with
  | nil => intro t _ hs; exact absurd hs not_mem_nil
  | cons p l ih =>
    intro t hnd hs hr hp hload
    obtain ⟨hpl, hnd⟩ := nodup_cons.mp hnd
    by_cases hpr : Ready (t p) ∧ pick p = true
    · rw [dispatchLoop_pick hpr.1 hpr.2]
      by_cases hlp : Loaded (t p)
      · have hsl : s ∈ l := by
          cases mem_cons.mp hs with
          | inl h => exact absurd hlp (h ▸ hload)
          | inr h => exact h
        have hne : s ≠ p := ne_of_mem_of_not_mem hsl hpl
        obtain ⟨u, hu, hus⟩ := dispatch_ok (m := m) hlp
        have hback := hq.back hus hne hr
        obtain ⟨f, hf⟩ := ih (m.swtch p u) hnd hsl (hback ▸ hr) hp (hback ▸ hload)
        exact ⟨f, by rw [hu]; simp [hf, bind, Except.bind]⟩
      · obtain ⟨f, hf⟩ := dispatch_error (m := m) hlp
        exact ⟨f, by rw [hf]; rfl⟩
    · have hsl : s ∈ l := by
        cases mem_cons.mp hs with
        | inl h => exact absurd ⟨h ▸ hr, h ▸ hp⟩ hpr
        | inr h => exact h
      rw [dispatchLoop_skip hpr]
      exact ih t hnd hsl hr hp hload

end Loop

theorem lottery_cases {m : Env} {pid pid' : Int} (h : lottery m pid t = .ok (pid', d, t')) :
    pid' = -123 ∧ (d = [] ∨ ∃ w, dispatchLoop m (fun p => p = w) slots t = .ok (d, t')) := by
  have hrun : ∀ w, (do
      let (d, t) ← dispatchLoop m (fun p => p = w) slots t
      return (-123, d, t) : Except Fault (Int × List Slot × PTable)) = .ok (pid', d, t') →
      pid' = -123 ∧ dispatchLoop m (fun p => p = w) slots t = .ok (d, t') := by
    intro w hw
    cases hl : dispatchLoop m (fun p => p = w) slots t with
    | error f => rw [hl] at hw; cases hw
    | ok r => rw [hl] at hw; cases hw; exact ⟨rfl, rfl⟩
  unfold lottery at h
  cases hp : findWithPid t pid with
  | some w =>
    rw [hp] at h
    obtain ⟨h1, h2⟩ := hrun w h
    exact ⟨h1, .inr ⟨w, h2⟩⟩
  | none =>
    rw [hp] at h
    cases hf : findWinner m.clock t with
    | error f => rw [hf] at h; cases h
    | ok w =>
      rw [hf] at h
      cases w with
      | none => cases h; exact ⟨rfl, .inl rfl⟩
      | some w =>
        obtain ⟨h1, h2⟩ := hrun w h
        exact ⟨h1, .inr ⟨w, h2⟩⟩

theorem bjf_cases {m : Env} (h : bjf m t = .ok (d, t')) :
    d = [] ∨ ∃ b, dispatchLoop m (fun p => b = p) slots t = .ok (d, t') := by
  unfold bjf at h
  cases hf : findBestJob t with
  | error f => rw [hf] at h; cases h
  | ok b =>
    rw [hf] at h
    cases b with
    | none => cases h; exact .inl rfl
    | some b => exact .inr ⟨b, h⟩

theorem dispatchLoop_nil {m : Env} {pick : Slot → Bool}
    (hno : ∀ s, ¬ Ready (t s)) (h : dispatchLoop m pick slots t = .ok (d, t')) : d = [] := by
  rw [dispatchLoop_none slots t hno] at h
  cases h
  rfl

theorem schedulerRound_none {m : Env} {pid pid' : Int}
    (hno : ∀ s, ¬ Due (t s)) (h : schedulerRound m pid t = .ok (pid', d, t')) : d = [] := by
  have hready : ∀ s, ¬ Ready ((levelFinder t).2 s) := fun s => mt ready_levelFinder.mp (hno s)
  have hlevel : (levelFinder t).1 ≠ 1 := by
    intro h1
    rcases levelFinder_level t with ⟨h4, -⟩ | ⟨-, s, hs⟩ | ⟨h23, -⟩
    · omega
    · exact hno s hs
    · omega
  unfold schedulerRound at h
  simp only [hlevel, if_false] at h
  split at h
  · cases (lottery_cases h).2 with
    | inl hd => exact hd
    | inr hw =>
      obtain ⟨w, hw⟩ := hw
      exact dispatchLoop_nil hready hw
  · split at h
    · cases hb : bjf m (levelFinder t).2 with
      | error f => rw [hb] at h; cases h
      | ok r =>
        rw [hb] at h
        cases h
        cases bjf_cases hb with
        | inl hd => exact hd
        | inr hbest =>
          obtain ⟨b, hbest⟩ := hbest
          exact dispatchLoop_nil hready hbest
    · cases h; rfl

/-- A round follows its policy exactly when nothing is runnable, or something is of level 1 after
aging and all that is can be switched to. -/
theorem schedulerRound_follows_policy_iff (m : Env) (hq : Quiet m.swtch) (pid : Int) (t : PTable) :
    FollowsPolicy m pid t ↔
      (∀ s, (t s).state ≠ .runnable) ∨ (∃ s, Due (t s)) ∧ ∀ s, Due (t s) → Loaded (t s) := by
  have hnd : slots.Nodup := nodup_finRange NPROC
  have hother : ∀ n k t', (levelFinder t).1 = k → n ≠ k → levelFinder t ≠ (n, t') := by
    intro n k t' hk hn heq
    rw [heq] at hk
    exact hn hk
  constructor
  · intro h
    by_cases hrun : ∃ s, (t s).state = .runnable
    · right
      have hdue : ∃ s, Due (t s) := by
        by_contra hno
        obtain ⟨pid', d, t', hok, hd⟩ := h.dispatches hrun
        exact hd (schedulerRound_none (not_exists.mp hno) hok)
      refine ⟨hdue, ?_⟩
      intro s hs
      by_contra hload
      have hlevel : levelFinder t = (1, (levelFinder t).2) := by rw [← levelFinder_of_due hs]
      obtain ⟨d, t'', hok, -⟩ := h.roundRobin _ hlevel
      obtain ⟨f, hf⟩ := dispatchLoop_error hq (fun _ => true) slots (levelFinder t).2 hnd
        (mem_slots s) (ready_levelFinder.mpr hs) rfl (mt loaded_levelFinder.mp hload)
      rw [roundRobin, hf] at hok
      cases hok
    · exact .inl (not_exists.mp hrun)
  · intro h
    cases h with
    | inl hno =>
      have hlevel := levelFinder_of_not_runnable hno
      constructor
      · intro t' ht'; exact absurd ht' (hother 1 4 t' hlevel (by decide))
      · intro t' ht'; exact absurd ht' (hother 2 4 t' hlevel (by decide))
      · intro t' ht'; exact absurd ht' (hother 3 4 t' hlevel (by decide))
      · intro ⟨s, hs⟩; exact absurd hs (hno s)
    | inr h =>
      obtain ⟨⟨s, hs⟩, hload⟩ := h
      have hlevel := levelFinder_of_due hs
      have hloaded : ∀ s ∈ slots, Ready ((levelFinder t).2 s) → Loaded ((levelFinder t).2 s) :=
        fun s _ hr => loaded_levelFinder.mpr (hload s (ready_levelFinder.mp hr))
      obtain ⟨d, t'', hok, hall⟩ := dispatchLoop_all hq (fun _ => true) slots
        (levelFinder t).2 hnd hloaded
      have hmem : ∀ s, Ready ((levelFinder t).2 s) → s ∈ d := fun s hr =>
        hall s (mem_slots s) hr rfl
      have hround : schedulerRound m pid t = .ok (pid, d, t'') := by
        unfold schedulerRound
        simp only [hlevel, if_true, roundRobin, hok]
        rfl
      constructor
      · intro t' ht'
        obtain rfl : (levelFinder t).2 = t' := by rw [ht']
        exact ⟨d, t'', hok, hmem⟩
      · intro t' ht'; exact absurd ht' (hother 2 1 t' hlevel (by decide))
      · intro t' ht'; exact absurd ht' (hother 3 1 t' hlevel (by decide))
      · intro _
        exact ⟨pid, d, t'', hround, ne_nil_of_mem (hmem s (ready_levelFinder.mpr hs))⟩

/-- A process that is put back at once. -/
def yielding : Env where
  clock := ⟨0, 0, 0⟩
  swtch p t := update t p { t p with state := .runnable }

theorem yielding_quiet : Quiet yielding.swtch where
  keeps p t s hs _ := update_of_ne hs _ _
  sound p t s hs hr := by
    have h : yielding.swtch p t s = t s := update_of_ne hs _ _
    exact .inl (h ▸ hr)

/-- A process of level 1, as `userinit` makes it, in the first slot. -/
def bootTable : PTable := fun s =>
  if s = 0 then { Proc.zero with
    state := .runnable, pid := 1, level := 1, tickets := 10, kstack := 4096, pgdir := 8192 }
  else Proc.zero

theorem schedulerRound_follows_policy_boot :
    Quiet yielding.swtch ∧ FollowsPolicy yielding (-123) bootTable := by
  refine ⟨yielding_quiet, ?_⟩
  refine (schedulerRound_follows_policy_iff yielding yielding_quiet (-123) bootTable).mpr (.inr ?_)
  refine ⟨⟨0, by decide⟩, ?_⟩
  intro s hs
  by_cases h0 : s = 0
  · subst h0; decide
  · simp [Due, bootTable, h0, Proc.zero] at hs

/-- A shell that waits for its child, the child as `fork` leaves it. -/
def forkedTable : PTable := fun s =>
  if s = 0 then { Proc.zero with
    state := .sleeping, chan := .proc 0, pid := 1, level := 1, tickets := 10, kstack := 4096,
    pgdir := 8192 }
  else if s = 1 then { Proc.zero with
    state := .runnable, pid := 2, parent := some 0, level := 2, tickets := 1, kstack := 12288,
    pgdir := 16384 }
  else Proc.zero

/-- The child wins the lottery of its level, and the round switches to nothing. -/
theorem lottery_skips_winner : (levelFinder forkedTable).1 = 2 ∧
    findWinner yielding.clock (levelFinder forkedTable).2 = .ok (some 1) ∧
    lottery yielding (-123) (levelFinder forkedTable).2 =
      .ok (-123, [], (levelFinder forkedTable).2) ∧
    ¬ FollowsPolicy yielding (-123) forkedTable := by
  have hlevel : (levelFinder forkedTable).1 = 2 := by decide +kernel
  have hwin : findWinner yielding.clock (levelFinder forkedTable).2 = .ok (some 1) := by
    decide +kernel
  have hnodue : ∀ s, ¬ Due (forkedTable s) := by decide
  have hready : ∀ s, ¬ Ready ((levelFinder forkedTable).2 s) := fun s =>
    mt ready_levelFinder.mp (hnodue s)
  have hpid : findWithPid (levelFinder forkedTable).2 (-123) = none := by decide +kernel
  have hrun : lottery yielding (-123) (levelFinder forkedTable).2 =
      .ok (-123, [], (levelFinder forkedTable).2) := by
    unfold lottery
    rw [hpid, hwin]
    simp only [bind, Except.bind, dispatchLoop_none slots _ hready]
    rfl
  refine ⟨hlevel, hwin, hrun, ?_⟩
  intro h
  obtain ⟨pid', d, t', hok, hd⟩ := h.dispatches ⟨1, rfl⟩
  exact hd (schedulerRound_none hnodue hok)

end Xv6.Kernel
