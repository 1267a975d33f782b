import Xv6.Kernel.Sched

/-!
# Xv6.Kernel.BestJob

The choice of level 3.

`find_best_job` keeps the least rank so far and the job it belongs to, and takes the rank -1 to mean
that there is none yet. A job whose rank is -1 is forgotten when the next one comes. `IsBest` says
what the function is for; the ranks are exact numbers.
-/

namespace Xv6.Kernel

open List

variable {l1 l2 : List Slot} {t : PTable} {p : Slot}

def Third (p : Proc) : Prop := p.state = .runnable ∧ p.level = 3

instance (p : Proc) : Decidable (Third p) := inferInstanceAs (Decidable (_ ∧ _))

/-- The rank as an exact number, also where the quotient is not an `int`. -/
def exactRank (p : Proc) : ℚ :=
  (p.priorityRatio.tdiv p.tickets + p.arrivalTime * p.arrivalTimeRatio : Int) +
    p.executedCycle * p.executedCycleRatio

/-- The quotient in the rank is not an `int`. -/
def Overflows (p : Proc) : Prop := p.priorityRatio = -2 ^ 31 ∧ p.tickets = -1

instance (p : Proc) : Decidable (Overflows p) := inferInstanceAs (Decidable (_ ∧ _))

/-- What the loop does with a job. -/
def keepMin (key : Slot → ℚ) (min : ℚ × Option Slot) (p : Slot) : ℚ × Option Slot :=
  if min.1 = -1 ∨ min.1 > key p then (key p, some p) else min

/-- `find_best_job(c)` with exact ranks. -/
def exactBestJob (t : PTable) : Option Slot :=
  (slots.foldl (fun min p => if (t p).state ≠ .runnable ∨ (t p).level ≠ 3 then min
    else keepMin (fun s => exactRank (t s)) min p) (-1, none)).2

/-- `b` is the first job of least rank, or null where there are no jobs. -/
structure IsBest (t : PTable) (b : Option Slot) : Prop where
  null : b = none ↔ ∀ s, ¬ Third (t s)
  third : ∀ p, b = some p → Third (t p)
  least : ∀ p q, b = some p → Third (t q) → exactRank (t p) ≤ exactRank (t q)
  first : ∀ p q, b = some p → Third (t q) → q < p → exactRank (t p) < exactRank (t q)

/-- No job of rank -1 is forgotten for good: where another follows, there is one of lower rank. -/
def NoneHidden (t : PTable) : Prop :=
  ∀ p q, p < q → Third (t p) → Third (t q) → exactRank (t p) = -1 →
    ∃ s, Third (t s) ∧ exactRank (t s) < -1

theorem rank_eq {p : Proc} (h0 : p.tickets ≠ 0) (h : ¬ Overflows p) :
    rank p = .ok (exactRank p) := by
  have hdiv : ¬ (p.tickets = 0 ∨ (p.priorityRatio = -2 ^ 31 ∧ p.tickets = -1)) :=
    not_or.mpr ⟨h0, h⟩
  rw [rank, idiv, if_neg hdiv]
  rfl

theorem skip_iff {p : Proc} : p.state ≠ .runnable ∨ p.level ≠ 3 ↔ ¬ Third p := not_and_or.symm

theorem bestJobStep_third (hp : Third (t p)) (h0 : (t p).tickets ≠ 0)
    (h : ¬ Overflows (t p)) (min : ℚ × Option Slot) :
    bestJobStep t min p = .ok (keepMin (fun s => exactRank (t s)) min p) := by
  rw [bestJobStep, if_neg (fun hskip => skip_iff.mp hskip hp), rank_eq h0 h, keepMin]
  by_cases hmin : min.1 = -1 ∨ min.1 > exactRank (t p)
  · simp only [bind, Except.bind, if_pos hmin]
    rfl
  · simp only [bind, Except.bind, if_neg hmin]
    rfl

theorem findBestJob_exact (h0 : ∀ s, Third (t s) → (t s).tickets ≠ 0)
    (h : ∀ s, Third (t s) → ¬ Overflows (t s)) : findBestJob t = .ok (exactBestJob t) := by
  have hloop : ∀ (l : List Slot) min, l.foldlM (bestJobStep t) min =
      .ok (l.foldl (fun min p => if (t p).state ≠ .runnable ∨ (t p).level ≠ 3 then min
        else keepMin (fun s => exactRank (t s)) min p) min) := by
    intro l
    induction l with
    | nil => intro min; rfl
    | cons p l ih =>
      intro min
      rw [foldlM_cons, foldl_cons, ← ih]
      by_cases hp : Third (t p)
      · rw [bestJobStep_third hp (h0 p hp) (h p hp), if_neg (fun hskip => skip_iff.mp hskip hp)]
        rfl
      · rw [bestJobStep, if_pos (skip_iff.mpr hp), if_pos (skip_iff.mpr hp)]
        rfl
  rw [findBestJob, hloop]
  rfl

section

variable {key : Slot → ℚ}

theorem foldl_keepMin_cases (l : List Slot) : ∀ min, l.foldl (keepMin key) min = min ∨
    ∃ p ∈ l, l.foldl (keepMin key) min = (key p, some p) := by
  induction l with
  | nil => intro min; exact .inl rfl
  | cons p l ih =>
    intro min
    rw [foldl_cons]
    rcases ih (keepMin key min p) with h | ⟨q, hq, h⟩
    · rw [h, keepMin]
      split
      · exact .inr ⟨p, mem_cons_self, rfl⟩
      · exact .inl rfl
    · exact .inr ⟨q, mem_cons_of_mem p hq, h⟩

theorem foldl_keepMin_stays (hp : key p ≠ -1) (l : List Slot)
    (hl : ∀ q ∈ l, key p ≤ key q) : l.foldl (keepMin key) (key p, some p) = (key p, some p) := by
  induction l with
  | nil => rfl
  | cons q l ih =>
    have hq := hl q mem_cons_self
    have hkeep : keepMin key (key p, some p) q = (key p, some p) := by
      rw [keepMin, if_neg]
      exact not_or.mpr ⟨hp, not_lt.mpr hq⟩
    rw [foldl_cons, hkeep]
    exact ih fun r hr => hl r (mem_cons_of_mem q hr)

theorem foldl_keepMin_iff (hnd : (l1 ++ p :: l2).Nodup)
    (h1 : ∀ q ∈ l1, key p < key q) (h2 : ∀ q ∈ l2, key p ≤ key q) :
    ((l1 ++ p :: l2).foldl (keepMin key) (-1, none)).2 = some p ↔ key p ≠ -1 ∨ l2 = [] := by
  have htake : keepMin key (l1.foldl (keepMin key) (-1, none)) p = (key p, some p) := by
    rw [keepMin, if_pos]
    rcases foldl_keepMin_cases l1 (-1, none) with h | ⟨q, hq, h⟩
    · exact .inl (by rw [h])
    · exact .inr (by rw [h]; exact h1 q hq)
  rw [foldl_append, foldl_cons, htake]
  by_cases hp : key p = -1
  · rw [or_iff_right (not_not_intro hp)]
    cases l2 with
    | nil => exact iff_of_true rfl rfl
    | cons q l2 =>
      refine iff_of_false (fun h => ?_) (cons_ne_nil q l2)
      -- The next job replaces it, and from then on the job kept is one of those behind it.
      have hnext : keepMin key (key p, some p) q = (key q, some q) := by
        rw [keepMin, if_pos (.inl hp)]
      have hmem : p ∈ q :: l2 := by
        rw [foldl_cons, hnext] at h
        rcases foldl_keepMin_cases l2 (key q, some q) with h' | ⟨r, hr, h'⟩
        · rw [h'] at h
          cases h
          exact mem_cons_self
        · rw [h'] at h
          cases h
          exact mem_cons_of_mem q hr
      exact (nodup_cons.mp (nodup_append.mp hnd).2.1).1 hmem
  · rw [foldl_keepMin_stays hp l2 h2]
    exact iff_of_true rfl (.inl hp)

theorem exists_first_least (key : Slot → ℚ) (l : List Slot) (hl : l ≠ []) : ∃ l1 p l2, l =
    l1 ++ p :: l2 ∧
    (∀ q ∈ l1, key p < key q) ∧ ∀ q ∈ l2, key p ≤ key q := by
  induction l with
  | nil => exact absurd rfl hl
  | cons a l ih =>
    by_cases hnil : l = []
    · subst hnil
      exact ⟨[], a, [], rfl, by simp, by simp⟩
    · obtain ⟨l1, p, l2, rfl, h1, h2⟩ := ih hnil
      by_cases ha : key a ≤ key p
      · refine ⟨[], a, l1 ++ p :: l2, rfl, by simp, ?_⟩
        intro q hq
        rcases mem_append.mp hq with hq | hq
        · exact ha.trans (h1 q hq).le
        · rcases mem_cons.mp hq with rfl | hq
          · exact ha
          · exact ha.trans (h2 q hq)
      · refine ⟨a :: l1, p, l2, rfl, ?_, h2⟩
        intro q hq
        rcases mem_cons.mp hq with rfl | hq
        · exact not_le.mp ha
        · exact h1 q hq

end

def jobs (t : PTable) : List Slot := slots.filter fun s => Third (t s)

theorem mem_jobs {s : Slot} : s ∈ jobs t ↔ Third (t s) := by
  simp [jobs, mem_slots]

theorem jobs_sorted (t : PTable) : (jobs t).Pairwise (· < ·) :=
  (pairwise_lt_finRange NPROC).filter _

theorem exactBestJob_eq (t : PTable) :
    exactBestJob t = ((jobs t).foldl (keepMin fun s => exactRank (t s)) (-1, none)).2 := by
  rw [exactBestJob, jobs, foldl_filter]
  congr 2
  funext min p
  by_cases hp : Third (t p)
  · rw [if_neg (fun hskip => skip_iff.mp hskip hp), if_pos (decide_eq_true hp)]
  · rw [if_pos (skip_iff.mpr hp), if_neg (by simpa using hp)]

theorem isBest_iff (hl : jobs t = l1 ++ p :: l2) (h1 : ∀ q ∈ l1, exactRank (t p) < exactRank (t q))
    (h2 : ∀ q ∈ l2, exactRank (t p) ≤ exactRank (t q)) (b : Option Slot) :
    IsBest t b ↔ b = some p := by
  have hthird : Third (t p) := mem_jobs.mp (by rw [hl]; simp)
  have hmem : ∀ q, Third (t q) → q ∈ l1 ∨ q = p ∨ q ∈ l2 := fun q hq => by
    have := mem_jobs.mpr hq
    rw [hl] at this
    simpa using this
  have hle : ∀ q, Third (t q) → exactRank (t p) ≤ exactRank (t q) := by
    intro q hq
    rcases hmem q hq with h | rfl | h
    · exact (h1 q h).le
    · exact le_refl _
    · exact h2 q h
  have hsorted := jobs_sorted t
  rw [hl] at hsorted
  have hlt : ∀ q, Third (t q) → q < p → exactRank (t p) < exactRank (t q) := by
    intro q hq hqp
    rcases hmem q hq with h | rfl | h
    · exact h1 q h
    · exact absurd hqp (lt_irrefl q)
    · have hpq := (pairwise_cons.mp (pairwise_append.mp hsorted).2.1).1 q h
      exact absurd hqp hpq.asymm
  constructor
  · intro h
    cases b with
    | none => exact absurd hthird (h.null.mp rfl p)
    | some q =>
      have hq := h.third q rfl
      rcases lt_trichotomy q p with hqp | rfl | hpq
      · exact absurd (h.least q p rfl hthird) (not_le.mpr (hlt q hq hqp))
      · rfl
      · exact absurd (hle q hq) (not_le.mpr (h.first q p rfl hthird hpq))
  · rintro rfl
    refine ⟨iff_of_false (by simp) (fun h => h p hthird), ?_, ?_, ?_⟩
    · rintro q ⟨⟩; exact hthird
    · rintro q r ⟨⟩ hr; exact hle r hr
    · rintro q r ⟨⟩ hr hrq; exact hlt r hr hrq

theorem noneHidden_iff (hl : jobs t = l1 ++ p :: l2)
    (h1 : ∀ q ∈ l1, exactRank (t p) < exactRank (t q))
    (h2 : ∀ q ∈ l2, exactRank (t p) ≤ exactRank (t q)) :
    NoneHidden t ↔ exactRank (t p) ≠ -1 ∨ l2 = [] := by
  have hbest := (isBest_iff hl h1 h2 (some p)).mpr rfl
  have hthird := hbest.third p rfl
  have hsorted := jobs_sorted t
  rw [hl] at hsorted
  constructor
  · intro h
    by_contra hno
    obtain ⟨hrank, hl2⟩ := not_or.mp hno
    rw [not_not] at hrank
    obtain ⟨q, hq⟩ := exists_mem_of_ne_nil l2 hl2
    have hpq := (pairwise_cons.mp (pairwise_append.mp hsorted).2.1).1 q hq
    have hq3 : Third (t q) := mem_jobs.mp (by rw [hl]; simp [hq])
    obtain ⟨s, hs, hlow⟩ := h p q hpq hthird hq3 hrank
    have := hbest.least p s rfl hs
    rw [hrank] at this
    exact absurd hlow (not_lt.mpr this)
  · intro h q r hqr hq hr hrank
    rcases lt_or_ge (exactRank (t p)) (-1) with hlow | hge
    · exact ⟨p, hthird, hlow⟩
    · -- The least rank is -1, so `p` is the last job and `q` is before it.
      have hp1 : exactRank (t p) = -1 := le_antisymm (hrank ▸ hbest.least p q rfl hq) hge
      have hl2 := h.resolve_left (not_not_intro hp1)
      rw [hl2] at hsorted hl
      have hmem : r ∈ l1 ++ [p] := hl ▸ mem_jobs.mpr hr
      have hrp : r ≤ p := by
        rcases mem_append.mp hmem with hm | hm
        · exact ((pairwise_append.mp hsorted).2.2 r hm p mem_cons_self).le
        · exact (mem_singleton.mp hm).le
      have := hbest.first p q rfl hq (hqr.trans_le hrp)
      rw [hp1, hrank] at this
      exact absurd this (lt_irrefl _)

theorem isBest_exactBestJob_iff (t : PTable) : IsBest t (exactBestJob t) ↔ NoneHidden t := by
  by_cases hnil : jobs t = []
  · have hno : ∀ s, ¬ Third (t s) := fun s hs => by
      have := mem_jobs.mpr hs
      rw [hnil] at this
      exact absurd this not_mem_nil
    have hnone : exactBestJob t = none := by
      rw [exactBestJob_eq, hnil]
      rfl
    rw [hnone]
    refine iff_of_true ⟨by simp [hno], by simp, by simp, by simp⟩ ?_
    intro p q _ hp
    exact absurd hp (hno p)
  · obtain ⟨l1, p, l2, hl, h1, h2⟩ := exists_first_least (fun s => exactRank (t s)) _ hnil
    have hnd : (l1 ++ p :: l2).Nodup := hl ▸ (nodup_finRange NPROC).filter _
    rw [isBest_iff hl h1 h2, noneHidden_iff hl h1 h2, ← foldl_keepMin_iff hnd h1 h2, ← hl,
      exactBestJob_eq]

/-- With exact ranks, `find_best_job` finds the best job exactly when no job of rank -1 is hidden by
the next; and it has exact ranks where no quotient overflows. -/
theorem findBestJob_best_iff (t : PTable) (h0 : ∀ s, Third (t s) → (t s).tickets ≠ 0) :
    (IsBest t (exactBestJob t) ↔ NoneHidden t) ∧
    ((∀ s, Third (t s) → ¬ Overflows (t s)) → findBestJob t = .ok (exactBestJob t)) :=
  ⟨isBest_exactBestJob_iff t, findBestJob_exact h0⟩

/-- A job with the priority ratio `ratio` and one ticket; its rank is the ratio. -/
def job (ratio : Int) : Proc :=
  { Proc.zero with state := .runnable, level := 3, tickets := 1, priorityRatio := ratio }

def twoJobs (ratio ratio' : Int) : PTable := fun s =>
  if s = 0 then job ratio else if s = 1 then job ratio' else Proc.zero

theorem findBestJob_best_minus_two : IsBest (twoJobs (-1) (-2)) (exactBestJob (twoJobs (-1) (-2))) ∧
    findBestJob (twoJobs (-1) (-2)) = .ok (exactBestJob (twoJobs (-1) (-2))) := by
  obtain ⟨hiff, heq⟩ := findBestJob_best_iff (twoJobs (-1) (-2)) (by decide)
  refine ⟨hiff.mpr ?_, heq (by decide)⟩
  intro p q _ _ _ _
  exact ⟨1, by decide, by decide +kernel⟩

/-- The job of rank 5 is taken for the best, and the one of rank -1 is there. -/
theorem findBestJob_hides_minus_one : (∀ s, Third (twoJobs (-1) 5 s) →
      (twoJobs (-1) 5 s).tickets ≠ 0 ∧ ¬ Overflows (twoJobs (-1) 5 s)) ∧
    findBestJob (twoJobs (-1) 5) = .ok (some 1) ∧
    exactRank (twoJobs (-1) 5 0) = -1 ∧ exactRank (twoJobs (-1) 5 1) = 5 ∧
    ¬ IsBest (twoJobs (-1) 5) (some 1) := by
  have hrank : exactRank (twoJobs (-1) 5 0) = -1 ∧ exactRank (twoJobs (-1) 5 1) = 5 := by
    decide +kernel
  refine ⟨by decide, by decide +kernel, hrank.1, hrank.2, fun h => ?_⟩
  have := h.least 1 0 rfl (by decide)
  rw [hrank.1, hrank.2] at this
  exact absurd this (by decide)

end Xv6.Kernel
