import Xv6.Log.Group

/-!
# Xv6.Log.Reserve

Whether the space `begin_op` reserves is enough.

`begin_op` reserves `MAXOPBLOCKS` entries of `LOGSIZE` for each operation, but `log_write` panics
one entry earlier, at `log.size - 1`, since one block of the log area is the header. On an image of
mkfs `log.size` is `LOGSIZE`. `log_space_iff` says when an operation that keeps to its reservation
meets the panic, `log_space_spare` that operations of one block less never do.
-/

namespace Xv6.Log
namespace Sys

variable {e : Event} {g : LogSt} {b o : Nat}

/-- The blocks `o` has logged. -/
def loggedBy (s : Sys) (o : Nat) : Finset Nat :=
  ((s.trace.filter (·.op = o)).map Entry.block).toFinset

/-- The blocks logged since the last commit, by whatever operations. -/
def group (s : Sys) : Finset Nat :=
  ((s.trace.filter (·.txn = s.txns.length)).map Entry.block).toFinset

/-- With a `log_write` of `b`, operation `o` has logged at most `k` different blocks. -/
def Within (k : Nat) (s : Sys) (o b : Nat) : Prop := (insert b (s.loggedBy o)).card ≤ k

/-- The log after `initlog` on an image of mkfs, where `nlog` is `LOGSIZE`. -/
def MkfsInit (s : Sys) : Prop := s.Init ∧ s.log.size = LOGSIZE

/-- A step of operations that log at most `k` different blocks each. -/
def BudgetStep (k : Nat) (s : Sys) (e : Event) (s' : Sys) : Prop :=
  Step s e s' ∧ ∀ o b, e = .logWrite o b → s.Within k o b

variable {s s' : Sys} {k : Nat}

theorem mem_loggedBy : b ∈ s.loggedBy o ↔ ∃ e ∈ s.trace, e.op = o ∧ e.block = b := by
  simp [loggedBy, and_assoc]

theorem mem_group : b ∈ s.group ↔ ∃ e ∈ s.trace, e.block = b ∧ e.txn = s.txns.length := by
  simp only [group, List.mem_toFinset, List.mem_map, List.mem_filter, decide_eq_true_eq]
  constructor
  · rintro ⟨e, ⟨he, ht⟩, hb⟩
    exact ⟨e, he, hb, ht⟩
  · rintro ⟨e, he, hb, ht⟩
    exact ⟨e, ⟨he, ht⟩, hb⟩

theorem reach_of_budget (h : Reach MkfsInit (BudgetStep k) s) : Reach Init Step s := by
  induction h with
  | start hi => exact .start hi.1
  | step _ hst ih => exact .step ih hst.1

theorem Inv.group_card (h : Inv s) : s.group.card = s.log.lh.n := by
  have heq : s.group = s.log.lh.blocks.toFinset := by
    ext b
    rw [mem_group, List.mem_toFinset, h.header]
  rw [heq, List.toFinset_card_of_nodup h.nodup, Header.n]

theorem Step.size_eq (hs : Step s e s') : s'.log.size = s.log.size := by
  cases hs with
  | beginOp _ hg => obtain ⟨-, -, rfl⟩ := LogSt.beginOp_some hg; rfl
  | logWrite _ hg => exact (LogSt.logWrite_ok hg).2.2.2.2.1
  | endOp _ hg => obtain ⟨-, -, rfl⟩ := LogSt.endOp_ok hg; rfl
  | commit _ => simp only [LogSt.commit]; split <;> rfl
  | endCommit _ => rfl

theorem size_eq_of_reach (h : Reach MkfsInit (BudgetStep k) s) : s.log.size = LOGSIZE :=
  h.invariant (P := fun s => s.log.size = LOGSIZE) (fun _ hi => hi.2)
    fun _ _ _ hP hst => hst.1.size_eq.trans hP

theorem committer_update_committed {x : Nat} {p : Phase} {phase : Nat → Phase}
    (hp : p ≠ .committed) :
    Function.update phase o p x = .committed ↔ x ≠ o ∧ phase x = .committed := by
  by_cases hx : x = o
  · subst hx; simp [hp]
  · simp [hx]

/-- The entries in use and those still reserved, when each operation has one entry less than
`begin_op` reserves for it. A log with no operation in it is empty. -/
structure Spare (s : Sys) : Prop where
  own : ∀ o, (s.loggedBy o).card ≤ MAXOPBLOCKS - 1
  total : ∀ S : Finset Nat, (∀ o, o ∈ S ↔ s.phase o = .active) →
    s.log.lh.n + ∑ o ∈ S, (MAXOPBLOCKS - 1 - (s.loggedBy o).card) ≤ LOGSIZE - 2
  empty : s.log.outstanding = 0 → s.log.committing = false → s.log.lh.blocks = []
  committed : ∀ o, s.phase o = .committed → s.log.lh.blocks = []

theorem Inv.loggedBy_fresh (h : Inv s) (ho : s.phase o = .fresh) : s.loggedBy o = ∅ := by
  ext b
  simp only [mem_loggedBy, Finset.notMem_empty, iff_false]
  rintro ⟨e, he, rfl, -⟩
  exact h.started e he ho

theorem Inv.loggedBy_active (h : Inv s) (ho : s.phase o = .active)
    (hb : b ∈ s.loggedBy o) : b ∈ s.log.lh.blocks := by
  obtain ⟨e, he, rfl, rfl⟩ := mem_loggedBy.mp hb
  exact (h.header e.block).mpr ⟨e, he, rfl, h.current e he ho⟩

theorem loggedBy_cons (g : LogSt) (o b q : Nat) :
    loggedBy { s with log := g, trace := ⟨o, b, s.txns.length⟩ :: s.trace } q =
      if q = o then insert b (s.loggedBy o) else s.loggedBy q := by
  by_cases hq : q = o
  · subst hq
    simp [loggedBy]
  · have hne : ¬ o = q := fun h => hq h.symm
    simp [loggedBy, hq, hne]

theorem Spare.beginOp (hi : Inv s) (h : Spare s) (ho : s.phase o = .fresh)
    (hg : s.log.beginOp = some g) :
    Spare { s with log := g, phase := Function.update s.phase o .active } := by
  obtain ⟨hc, hroom, rfl⟩ := LogSt.beginOp_some hg
  obtain ⟨T, hT, hcard⟩ := hi.count
  refine ⟨h.own, fun S hS => ?_, fun hout => absurd hout (by simp only; omega), fun o hp =>
    h.committed o ((committer_update_committed (by decide)).mp hp).2⟩
  have hoT : o ∉ T := by simp [hT, ho]
  have hST : S = insert o T := by
    ext x
    rw [hS, Finset.mem_insert, hT]
    by_cases hx : x = o
    · subst hx; simp
    · simp [hx]
  have hsum : ∑ x ∈ T, (MAXOPBLOCKS - 1 - (s.loggedBy x).card) ≤ T.card * (MAXOPBLOCKS - 1) :=
    Finset.sum_le_card_nsmul T _ _ fun x _ => Nat.sub_le _ _
  have hnew := hi.loggedBy_fresh ho
  rw [hST, Finset.sum_insert hoT]
  show s.log.lh.n + (MAXOPBLOCKS - 1 - (s.loggedBy o).card +
    ∑ x ∈ T, (MAXOPBLOCKS - 1 - (s.loggedBy x).card)) ≤ LOGSIZE - 2
  rw [hnew, Finset.card_empty]
  -- alone, the operation finds an empty log; otherwise each reservation has an entry to spare
  by_cases hT0 : T.card = 0
  · have hempty : s.log.lh.n = 0 := by
      rw [Header.n, h.empty (by omega) hc, List.length_nil]
    rw [hT0] at hsum
    simp only [MAXOPBLOCKS, LOGSIZE] at hsum ⊢
    omega
  · rw [hcard] at hroom
    simp only [MAXOPBLOCKS, LOGSIZE] at hroom hsum ⊢
    omega

theorem Spare.logWrite (hi : Inv s) (h : Spare s)
    (ho : s.phase o = .active) (hb : s.Within (MAXOPBLOCKS - 1) o b)
    (hg : s.log.logWrite b = .ok g) :
    Spare { s with log := g, trace := ⟨o, b, s.txns.length⟩ :: s.trace } := by
  obtain ⟨hopen, -, -, hblocks, -, hout, -⟩ := LogSt.logWrite_ok hg
  refine ⟨fun q => ?_, fun S hS => ?_, fun h0 => ?_, fun o' hp => ?_⟩
  · rw [loggedBy_cons]
    split
    · exact hb
    · exact h.own q
  · have hoS : o ∈ S := (hS o).mpr ho
    have htotal := h.total S hS
    rw [← Finset.add_sum_erase S _ hoS] at htotal ⊢
    have hrest : ∑ x ∈ S.erase o, (MAXOPBLOCKS - 1 - (loggedBy { s with
        log := g, trace := ⟨o, b, s.txns.length⟩ :: s.trace } x).card) =
        ∑ x ∈ S.erase o, (MAXOPBLOCKS - 1 - (s.loggedBy x).card) := by
      refine Finset.sum_congr rfl fun x hx => ?_
      rw [loggedBy_cons, if_neg (Finset.ne_of_mem_erase hx)]
    rw [hrest, loggedBy_cons, if_pos rfl]
    simp only [Header.n, hblocks] at htotal ⊢
    have hown := h.own o
    have hwithin := hb
    unfold Within at hwithin
    split
    · have := Finset.card_le_card (Finset.subset_insert b (s.loggedBy o))
      omega
    · rename_i hnew
      rw [Finset.card_insert_of_notMem fun hmem => hnew (hi.loggedBy_active ho hmem)] at hwithin ⊢
      simp only [List.length_append, List.length_singleton]
      omega
  · simp only at h0
    omega
  · have := hi.committer o' (.inr hp)
    rw [hi.active_not_committing ho] at this
    cases this

theorem Spare.leave (hi : Inv s) (h : Spare s) {p : Phase}
    {txns : List (List Nat)} (hp : p ≠ .active) (hn : g.lh.n ≤ s.log.lh.n)
    (hempty : g.outstanding = 0 → g.committing = false → g.lh.blocks = [])
    (hcom : ∀ x, Function.update s.phase o p x = .committed → g.lh.blocks = []) :
    Spare { s with log := g, phase := Function.update s.phase o p, txns } := by
  refine ⟨h.own, fun S hS => ?_, hempty, hcom⟩
  obtain ⟨T, hT, -⟩ := hi.count
  have hsub : S ⊆ T := by
    intro x hx
    have := (hS x).mp hx
    by_cases hxo : x = o
    · subst hxo
      simp [hp] at this
    · rw [hT]
      simpa [hxo] using this
  have htotal := h.total T hT
  have := Finset.sum_le_sum_of_subset (f := fun x => MAXOPBLOCKS - 1 - (s.loggedBy x).card) hsub
  show g.lh.n + ∑ x ∈ S, (MAXOPBLOCKS - 1 - (s.loggedBy x).card) ≤ LOGSIZE - 2
  omega

theorem Spare.step (hi : Inv s) (h : Spare s)
    (hs : BudgetStep (MAXOPBLOCKS - 1) s e s') : Spare s' := by
  obtain ⟨hstep, hb⟩ := hs
  cases hstep with
  | beginOp ho hg => exact h.beginOp hi ho hg
  | logWrite ho hg => exact h.logWrite hi ho (hb _ _ rfl) hg
  | endOp ho hg =>
    obtain ⟨-, hiff, rfl⟩ := LogSt.endOp_ok hg
    rename_i c
    have hne : (if c then Phase.ending else Phase.done) ≠ .committed := by cases c <;> simp
    refine h.leave hi (by cases c <;> simp) (Nat.le_refl _) (fun hout hcom => ?_) fun x hp =>
      h.committed x ((committer_update_committed hne).mp hp).2
    simp only at hout hcom
    rw [hcom] at hiff
    exact absurd (hiff.mpr hout) Bool.false_ne_true
  | commit ho =>
    refine h.leave hi (by decide) ?_ (fun _ _ => LogSt.commit_blocks _) fun _ _ =>
      LogSt.commit_blocks _
    rw [Header.n, LogSt.commit_blocks]
    exact Nat.zero_le _
  | endCommit ho =>
    have hempty := h.committed _ ho
    exact h.leave hi (by decide) (Nat.le_refl _) (fun _ _ => hempty) fun _ _ => hempty

theorem reach_spare (h : Reach MkfsInit (BudgetStep (MAXOPBLOCKS - 1)) s) : Spare s := by
  induction h with
  | start hi =>
    obtain ⟨⟨-, -, hb, hp, ht, -⟩, -⟩ := hi
    refine ⟨fun o => by simp [loggedBy, ht], fun S hS => ?_, fun _ _ => hb, fun _ _ => hb⟩
    have hS0 : S = ∅ := by
      ext x
      simp [hS, hp]
    simp [hS0, Header.n, hb]
  | step hr hst ih => exact ih.step (reach_inv (reach_of_budget hr)) hst

end Sys

open Sys

/-- In every run of operations that log at most `MAXOPBLOCKS` different blocks each, a further
`log_write` finds the transaction too big exactly when the operations since the last commit have
logged `LOGSIZE - 1` different blocks or more. -/
theorem log_space_iff {s : Sys} (h : Reach MkfsInit (BudgetStep MAXOPBLOCKS) s) (b : Nat) :
    s.log.logWrite b = .error .tooBigTransaction ↔ LOGSIZE - 1 ≤ s.group.card := by
  have hi := reach_inv (reach_of_budget h)
  have hsize := size_eq_of_reach h
  rw [hi.group_card, LogSt.logWrite]
  constructor
  · intro herr
    split at herr
    · omega
    · split at herr <;> cases herr
  · intro hge
    rw [dif_pos (by omega)]

/-- The log of an image of mkfs before the first operation. -/
def freshLog : Sys := ⟨⟨LOGSIZE, 0, false, .empty⟩, fun _ => .fresh, [], []⟩

theorem freshLog_init : MkfsInit freshLog := ⟨⟨rfl, rfl, rfl, fun _ => rfl, rfl, rfl⟩, rfl⟩

/-- Two operations, the first of which has logged a block. -/
theorem reach_two {n : Nat} (hn : 1 ≤ n) : ∃ s : Sys, Reach MkfsInit (BudgetStep n) s ∧
    s.log.outstanding = 2 ∧ s.group = {50} := by
  have h0 : Reach MkfsInit (BudgetStep n) freshLog := .start freshLog_init
  have h1 := h0.step ⟨.beginOp (o := 0) rfl rfl, nofun⟩
  have h2 := h1.step ⟨.beginOp (o := 1) rfl rfl, nofun⟩
  refine ⟨_, h2.step ⟨.logWrite (o := 0) (b := 50) rfl rfl, fun o b he => ?_⟩, rfl, rfl⟩
  cases he
  exact hn

theorem log_space_two :
    ∃ s : Sys, Reach MkfsInit (BudgetStep MAXOPBLOCKS) s ∧ s.log.outstanding = 2 ∧
      s.group = {50} ∧ s.log.logWrite 51 ≠ .error .tooBigTransaction := by
  obtain ⟨s, h, hout, hgroup⟩ := reach_two (n := MAXOPBLOCKS) (by decide)
  refine ⟨s, h, hout, hgroup, fun hpanic => ?_⟩
  have hfull := (log_space_iff h 51).mp hpanic
  rw [hgroup] at hfull
  revert hfull
  decide

namespace Sys

/-- Where no operation logs more than `MAXOPBLOCKS - 1` different blocks, `log_write` never finds
the transaction too big, in whatever order the operations run. -/
theorem log_space_spare (h : Reach MkfsInit (BudgetStep (MAXOPBLOCKS - 1)) s) (b : Nat) :
    s.log.logWrite b ≠ .error .tooBigTransaction := by
  obtain ⟨S, hS, -⟩ := (reach_inv (reach_of_budget h)).count
  have htotal := (reach_spare h).total S hS
  have hsize := size_eq_of_reach h
  have hroom : ¬ (LOGSIZE ≤ s.log.lh.n ∨ (s.log.size : Int) - 1 ≤ s.log.lh.n) := by
    rw [hsize]
    simp only [LOGSIZE, MAXOPBLOCKS] at htotal ⊢
    omega
  rw [LogSt.logWrite, dif_neg hroom]
  split
  · simp
  · simp

theorem log_space_spare_two : ∃ s : Sys, Reach MkfsInit (BudgetStep (MAXOPBLOCKS - 1)) s ∧
    s.log.outstanding = 2 ∧ s.group = {50} ∧ s.log.logWrite 51 ≠ .error .tooBigTransaction := by
  obtain ⟨s, h, hout, hgroup⟩ := reach_two (n := MAXOPBLOCKS - 1) (by decide)
  exact ⟨s, h, hout, hgroup, log_space_spare h 51⟩

theorem reach_logs {s : Sys} (h : Reach MkfsInit (BudgetStep MAXOPBLOCKS) s) {o a : Nat}
    (ho : s.phase o = .active) (hnone : s.loggedBy o = ∅) (hopen : 1 ≤ s.log.outstanding)
    (habove : ∀ b ∈ s.log.lh.blocks, b < a) (k : Nat) (hk : k ≤ MAXOPBLOCKS)
    (hroom : s.log.lh.n + k < LOGSIZE) :
    ∃ s', Reach MkfsInit (BudgetStep MAXOPBLOCKS) s' ∧ s'.phase = s.phase ∧
      s'.log.outstanding = s.log.outstanding ∧ s'.log.lh.n = s.log.lh.n + k ∧
      (∀ b ∈ s'.log.lh.blocks, b < a + k) ∧ s'.loggedBy o = Finset.Ico a (a + k) ∧
      ∀ q, q ≠ o → s'.loggedBy q = s.loggedBy q := by
  induction k with
  | zero => exact ⟨s, h, rfl, rfl, rfl, habove, by simp [hnone], fun _ _ => rfl⟩
  | succ k ih =>
    obtain ⟨s1, h1, hphase, hout, hn, hbelow, hlogged, hothers⟩ := ih (by omega) (by omega)
    have hnew : a + k ∉ s1.log.lh.blocks := fun hmem => Nat.lt_irrefl _ (hbelow _ hmem)
    have hinsert : insert (a + k) (s1.loggedBy o) = Finset.Ico a (a + (k + 1)) := by
      ext x
      simp only [hlogged, Finset.mem_insert, Finset.mem_Ico]
      omega
    have hwithin : s1.Within MAXOPBLOCKS o (a + k) := by
      rw [Within, hinsert, Nat.card_Ico]
      omega
    have hsize := size_eq_of_reach h1
    obtain ⟨g, hg⟩ : ∃ g, s1.log.logWrite (a + k) = .ok g := by
      rw [LogSt.logWrite, dif_neg (by rw [hsize]; omega), if_neg (by omega)]
      exact ⟨_, rfl⟩
    obtain ⟨-, -, -, hblocks, -, hout', -⟩ := LogSt.logWrite_ok hg
    rw [if_neg hnew] at hblocks
    have hstep : BudgetStep MAXOPBLOCKS s1 (.logWrite o (a + k))
        { s1 with log := g, trace := ⟨o, a + k, s1.txns.length⟩ :: s1.trace } := by
      refine ⟨.logWrite (by rw [hphase]; exact ho) hg, ?_⟩
      intro o' b' he
      cases he
      exact hwithin
    refine ⟨_, h1.step hstep, hphase, hout'.trans hout, ?_, ?_, ?_, ?_⟩
    · simp only [Header.n, hblocks, List.length_append, List.length_singleton] at hn ⊢
      omega
    · intro b hb
      simp only [hblocks, List.mem_append, List.mem_singleton] at hb
      cases hb with
      | inl hb => have := hbelow b hb; omega
      | inr hb => omega
    · rw [loggedBy_cons, if_pos rfl, hinsert]
    · intro q hq
      rw [loggedBy_cons, if_neg hq]
      exact hothers q hq

end Sys

/-- Three operations are admitted together; two log ten blocks and the third nine. Its tenth block
is within the reservation, and there is no entry left for it. -/
theorem tenth_block_panics :
    ∃ s o b, Reach MkfsInit (BudgetStep MAXOPBLOCKS) s ∧ s.phase o = .active ∧
      s.Within MAXOPBLOCKS o b ∧ s.log.logWrite b = .error .tooBigTransaction := by
  have h0 : Reach MkfsInit (BudgetStep MAXOPBLOCKS) freshLog := .start freshLog_init
  have h1 := h0.step ⟨.beginOp (o := 0) rfl rfl, nofun⟩
  have h2 := h1.step ⟨.beginOp (o := 1) rfl rfl, nofun⟩
  have h3 := h2.step ⟨.beginOp (o := 2) rfl rfl, nofun⟩
  obtain ⟨s4, h4, hp4, ho4, hn4, hb4, -, hq4⟩ := reach_logs h3 (o := 0) (a := 100) rfl rfl
    (by decide) nofun 10 (by decide) (by decide)
  obtain ⟨s5, h5, hp5, ho5, hn5, hb5, -, hq5⟩ := reach_logs h4 (o := 1) (a := 110)
    (by rw [hp4]; rfl) (by rw [hq4 1 (by decide)]; rfl) (by rw [ho4]; decide) hb4 10 (by decide)
    (by rw [hn4]; decide)
  obtain ⟨s6, h6, hp6, ho6, hn6, hb6, hl6, -⟩ := reach_logs h5 (o := 2) (a := 120)
    (by rw [hp5, hp4]; rfl) (by rw [hq5 2 (by decide), hq4 2 (by decide)]; rfl)
    (by rw [ho5, ho4]; decide) hb5 9 (by decide) (by rw [hn5, hn4]; decide)
  have hfull : s6.log.lh.n = 29 := by
    rw [hn6, hn5, hn4]
    rfl
  refine ⟨s6, 2, 129, h6, by rw [hp6, hp5, hp4]; rfl, ?_, ?_⟩
  · rw [Within, hl6]
    decide
  · rw [LogSt.logWrite, dif_pos (by rw [size_eq_of_reach h6, hfull]; decide)]

end Xv6.Log
