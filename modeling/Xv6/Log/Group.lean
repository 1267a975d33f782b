import Xv6.Log.State
import Xv6.Lib.Run

/-!
# Xv6.Log.Group

Group commit: any number of file-system operations share the log, in any interleaving of their
steps.

An operation is a natural number and happens once: `begin_op`, then any number of `log_write`s, then
the first critical section of `end_op`, which either ends it or makes it run `commit` and the second
critical section. Two histories are kept beside the log: `trace` records every `log_write` with the
operation that made it and the transaction that was open, and `txns` records the header each
`commit` found, so transaction number `t` is the one closed by commit number `t`.

The invariant `Sys.Inv` ties `outstanding` to the set of operations between `begin_op` and `end_op`,
`committing` to the one operation inside `commit`, and the header to the trace.
-/

namespace Xv6.Log

open Function List Finset

variable {g : LogSt} {o : Nat}

inductive Phase where
  | fresh
  | active
  | ending
  | committed
  | done
  deriving DecidableEq

/-- One `log_write(block)` by `op`, when `txn` transactions had been committed. -/
structure Entry where
  op : Nat
  block : Nat
  txn : Nat

structure Sys where
  log : LogSt
  phase : Nat → Phase
  trace : List Entry
  txns : List (List Nat)

inductive Event where
  | beginOp (o : Nat)
  | logWrite (o b : Nat)
  | endOp (o : Nat)
  | commit (o : Nat)
  | endCommit (o : Nat)

namespace Sys

def Init (s : Sys) : Prop :=
  s.log.outstanding = 0 ∧ s.log.committing = false ∧ s.log.lh.blocks = [] ∧
    (∀ o, s.phase o = .fresh) ∧ s.trace = [] ∧ s.txns = []

inductive Step : Sys → Event → Sys → Prop where
  | beginOp {s : Sys} {o : Nat} {g : LogSt} :
      s.phase o = .fresh → s.log.beginOp = some g →
      Step s (.beginOp o) { s with log := g, phase := update s.phase o .active }
  | logWrite {s : Sys} {o b : Nat} {g : LogSt} :
      s.phase o = .active → s.log.logWrite b = .ok g →
      Step s (.logWrite o b) { s with log := g, trace := ⟨o, b, s.txns.length⟩ :: s.trace }
  | endOp {s : Sys} {o : Nat} {c : Bool} {g : LogSt} :
      s.phase o = .active → s.log.endOp = .ok (c, g) →
      Step s (.endOp o)
        { s with log := g, phase := update s.phase o (if c then .ending else .done) }
  | commit {s : Sys} {o : Nat} :
      s.phase o = .ending →
      Step s (.commit o)
        { s with
          log := s.log.commit
          phase := update s.phase o .committed
          txns := s.txns ++ [s.log.lh.blocks] }
  | endCommit {s : Sys} {o : Nat} :
      s.phase o = .committed →
      Step s (.endCommit o)
        { s with log := s.log.endCommit, phase := update s.phase o .done }

/-- The operation has left `end_op`'s first critical section with `do_commit` set. -/
def Committer (s : Sys) (o : Nat) : Prop := s.phase o = .ending ∨ s.phase o = .committed

structure Inv (s : Sys) : Prop where
  count : ∃ S : Finset Nat, (∀ o, o ∈ S ↔ s.phase o = .active) ∧ s.log.outstanding = S.card
  quiet : s.log.committing = true → s.log.outstanding = 0
  committer : ∀ o, s.Committer o → s.log.committing = true
  unique : ∀ o o', s.Committer o → s.Committer o' → o = o'
  nodup : s.log.lh.blocks.Nodup
  header : ∀ b, b ∈ s.log.lh.blocks ↔ ∃ e ∈ s.trace, e.block = b ∧ e.txn = s.txns.length
  bound : ∀ e ∈ s.trace, e.txn ≤ s.txns.length
  started : ∀ e ∈ s.trace, s.phase e.op ≠ .fresh
  current : ∀ e ∈ s.trace, s.phase e.op = .active → e.txn = s.txns.length
  single : ∀ e ∈ s.trace, ∀ e' ∈ s.trace, e.op = e'.op → e.txn = e'.txn
  past : ∀ t bs, s.txns[t]? = some bs → ∀ b, b ∈ bs ↔ ∃ e ∈ s.trace, e.block = b ∧ e.txn = t

variable {s s' : Sys}

theorem Inv.init (h : Init s) : Inv s := by
  obtain ⟨ho, hc, hb, hp, ht, hx⟩ := h
  refine ⟨⟨∅, by simp [hp], by simp [ho]⟩, by simp [hc], ?_, ?_, by simp [hb], by simp [hb, ht],
    by simp [ht], by simp [ht], by simp [ht], by simp [ht], by simp [hx]⟩
  · rintro o (h | h) <;> simp [hp] at h
  · rintro o o' (h | h) <;> simp [hp] at h

theorem Inv.active_not_committing (h : Inv s) (ho : s.phase o = .active) :
    s.log.committing = false := by
  obtain ⟨S, hS, hcard⟩ := h.count
  have hpos : 0 < S.card := card_pos.mpr ⟨o, (hS o).mpr ho⟩
  by_contra hc
  have := h.quiet (by simpa using hc)
  omega

theorem Inv.no_committer (h : Inv s) (hc : s.log.committing = false) (o : Nat) :
    ¬ s.Committer o := by
  intro ho
  have := h.committer o ho
  rw [hc] at this
  cases this

theorem committer_update {x : Nat} {p : Phase} {phase : Nat → Phase} (hp : p ≠ .ending)
    (hp' : p ≠ .committed) : (update phase o p x = .ending ∨ update phase o p x = .committed) ↔
      x ≠ o ∧ (phase x = .ending ∨ phase x = .committed) := by
  by_cases hx : x = o
  · subst hx; simp [hp, hp']
  · simp [hx]

theorem Inv.beginOp (h : Inv s) (ho : s.phase o = .fresh) (hg : s.log.beginOp = some g) :
    Inv { s with log := g, phase := update s.phase o .active } := by
  obtain ⟨hc, -, rfl⟩ := LogSt.beginOp_some hg
  have hnew : ∀ e ∈ s.trace, e.op ≠ o := by
    rintro e he rfl
    exact h.started e he ho
  obtain ⟨S, hS, hcard⟩ := h.count
  have hoS : o ∉ S := by simp [hS, ho]
  refine ⟨⟨insert o S, ?_, ?_⟩, by simp [hc], ?_, ?_, h.nodup, h.header, h.bound, ?_, ?_,
    h.single, h.past⟩
  · intro x
    by_cases hx : x = o
    · subst hx; simp
    · simp [hx, hS]
  · simp [card_insert_of_notMem hoS, hcard]
  · intro x hx
    exact absurd ((committer_update (by decide) (by decide)).mp hx).2 (h.no_committer hc x)
  · intro x x' hx
    exact absurd ((committer_update (by decide) (by decide)).mp hx).2 (h.no_committer hc x)
  · intro e he
    simpa [update_of_ne (hnew e he)] using h.started e he
  · intro e he hact
    exact h.current e he (by simpa [update_of_ne (hnew e he)] using hact)

theorem Inv.logWrite (h : Inv s) {b : Nat} (ho : s.phase o = .active)
    (hg : s.log.logWrite b = .ok g) :
    Inv { s with log := g, trace := ⟨o, b, s.txns.length⟩ :: s.trace } := by
  obtain ⟨-, -, -, hbs, -, hout, hcom⟩ := LogSt.logWrite_ok hg
  have hmem : ∀ x, x ∈ g.lh.blocks ↔ x = b ∨ x ∈ s.log.lh.blocks := by
    intro x
    rw [hbs]
    split
    · rename_i hb
      constructor
      · exact .inr
      · rintro (rfl | hx)
        · exact hb
        · exact hx
    · simp [or_comm]
  refine ⟨?_, ?_, ?_, h.unique, ?_, ?_, ?_, ?_, ?_, ?_, ?_⟩
  · simpa [hout] using h.count
  · simpa [hout, hcom] using h.quiet
  · simpa [hcom, Committer] using h.committer
  · rw [hbs]
    split
    · exact h.nodup
    · rename_i hb
      exact h.nodup.append (nodup_singleton b) (by simpa using hb)
  · intro x
    rw [hmem, h.header]
    simp [eq_comm]
  · intro e he
    rcases List.mem_cons.mp he with rfl | he
    · exact Nat.le_refl _
    · exact h.bound e he
  · intro e he
    rcases List.mem_cons.mp he with rfl | he
    · simp [ho]
    · exact h.started e he
  · intro e he hact
    rcases List.mem_cons.mp he with rfl | he
    · rfl
    · exact h.current e he hact
  · -- the writer is active, so all its earlier entries are of the open transaction
    have hown : ∀ e ∈ s.trace, e.op = o → e.txn = s.txns.length := by
      rintro e he rfl
      exact h.current e he ho
    intro e he e' he' heq
    rcases List.mem_cons.mp he with rfl | he <;> rcases List.mem_cons.mp he' with rfl | he'
    · rfl
    · exact (hown e' he' heq.symm).symm
    · exact hown e he heq
    · exact h.single e he e' he' heq
  · intro t bs ht x
    have hlt : t < s.txns.length := (List.getElem?_eq_some_iff.mp ht).1
    rw [h.past t bs ht x]
    constructor
    · rintro ⟨e, he, hx⟩
      exact ⟨e, List.mem_cons_of_mem _ he, hx⟩
    · rintro ⟨e, he, hx, htx⟩
      rcases List.mem_cons.mp he with rfl | he
      · simp only at htx; omega
      · exact ⟨e, he, hx, htx⟩

theorem Inv.endOp (h : Inv s) {c : Bool} (ho : s.phase o = .active)
    (hg : s.log.endOp = .ok (c, g)) :
    Inv { s with log := g, phase := update s.phase o (if c then .ending else .done) } := by
  obtain ⟨hc, hiff, rfl⟩ := LogSt.endOp_ok hg
  obtain ⟨S, hS, hcard⟩ := h.count
  have hoS : o ∈ S := (hS o).mpr ho
  have hpos : 0 < S.card := card_pos.mpr ⟨o, hoS⟩
  have hne : (if c then Phase.ending else Phase.done) ≠ .active := by cases c <;> simp
  have hnf : (if c then Phase.ending else Phase.done) ≠ .fresh := by cases c <;> simp
  -- nobody else is committing, so a committer can only be `o` itself
  have hcom : ∀ x, Committer { s with
      log := { s.log with outstanding := s.log.outstanding - 1, committing := c }
      phase := update s.phase o (if c then .ending else .done) } x → x = o ∧ c = true := by
    intro x hx
    by_cases hxo : x = o
    · subst hxo
      cases c with
      | true => exact ⟨rfl, rfl⟩
      | false => simp [Committer] at hx
    · simp only [Committer, update_of_ne hxo] at hx
      exact absurd hx (h.no_committer hc x)
  refine ⟨⟨S.erase o, ?_, ?_⟩, ?_, ?_, ?_, h.nodup, h.header, h.bound, ?_, ?_, h.single, h.past⟩
  · intro x
    by_cases hx : x = o
    · subst hx; simp [hne]
    · simp [hx, hS]
  · rw [card_erase_of_mem hoS]
    simp only [hcard]
    omega
  · intro hct
    exact hiff.mp hct
  · intro x hx
    exact (hcom x hx).2
  · intro x x' hx hx'
    rw [(hcom x hx).1, (hcom x' hx').1]
  · intro e he
    by_cases heo : e.op = o
    · simpa [heo] using hnf
    · simpa [update_of_ne heo] using h.started e he
  · intro e he hact
    by_cases heo : e.op = o
    · simp [heo, hne] at hact
    · exact h.current e he (by simpa [update_of_ne heo] using hact)

theorem Inv.commit (h : Inv s) (ho : s.phase o = .ending) : Inv { s with
      log := s.log.commit
      phase := update s.phase o .committed
      txns := s.txns ++ [s.log.lh.blocks] } := by
  have hc : s.log.committing = true := h.committer o (.inl ho)
  have hnone : ∀ x, s.phase x ≠ .active := by
    intro x hx
    have := h.active_not_committing hx
    simp [hc] at this
  obtain ⟨S, hS, hcard⟩ := h.count
  have hcom : ∀ x, update s.phase o .committed x = .ending ∨
      update s.phase o .committed x = .committed → s.Committer x := by
    intro x hx
    by_cases hxo : x = o
    · subst hxo; exact .inl ho
    · simpa [Committer, update_of_ne hxo] using hx
  have hfuture : ¬ ∃ e ∈ s.trace, e.txn = s.txns.length + 1 := by
    rintro ⟨e, he, ht⟩
    have := h.bound e he
    omega
  refine ⟨⟨S, ?_, by simpa using hcard⟩, by simpa using h.quiet, ?_, ?_, by simp, ?_, ?_, ?_, ?_,
    h.single, ?_⟩
  · intro x
    by_cases hxo : x = o
    · subst hxo; simp [hS, ho]
    · simp [update_of_ne hxo, hS]
  · intro x hx
    simpa using hc
  · intro x x' hx hx'
    exact h.unique x x' (hcom x hx) (hcom x' hx')
  · -- no entry belongs to the transaction that opens now
    intro b
    simp only [LogSt.commit_blocks, not_mem_nil, length_append, length_singleton, false_iff]
    rintro ⟨e, he, -, ht⟩
    exact hfuture ⟨e, he, ht⟩
  · intro e he
    have := h.bound e he
    simp
    omega
  · intro e he
    by_cases heo : e.op = o
    · simp [heo]
    · simpa [update_of_ne heo] using h.started e he
  · intro e he hact
    by_cases heo : e.op = o
    · simp [heo] at hact
    · exact absurd (by simpa [update_of_ne heo] using hact) (hnone e.op)
  · intro t bs ht
    rw [List.getElem?_append] at ht
    split at ht
    · exact h.past t bs ht
    · -- the transaction closed now holds what the header held
      rename_i hge
      have htl : t = s.txns.length := by
        have := (List.getElem?_eq_some_iff.mp ht).1
        simp at this
        omega
      subst htl
      simp only [Nat.sub_self, List.getElem?_cons_zero, Option.some.injEq] at ht
      subst ht
      exact h.header

theorem Inv.endCommit (h : Inv s) (ho : s.phase o = .committed) :
    Inv { s with log := s.log.endCommit, phase := update s.phase o .done } := by
  obtain ⟨S, hS, hcard⟩ := h.count
  have hcom : ∀ x, ¬ (update s.phase o .done x = .ending ∨
      update s.phase o .done x = .committed) := by
    intro x hx
    obtain ⟨hne, hx⟩ := (committer_update (by decide) (by decide)).mp hx
    exact hne (h.unique x o hx (.inr ho))
  refine ⟨⟨S, ?_, hcard⟩, by simp [LogSt.endCommit], ?_, ?_, h.nodup, h.header, h.bound, ?_, ?_,
    h.single, h.past⟩
  · intro x
    by_cases hxo : x = o
    · subst hxo; simp [hS, ho]
    · simp [update_of_ne hxo, hS]
  · intro x hx
    exact absurd hx (hcom x)
  · intro x x' hx
    exact absurd hx (hcom x)
  · intro e he
    by_cases heo : e.op = o
    · simp [heo]
    · simpa [update_of_ne heo] using h.started e he
  · intro e he hact
    by_cases heo : e.op = o
    · simp [heo] at hact
    · exact h.current e he (by simpa [update_of_ne heo] using hact)

theorem Inv.step {e : Event} (h : Inv s) (hs : Step s e s') : Inv s' := by
  cases hs with
  | beginOp ho hg => exact h.beginOp ho hg
  | logWrite ho hg => exact h.logWrite ho hg
  | endOp ho hg => exact h.endOp ho hg
  | commit ho => exact h.commit ho
  | endCommit ho => exact h.endCommit ho

theorem reach_inv (h : Reach Init Step s) : Inv s :=
  h.invariant (fun _ => Inv.init) (fun _ _ _ => Inv.step)

end Sys

open Sys

/-- Group commit never splits an operation: over every interleaving from the state after `initlog`,
a committing log has no operation in progress, admits none and logs nothing; `end_op` never finds
the log committing; the header lists, without repetition, exactly the blocks logged since the last
commit; and all blocks an operation logs belong to one transaction, which is what its
commit finds. -/
theorem group_commit {s : Sys} (h : Reach Init Step s) :
    (s.log.committing = true → s.log.outstanding = 0) ∧
    (s.log.committing = true → ∀ o b s', ¬ Step s (.logWrite o b) s' ∧ ¬ Step s (.beginOp o) s') ∧
    (∀ o, s.phase o = .active → s.log.endOp ≠ .error .logCommitting) ∧
    (s.log.lh.blocks.Nodup ∧
      ∀ b, b ∈ s.log.lh.blocks ↔ ∃ e ∈ s.trace, e.block = b ∧ e.txn = s.txns.length) ∧
    (∀ e ∈ s.trace, ∀ e' ∈ s.trace, e.op = e'.op → e.txn = e'.txn) ∧
    (∀ t bs, s.txns[t]? = some bs → ∀ b, b ∈ bs ↔ ∃ e ∈ s.trace, e.block = b ∧ e.txn = t) := by
  have hi := reach_inv h
  refine ⟨hi.quiet, ?_, ?_, ⟨hi.nodup, hi.header⟩, hi.single, hi.past⟩
  · intro hc o b s'
    constructor
    · intro hs
      cases hs with
      | logWrite ho _ => simp [hi.active_not_committing ho] at hc
    · intro hs
      cases hs with
      | beginOp _ hg => simp [(LogSt.beginOp_some hg).1] at hc
  · intro o ho herr
    have hc := hi.active_not_committing ho
    simp only [LogSt.endOp, hc] at herr
    simp only [Bool.false_eq_true, if_false] at herr
    split at herr <;> cases herr

/-- Two operations in progress, one of them after a `log_write`. -/
theorem group_commit_two :
    ∃ s : Sys, Reach Init Step s ∧ s.log.outstanding = 2 ∧ s.log.lh.blocks = [50] ∧
      ∀ e ∈ s.trace, ∀ e' ∈ s.trace, e.op = e'.op → e.txn = e'.txn := by
  let s0 : Sys := ⟨⟨30, 0, false, .empty⟩, fun _ => .fresh, [], []⟩
  have h0 : Reach Init Step s0 := .start ⟨rfl, rfl, rfl, fun _ => rfl, rfl, rfl⟩
  have h1 := h0.step (.beginOp (o := 0) rfl rfl)
  have h2 := h1.step (.beginOp (o := 1) rfl rfl)
  have h3 := h2.step (.logWrite (o := 0) (b := 50) rfl rfl)
  exact ⟨_, h3, rfl, rfl, (group_commit h3).2.2.2.2.1⟩

end Xv6.Log
