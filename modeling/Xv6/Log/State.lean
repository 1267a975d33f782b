import Xv6.Log.Commit

/-!
# Xv6.Log.State

The bookkeeping half of `log.c`: `begin_op`, `log_write` and the two critical sections of `end_op`,
on `struct log` without its lock.
-/

namespace Xv6

/-- The calls of `panic` in the modelled code. -/
inductive Panic where
  | tooBigTransaction
  | logWriteOutsideTrans
  | logCommitting
  | ballocOutOfBlocks
  | freeingFreeBlock
  | iallocNoInodes
  | igetNoInodes
  | bmapOutOfRange
  deriving DecidableEq, Repr

namespace Log

structure LogSt where
  size : Nat
  outstanding : Int
  committing : Bool
  lh : Header

/-- The loop of `log_write` and the two assignments after it: `i` is the first entry equal to `b`,
or `n` when there is none. -/
def absorb (bs : List Nat) (b : Nat) : List Nat :=
  let i := bs.findIdx (· == b)
  if i = bs.length then bs ++ [b] else bs.set i b

theorem absorb_eq (bs : List Nat) (b : Nat) : absorb bs b = if b ∈ bs then bs else bs ++ [b] := by
  by_cases hb : b ∈ bs
  · have hi : bs.findIdx (· == b) < bs.length := List.findIdx_lt_length_of_exists ⟨b, hb, by simp⟩
    have hget : bs[bs.findIdx (· == b)] = b := by
      have := List.findIdx_getElem (w := hi)
      simpa using this
    simp only [absorb, if_pos hb, if_neg (Nat.ne_of_lt hi)]
    conv_rhs => rw [← List.set_getElem_self hi]
    rw [hget]
  · have hi : bs.findIdx (· == b) = bs.length := by
      rw [List.findIdx_eq_length]
      intro x hx
      simp only [beq_eq_false_iff_ne]
      rintro rfl
      exact hb hx
    simp only [absorb, if_neg hb, if_pos hi]

theorem absorb_length_le (bs : List Nat) (b : Nat) : (absorb bs b).length ≤ bs.length + 1 := by
  rw [absorb_eq]
  split <;> simp

theorem Header.absorb_fits (lh : Header) (b : Nat) (h : lh.n < LOGSIZE) :
    (Log.absorb lh.blocks b).length ≤ LOGSIZE := by
  have := absorb_length_le lh.blocks b
  simp only [Header.n] at h
  omega

def Header.absorb (lh : Header) (b : Nat) (h : lh.n < LOGSIZE) : Header where
  blocks := Log.absorb lh.blocks b
  len_le := lh.absorb_fits b h

namespace LogSt

/-- One turn of the loop in `begin_op`; `none` when it sleeps. -/
def beginOp (g : LogSt) : Option LogSt :=
  if g.committing then none
  else if LOGSIZE < (g.lh.n : Int) + (g.outstanding + 1) * MAXOPBLOCKS then none
  else some { g with outstanding := g.outstanding + 1 }

def logWrite (g : LogSt) (b : Nat) : Except Panic LogSt :=
  if h : LOGSIZE ≤ g.lh.n ∨ (g.size : Int) - 1 ≤ g.lh.n then .error .tooBigTransaction
  else if g.outstanding < 1 then .error .logWriteOutsideTrans
  else .ok { g with lh := g.lh.absorb b (by omega) }

/-- The first critical section of `end_op`; the flag is `do_commit`. -/
def endOp (g : LogSt) : Except Panic (Bool × LogSt) :=
  let outstanding := g.outstanding - 1
  if g.committing then .error .logCommitting
  else if outstanding = 0 then .ok (true, { g with outstanding, committing := true })
  else .ok (false, { g with outstanding })

/-- What `commit` does to the header in memory. -/
def commit (g : LogSt) : LogSt := if 0 < g.lh.n then { g with lh := .empty } else g

/-- The second critical section of `end_op`, after `commit`. -/
def endCommit (g : LogSt) : LogSt := { g with committing := false }

theorem beginOp_some {g g' : LogSt} (h : g.beginOp = some g') :
    g.committing = false ∧ (g.lh.n : Int) + (g.outstanding + 1) * MAXOPBLOCKS ≤ LOGSIZE ∧
      g' = { g with outstanding := g.outstanding + 1 } := by
  simp only [beginOp] at h
  split at h
  · cases h
  · rename_i hc
    split at h
    · cases h
    · rename_i hn
      cases h
      exact ⟨by simpa using hc, by omega, rfl⟩

theorem logWrite_ok {g g' : LogSt} {b : Nat} (h : g.logWrite b = .ok g') :
    1 ≤ g.outstanding ∧ g.lh.n < LOGSIZE ∧ (g.lh.n : Int) < g.size - 1 ∧
      g'.lh.blocks = (if b ∈ g.lh.blocks then g.lh.blocks else g.lh.blocks ++ [b]) ∧
      g'.size = g.size ∧ g'.outstanding = g.outstanding ∧ g'.committing = g.committing := by
  simp only [logWrite] at h
  split at h
  · cases h
  · rename_i hb
    split at h
    · cases h
    · rename_i ho
      cases h
      refine ⟨by omega, by omega, by omega, ?_, rfl, rfl, rfl⟩
      exact absorb_eq g.lh.blocks b

theorem endOp_ok {g g' : LogSt} {c : Bool} (h : g.endOp = .ok (c, g')) :
    g.committing = false ∧ (c = true ↔ g.outstanding - 1 = 0) ∧
      g' = { g with outstanding := g.outstanding - 1, committing := c } := by
  simp only [endOp] at h
  split at h
  · cases h
  · rename_i hc
    have hc' : g.committing = false := by simpa using hc
    split at h
    · rename_i ho
      cases h
      exact ⟨hc', by simp [ho], rfl⟩
    · rename_i ho
      cases h
      exact ⟨hc', by simp [ho], by rw [← hc']⟩

@[simp] theorem commit_blocks (g : LogSt) : g.commit.lh.blocks = [] := by
  simp only [commit]
  split
  · rfl
  · rename_i h
    simpa [Header.n] using h

@[simp] theorem commit_outstanding (g : LogSt) : g.commit.outstanding = g.outstanding := by
  simp only [commit]
  split <;> rfl

@[simp] theorem commit_committing (g : LogSt) : g.commit.committing = g.committing := by
  simp only [commit]
  split <;> rfl

end LogSt
end Log
end Xv6
