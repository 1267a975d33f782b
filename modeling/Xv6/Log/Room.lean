import Xv6.Log.State

/-!
# Xv6.Log.Room

When `log_write` does not panic.

`log_write` checks for space before it looks for an earlier entry of the block, so an operation
needs one entry more than the blocks it logs. `Room g R k` says that the open transaction can still
take every block of `R` and `k` blocks more: a write to a block of `R` keeps it (`Room.write_mem`),
any other write uses up one of the `k` and adds its block to `R` (`Room.write_new`).
-/

namespace Xv6.Log

open Finset

/-- The entries `log_write` admits. -/
def LogSt.cap (g : LogSt) : Int := min LOGSIZE (g.size - 1)

structure Room (g : LogSt) (R : Finset Nat) (k : Nat) : Prop where
  outstanding : 1 ≤ g.outstanding
  fits : (g.lh.n : Int) + (R \ g.lh.blocks.toFinset).card + k < g.cap

namespace Room

variable {g : LogSt} {R S : Finset Nat} {b j k : Nat}

theorem mono (h : Room g R k) (hS : S ⊆ R) (hj : j ≤ k) : Room g S j := by
  refine ⟨h.outstanding, ?_⟩
  have hcard := card_le_card (sdiff_subset_sdiff hS (le_refl g.lh.blocks.toFinset))
  have := h.fits
  omega

theorem logWrite_isOk (h : Room g R k) (b : Nat) : ∃ g', g.logWrite b = .ok g' := by
  have hfits := h.fits
  have hopen := h.outstanding
  simp only [LogSt.cap] at hfits
  simp only [LogSt.logWrite]
  rw [dif_neg (by omega), if_neg (by omega)]
  exact ⟨_, rfl⟩

theorem write_new (h : Room g R (k + 1)) :
    ∃ g', g.logWrite b = .ok g' ∧ Room g' (insert b R) k := by
  obtain ⟨g', hg⟩ := h.logWrite_isOk b
  obtain ⟨-, -, -, hblocks, hsize, hout, -⟩ := LogSt.logWrite_ok hg
  refine ⟨g', hg, ?_, ?_⟩
  · rw [hout]; exact h.outstanding
  · have hfits := h.fits
    have hcap : g'.cap = g.cap := by rw [LogSt.cap, hsize, LogSt.cap]
    have hset : insert b R \ g'.lh.blocks.toFinset ⊆ R \ g.lh.blocks.toFinset := by
      intro x
      rw [hblocks]
      split <;> simp <;> grind
    have hn : g'.lh.n ≤ g.lh.n + 1 := by
      simp only [Header.n, hblocks]
      split <;> simp
    have := card_le_card hset
    rw [hcap]
    push_cast at hfits
    omega

theorem write_mem (h : Room g R k) (hb : b ∈ R) : ∃ g', g.logWrite b = .ok g' ∧ Room g' R k := by
  obtain ⟨g', hg⟩ := h.logWrite_isOk b
  obtain ⟨-, -, -, hblocks, hsize, hout, -⟩ := LogSt.logWrite_ok hg
  refine ⟨g', hg, ?_, ?_⟩
  · rw [hout]; exact h.outstanding
  · have hfits := h.fits
    have hcap : g'.cap = g.cap := by rw [LogSt.cap, hsize, LogSt.cap]
    rw [hcap]
    by_cases hlogged : b ∈ g.lh.blocks
    · rw [Header.n, hblocks, if_pos hlogged]
      exact hfits
    · -- the new entry leaves the blocks still to be logged
      have hset : R \ g'.lh.blocks.toFinset = (R \ g.lh.blocks.toFinset).erase b := by
        ext x
        simp only [hblocks, if_neg hlogged, mem_sdiff, mem_erase, List.mem_toFinset,
          List.mem_append, List.mem_singleton]
        tauto
      have hmem : b ∈ R \ g.lh.blocks.toFinset := by simp [hb, hlogged]
      have hcard := card_erase_add_one hmem
      have hn : g'.lh.n = g.lh.n + 1 := by
        simp [Header.n, hblocks, hlogged]
      rw [hset, hn]
      push_cast
      omega

end Room
end Xv6.Log
