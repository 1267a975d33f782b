import Mathlib.Tactic

/-!
# Xv6.Lib.Tiling

Pieces of an address space that tile what has been got: no two of them overlap, and together they
are the areas obtained, to the byte. A piece can be cut in two, two adjacent ones can be joined, and
a new area above all others can be added.
-/

namespace Xv6

open List

/-- The `len` addresses from `start` on. -/
structure Piece where
  start : Nat
  len : Nat
  deriving DecidableEq, Repr

namespace Piece

def stop (p : Piece) : Nat := p.start + p.len

def Has (p : Piece) (x : Nat) : Prop := p.start ≤ x ∧ x < p.stop

def Apart (p q : Piece) : Prop := p.stop ≤ q.start ∨ q.stop ≤ p.start

theorem Apart.symm {p q : Piece} (h : p.Apart q) : q.Apart p := Or.symm h

end Piece

/-- The pieces `ps` tile the areas `got`. -/
structure Tiles (got ps : List Piece) : Prop where
  pos : ∀ p ∈ ps, 0 < p.len
  apart : ps.Pairwise Piece.Apart
  covers : ∀ x, (∃ g ∈ got, g.Has x) ↔ ∃ p ∈ ps, p.Has x

namespace Tiles

open Piece

variable {got ps ps' : List Piece} {p q g : Piece}

theorem nil : Tiles [] [] where
  pos _ h := absurd h not_mem_nil
  apart := List.Pairwise.nil
  covers x := by simp

theorem perm (h : Tiles got ps) (hp : ps.Perm ps') : Tiles got ps' where
  pos p hmem := h.pos p (hp.mem_iff.mpr hmem)
  apart := (hp.pairwise_iff fun h => Apart.symm h).mp h.apart
  covers x := by
    rw [h.covers]
    exact exists_congr fun p => and_congr_left fun _ => hp.mem_iff

theorem bounds (h : Tiles got ps) {lo hi : Nat} (hgot : ∀ g ∈ got, lo ≤ g.start ∧ g.stop < hi)
    (hp : p ∈ ps) : lo ≤ p.start ∧ p.stop < hi := by
  have hpos := h.pos p hp
  have hstop : p.stop = p.start + p.len := rfl
  obtain ⟨g, hg, hgx⟩ := (h.covers p.start).mpr ⟨p, hp, le_rfl, by omega⟩
  obtain ⟨g', hg', hgx'⟩ := (h.covers (p.stop - 1)).mpr ⟨p, hp, by omega, by omega⟩
  have h1 := hgot g hg
  have h2 := hgot g' hg'
  have h3 : g.start ≤ p.start := hgx.1
  have h4 : p.stop - 1 < g'.stop := hgx'.2
  omega

theorem head_apart (h : Tiles got (p :: ps)) (hq : q ∈ ps) : p.Apart q :=
  rel_of_pairwise_cons h.apart hq

theorem join (h : Tiles got (p :: q :: ps)) (hadj : p.stop = q.start) :
    Tiles got (⟨p.start, p.len + q.len⟩ :: ps) where
  pos r hr := by
    rcases mem_cons.mp hr with rfl | hr
    · exact Nat.add_pos_left (h.pos p mem_cons_self) _
    · exact h.pos r (mem_cons_of_mem _ (mem_cons_of_mem _ hr))
  apart := by
    obtain ⟨hp, hrest⟩ := pairwise_cons.mp h.apart
    obtain ⟨hq, hps⟩ := pairwise_cons.mp hrest
    refine pairwise_cons.mpr ⟨fun r hr => ?_, hps⟩
    have h1 := hp r (mem_cons_of_mem _ hr)
    have h2 := hq r hr
    have hpos := h.pos r (mem_cons_of_mem _ (mem_cons_of_mem _ hr))
    simp only [Apart, stop] at h1 h2 hadj ⊢
    omega
  covers x := by
    rw [h.covers]
    simp only [mem_cons, exists_eq_or_imp]
    rw [← or_assoc]
    refine or_congr_left ?_
    simp only [Has, stop] at hadj ⊢
    omega

theorem cut {start a b : Nat} (h : Tiles got (⟨start, a + b⟩ :: ps)) (ha : 0 < a) (hb : 0 < b) :
    Tiles got (⟨start, a⟩ :: ⟨start + a, b⟩ :: ps) where
  pos r hr := by
    rcases mem_cons.mp hr with rfl | hr
    · exact ha
    · rcases mem_cons.mp hr with rfl | hr
      · exact hb
      · exact h.pos r (mem_cons_of_mem _ hr)
  apart := by
    obtain ⟨hp, hps⟩ := pairwise_cons.mp h.apart
    have hsub : ∀ r ∈ ps, Apart ⟨start, a⟩ r ∧ Apart ⟨start + a, b⟩ r := by
      intro r hr
      have h1 := hp r hr
      simp only [Apart, stop] at h1 ⊢
      omega
    refine pairwise_cons.mpr ⟨fun r hr => ?_, pairwise_cons.mpr ⟨fun r hr => (hsub r hr).2, hps⟩⟩
    rcases mem_cons.mp hr with rfl | hr
    · exact .inl le_rfl
    · exact (hsub r hr).1
  covers x := by
    rw [h.covers]
    simp only [mem_cons, exists_eq_or_imp]
    rw [← or_assoc]
    refine or_congr_left ?_
    simp only [Has, stop]
    omega

theorem grow (h : Tiles got ps) (hg : 0 < g.len) (habove : ∀ r ∈ got, r.stop ≤ g.start) :
    Tiles (g :: got) (g :: ps) where
  pos r hr := by
    rcases mem_cons.mp hr with rfl | hr
    · exact hg
    · exact h.pos r hr
  apart := by
    refine pairwise_cons.mpr ⟨fun r hr => .inr ?_, h.apart⟩
    -- The last byte of a piece lies in an area below the new one.
    have hpos := h.pos r hr
    have hstop : r.stop = r.start + r.len := rfl
    obtain ⟨r', hr', hx⟩ := (h.covers (r.stop - 1)).mpr ⟨r, hr, by omega, by omega⟩
    have h1 := habove r' hr'
    have h2 : r.stop - 1 < r'.stop := hx.2
    omega
  covers x := by
    simp only [mem_cons, exists_eq_or_imp, h.covers]

end Tiles

end Xv6
