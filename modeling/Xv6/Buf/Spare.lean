import Xv6.Buf.Flat

/-!
# Xv6.Buf.Spare

`commit` never runs out of buffers.

A transaction pins at most 29 of the 30 buffers: `log_write` marks them dirty, and `bget` does not
recycle a dirty buffer. `commit` holds at most two buffers at a time. One is that of a block of the
log, for which any clean buffer that nobody uses will do; the other is that of a pinned block,
which is in the cache. Each turn of the two loops writes one of the two, so there is a clean buffer
again when the next turn begins.

`Holding t dev xs m` is the state of the cache while thread `t` holds the buffers in `xs` and nobody
holds any other.
-/

namespace Xv6.Buf
namespace Bio

open Function List Finset Option

variable {m m' : Bio} {i j : Fin NBUF} {xs : List (Fin NBUF)} {t dev blockno : Nat}

/-- Block `blockno` is in a buffer with contents that are not on the disk yet. -/
def Pinned (m : Bio) (dev blockno : Nat) : Prop :=
  ∃ i, m.IsAt i dev blockno ∧ (m.buf i).valid = true ∧ (m.buf i).dirty = true

/-- No buffer is held but those in `xs`, by thread `t`. -/
structure Holding (t dev : Nat) (xs : List (Fin NBUF)) (m : Bio) : Prop where
  linked : m.cache.Linked
  unique : ∀ i j blockno, m.IsAt i dev blockno → m.IsAt j dev blockno → i = j
  dirty : ∀ i, (m.buf i).dirty = true → (m.buf i).valid = true
  held : ∀ i ∈ xs, (m.buf i).refcnt = 1 ∧ (m.buf i).holder = some t
  free : ∀ i, i ∉ xs → (m.buf i).refcnt = 0 ∧ (m.buf i).holder = none

/-- Some buffer is clean. -/
def Spare (m : Bio) : Prop := ∃ i, (m.buf i).dirty = false

/-- The blocks that are pinned before are pinned afterwards. -/
def KeepsPins (dev : Nat) (m m' : Bio) : Prop := ∀ b, m.Pinned dev b → m'.Pinned dev b

theorem bget_finds {c : Bcache} (hl : c.Linked)
    (h : (∃ i, (c.buf i).dev = dev ∧ (c.buf i).blockno = blockno) ∨
      ∃ i, (c.buf i).refcnt = 0 ∧ (c.buf i).dirty = false) :
    ∃ i c', c.bget dev blockno = .ok (i, c') := by
  obtain ⟨ys, hring, hall⟩ := hl
  have hlen := Bcache.Linked.length_le hring.nodup
  simp only [Bcache.bget, hring.seg.search_next hlen, hring.seg.search_prev hlen]
  split
  · exact ⟨_, _, rfl⟩
  · rename_i hnone
    split
    · exact ⟨_, _, rfl⟩
    · rename_i hnone'
      rcases h with ⟨i, hd, hb⟩ | ⟨i, hr, hc⟩
      · have := List.find?_eq_none.mp hnone i (hall i)
        simp [hd, hb] at this
      · have := List.find?_eq_none.mp hnone' i (by simpa using hall i)
        simp [hr, hc] at this

theorem breadNow_of_bget {c : Bcache} (hg : m.cache.bget dev blockno = .ok (i, c))
    (hfree : (c.buf i).holder = none) (hdirty : (c.buf i).dirty = true → (c.buf i).valid = true) :
    ∃ x m', m.breadNow t dev blockno = some (i, m') ∧ m'.cache.links = c.links ∧
      m'.log = m.log ∧ m'.buf i = { c.buf i with holder := some t, valid := true, data := x } ∧
      ∀ j, j ≠ i → m'.buf j = c.buf j := by
  obtain ⟨m1, hm1⟩ : ∃ m1, m1 = { m with
      cache := c, phase := update m.phase t (.locking i dev blockno) } := ⟨_, rfl⟩
  have hget : m.bget t dev blockno = .ok (i, m1) := by
    rw [Bio.bget, hg, hm1]
    rfl
  have hbuf : ∀ j, m1.buf j = c.buf j := by
    intro j
    rw [hm1]
    rfl
  obtain ⟨m', hm'⟩ := bread_ok m1 t i
  obtain ⟨x, hx, -⟩ := bread_inv (by rw [hbuf]; exact hdirty) hm'
  refine ⟨x, m', ?_, ?_, ?_, ?_, ?_⟩
  · simp only [Bio.breadNow, hget]
    rw [if_pos (by rw [hbuf]; exact hfree), hm']
    rfl
  · rw [hx, hm1]; rfl
  · rw [hx, hm1]; rfl
  · rw [hx, ← hbuf i]; exact buf_setBuf_same m1 i _
  · intro j hj
    rw [hx, ← hbuf j]
    exact buf_setBuf_other hj

theorem Holding.breadNow (h : Holding t dev xs m) (hno : ∀ i ∈ xs, ¬ m.IsAt i dev blockno)
    (hfind : (∃ i, m.IsAt i dev blockno) ∨ ∃ i, i ∉ xs ∧ (m.buf i).dirty = false) :
    ∃ i m', m.breadNow t dev blockno = some (i, m') ∧ i ∉ xs ∧ Holding t dev (i :: xs) m' ∧
      m'.IsAt i dev blockno ∧ (∀ j ∈ xs, m'.buf j = m.buf j) ∧ KeepsPins dev m m' ∧
      m'.log = m.log := by
  obtain ⟨i, c, hg⟩ : ∃ i c, m.cache.bget dev blockno = .ok (i, c) := by
    refine bget_finds h.linked ?_
    rcases hfind with hat | ⟨i, hi, hc⟩
    · exact .inl hat
    · exact .inr ⟨i, (h.free i hi).1, hc⟩
  -- The buffer is one of the others, and is the block's afterwards.
  have hcase : i ∉ xs ∧ c.links = m.cache.links ∧ (∀ j, j ≠ i → c.buf j = m.buf j) ∧
      (c.buf i).refcnt = 1 ∧ (c.buf i).holder = none ∧ (c.buf i).dev = dev ∧
      (c.buf i).blockno = blockno ∧ ((c.buf i).dirty = true → (c.buf i).valid = true) ∧
      (∀ j, m.IsAt j dev blockno → j = i) ∧
      ((m.buf i).dirty = true → m.IsAt i dev blockno ∧ (c.buf i).dirty = true) := by
    rcases Bcache.bget_cases h.linked hg with ⟨hd, hb, hc⟩ | ⟨hnone, hzero, hclean, hc⟩
    · have hi : i ∉ xs := fun hi => hno i hi ⟨hd, hb⟩
      have hfree := h.free i hi
      have hsame : c.buf i = { m.buf i with refcnt := (m.buf i).refcnt + 1 } := by
        rw [hc]; exact Bcache.set_same m.cache i _
      refine ⟨hi, by rw [hc]; rfl, fun j hj => by rw [hc]; exact Bcache.set_other hj, ?_⟩
      rw [hsame, hfree.1]
      exact ⟨rfl, hfree.2, hd, hb, h.dirty i, fun j hj => h.unique j i blockno hj ⟨hd, hb⟩,
        fun hdirty => ⟨⟨hd, hb⟩, hdirty⟩⟩
    · have hi : i ∉ xs := fun hi => by
        have := (h.held i hi).1
        rw [buf, hzero] at this
        cases this
      have hsame : c.buf i = { m.buf i with
          dev, blockno, valid := false, dirty := false, refcnt := 1 } := by
        rw [hc]; exact Bcache.set_same m.cache i _
      refine ⟨hi, by rw [hc]; rfl, fun j hj => by rw [hc]; exact Bcache.set_other hj, ?_⟩
      rw [hsame]
      refine ⟨rfl, (h.free i hi).2, rfl, rfl, fun hd => ?_, fun j hj => absurd hj (hnone j),
        fun hd => ?_⟩
      · cases hd
      · rw [buf, hclean] at hd
        cases hd
  obtain ⟨hi, hlinks, hother, href, hholder, hdev, hblk, hvalid, hat, hpin⟩ := hcase
  obtain ⟨x, m', hread, hlinks', hlog, hsame, hother'⟩ := breadNow_of_bget
    (t := t) hg hholder hvalid
  have hbuf : ∀ j, j ≠ i → m'.buf j = m.buf j := fun j hj => (hother' j hj).trans (hother j hj)
  have hisAt : m'.IsAt i dev blockno := by
    rw [IsAt, hsame]
    exact ⟨hdev, hblk⟩
  refine ⟨i, m', hread, hi, ⟨?_, ?_, ?_, ?_, ?_⟩, hisAt, ?_, ?_, hlog⟩
  · obtain ⟨ys, hring, hall⟩ := h.linked
    exact ⟨ys, by rw [hlinks', hlinks]; exact hring, hall⟩
  · -- A buffer of device `dev` other than `i` was there before.
    have hold : ∀ j b, j ≠ i → m'.IsAt j dev b → m.IsAt j dev b := fun j b hj hjb => by
      rwa [IsAt, hbuf j hj] at hjb
    have hself : ∀ b, m'.IsAt i dev b → b = blockno := fun b hb => hb.2.symm.trans hisAt.2
    intro j j' b hj hj'
    by_cases hji : j = i
    · by_cases hji' : j' = i
      · rw [hji, hji']
      · have hb := hself b (hji ▸ hj)
        exact hji.trans (hat j' (hb ▸ hold j' b hji' hj')).symm
    · by_cases hji' : j' = i
      · have hb := hself b (hji' ▸ hj')
        exact (hat j (hb ▸ hold j b hji hj)).trans hji'.symm
      · exact h.unique j j' b (hold j b hji hj) (hold j' b hji' hj')
  · intro j hj
    by_cases hji : j = i
    · rw [hji, hsame]
    · rw [hbuf j hji] at hj ⊢
      exact h.dirty j hj
  · intro j hj
    by_cases hji : j = i
    · rw [hji, hsame]
      exact ⟨href, rfl⟩
    · rw [hbuf j hji]
      exact h.held j ((List.mem_cons.mp hj).resolve_left hji)
  · intro j hj
    rw [List.mem_cons, not_or] at hj
    rw [hbuf j hj.1]
    exact h.free j hj.2
  · intro j hj
    exact hbuf j fun hji => hi (hji ▸ hj)
  · rintro b ⟨j, hjb, hv, hd⟩
    by_cases hji : j = i
    · obtain ⟨-, hd'⟩ := hpin (hji ▸ hd)
      have hb : b = blockno := by
        rw [hji] at hjb
        exact hjb.2.symm.trans (hpin (hji ▸ hd)).1.2
      refine ⟨i, hb ▸ hisAt, ?_, ?_⟩
      · rw [hsame]
      · rw [hsame]; exact hd'
    · refine ⟨j, ?_, ?_, ?_⟩
      · rw [IsAt, hbuf j hji]; exact hjb
      · rw [hbuf j hji]; exact hv
      · rw [hbuf j hji]; exact hd

theorem bwrite_ok (h : (m.buf i).holder = some t) : ∃ m', m.bwrite t i = .ok m' := by
  obtain ⟨m1, hm1⟩ : ∃ m1, m1 = m.setBuf i { m.buf i with dirty := true } := ⟨_, rfl⟩
  have hbuf : m1.buf i = { m.buf i with dirty := true } := by
    rw [hm1]; exact buf_setBuf_same m i _
  rw [Bio.bwrite, if_neg (not_not_intro h), ← hm1, iderw]
  simp only [hbuf, h, ne_eq, not_true_eq_false, if_false, and_false, if_true]
  exact ⟨_, rfl⟩

theorem Holding.bwrite (h : Holding t dev xs m) (hi : i ∈ xs) (x : Block) :
    ∃ m', (m.modify i x).bwrite t i = .ok m' ∧ Holding t dev xs m' ∧ (m'.buf i).dirty = false ∧
      (∀ j, j ≠ i → m'.buf j = m.buf j) ∧ (∀ j b, m'.IsAt j dev b ↔ m.IsAt j dev b) ∧
      m'.log = m.log := by
  have hmod : (m.modify i x).buf i = { m.buf i with data := x } := buf_setBuf_same m i _
  have hholder : ((m.modify i x).buf i).holder = some t := by
    rw [hmod]; exact (h.held i hi).2
  obtain ⟨m', hm'⟩ := bwrite_ok hholder
  obtain ⟨-, heq⟩ := bwrite_inv hm'
  have hsame : m'.buf i = { m.buf i with data := x, valid := true, dirty := false } := by
    rw [heq, hmod]
    exact buf_setBuf_same ((m.modify i x).setDisk _ _ _) i _
  have hother : ∀ j, j ≠ i → m'.buf j = m.buf j := by
    intro j hj
    rw [heq]
    exact (Bcache.set_other hj).trans (buf_setBuf_other hj)
  have hisAt : ∀ j b, m'.IsAt j dev b ↔ m.IsAt j dev b := by
    intro j b
    by_cases hji : j = i
    · rw [hji, IsAt, hsame]; rfl
    · rw [IsAt, hother j hji]; rfl
  refine ⟨m', hm', ⟨?_, ?_, ?_, ?_, ?_⟩, by rw [hsame], hother, hisAt, by rw [heq]; rfl⟩
  · rw [heq]; exact h.linked
  · intro j j' b hj hj'
    exact h.unique j j' b ((hisAt j b).mp hj) ((hisAt j' b).mp hj')
  · intro j hj
    by_cases hji : j = i
    · rw [hji, hsame]
    · rw [hother j hji] at hj ⊢
      exact h.dirty j hj
  · intro j hj
    by_cases hji : j = i
    · rw [hji, hsame]; exact h.held i hi
    · rw [hother j hji]; exact h.held j hj
  · intro j hj
    rw [hother j fun hji => hj (hji ▸ hi)]
    exact h.free j hj

theorem Holding.brelse (h : Holding t dev (i :: xs) m) (hi : i ∉ xs) :
    ∃ m', m.brelse t i = some m' ∧ Holding t dev xs m' ∧
      (∀ j, (m'.buf j).valid = (m.buf j).valid ∧ (m'.buf j).dirty = (m.buf j).dirty ∧
        ∀ b, m'.IsAt j dev b ↔ m.IsAt j dev b) ∧ m'.log = m.log := by
  obtain ⟨href, hholder⟩ := h.held i List.mem_cons_self
  have hrel : m.releasesleep t i = .ok ((m.setBuf i { m.buf i with holder := none }).setPhase t
      (.releasing i)) := by
    rw [Bio.releasesleep, if_neg (not_not_intro hholder)]
  obtain ⟨m', hm'⟩ : ∃ m', m' = ((m.setBuf i { m.buf i with holder := none }).setPhase t
      (.releasing i)).unref t i := ⟨_, rfl⟩
  have hbuf : m'.buf = update m.buf i { m.buf i with holder := none, refcnt := 0 } := by
    funext j
    rw [hm']
    simp only [Bio.unref, buf, Bcache.unref_buf, setPhase, setBuf]
    by_cases hji : j = i
    · subst hji
      simp only [update_self, Bcache.set_same]
      have : (m.cache.buf j).refcnt = 1 := href
      rw [this]
    · rw [update_of_ne hji, update_of_ne hji, Bcache.set_other hji]
      rfl
  have hsame : m'.buf i = { m.buf i with holder := none, refcnt := 0 } := by
    rw [hbuf, update_self]
  have hother : ∀ j, j ≠ i → m'.buf j = m.buf j := fun j hj => by
    rw [hbuf, update_of_ne hj]
  have hkeep : ∀ j, (m'.buf j).valid = (m.buf j).valid ∧ (m'.buf j).dirty = (m.buf j).dirty ∧
      ∀ b, m'.IsAt j dev b ↔ m.IsAt j dev b := by
    intro j
    by_cases hji : j = i
    · simp [IsAt, hji, hsame]
    · simp [IsAt, hother j hji]
  refine ⟨m', by rw [Bio.brelse, hrel, hm']; rfl, ⟨?_, ?_, ?_, ?_, ?_⟩, hkeep, by rw [hm']; rfl⟩
  · rw [hm']
    have hl : (m.setBuf i { m.buf i with holder := none }).cache.Linked := h.linked
    exact hl.unref i
  · intro j j' b hj hj'
    exact h.unique j j' b (((hkeep j).2.2 b).mp hj) (((hkeep j').2.2 b).mp hj')
  · intro j hj
    rw [(hkeep j).2.1] at hj
    rw [(hkeep j).1]
    exact h.dirty j hj
  · intro j hj
    rw [hother j fun hji => hi (hji ▸ hj)]
    exact h.held j (List.mem_cons_of_mem i hj)
  · intro j hj
    by_cases hji : j = i
    · rw [hji, hsame]
      exact ⟨rfl, rfl⟩
    · rw [hother j hji]
      exact h.free j fun hmem => (List.mem_cons.mp hmem).elim hji hj

theorem Holding.copyBuf {dst src : Fin NBUF} {d : Nat} (h : Holding t dev [src, dst] m)
    (hne : src ≠ dst) (hd : m.IsAt dst dev d) :
    ∃ m', m.copyBuf t dst src = some m' ∧ Holding t dev [] m' ∧ (m'.buf dst).dirty = false ∧
      (∀ b, b ≠ d → m.Pinned dev b → m'.Pinned dev b) ∧ m'.log = m.log := by
  obtain ⟨m1, hw, h1, hclean, hother, hat1, hlog1⟩ :=
    h.bwrite (List.mem_cons_of_mem src List.mem_cons_self) (m.buf src).data
  obtain ⟨m2, hr2, h2, hk2, hlog2⟩ := h1.brelse (by simpa using hne)
  obtain ⟨m3, hr3, h3, hk3, hlog3⟩ := h2.brelse not_mem_nil
  have hcopy : m.copyBuf t dst src = some m3 := by
    simp only [Bio.copyBuf, hw, Except.toOption, bind_eq_bind, bind_some, hr2, hr3]
  refine ⟨m3, hcopy, h3, ?_, ?_, hlog3.trans (hlog2.trans hlog1)⟩
  · rw [(hk3 dst).2.1, (hk2 dst).2.1, hclean]
  · rintro b hb ⟨i, hi, hv, hdirty⟩
    have hid : i ≠ dst := by
      rintro rfl
      exact hb (hi.2.symm.trans hd.2)
    refine ⟨i, ?_, ?_, ?_⟩
    · rw [(hk3 i).2.2, (hk2 i).2.2, hat1]
      exact hi
    · rw [(hk3 i).1, (hk2 i).1, hother i hid]
      exact hv
    · rw [(hk3 i).2.1, (hk2 i).2.1, hother i hid]
      exact hdirty

/-- A run of the loop of `write_log` in which every `bread` finds a buffer and the blocks in `pins`
are pinned all the time. -/
inductive Logs (l : Log.Area) (t dev : Nat) (pins : List Nat) : Nat → List Nat → Bio → Bio → Prop
    where
  | done {m : Bio} {tail : Nat} : Logs l t dev pins tail [] m m
  | turn {m m1 m2 m3 m' : Bio} {tail blk : Nat} {blks : List Nat} {dst src : Fin NBUF} :
      m.breadNow t dev (l.start + tail + 1) = some (dst, m1) → (∀ b ∈ pins, m1.Pinned dev b) →
      m1.breadNow t dev blk = some (src, m2) → (∀ b ∈ pins, m2.Pinned dev b) →
      m2.copyBuf t dst src = some m3 → (∀ b ∈ pins, m3.Pinned dev b) →
      Logs l t dev pins (tail + 1) blks m3 m' → Logs l t dev pins tail (blk :: blks) m m'

/-- A run of the loop of `install_trans` in which every `bread` finds a buffer and every block is
pinned until it is written. -/
inductive Installs (l : Log.Area) (t dev : Nat) : Nat → List Nat → Bio → Bio → Prop where
  | done {m : Bio} {tail : Nat} : Installs l t dev tail [] m m
  | turn {m m1 m2 m3 m' : Bio} {tail blk : Nat} {blks : List Nat} {lbuf dbuf : Fin NBUF} :
      m.breadNow t dev (l.start + tail + 1) = some (lbuf, m1) →
      (∀ b ∈ blk :: blks, m1.Pinned dev b) →
      m1.breadNow t dev blk = some (dbuf, m2) → (∀ b ∈ blk :: blks, m2.Pinned dev b) →
      m2.copyBuf t dbuf lbuf = some m3 → (∀ b ∈ blks, m3.Pinned dev b) →
      Installs l t dev (tail + 1) blks m3 m' → Installs l t dev tail (blk :: blks) m m'

theorem Logs.eq {l : Log.Area} {pins blks : List Nat} {tail : Nat}
    (h : Logs l t dev pins tail blks m m') : m.writeLogFrom l t dev tail blks = some m' := by
  induction h with
  | done => rfl
  | turn h1 _ h2 _ h3 _ _ ih =>
    simp only [writeLogFrom, h1, h2, h3, bind_eq_bind, bind_some]
    exact ih

theorem Installs.eq {l : Log.Area} {blks : List Nat} {tail : Nat}
    (h : Installs l t dev tail blks m m') : m.installTransFrom l t dev tail blks = some m' := by
  induction h with
  | done => rfl
  | turn h1 _ h2 _ h3 _ _ ih =>
    simp only [installTransFrom, h1, h2, h3, bind_eq_bind, bind_some]
    exact ih

theorem Holding.breadNow_two {d b : Nat} (h : Holding t dev [] m) (hspare : m.Spare) (hne : d ≠ b)
    (hb : m.Pinned dev b) :
    ∃ i m1 j m2, m.breadNow t dev d = some (i, m1) ∧ m1.breadNow t dev b = some (j, m2) ∧
      Holding t dev [j, i] m2 ∧ i ≠ j ∧ m2.IsAt i dev d ∧ m2.IsAt j dev b ∧
      KeepsPins dev m m1 ∧ KeepsPins dev m1 m2 ∧ m2.log = m.log := by
  obtain ⟨k, hk⟩ := hspare
  have hnone : ∀ x ∈ ([] : List (Fin NBUF)), ¬ m.IsAt x dev d := by simp
  obtain ⟨i, m1, h1, -, hold1, hat1, -, hpin1, hlog1⟩ :=
    h.breadNow hnone (.inr ⟨k, not_mem_nil, hk⟩)
  obtain ⟨p, hp, -, -⟩ := hpin1 b hb
  have hno : ∀ x ∈ [i], ¬ m1.IsAt x dev b := by
    intro x hx hxb
    rw [List.mem_singleton.mp hx] at hxb
    exact hne (hat1.2.symm.trans hxb.2)
  obtain ⟨j, m2, h2, hj, hold2, hat2, hsame, hpin2, hlog2⟩ := hold1.breadNow hno (.inl ⟨p, hp⟩)
  refine ⟨i, m1, j, m2, h1, h2, hold2, ?_, ?_, hat2, hpin1, hpin2, hlog2.trans hlog1⟩
  · exact fun hij => hj (hij ▸ List.mem_cons_self)
  · rw [IsAt, hsame i List.mem_cons_self]
    exact hat1

section

variable {l : Log.Area}

theorem Holding.logs {pins : List Nat} (blks : List Nat) : ∀ {m : Bio} {tail : Nat},
    Holding t dev [] m → m.Spare → (∀ b ∈ blks, b ∈ pins) → (∀ b ∈ pins, m.Pinned dev b) →
    (∀ b ∈ pins, ∀ k < blks.length, b ≠ l.start + (tail + k) + 1) →
    ∃ m', Logs l t dev pins tail blks m m' ∧ Holding t dev [] m' ∧ m'.Spare ∧
      (∀ b ∈ pins, m'.Pinned dev b) ∧ m'.log = m.log := by
  induction blks with
  | nil => exact fun h hs _ hp _ => ⟨_, .done, h, hs, hp, rfl⟩
  | cons blk blks ih =>
    intro m tail h hs hsub hp hreg
    have hblk := hsub blk List.mem_cons_self
    have hlogblk : l.start + tail + 1 ≠ blk := fun heq =>
      hreg blk hblk 0 (by simp) (by omega)
    obtain ⟨dst, m1, src, m2, h1, h2, hold, hne, hdst, hsrc, hk1, hk2, hlog⟩ :=
      h.breadNow_two hs hlogblk (hp blk hblk)
    obtain ⟨m3, h3, hold3, hclean, hpin, hlog3⟩ := hold.copyBuf hne.symm hdst
    have hp1 : ∀ b ∈ pins, m1.Pinned dev b := fun b hb => hk1 b (hp b hb)
    have hp2 : ∀ b ∈ pins, m2.Pinned dev b := fun b hb => hk2 b (hp1 b hb)
    have hp3 : ∀ b ∈ pins, m3.Pinned dev b := fun b hb =>
      hpin b (fun heq => hreg b hb 0 (by simp) (by omega)) (hp2 b hb)
    have hreg' : ∀ b ∈ pins, ∀ k < blks.length, b ≠ l.start + (tail + 1 + k) + 1 := by
      intro b hb k hk heq
      exact hreg b hb (k + 1) (by simpa using hk) (by omega)
    obtain ⟨m', hrun, hold', hs', hp', hlog'⟩ := ih hold3 ⟨dst, hclean⟩
      (fun b hb => hsub b (List.mem_cons_of_mem blk hb)) hp3 hreg'
    exact ⟨m', .turn h1 hp1 h2 hp2 h3 hp3 hrun, hold', hs', hp', hlog'.trans (hlog3.trans hlog)⟩

theorem Holding.installs (blks : List Nat) : ∀ {m : Bio} {tail : Nat},
    Holding t dev [] m → m.Spare → blks.Nodup → (∀ b ∈ blks, m.Pinned dev b) →
    (∀ b ∈ blks, ∀ k < blks.length, b ≠ l.start + (tail + k) + 1) →
    ∃ m', Installs l t dev tail blks m m' ∧ Holding t dev [] m' ∧ m'.Spare ∧ m'.log = m.log := by
  induction blks with
  | nil => exact fun h hs _ _ _ => ⟨_, .done, h, hs, rfl⟩
  | cons blk blks ih =>
    intro m tail h hs hnd hp hreg
    obtain ⟨hblk, hnd⟩ := nodup_cons.mp hnd
    have hlogblk : l.start + tail + 1 ≠ blk := fun heq =>
      hreg blk List.mem_cons_self 0 (by simp) (by omega)
    obtain ⟨lbuf, m1, dbuf, m2, h1, h2, hold, hne, hlbuf, hdbuf, hk1, hk2, hlog⟩ :=
      h.breadNow_two hs hlogblk (hp blk List.mem_cons_self)
    -- The copy goes the other way here: the buffer read last is written.
    have hswap : Holding t dev [lbuf, dbuf] m2 :=
      ⟨hold.linked, hold.unique, hold.dirty, fun i hi => hold.held i (by simpa [or_comm] using hi),
        fun i hi => hold.free i (by simpa [and_comm] using hi)⟩
    obtain ⟨m3, h3, hold3, hclean, hpin, hlog3⟩ := hswap.copyBuf hne hdbuf
    have hp1 : ∀ b ∈ blk :: blks, m1.Pinned dev b := fun b hb => hk1 b (hp b hb)
    have hp2 : ∀ b ∈ blk :: blks, m2.Pinned dev b := fun b hb => hk2 b (hp1 b hb)
    have hp3 : ∀ b ∈ blks, m3.Pinned dev b := fun b hb =>
      hpin b (fun heq => hblk (heq ▸ hb)) (hp2 b (List.mem_cons_of_mem blk hb))
    have hreg' : ∀ b ∈ blks, ∀ k < blks.length, b ≠ l.start + (tail + 1 + k) + 1 := by
      intro b hb k hk heq
      exact hreg b (List.mem_cons_of_mem blk hb) (k + 1) (by simpa using hk) (by omega)
    obtain ⟨m', hrun, hold', hs', hlog'⟩ := ih hold3 ⟨dbuf, hclean⟩ hnd hp3 hreg'
    exact ⟨m', .turn h1 hp1 h2 hp2 h3 hp3 hrun, hold', hs', hlog'.trans (hlog3.trans hlog)⟩

theorem Holding.writeHead (h : Holding t dev [] m) (hs : m.Spare) :
    ∃ m', m.writeHead l t dev = some m' ∧ Holding t dev [] m' ∧ m'.Spare ∧
      (∀ b, b ≠ l.start → m.Pinned dev b → m'.Pinned dev b) ∧ m'.log = m.log := by
  obtain ⟨k, hk⟩ := hs
  have hnone : ∀ x ∈ ([] : List (Fin NBUF)), ¬ m.IsAt x dev l.start := by simp
  obtain ⟨i, m1, h1, -, hold1, hat1, -, hpin1, hlog1⟩ :=
    h.breadNow hnone (.inr ⟨k, not_mem_nil, hk⟩)
  obtain ⟨m2, h2, hold2, hclean, hother, hat2, hlog2⟩ :=
    hold1.bwrite List.mem_cons_self (Log.setHead (m1.buf i).data m1.log.lh)
  obtain ⟨m3, h3, hold3, hk3, hlog3⟩ := hold2.brelse not_mem_nil
  have hrun : m.writeHead l t dev = some m3 := by
    simp only [Bio.writeHead, h1, h2, Except.toOption, bind_eq_bind, bind_some, h3]
  refine ⟨m3, hrun, hold3, ⟨i, by rw [(hk3 i).2.1, hclean]⟩, ?_, hlog3.trans (hlog2.trans hlog1)⟩
  intro b hb hp
  obtain ⟨j, hj, hv, hd⟩ := hpin1 b hp
  have hji : j ≠ i := by
    rintro rfl
    exact hb (hj.2.symm.trans hat1.2)
  refine ⟨j, ?_, ?_, ?_⟩
  · rw [(hk3 j).2.2, hat2]; exact hj
  · rw [(hk3 j).1, hother j hji]; exact hv
  · rw [(hk3 j).2.1, hother j hji]; exact hd

end

/-- The state in which a transaction is committed: nobody holds a buffer, and the dirty ones are
those of the logged blocks, which all are in the cache and none of which is a block of the log. -/
structure Ready (l : Log.Area) (t dev : Nat) (m : Bio) : Prop where
  holding : Holding t dev [] m
  pinned : ∀ b ∈ m.log.lh.blocks, m.Pinned dev b
  only : ∀ i, (m.buf i).dirty = true → ∃ b ∈ m.log.lh.blocks, m.IsAt i dev b
  nodup : m.log.lh.blocks.Nodup
  fits : m.log.lh.n < l.size
  outside : ∀ b ∈ m.log.lh.blocks, b ∉ l.region

theorem Ready.spare {l : Log.Area} (h : Ready l t dev m) (hn : m.log.lh.n < NBUF) : m.Spare := by
  by_contra hno
  have hall : ∀ i, (m.buf i).dirty = true := fun i => by
    by_contra hi
    exact hno ⟨i, Bool.eq_false_iff.mpr hi⟩
  -- Every buffer would have a logged block of its own.
  have hinj : Function.Injective fun i => (m.buf i).blockno := by
    intro i j hij
    obtain ⟨b, -, hi⟩ := h.only i (hall i)
    obtain ⟨b', -, hj⟩ := h.only j (hall j)
    have hbb : b = b' := hi.2.symm.trans (hij.trans hj.2)
    exact h.holding.unique i j b hi (hbb ▸ hj)
  have hsub : Finset.univ.image (fun i => (m.buf i).blockno) ⊆ m.log.lh.blocks.toFinset := by
    intro b hb
    obtain ⟨i, -, rfl⟩ := mem_image.mp hb
    obtain ⟨b', hb', hi⟩ := h.only i (hall i)
    rw [List.mem_toFinset, hi.2]
    exact hb'
  have hcard := card_le_card hsub
  rw [card_image_of_injective _ hinj, card_univ, Fintype.card_fin] at hcard
  have hle := toFinset_card_le m.log.lh.blocks
  simp only [Log.Header.n] at hn
  omega

/-- A step of an operation: `log_write` is called on blocks of `dev`, and nothing else changes the
header of the log. -/
def OpStep (dev : Nat) (m : Bio) (e : Event) (m' : Bio) : Prop :=
  Basic m e m' ∧ (∀ t b, e = .logWrite t b → (m.buf b).dev = dev) ∧
    (e = .trans → m'.log.lh = m.log.lh)

/-- Every dirty buffer is that of a logged block. -/
def Logged (dev : Nat) (m : Bio) : Prop :=
  ∀ i, (m.buf i).dirty = true → ∃ b ∈ m.log.lh.blocks, m.IsAt i dev b

theorem Logged.update {x : Buffer} (h : Logged dev m) (hbuf : m'.buf = update m.buf i x)
    (hlog : m.log.lh.blocks ⊆ m'.log.lh.blocks)
    (hx : x.dirty = true → ∃ b ∈ m'.log.lh.blocks, x.dev = dev ∧ x.blockno = b) :
    Logged dev m' := by
  unfold Logged IsAt
  rw [hbuf]
  refine fun j => update_cases j hx fun j _ hd => ?_
  obtain ⟨b, hb, hat⟩ := h j hd
  exact ⟨b, hlog hb, hat⟩

theorem OpStep.logged {e : Event} {M : Flat} (hs : OpStep dev m e m') (hr : Rel m M)
    (h : Logged dev m) : Logged dev m' := by
  obtain ⟨hs, hdev, htrans⟩ := hs
  cases hs with
  | bget _ _ hm =>
    obtain ⟨c, hc, rfl⟩ := bget_inv hm
    rcases Bcache.bget_cases hr.counted.linked hc with ⟨-, -, rfl⟩ | ⟨-, -, -, rfl⟩
    · exact h.update rfl (Subset.refl _) (h _)
    · exact h.update rfl (Subset.refl _) Bool.noConfusion
  | bread _ _ hm =>
    obtain ⟨x, rfl, -⟩ := bread_inv (hr.current.dirty _) hm
    exact h.update rfl (Subset.refl _) (h _)
  | modify x _ _ => exact h.update rfl (Subset.refl _) (h _)
  | logWrite _ _ hm =>
    rw [Bio.logWrite] at hm
    split at hm
    · cases hm
    · rename_i g hg
      cases hm
      have hblocks := (Log.LogSt.logWrite_ok hg).2.2.2.1
      refine h.update rfl ?_ fun _ => ⟨_, ?_, hdev _ _ rfl, rfl⟩
      · rw [hblocks]
        split
        · exact Subset.refl _
        · exact subset_append_left _ _
      · rw [hblocks]
        split
        · assumption
        · exact mem_append_right _ List.mem_cons_self
  | bwrite _ hm =>
    obtain ⟨-, rfl⟩ := bwrite_inv hm
    exact h.update rfl (Subset.refl _) Bool.noConfusion
  | releasesleep _ _ hm =>
    obtain ⟨-, rfl⟩ := releasesleep_inv hm
    exact h.update rfl (Subset.refl _) (h _)
  | unref _ => exact h.update (Bcache.unref_buf _ _) (Subset.refl _) (h _)
  | trans g =>
    unfold Logged
    rw [htrans rfl]
    exact h

theorem run_logged {m0 : Bio} {M : Flat} {es : List Event} (h0 : Rel m0 M) (hl : Logged dev m0)
    (h : Run (OpStep dev) m0 es m) : (∃ M, Rel m M) ∧ Logged dev m := by
  induction h with
  | nil => exact ⟨⟨M, h0⟩, hl⟩
  | snoc _ hs ih =>
    obtain ⟨⟨M, hr⟩, hl⟩ := ih
    obtain ⟨M', -, hr'⟩ := hs.1.flat hr
    exact ⟨⟨M', hr'⟩, hs.logged hr hl⟩

/-- Whatever the operations of a transaction have done since the cache had no dirty buffer: when
they have let go of their buffers and those of the logged blocks are still dirty, the transaction
can be committed. -/
theorem ready_of_run {l : Log.Area} {m0 : Bio} {M : Flat} {es : List Event} (h0 : Rel m0 M)
    (hclean : ∀ i, (m0.buf i).dirty = false) (h : Run (OpStep dev) m0 es m) (hdev : dev ≠ 0)
    (hfree : ∀ i, (m.buf i).refcnt = 0) (hpinned : ∀ b ∈ m.log.lh.blocks, m.Pinned dev b)
    (hnodup : m.log.lh.blocks.Nodup) (hfits : m.log.lh.n < l.size)
    (hout : ∀ b ∈ m.log.lh.blocks, b ∉ l.region) : Ready l t dev m := by
  have hstart : Logged dev m0 := fun i hi => absurd hi (by rw [hclean]; decide)
  obtain ⟨⟨M, hr⟩, hl⟩ := run_logged h0 hstart h
  refine ⟨⟨hr.counted.linked, fun i j b hi hj => ?_, hr.current.dirty, nofun, fun i _ => ?_⟩,
    hpinned, hl, hnodup, hfits, hout⟩
  · refine hr.counted.unique j i (by rw [hj.1]; exact hdev) ?_
    rw [hj.1, hj.2]
    exact hi
  · exact ⟨hfree i, (hr.counted.unused (hfree i)).1⟩

/-- The commit of at most 29 blocks finds a buffer in every `bread`, and returns; every block stays
pinned until `install_trans` has written it. -/
theorem commit_finds_buffers {l : Log.Area} (h : Ready l t dev m) (hn : m.log.lh.n ≤ 29) :
    (∃ m', m.commit l t dev = some m') ∧
    (0 < m.log.lh.n → ∃ m1 m2 m3 m4, Logs l t dev m.log.lh.blocks 0 m.log.lh.blocks m m1 ∧
      m1.writeHead l t dev = some m2 ∧ (∀ b ∈ m.log.lh.blocks, m2.Pinned dev b) ∧
      Installs l t dev 0 m.log.lh.blocks m2 m3 ∧
      Bio.writeHead l t dev { m3 with log := { m3.log with lh := .empty } } = some m4 ∧
      m.commit l t dev = some m4) := by
  have hspare := h.spare (hn.trans_lt (by decide))
  have hfits := h.fits
  simp only [Log.Header.n] at hfits
  have hreg : ∀ b ∈ m.log.lh.blocks, ∀ k < m.log.lh.blocks.length, b ≠ l.start + (0 + k) + 1 := by
    intro b hb k hk heq
    exact h.outside b hb ⟨by omega, by omega⟩
  have hstart : ∀ b ∈ m.log.lh.blocks, b ≠ l.start := by
    intro b hb heq
    exact h.outside b hb ⟨by omega, by omega⟩
  obtain ⟨m1, hlogs, hold1, hs1, hp1, hlog1⟩ :=
    h.holding.logs m.log.lh.blocks hspare (fun _ hb => hb) h.pinned hreg
  obtain ⟨m2, hhead, hold2, hs2, hp2, hlog2⟩ := hold1.writeHead (l := l) hs1
  have hpins : ∀ b ∈ m.log.lh.blocks, m2.Pinned dev b := fun b hb =>
    hp2 b (hstart b hb) (hp1 b hb)
  obtain ⟨m3, hinst, hold3, hs3, hlog3⟩ :=
    hold2.installs m.log.lh.blocks hs2 h.nodup hpins hreg
  -- Only the header in memory changes before the last `write_head`.
  have hold3' : Holding t dev [] { m3 with log := { m3.log with lh := .empty } } :=
    ⟨hold3.linked, hold3.unique, hold3.dirty, hold3.held, hold3.free⟩
  obtain ⟨m4, hhead4, -, -, -, -⟩ := hold3'.writeHead (l := l) hs3
  have hcommit : 0 < m.log.lh.n → m.commit l t dev = some m4 := by
    intro hpos
    rw [Bio.commit, if_pos hpos]
    simp only [hlogs.eq, bind_eq_bind, bind_some, hhead, hlog2.trans hlog1, hinst.eq]
    exact hhead4
  refine ⟨?_, fun hpos => ⟨m1, m2, m3, m4, hlogs, hhead, hpins, hinst, hhead4, hcommit hpos⟩⟩
  by_cases hpos : 0 < m.log.lh.n
  · exact ⟨m4, hcommit hpos⟩
  · exact ⟨m, by rw [Bio.commit, if_neg hpos]⟩

theorem fullArea_fits : 2 + 30 < 2 ^ 31 := by decide

/-- The log of an image made by `mkfs`. -/
def fullArea : Log.Area := ⟨2, 30, fullArea_fits⟩

theorem fullBlocks_le : (List.range' 100 29).length ≤ LOGSIZE := by decide

/-- A transaction of 29 blocks: all buffers but one are dirty. -/
def fullBio : Bio where
  cache := { Bcache.binit with
    buf := fun i => if i.val < 29 then ⟨true, true, 1, 100 + i.val, 0, none, Block.zero⟩
      else ⟨false, false, 0, 0, 0, none, Block.zero⟩ }
  disk := fun _ _ => Block.zero
  log := ⟨30, 0, true, ⟨List.range' 100 29, fullBlocks_le⟩⟩
  phase := fun _ => .idle
  unsaved := fun _ => false

theorem fullBio_buf (i : Fin NBUF) : fullBio.buf i =
    if i.val < 29 then ⟨true, true, 1, 100 + i.val, 0, none, Block.zero⟩
    else ⟨false, false, 0, 0, 0, none, Block.zero⟩ := rfl

theorem fullBio_isAt {i : Fin NBUF} {b : Nat} :
    fullBio.IsAt i 1 b ↔ i.val < 29 ∧ b = 100 + i.val := by
  rw [IsAt, fullBio_buf]
  split
  · simp [*, eq_comm]
  · simp [*]

theorem fullBio_ready : Ready fullArea 0 1 fullBio where
  holding := by
    refine ⟨Bcache.binit_linked, ?_, ?_, by simp, ?_⟩
    · intro i j b hi hj
      rw [fullBio_isAt] at hi hj
      exact Fin.ext (by omega)
    · intro i hi
      rw [fullBio_buf] at hi ⊢
      split at hi
      · rw [if_pos ‹_›]
      · cases hi
    · intro i _
      rw [fullBio_buf]
      split
      · exact ⟨rfl, rfl⟩
      · exact ⟨rfl, rfl⟩
  pinned := by
    intro b hb
    have hb' := List.mem_range'_1.mp hb
    have hlt : b - 100 < 30 := by omega
    refine ⟨⟨b - 100, hlt⟩, fullBio_isAt.mpr ⟨by simp only; omega, by simp only; omega⟩, ?_⟩
    rw [fullBio_buf, if_pos (by simp only; omega)]
    exact ⟨rfl, rfl⟩
  only := by
    intro i hi
    have hlt : i.val < 29 := by
      by_contra hno
      rw [fullBio_buf, if_neg hno] at hi
      cases hi
    exact ⟨100 + i.val, List.mem_range'_1.mpr (by omega), fullBio_isAt.mpr ⟨hlt, rfl⟩⟩
  nodup := List.nodup_range'
  fits := by decide
  outside := by
    intro b hb hreg
    have hb' := List.mem_range'_1.mp hb
    have := hreg.2
    simp only [fullArea] at this
    omega

theorem commit_finds_buffers_full :
    fullBio.log.lh.n = 29 ∧ ∃ m', fullBio.commit fullArea 0 1 = some m' :=
  ⟨rfl, (commit_finds_buffers fullBio_ready (by decide)).1⟩

end Bio
end Xv6.Buf
