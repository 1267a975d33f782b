import Xv6.Buf.Cache

/-!
# Xv6.Buf.Flat

The buffer cache is transparent: it refines a flat map from device and block number to contents.

`FlatStep` is the map's own behaviour: a `bread` returns what the map holds, a holder's change
updates it, `commit` does what `Xv6.Log.Commit` says a commit does, and nothing else changes it.
`Rel m M` says that the machine `m` stands for the map `M`: every valid buffer holds the map's
contents, and so does the disk, for every block without a dirty or unsaved buffer. Around it are the
facts that make this last: one buffer for each block, and a reference count that covers the holder
of a buffer and the threads on their way to or from its sleep lock, so that only a buffer nobody
uses is recycled.
-/

namespace Xv6.Buf

open Function List Finset Option

variable {l : Log.Area} {p : Phase}

/-- The contents of every block of every device. -/
abbrev Flat : Type := Nat → Nat → Block

def Flat.set (M : Flat) (dev blockno : Nat) (x : Block) : Flat :=
  update M dev (update (M dev) blockno x)

theorem Flat.set_same (M : Flat) (dev blockno : Nat) (x : Block) :
    M.set dev blockno x dev blockno = x := by
  simp [Flat.set]

theorem Flat.set_other {M : Flat} {dev blockno dev' blockno' : Nat} {x : Block}
    (h : ¬ (dev' = dev ∧ blockno' = blockno)) : M.set dev blockno x dev' blockno' =
      M dev' blockno' := by
  by_cases hd : dev' = dev
  · subst hd
    have hb : blockno' ≠ blockno := fun hb => h ⟨rfl, hb⟩
    simp [Flat.set, hb]
  · simp [Flat.set, hd]

inductive FlatStep : Flat → Event → Flat → Prop where
  | bread (M : Flat) (t dev blockno : Nat) : FlatStep M (.bread t dev blockno (M dev blockno)) M
  | modify (M : Flat) (t dev blockno : Nat) (x : Block) :
      FlatStep M (.modify t dev blockno x) (M.set dev blockno x)
  | commit (M : Flat) (t dev : Nat) (l : Log.Area) (lh : Log.Header) :
      FlatStep M (.commit t dev l lh) (update M dev (Log.commit l lh (.boot (M dev))).view)
  | bget (M : Flat) (t dev blockno : Nat) : FlatStep M (.bget t dev blockno) M
  | logWrite (M : Flat) (t : Nat) (b : Fin NBUF) : FlatStep M (.logWrite t b) M
  | bwrite (M : Flat) (t : Nat) (b : Fin NBUF) : FlatStep M (.bwrite t b) M
  | releasesleep (M : Flat) (t : Nat) (b : Fin NBUF) : FlatStep M (.releasesleep t b) M
  | unref (M : Flat) (t : Nat) (b : Fin NBUF) : FlatStep M (.unref t b) M
  | trans (M : Flat) : FlatStep M .trans M

namespace Bcache

variable {c c' : Bcache} {b b' : Fin NBUF} {dev blockno : Nat}

@[simp] theorem set_same (c : Bcache) (b : Fin NBUF) (x : Buffer) : (c.set b x).buf b = x := by
  simp [set]

theorem set_other {x : Buffer} (h : b' ≠ b) : (c.set b x).buf b' = c.buf b' := by
  simp [set, h]

/-- All buffers are on the list. -/
def Linked (c : Bcache) : Prop := ∃ xs, c.links.Ring xs ∧ ∀ b, b ∈ xs

theorem binit_linked : binit.Linked := by
  have h : ∀ ys xs : List (Fin NBUF), ∀ l : Links (Fin NBUF), l.Ring xs → (ys ++ xs).Nodup →
      (ys.foldl Links.pushFront l).Ring (ys.reverse ++ xs) := by
    intro ys
    induction ys with
    | nil => intro xs l hl _; exact hl
    | cons y ys ih =>
      intro xs l hl hnodup
      rw [foldl_cons, reverse_cons, append_assoc, singleton_append]
      have hnodup' : (ys ++ y :: xs).Nodup := by
        rw [nodup_middle]
        exact hnodup
      refine ih _ _ (hl.pushFront ?_) hnodup'
      exact fun hy => (nodup_cons.mp hnodup).1 (mem_append_right ys hy)
  refine ⟨_, h _ _ _ Links.single_ring (by simpa using nodup_finRange NBUF), ?_⟩
  intro b
  simp

theorem Linked.length_le {xs : List (Fin NBUF)} (h : xs.Nodup) : xs.length ≤ NBUF := by
  have := List.Nodup.length_le_card h
  simpa using this

theorem bget_cases (hl : c.Linked) (h : c.bget dev blockno = .ok (b, c')) :
    ((c.buf b).dev = dev ∧ (c.buf b).blockno = blockno ∧
      c' = c.set b { c.buf b with refcnt := (c.buf b).refcnt + 1 }) ∨
    ((∀ b', ¬ ((c.buf b').dev = dev ∧ (c.buf b').blockno = blockno)) ∧ (c.buf b).refcnt = 0 ∧
      (c.buf b).dirty = false ∧
      c' = c.set b { c.buf b with dev, blockno, valid := false, dirty := false, refcnt := 1 }) := by
  obtain ⟨xs, hring, hall⟩ := hl
  have hlen := Linked.length_le hring.nodup
  simp only [bget, hring.seg.search_next hlen, hring.seg.search_prev hlen] at h
  split at h
  · rename_i b0 hfound
    cases h
    have := List.find?_some hfound
    simp only [Bool.and_eq_true, beq_iff_eq] at this
    exact .inl ⟨this.1, this.2, rfl⟩
  · rename_i hnone
    split at h
    · rename_i b0 hfound
      cases h
      have := List.find?_some hfound
      simp only [Bool.and_eq_true, beq_iff_eq, Bool.not_eq_true'] at this
      refine .inr ⟨fun b' hb' => ?_, this.1, this.2, rfl⟩
      have hno := List.find?_eq_none.mp hnone b' (hall b')
      simp [hb'.1, hb'.2] at hno
    · cases h

theorem Linked.unref (hl : c.Linked) (b : Fin NBUF) : (c.unref b).Linked := by
  obtain ⟨xs, hring, hall⟩ := hl
  simp only [Bcache.unref]
  split
  · refine ⟨b :: xs.erase b, (hring.unlink (hall b)).pushFront ?_, ?_⟩
    · exact hring.nodup.not_mem_erase
    · intro b'
      by_cases hb : b' = b
      · simp [hb]
      · simp [mem_erase_of_ne hb, hall b']
  · exact ⟨xs, hring, hall⟩

theorem unref_buf (c : Bcache) (b : Fin NBUF) :
    (c.unref b).buf = update c.buf b { c.buf b with refcnt := (c.buf b).refcnt - 1 } := by
  simp only [unref]
  split
  · rfl
  · rfl

end Bcache
namespace Bio

/-- The thread is on its way to or from the sleep lock of `b`. -/
def Visits (m : Bio) (b : Fin NBUF) (t : Nat) : Prop :=
  (∃ dev blockno, m.phase t = .locking b dev blockno) ∨ m.phase t = .releasing b

/-- The data of `b` may be newer than the disk. -/
def Newer (m : Bio) (b : Fin NBUF) : Prop := (m.buf b).dirty = true ∨ m.unsaved b = true

def IsAt (m : Bio) (b : Fin NBUF) (dev blockno : Nat) : Prop :=
  (m.buf b).dev = dev ∧ (m.buf b).blockno = blockno

/-- Who uses which buffer. -/
structure Counted (m : Bio) : Prop where
  linked : m.cache.Linked
  unique : ∀ b b', (m.buf b).dev ≠ 0 → m.IsAt b' (m.buf b).dev (m.buf b).blockno → b' = b
  count : ∃ W : Fin NBUF → Finset Nat, (∀ b t, t ∈ W b ↔ m.Visits b t) ∧
    ∀ b, (m.buf b).refcnt = (m.buf b).holder.toList.length + (W b).card
  held : ∀ b t, (m.buf b).holder = some t → (m.buf b).valid = true ∧ (m.buf b).dev ≠ 0
  wanted : ∀ b t dev blockno, m.phase t = .locking b dev blockno → dev ≠ 0 ∧ m.IsAt b dev blockno

/-- Where the contents of `M` are. -/
structure Current (m : Bio) (M : Flat) : Prop where
  saved : ∀ b, m.unsaved b = true → (m.buf b).holder ≠ none
  dirty : ∀ b, (m.buf b).dirty = true → (m.buf b).valid = true
  cached : ∀ b, (m.buf b).dev ≠ 0 → (m.buf b).valid = true →
    (m.buf b).data = M (m.buf b).dev (m.buf b).blockno
  stored : ∀ dev blockno, dev ≠ 0 → (∀ b, m.Newer b → ¬ m.IsAt b dev blockno) →
    m.disk dev blockno = M dev blockno

structure Rel (m : Bio) (M : Flat) : Prop where
  counted : m.Counted
  current : m.Current M

theorem Rel.boot {m : Bio} {d : Flat} (h : Boot d m) : Rel m d := by
  obtain ⟨hc, rfl, hp, hu⟩ := h
  have hbuf : ∀ b, m.buf b = ⟨false, false, 0, 0, 0, none, Block.zero⟩ := by
    intro b
    rw [buf, hc]
    rfl
  refine ⟨⟨by rw [hc]; exact Bcache.binit_linked, ?_, ⟨fun _ => ∅, ?_, ?_⟩, ?_, ?_⟩,
    ⟨?_, ?_, ?_, fun _ _ _ _ => rfl⟩⟩
  · intro b b' hdev
    simp [hbuf] at hdev
  · intro b t
    simp [Visits, hp]
  · intro b
    simp [hbuf]
  · intro b t hh
    simp [hbuf] at hh
  · intro b t dev blockno hw
    simp [hp] at hw
  · intro b hb
    simp [hu] at hb
  · intro b hb
    simp [hbuf] at hb
  · intro b hdev
    simp [hbuf] at hdev

variable {m m' : Bio} {M : Flat} {b b' : Fin NBUF} {t dev blockno : Nat}

theorem buf_setBuf_same (m : Bio) (b : Fin NBUF) (x : Buffer) : (m.setBuf b x).buf b = x := by
  simp [buf, setBuf]

theorem buf_setBuf_other {x : Buffer} (h : b' ≠ b) : (m.setBuf b x).buf b' = m.buf b' :=
  Bcache.set_other h

/-! ## The users of a buffer -/

theorem Counted.unused (h : Counted m) (hb : (m.buf b).refcnt = 0) :
    (m.buf b).holder = none ∧ ∀ t, ¬ m.Visits b t := by
  obtain ⟨W, hW, hcount⟩ := h.count
  have hsum := hcount b
  refine ⟨?_, fun t ht => ?_⟩
  · cases hh : (m.buf b).holder with
    | none => rfl
    | some t =>
      rw [hh, toList_some, length_singleton] at hsum
      omega
  · have hmem := (hW b t).mpr ht
    have := card_pos.mpr ⟨t, hmem⟩
    omega

theorem Counted.visited (h : Counted m) (ht : m.Visits b t) : 0 < (m.buf b).refcnt := by
  obtain ⟨W, hW, hcount⟩ := h.count
  have := hcount b
  have := card_pos.mpr ⟨t, (hW b t).mpr ht⟩
  omega

theorem visits_same (hm : m'.phase = update m.phase t p) :
    m'.Visits b t ↔ (∃ dev blockno, p = .locking b dev blockno) ∨ p = .releasing b := by
  simp [Visits, hm]

theorem visits_other (hm : m'.phase = update m.phase t p) {q : Nat}
    (hq : q ≠ t) : m'.Visits b q ↔ m.Visits b q := by
  simp [Visits, hm, hq]

theorem Counted.count_move {x : Buffer} (h : Counted m)
    (hphase : m'.phase = update m.phase t p) (hbuf : m'.buf = update m.buf b x)
    (hold : ∀ b', b' ≠ b → ¬ m.Visits b' t) (hnew : ∀ b', b' ≠ b → ¬ m'.Visits b' t) {v w : Nat}
    (hv : m.Visits b t ∧ v = 1 ∨ ¬ m.Visits b t ∧ v = 0)
    (hv' : m'.Visits b t ∧ w = 1 ∨ ¬ m'.Visits b t ∧ w = 0)
    (heq : x.refcnt + (m.buf b).holder.toList.length + v =
      (m.buf b).refcnt + x.holder.toList.length + w) :
    ∃ W : Fin NBUF → Finset Nat, (∀ b t, t ∈ W b ↔ m'.Visits b t) ∧
      ∀ b, (m'.buf b).refcnt = (m'.buf b).holder.toList.length + (W b).card := by
  obtain ⟨W, hW, hcount⟩ := h.count
  -- the visitors of `b` other than `t` stay
  obtain ⟨S, hS, hcard⟩ : ∃ S : Finset Nat, (∀ q, q ∈ S ↔ m'.Visits b q) ∧
      S.card + v = (W b).card + w := by
    have herase : ((W b).erase t).card + v = (W b).card := by
      rcases hv with ⟨hvis, rfl⟩ | ⟨hvis, rfl⟩
      · exact card_erase_add_one ((hW b t).mpr hvis)
      · rw [erase_eq_of_notMem fun hmem => hvis ((hW b t).mp hmem)]
        rfl
    have hrest : ∀ q, q ≠ t → (q ∈ (W b).erase t ↔ m'.Visits b q) := by
      intro q hq
      rw [mem_erase, hW, visits_other hphase hq]
      exact and_iff_right hq
    rcases hv' with ⟨hvis, rfl⟩ | ⟨hvis, rfl⟩
    · refine ⟨insert t ((W b).erase t), fun q => ?_, ?_⟩
      · by_cases hq : q = t
        · subst hq; simp [hvis]
        · rw [mem_insert, hrest q hq]
          simp [hq]
      · rw [card_insert_of_notMem (notMem_erase t (W b))]
        omega
    · refine ⟨(W b).erase t, fun q => ?_, by omega⟩
      by_cases hq : q = t
      · subst hq; simp [hvis]
      · exact hrest q hq
  rw [hbuf]
  refine ⟨update W b S, fun b' => ?_, fun b' => ?_⟩
  · refine update_cases b' hS fun b' hb q => ?_
    rw [hW]
    by_cases hq : q = t
    · subst hq
      exact iff_of_false (hold b' hb) (hnew b' hb)
    · exact (visits_other hphase hq).symm
  · refine update_cases (f := m.buf) b' ?_ fun b' hb => ?_
    · rw [update_self]
      have := hcount b
      omega
    · rw [update_of_ne hb]
      exact hcount b'

theorem Counted.congr (h : Counted m) (hlinks : m'.cache.links = m.cache.links)
    (hphase : m'.phase = m.phase)
    (hbuf : ∀ b, (m'.buf b).dev = (m.buf b).dev ∧ (m'.buf b).blockno = (m.buf b).blockno ∧
      (m'.buf b).refcnt = (m.buf b).refcnt ∧ (m'.buf b).holder = (m.buf b).holder ∧
      ((m.buf b).valid = true → (m'.buf b).valid = true)) : Counted m' := by
  have hat : ∀ b dev blockno, m'.IsAt b dev blockno ↔ m.IsAt b dev blockno := by
    intro b dev blockno
    rw [IsAt, IsAt, (hbuf b).1, (hbuf b).2.1]
  refine ⟨?_, ?_, ?_, ?_, ?_⟩
  · rw [Bcache.Linked, hlinks]
    exact h.linked
  · intro b b' hdev hb'
    rw [hat, (hbuf b).1, (hbuf b).2.1] at hb'
    rw [(hbuf b).1] at hdev
    exact h.unique b b' hdev hb'
  · obtain ⟨W, hW, hcount⟩ := h.count
    refine ⟨W, fun b t => ?_, fun b => ?_⟩
    · rw [hW, Visits, Visits, hphase]
    · rw [(hbuf b).2.2.1, (hbuf b).2.2.2.1]
      exact hcount b
  · intro b t hh
    rw [(hbuf b).2.2.2.1] at hh
    obtain ⟨hv, hd⟩ := h.held b t hh
    rw [(hbuf b).1]
    exact ⟨(hbuf b).2.2.2.2 hv, hd⟩
  · intro b t dev blockno hw
    rw [hphase] at hw
    rw [hat]
    exact h.wanted b t dev blockno hw

theorem Current.congr (h : Current m M) (hdisk : m'.disk = m.disk) (hunsaved : m'.unsaved =
    m.unsaved)
    (hbuf : ∀ b, (m'.buf b).dev = (m.buf b).dev ∧ (m'.buf b).blockno = (m.buf b).blockno ∧
      (m'.buf b).valid = (m.buf b).valid ∧ (m'.buf b).dirty = (m.buf b).dirty ∧
      (m'.buf b).data = (m.buf b).data)
    (hheld : ∀ b, m.unsaved b = true → (m.buf b).holder ≠ none → (m'.buf b).holder ≠ none) :
    Current m' M := by
  refine ⟨?_, ?_, ?_, ?_⟩
  · intro b hb
    rw [hunsaved] at hb
    exact hheld b hb (h.saved b hb)
  · intro b hb
    rw [(hbuf b).2.2.2.1] at hb
    rw [(hbuf b).2.2.1]
    exact h.dirty b hb
  · intro b hdev hv
    rw [(hbuf b).1] at hdev
    rw [(hbuf b).2.2.1] at hv
    rw [(hbuf b).1, (hbuf b).2.1, (hbuf b).2.2.2.2]
    exact h.cached b hdev hv
  · intro dev blockno hdev hnew
    rw [hdisk]
    refine h.stored dev blockno hdev fun b hb hat => hnew b ?_ ?_
    · rw [Newer, (hbuf b).2.2.2.1, hunsaved]
      exact hb
    · rw [IsAt, (hbuf b).1, (hbuf b).2.1]
      exact hat

theorem Counted.move {x : Buffer} (h : Counted m) (hlinked : m'.cache.Linked)
    (hphase : m'.phase = update m.phase t p) (hbuf : m'.buf = update m.buf b x)
    (hold : ∀ b', b' ≠ b → ¬ m.Visits b' t) (hnew : ∀ b', b' ≠ b → ¬ m'.Visits b' t) {v w : Nat}
    (hv : m.Visits b t ∧ v = 1 ∨ ¬ m.Visits b t ∧ v = 0)
    (hv' : m'.Visits b t ∧ w = 1 ∨ ¬ m'.Visits b t ∧ w = 0)
    (heq : x.refcnt + (m.buf b).holder.toList.length + v =
      (m.buf b).refcnt + x.holder.toList.length + w)
    (hdev : x.dev = (m.buf b).dev) (hblk : x.blockno = (m.buf b).blockno)
    (hheld : ∀ q, x.holder = some q → x.valid = true ∧ (m.buf b).dev ≠ 0)
    (hwant : ∀ b' dev blockno, p = .locking b' dev blockno → dev ≠ 0 ∧ m.IsAt b' dev blockno) :
    Counted m' := by
  have hid : ∀ b', (m'.buf b').dev = (m.buf b').dev ∧ (m'.buf b').blockno = (m.buf b').blockno := by
    rw [hbuf]
    exact fun b' => update_cases b' ⟨hdev, hblk⟩ fun _ _ => ⟨rfl, rfl⟩
  have hat : ∀ b' dev blockno, m'.IsAt b' dev blockno ↔ m.IsAt b' dev blockno := by
    intro b' dev blockno
    rw [IsAt, IsAt, (hid b').1, (hid b').2]
  refine ⟨hlinked, ?_, h.count_move hphase hbuf hold hnew hv hv' heq, ?_, ?_⟩
  · intro b1 b2 hd hb2
    rw [hat, (hid b1).1, (hid b1).2] at hb2
    rw [(hid b1).1] at hd
    exact h.unique b1 b2 hd hb2
  · rw [hbuf]
    refine fun b' => update_cases b' (fun q hq => ?_) fun b' _ => h.held b'
    rw [hdev]
    exact hheld q hq
  · intro b' q dev blockno
    rw [hat, hphase]
    exact update_cases q (hwant b' dev blockno) fun q _ => h.wanted b' q dev blockno

theorem Current.unsaved_free (h : Current m M) (hfree : (m.buf b).holder = none) :
    m.unsaved b = false := by
  cases hu : m.unsaved b with
  | false => rfl
  | true => exact absurd hfree (h.saved b hu)

theorem visits_of_idle (hp : m.phase t = .idle) (b : Fin NBUF) : ¬ m.Visits b t := by
  simp [Visits, hp]

theorem bget_inv (h : m.bget t dev blockno = .ok (b, m')) :
    ∃ c, m.cache.bget dev blockno = .ok (b, c) ∧
      m' = { m with cache := c, phase := update m.phase t (.locking b dev blockno) } := by
  rw [Bio.bget] at h
  cases hc : m.cache.bget dev blockno with
  | error p => rw [hc] at h; cases h
  | ok r =>
    obtain ⟨b0, c⟩ := r
    rw [hc] at h
    cases h
    exact ⟨c, rfl, rfl⟩

theorem Rel.bget_hit (h : Rel m M) (hp : m.phase t = .idle) (hd : dev ≠ 0)
    (hb : m.IsAt b dev blockno) : Rel { m with
      cache := m.cache.set b { m.cache.buf b with refcnt := (m.cache.buf b).refcnt + 1 }
      phase := update m.phase t (.locking b dev blockno) } M := by
  generalize hm' : ({ m with
      cache := m.cache.set b { m.cache.buf b with refcnt := (m.cache.buf b).refcnt + 1 }
      phase := update m.phase t (.locking b dev blockno) } : Bio) = m'
  have hphase : m'.phase = update m.phase t (.locking b dev blockno) := by rw [← hm']
  have hbuf : m'.buf = update m.buf b { m.buf b with refcnt := (m.buf b).refcnt + 1 } := by
    rw [← hm']; rfl
  have hvis : ∀ b', m'.Visits b' t ↔ b = b' := by
    intro b'
    rw [visits_same hphase]
    simp
  refine ⟨h.counted.move (by rw [← hm']; exact h.counted.linked) hphase hbuf
    (fun b' _ => visits_of_idle hp b') (fun b' hb' hv => hb' ((hvis b').mp hv).symm)
    (.inr ⟨visits_of_idle hp b, rfl⟩) (.inl ⟨(hvis b).mpr rfl, rfl⟩) ?_ rfl rfl
    (h.counted.held b) ?_, ?_⟩
  · dsimp only
    omega
  · intro b' dev' blockno' heq
    cases heq
    exact ⟨hd, hb⟩
  · refine h.current.congr (by rw [← hm']) (by rw [← hm']) ?_ ?_
    · rw [hbuf]
      exact fun b' => update_cases b' ⟨rfl, rfl, rfl, rfl, rfl⟩ fun _ _ => ⟨rfl, rfl, rfl, rfl, rfl⟩
    · rw [hbuf]
      exact fun b' _ => update_cases b' id fun _ _ => id

theorem Rel.bget_miss (h : Rel m M) (hp : m.phase t = .idle) (hd : dev ≠ 0)
    (hnone : ∀ b', ¬ m.IsAt b' dev blockno) (hzero : (m.buf b).refcnt = 0)
    (hclean : (m.buf b).dirty = false) : Rel { m with
      cache := m.cache.set b
        { m.cache.buf b with dev, blockno, valid := false, dirty := false, refcnt := 1 }
      phase := update m.phase t (.locking b dev blockno) } M := by
  generalize hm' : ({ m with
      cache := m.cache.set b
        { m.cache.buf b with dev, blockno, valid := false, dirty := false, refcnt := 1 }
      phase := update m.phase t (.locking b dev blockno) } : Bio) = m'
  have hphase : m'.phase = update m.phase t (.locking b dev blockno) := by rw [← hm']
  have hbuf : m'.buf = update m.buf b
      { m.buf b with dev, blockno, valid := false, dirty := false, refcnt := 1 } := by
    rw [← hm']; rfl
  have hvis : ∀ b', m'.Visits b' t ↔ b = b' := by
    intro b'
    rw [visits_same hphase]
    simp
  have hunsaved : m'.unsaved = m.unsaved := by rw [← hm']
  obtain ⟨hfree, hnobody⟩ := h.counted.unused hzero
  have hsaved := h.current.unsaved_free hfree
  refine ⟨⟨by rw [← hm']; exact h.counted.linked, ?_, ?_, ?_, ?_⟩, ⟨?_, ?_, ?_, ?_⟩⟩
  · -- no other buffer has the block, and no buffer takes the old block of `b` over
    intro b1 b2
    simp only [IsAt, hbuf]
    by_cases h1 : b1 = b <;> by_cases h2 : b2 = b
    · rw [h1, h2]
      exact fun _ _ => rfl
    · rw [h1, update_self, update_of_ne h2]
      exact fun _ hb2 => absurd hb2 (hnone b2)
    · rw [h2, update_self, update_of_ne h1]
      exact fun _ hb2 => absurd ⟨hb2.1.symm, hb2.2.symm⟩ (hnone b1)
    · rw [update_of_ne h1, update_of_ne h2]
      exact h.counted.unique b1 b2
  · refine h.counted.count_move hphase hbuf (fun b' _ => visits_of_idle hp b')
      (fun b' hb' hv => hb' ((hvis b').mp hv).symm) (.inr ⟨visits_of_idle hp b, rfl⟩)
      (.inl ⟨(hvis b).mpr rfl, rfl⟩) ?_
    rw [hzero]
    dsimp only
    omega
  · rw [hbuf]
    refine fun b' => update_cases b' (fun q hq => ?_) fun b' _ => h.counted.held b'
    exact absurd hq (by simp [hfree])
  · intro b' q dev' blockno'
    simp only [hphase, IsAt, hbuf]
    refine update_cases q (fun hq => ?_) fun q _ hq => ?_
    · cases hq
      rw [update_self]
      exact ⟨hd, rfl, rfl⟩
    · -- a buffer somebody waits for is not the one recycled
      have hb' : b' ≠ b := fun hb' => hnobody q (.inl ⟨dev', blockno', hb' ▸ hq⟩)
      rw [update_of_ne hb']
      exact h.counted.wanted b' q dev' blockno' hq
  · rw [hunsaved, hbuf]
    refine fun b' => update_cases b' (fun hb' => ?_) fun b' _ => h.current.saved b'
    rw [hsaved] at hb'
    cases hb'
  · rw [hbuf]
    exact fun b' => update_cases b' (fun hb' => by cases hb') fun b' _ => h.current.dirty b'
  · rw [hbuf]
    exact fun b' => update_cases b' (fun _ hv => by cases hv) fun b' _ => h.current.cached b'
  · intro dev' blockno' hdev hnew
    rw [← hm']
    refine h.current.stored dev' blockno' hdev fun b' hb' hat => ?_
    -- `b` itself was neither dirty nor unsaved
    have hne : b' ≠ b := by
      rintro rfl
      rcases hb' with hb' | hb'
      · rw [hclean] at hb'; cases hb'
      · rw [hsaved] at hb'; cases hb'
    refine hnew b' ?_ ?_
    · rwa [Newer, hbuf, update_of_ne hne, hunsaved]
    · rwa [IsAt, hbuf, update_of_ne hne]

theorem Rel.bget (h : Rel m M) (hp : m.phase t = .idle) (hd : dev ≠ 0)
    (hm : m.bget t dev blockno = .ok (b, m')) : Rel m' M := by
  obtain ⟨c, hc, rfl⟩ := bget_inv hm
  rcases Bcache.bget_cases h.counted.linked hc with
    ⟨hbd, hbn, rfl⟩ | ⟨hnone, hzero, hclean, rfl⟩
  · exact h.bget_hit hp hd ⟨hbd, hbn⟩
  · exact h.bget_miss hp hd hnone hzero hclean

theorem bread_inv (hdirty : (m.buf b).dirty = true → (m.buf b).valid = true)
    (h : m.bread t b = .ok m') :
    ∃ x, m' = (m.setBuf b
        { m.buf b with holder := some t, valid := true, data := x }).setPhase t .idle ∧
      ((m.buf b).valid = true ∧ x = (m.buf b).data ∨
        (m.buf b).valid = false ∧ x = m.disk (m.buf b).dev (m.buf b).blockno) := by
  obtain ⟨m1, hm1⟩ : ∃ m1, m1 = (m.setBuf b { m.buf b with holder := some t }).setPhase t .idle :=
    ⟨_, rfl⟩
  have hbuf : m1.buf b = { m.buf b with holder := some t } := by
    rw [hm1]; exact buf_setBuf_same m b _
  have hm : (if (m1.buf b).valid then Except.ok m1 else m1.iderw t b) = .ok m' := by
    rw [hm1]; exact h
  cases hv : (m.buf b).valid with
  | true =>
    rw [if_pos (by rw [hbuf]; exact hv)] at hm
    cases hm
    refine ⟨(m.buf b).data, ?_, .inl ⟨rfl, rfl⟩⟩
    rw [hm1, ← hv]
  | false =>
    have hd : (m.buf b).dirty = false := by
      cases hd : (m.buf b).dirty with
      | false => rfl
      | true => rw [hdirty hd] at hv; cases hv
    rw [if_neg (by rw [hbuf]; simp [hv]), iderw] at hm
    simp only [hbuf, hv, hd, ne_eq, not_true_eq_false, if_false, Bool.false_eq_true,
      false_and] at hm
    cases hm
    refine ⟨_, ?_, .inr ⟨rfl, rfl⟩⟩
    simp [hm1, hd, setBuf, setPhase, Bcache.set]

theorem Rel.bread (h : Rel m M) (hp : m.phase t = .locking b dev blockno)
    (hfree : (m.buf b).holder = none) (hm : m.bread t b = .ok m') :
    Rel m' M ∧ (m'.buf b).data = M dev blockno := by
  obtain ⟨x, heq, hx⟩ := bread_inv (h.current.dirty b) hm
  obtain ⟨hdev, hat⟩ := h.counted.wanted b t dev blockno hp
  have hphase : m'.phase = update m.phase t .idle := by rw [heq]; rfl
  have hbuf : m'.buf = update m.buf b
      { m.buf b with holder := some t, valid := true, data := x } := by rw [heq]; rfl
  have hvis : ∀ b', ¬ m'.Visits b' t := by
    intro b'
    rw [visits_same hphase]
    simp
  have hunsaved : m'.unsaved = m.unsaved := by rw [heq]; rfl
  have hsaved := h.current.unsaved_free hfree
  have hbdev : (m.buf b).dev ≠ 0 := by rw [hat.1]; exact hdev
  -- what the buffer holds now is what the map has
  have hdata : x = M (m.buf b).dev (m.buf b).blockno := by
    rcases hx with ⟨hv, rfl⟩ | ⟨hv, rfl⟩
    · exact h.current.cached b hbdev hv
    · refine h.current.stored _ _ hbdev fun b' hnew hb' => ?_
      cases h.counted.unique b b' hbdev hb'
      rcases hnew with hnew | hnew
      · rw [h.current.dirty b hnew] at hv; cases hv
      · rw [hsaved] at hnew; cases hnew
  refine ⟨⟨h.counted.move (v := 1) (w := 0) ?_ hphase hbuf ?_ (fun b' _ => hvis b')
    (.inl ⟨.inl ⟨dev, blockno, hp⟩, rfl⟩) (.inr ⟨hvis b, rfl⟩) ?_ rfl rfl
    (fun _ _ => ⟨rfl, hbdev⟩) ?_, ⟨?_, ?_, ?_, ?_⟩⟩, ?_⟩
  · rw [heq]; exact h.counted.linked
  · intro b' hb' hv
    rcases hv with ⟨dev', blockno', hv⟩ | hv
    · rw [hp] at hv
      cases hv
      exact hb' rfl
    · rw [hp] at hv
      cases hv
  · rw [hfree]
    rfl
  · intro b' dev' blockno' hq
    cases hq
  · rw [hunsaved, hbuf]
    exact fun b' => update_cases b' (fun _ => some_ne_none t) fun b' _ => h.current.saved b'
  · rw [hbuf]
    exact fun b' => update_cases b' (fun _ => rfl) fun b' _ => h.current.dirty b'
  · rw [hbuf]
    exact fun b' => update_cases b' (fun _ _ => hdata) fun b' _ => h.current.cached b'
  · intro dev' blockno' hd hnew
    have hdisk : m'.disk = m.disk := by rw [heq]; rfl
    rw [hdisk]
    simp only [Newer, IsAt, hbuf, hunsaved] at hnew
    refine h.current.stored dev' blockno' hd fun b' => ?_
    have := hnew b'
    revert this
    exact update_cases b' id fun _ _ => id
  · rw [hbuf, update_self]
    rw [hat.1, hat.2] at hdata
    exact hdata

theorem Rel.modify (h : Rel m M) (hb : (m.buf b).holder = some t) (x : Block) :
    Rel (m.modify b x) (M.set (m.buf b).dev (m.buf b).blockno x) := by
  have hbuf : (m.modify b x).buf = update m.buf b { m.buf b with data := x } := rfl
  have hunsaved : (m.modify b x).unsaved = update m.unsaved b true := rfl
  have hdev := (h.counted.held b t hb).2
  refine ⟨h.counted.congr rfl rfl ?_, ⟨?_, ?_, ?_, ?_⟩⟩
  · rw [hbuf]
    exact fun b' => update_cases b' ⟨rfl, rfl, rfl, rfl, id⟩ fun _ _ => ⟨rfl, rfl, rfl, rfl, id⟩
  · rw [hbuf, hunsaved]
    refine fun b' => update_cases (f := m.buf) b' (fun _ => ?_) fun b' hne hb' => ?_
    · simp [hb]
    · rw [update_of_ne hne] at hb'
      exact h.current.saved b' hb'
  · rw [hbuf]
    exact fun b' => update_cases b' (h.current.dirty b) fun b' _ => h.current.dirty b'
  · rw [hbuf]
    refine fun b' => update_cases b' (fun _ _ => ?_) fun b' hne hd hv => ?_
    · exact (Flat.set_same _ _ _ _).symm
    · rw [Flat.set_other fun heq => hne (h.counted.unique b b' hdev heq)]
      exact h.current.cached b' hd hv
  · intro dev' blockno' hd hnew
    simp only [Newer, IsAt, hbuf, hunsaved] at hnew
    have hne : ¬ (dev' = (m.buf b).dev ∧ blockno' = (m.buf b).blockno) := by
      rintro ⟨rfl, rfl⟩
      have := hnew b
      simp at this
    rw [Flat.set_other hne]
    refine h.current.stored dev' blockno' hd fun b' => ?_
    have := hnew b'
    revert this
    refine update_cases (f := m.buf) b' (fun h _ => h (.inr (update_self ..))) fun b' hne => ?_
    rw [update_of_ne hne]
    exact id

theorem Current.saved_update (h : Current m M) {x : Buffer} (b' : Fin NBUF) :
    update m.unsaved b false b' = true → (update m.buf b x b').holder ≠ none := by
  refine update_cases (f := m.unsaved) b' Bool.noConfusion fun b' hne => ?_
  rw [update_of_ne hne]
  exact h.saved b'

theorem Rel.logWrite (h : Rel m M) (hb : (m.buf b).holder = some t) (hm : m.logWrite b = .ok m') :
    Rel m' M := by
  obtain ⟨g, heq⟩ : ∃ g, m' = { m.setBuf b { m.buf b with dirty := true } with
      log := g, unsaved := update m.unsaved b false } := by
    rw [Bio.logWrite] at hm
    split at hm
    · cases hm
    · cases hm
      exact ⟨_, rfl⟩
  have hbuf : m'.buf = update m.buf b { m.buf b with dirty := true } := by rw [heq]; rfl
  have hunsaved : m'.unsaved = update m.unsaved b false := by rw [heq]
  refine ⟨h.counted.congr (by rw [heq]; rfl) (by rw [heq]; rfl) ?_, ⟨?_, ?_, ?_, ?_⟩⟩
  · rw [hbuf]
    exact fun b' => update_cases b' ⟨rfl, rfl, rfl, rfl, id⟩ fun _ _ => ⟨rfl, rfl, rfl, rfl, id⟩
  · rw [hbuf, hunsaved]
    exact h.current.saved_update
  · rw [hbuf]
    exact fun b' => update_cases b' (fun _ => (h.counted.held b t hb).1) fun b' _ =>
      h.current.dirty b'
  · rw [hbuf]
    exact fun b' => update_cases b' (h.current.cached b) fun b' _ => h.current.cached b'
  · intro dev' blockno' hd hnew
    have hdisk : m'.disk = m.disk := by rw [heq]; rfl
    rw [hdisk]
    simp only [Newer, IsAt, hbuf, hunsaved] at hnew
    refine h.current.stored dev' blockno' hd fun b' => ?_
    have := hnew b'
    revert this
    refine update_cases (f := m.buf) b' (fun this _ => this (.inl rfl)) fun b' hne => ?_
    rw [update_of_ne hne]
    exact id

theorem bwrite_inv (hm : m.bwrite t b = .ok m') : (m.buf b).holder = some t ∧
      m' = { (m.setDisk (m.buf b).dev (m.buf b).blockno (m.buf b).data).setBuf b
          { m.buf b with valid := true, dirty := false } with
        unsaved := update m.unsaved b false } := by
  rw [Bio.bwrite] at hm
  by_cases hb : (m.buf b).holder = some t
  · refine ⟨hb, ?_⟩
    obtain ⟨m1, hm1⟩ : ∃ m1, m1 = m.setBuf b { m.buf b with dirty := true } := ⟨_, rfl⟩
    have hbuf : m1.buf b = { m.buf b with dirty := true } := by
      rw [hm1]; exact buf_setBuf_same m b _
    rw [if_neg (not_not.mpr hb), ← hm1, iderw] at hm
    simp only [hbuf, hb, ne_eq, not_true_eq_false, if_false, and_false, if_true] at hm
    cases hm
    simp [hm1, hb, setBuf, setDisk, Bcache.set]
  · rw [if_pos hb] at hm
    cases hm

theorem Rel.bwrite (h : Rel m M) (hm : m.bwrite t b = .ok m') : Rel m' M := by
  obtain ⟨hb, heq⟩ := bwrite_inv hm
  have hbuf : m'.buf = update m.buf b { m.buf b with valid := true, dirty := false } := by
    rw [heq]; rfl
  have hunsaved : m'.unsaved = update m.unsaved b false := by rw [heq]
  obtain ⟨hvalid, hdev⟩ := h.counted.held b t hb
  have hdata := h.current.cached b hdev hvalid
  refine ⟨h.counted.congr (by rw [heq]; rfl) (by rw [heq]; rfl) ?_, ⟨?_, ?_, ?_, ?_⟩⟩
  · rw [hbuf]
    exact fun b' => update_cases b' ⟨rfl, rfl, rfl, rfl, fun _ => rfl⟩ fun _ _ =>
      ⟨rfl, rfl, rfl, rfl, id⟩
  · rw [hbuf, hunsaved]
    exact h.current.saved_update
  · rw [hbuf]
    exact fun b' => update_cases b' (fun _ => rfl) fun b' _ => h.current.dirty b'
  · rw [hbuf]
    exact fun b' => update_cases b' (fun _ _ => hdata) fun b' _ => h.current.cached b'
  · intro dev' blockno' hd hnew
    have hdisk : m'.disk = Flat.set m.disk (m.buf b).dev (m.buf b).blockno (m.buf b).data := by
      rw [heq]; rfl
    rw [hdisk]
    by_cases hsame' : dev' = (m.buf b).dev ∧ blockno' = (m.buf b).blockno
    · rw [hsame'.1, hsame'.2, Flat.set_same]
      exact hdata
    · rw [Flat.set_other hsame']
      refine h.current.stored dev' blockno' hd fun b' hb' hat => ?_
      have hne : b' ≠ b := by
        rintro rfl
        exact hsame' ⟨hat.1.symm, hat.2.symm⟩
      refine hnew b' ?_ ?_
      · rwa [Newer, hbuf, update_of_ne hne, hunsaved, update_of_ne hne]
      · rwa [IsAt, hbuf, update_of_ne hne]

theorem releasesleep_inv (hm : m.releasesleep t b = .ok m') : (m.buf b).holder = some t ∧
      m' = (m.setBuf b { m.buf b with holder := none }).setPhase t (.releasing b) := by
  rw [Bio.releasesleep] at hm
  split at hm
  · cases hm
  · rename_i hb
    cases hm
    exact ⟨not_not.mp hb, rfl⟩

theorem Rel.releasesleep (h : Rel m M) (hp : m.phase t = .idle) (hsaved : m.unsaved b = false)
    (hm : m.releasesleep t b = .ok m') : Rel m' M := by
  obtain ⟨hb, heq⟩ := releasesleep_inv hm
  have hphase : m'.phase = update m.phase t (.releasing b) := by rw [heq]; rfl
  have hbuf : m'.buf = update m.buf b { m.buf b with holder := none } := by rw [heq]; rfl
  have hvis : ∀ b', m'.Visits b' t ↔ b = b' := by
    intro b'
    rw [visits_same hphase]
    simp
  refine ⟨h.counted.move ?_ hphase hbuf (fun b' _ => visits_of_idle hp b')
    (fun b' hb' hv => hb' ((hvis b').mp hv).symm) (.inr ⟨visits_of_idle hp b, rfl⟩)
    (.inl ⟨(hvis b).mpr rfl, rfl⟩) ?_ rfl rfl ?_ ?_, ?_⟩
  · rw [heq]; exact h.counted.linked
  · rw [hb]
    rfl
  · intro q hq
    cases hq
  · intro b' dev blockno hq
    cases hq
  · refine h.current.congr (by rw [heq]; rfl) (by rw [heq]; rfl) ?_ ?_
    · rw [hbuf]
      exact fun b' => update_cases b' ⟨rfl, rfl, rfl, rfl, rfl⟩ fun _ _ => ⟨rfl, rfl, rfl, rfl, rfl⟩
    · rw [hbuf]
      refine fun b' => update_cases b' (fun hu => ?_) fun _ _ _ => id
      rw [hsaved] at hu
      cases hu

theorem Rel.unref (h : Rel m M) (hp : m.phase t = .releasing b) : Rel (m.unref t b) M := by
  have hphase : (m.unref t b).phase = update m.phase t .idle := rfl
  have hbuf : (m.unref t b).buf =
      update m.buf b { m.buf b with refcnt := (m.buf b).refcnt - 1 } := Bcache.unref_buf _ _
  have hvis : ∀ b', ¬ (m.unref t b).Visits b' t := by
    intro b'
    rw [visits_same hphase]
    simp
  have hpos := h.counted.visited (.inr hp)
  refine ⟨h.counted.move (v := 1) (w := 0) (h.counted.linked.unref b) hphase hbuf ?_
    (fun b' _ => hvis b') (.inl ⟨.inr hp, rfl⟩) (.inr ⟨hvis b, rfl⟩) ?_ rfl rfl
    (h.counted.held b) ?_, ?_⟩
  · intro b' hb' hv
    rcases hv with ⟨dev', blockno', hv⟩ | hv
    · rw [hp] at hv
      cases hv
    · rw [hp] at hv
      cases hv
      exact hb' rfl
  · dsimp only
    omega
  · intro b' dev' blockno' hq
    cases hq
  · refine h.current.congr rfl rfl ?_ ?_
    · rw [hbuf]
      exact fun b' => update_cases b' ⟨rfl, rfl, rfl, rfl, rfl⟩ fun _ _ => ⟨rfl, rfl, rfl, rfl, rfl⟩
    · rw [hbuf]
      exact fun b' _ => update_cases b' id fun _ _ => id

theorem Basic.flat {e : Event} (hs : Basic m e m') (h : Rel m M) :
    ∃ M', FlatStep M e M' ∧ Rel m' M' := by
  cases hs with
  | bget hp hd hm => exact ⟨M, .bget M _ _ _, h.bget hp hd hm⟩
  | bread hp hfree hm =>
    obtain ⟨hrel, hdata⟩ := h.bread hp hfree hm
    rw [hdata]
    exact ⟨M, .bread M _ _ _, hrel⟩
  | modify x hp hb => exact ⟨_, .modify M _ _ _ x, h.modify hb x⟩
  | logWrite hp hb hm => exact ⟨M, .logWrite M _ _, h.logWrite hb hm⟩
  | bwrite hp hm => exact ⟨M, .bwrite M _ _, h.bwrite hm⟩
  | releasesleep hp hsaved hm => exact ⟨M, .releasesleep M _ _, h.releasesleep hp hsaved hm⟩
  | unref hp => exact ⟨M, .unref M _ _, h.unref hp⟩
  | trans g => exact ⟨M, .trans M, ⟨h.counted.congr rfl rfl fun b => ⟨rfl, rfl, rfl, rfl, id⟩,
      h.current.congr rfl rfl (fun b => ⟨rfl, rfl, rfl, rfl, rfl⟩) fun b _ => id⟩⟩

/-- Nobody's buffer is taken away. -/
def Keeps (m m' : Bio) : Prop :=
  ∀ b t, (m.buf b).holder = some t →
    (m'.buf b).holder = some t ∧ m'.IsAt b (m.buf b).dev (m.buf b).blockno

theorem Keeps.trans {m'' : Bio} (h : Keeps m m') (h' : Keeps m' m'') : Keeps m m'' := by
  intro b t hb
  obtain ⟨hb', hat⟩ := h b t hb
  obtain ⟨hb'', hat'⟩ := h' b t hb'
  rw [hat.1, hat.2] at hat'
  exact ⟨hb'', hat'⟩

theorem Counted.bget_keeps (h : Counted m) (hm : m.bget t dev blockno = .ok (b, m')) :
    Keeps m m' ∧ ∀ b', (m'.buf b').holder = (m.buf b').holder := by
  obtain ⟨c, hc, rfl⟩ := bget_inv hm
  rcases Bcache.bget_cases h.linked hc with ⟨hbd, hbn, rfl⟩ | ⟨hnone, hzero, hclean, rfl⟩
  · simp only [Keeps, IsAt, buf, Bcache.set]
    refine ⟨fun b' q => ?_, fun b' => update_cases b' rfl fun _ _ => rfl⟩
    exact update_cases b' (fun hq => ⟨hq, rfl, rfl⟩) fun _ _ hq => ⟨hq, rfl, rfl⟩
  · have hfree := (h.unused hzero).1
    simp only [Keeps, IsAt, buf, Bcache.set] at hfree ⊢
    refine ⟨fun b' q => ?_, fun b' => update_cases b' rfl fun _ _ => rfl⟩
    refine update_cases b' (fun hq => ?_) fun _ _ hq => ⟨hq, rfl, rfl⟩
    rw [hfree] at hq
    cases hq

/-- Thread `t` is at rest between two calls and the machine stands for `M`. -/
structure At (t : Nat) (m : Bio) (M : Flat) : Prop where
  rel : Rel m M
  idle : m.phase t = .idle

/-- Thread `t` holds `b`, the buffer of block `blockno`. -/
structure Has (t dev blockno : Nat) (m : Bio) (b : Fin NBUF) : Prop where
  holder : (m.buf b).holder = some t
  isAt : m.IsAt b dev blockno

theorem Has.keeps (h : Has t dev blockno m b) (hk : Keeps m m') : Has t dev blockno m' b := by
  obtain ⟨hb, hat⟩ := hk b t h.holder
  rw [h.isAt.1, h.isAt.2] at hat
  exact ⟨hb, hat⟩

theorem Has.data (h : Has t dev blockno m b) (hr : Rel m M) : (m.buf b).data = M dev blockno := by
  obtain ⟨hv, hd⟩ := hr.counted.held b t h.holder
  rw [hr.current.cached b hd hv, h.isAt.1, h.isAt.2]

theorem At.breadNow (h : At t m M) (hd : dev ≠ 0) (hm : m.breadNow t dev blockno = some (b, m')) :
    At t m' M ∧ Has t dev blockno m' b ∧ Keeps m m' ∧ (m.buf b).holder = none ∧
      m.unsaved b = false ∧ m'.unsaved = m.unsaved ∧ m'.log = m.log := by
  rw [Bio.breadNow] at hm
  cases hg : m.bget t dev blockno with
  | error p => rw [hg] at hm; cases hm
  | ok r =>
    obtain ⟨b0, m1⟩ := r
    simp only [hg] at hm
    by_cases hfree : (m1.buf b0).holder = none
    · rw [if_pos hfree] at hm
      cases hr : m1.bread t b0 with
      | error p => rw [hr] at hm; cases hm
      | ok m2 =>
        rw [hr] at hm
        cases hm
        have hrel := h.rel.bget h.idle hd hg
        obtain ⟨hkeep, hholder⟩ := h.rel.counted.bget_keeps hg
        obtain ⟨c, -, hm1⟩ := bget_inv hg
        have hp : m1.phase t = .locking b dev blockno := by
          rw [hm1]; exact update_self _ _ _
        obtain ⟨x, hm2, -⟩ := bread_inv (hrel.current.dirty b) hr
        have hsame : m'.buf b = { m1.buf b with holder := some t, valid := true, data := x } := by
          rw [hm2]; exact buf_setBuf_same m1 b _
        have hsaved := h.rel.current.unsaved_free ((hholder b).symm.trans hfree)
        refine ⟨⟨(hrel.bread hp hfree hr).1, ?_⟩, ⟨?_, ?_⟩, hkeep.trans ?_, ?_, hsaved, ?_, ?_⟩
        · rw [hm2]; exact update_self _ _ _
        · rw [hsame]
        · rw [IsAt, hsame]
          exact (hrel.counted.wanted b t dev blockno hp).2
        · intro b' q hq
          have hb' : b' ≠ b := fun hb' => by rw [hb', hfree] at hq; cases hq
          have hother : m'.buf b' = m1.buf b' := by rw [hm2]; exact buf_setBuf_other hb'
          rw [IsAt, hother]
          exact ⟨hq, rfl, rfl⟩
        · exact (hholder b).symm.trans hfree
        · rw [hm2]; rw [hm1]; rfl
        · rw [hm2]; rw [hm1]; rfl
    · rw [if_neg hfree] at hm
      cases hm

theorem At.brelse (h : At t m M) (hsaved : m.unsaved b = false) (hm : m.brelse t b = some m') :
    At t m' M ∧ m'.unsaved = m.unsaved ∧ m'.log = m.log := by
  rw [Bio.brelse] at hm
  cases hr : m.releasesleep t b with
  | error p => rw [hr] at hm; cases hm
  | ok m1 =>
    rw [hr] at hm
    cases hm
    obtain ⟨-, hm1⟩ := releasesleep_inv hr
    have hp : m1.phase t = .releasing b := by rw [hm1]; exact update_self _ _ _
    refine ⟨⟨(h.rel.releasesleep h.idle hsaved hr).unref hp, update_self _ _ _⟩, ?_, ?_⟩
    · rw [hm1]; rfl
    · rw [hm1]; rfl

theorem At.modify_bwrite (h : At t m M) (hb : Has t dev blockno m b) {x : Block}
    (hm : (m.modify b x).bwrite t b = .ok m') :
    At t m' (M.set dev blockno x) ∧ m'.unsaved = update m.unsaved b false ∧
      m'.log = m.log := by
  have hrel := (h.rel.modify hb.holder x).bwrite hm
  rw [hb.isAt.1, hb.isAt.2] at hrel
  obtain ⟨-, heq⟩ := bwrite_inv hm
  refine ⟨⟨hrel, ?_⟩, ?_, ?_⟩
  · rw [heq]; exact h.idle
  · rw [heq]; exact update_idem _ _ _
  · rw [heq]; rfl

theorem At.copyBuf {dst src : Fin NBUF} {d s : Nat} (h : At t m M) (hdst : Has t dev d m dst)
    (hsrc : Has t dev s m src) (hsaved : m.unsaved src = false)
    (hm : m.copyBuf t dst src = some m') : At t m' (M.set dev d (M dev s)) ∧ m'.log = m.log := by
  simp only [Bio.copyBuf, bind_eq_bind, bind_eq_some_iff] at hm
  obtain ⟨m1, h1, m2, h2, h3⟩ := hm
  cases hw : (m.modify dst (m.buf src).data).bwrite t dst with
  | error p => rw [hw] at h1; cases h1
  | ok m1' =>
    rw [hw] at h1
    cases h1
    obtain ⟨ha1, hu1, hl1⟩ := h.modify_bwrite hdst hw
    rw [hsrc.data h.rel] at ha1
    have hs1 : m1.unsaved src = false := by
      rw [hu1]
      by_cases hne : src = dst
      · rw [hne]; exact update_self _ _ _
      · rw [update_of_ne hne]; exact hsaved
    obtain ⟨ha2, hu2, hl2⟩ := ha1.brelse hs1 h2
    have hs2 : m2.unsaved dst = false := by
      rw [hu2, hu1]
      exact update_self _ _ _
    obtain ⟨ha3, -, hl3⟩ := ha2.brelse hs2 h3
    exact ⟨ha3, hl3.trans (hl2.trans hl1)⟩

theorem At.breadNow_two {b1 b2 : Fin NBUF} {m1 m2 : Bio} {d s : Nat} (h : At t m M) (hd : dev ≠ 0)
    (h1 : m.breadNow t dev d = some (b1, m1)) (h2 : m1.breadNow t dev s = some (b2, m2)) :
    At t m2 M ∧ Has t dev d m2 b1 ∧ Has t dev s m2 b2 ∧ m2.unsaved b1 = false ∧
      m2.unsaved b2 = false ∧ m2.log = m.log := by
  obtain ⟨ha1, hb1, -, -, hs1, hu1, hl1⟩ := h.breadNow hd h1
  obtain ⟨ha2, hb2, hk2, -, hs2, hu2, hl2⟩ := ha1.breadNow hd h2
  refine ⟨ha2, hb1.keeps hk2, hb2, ?_, ?_, hl2.trans hl1⟩
  · rw [hu2, hu1]; exact hs1
  · rw [hu2]; exact hs2

theorem set_eq_update (M : Flat) (dev blockno : Nat) (x : Block) {v : Nat → Block}
    (hv : v = M dev) : M.set dev blockno x dev = update v blockno x := by
  rw [hv]
  exact update_self _ _ _

theorem At.writeLogFrom (hd : dev ≠ 0) : ∀ {blks : List Nat} {tail : Nat} {m : Bio}
    {M : Flat} {D : Log.Dev}, At t m M → D.view = M dev →
    m.writeLogFrom l t dev tail blks = some m' →
    At t m' (update M dev (Log.writeLogFrom l tail blks D).view) ∧ m'.log = m.log := by
  intro blks
  induction blks with
  | nil =>
    intro tail m M D h hD hm
    cases hm
    rw [Log.writeLogFrom, hD, update_eq_self]
    exact ⟨h, rfl⟩
  | cons blk blks ih =>
    intro tail m M D h hD hm
    simp only [Bio.writeLogFrom, bind_eq_bind, bind_eq_some_iff, Prod.exists] at hm
    obtain ⟨dst, m1, h1, src, m2, h2, m3, h3, h4⟩ := hm
    obtain ⟨ha2, hdst, hsrc, -, hs, hl2⟩ := h.breadNow_two hd h1 h2
    obtain ⟨ha3, hl3⟩ := ha2.copyBuf hdst hsrc hs h3
    have hview : (((D.bread (l.start + tail + 1)).2.bread blk).2.bwrite (l.start + tail + 1)
        ((D.bread (l.start + tail + 1)).2.bread blk).1).view =
        (M.set dev (l.start + tail + 1) (M dev blk)) dev := by
      rw [set_eq_update M dev _ _ hD]
      simp [hD]
    obtain ⟨ha4, hl4⟩ := ih ha3 hview h4
    rw [Flat.set, update_idem] at ha4
    exact ⟨ha4, hl4.trans (hl3.trans hl2)⟩

theorem At.installTransFrom (hd : dev ≠ 0) : ∀ {blks : List Nat} {tail : Nat}
    {m : Bio} {M : Flat} {D : Log.Dev}, At t m M → D.view = M dev →
    m.installTransFrom l t dev tail blks = some m' →
    At t m' (update M dev (Log.installTransFrom l tail blks D).view) ∧ m'.log = m.log := by
  intro blks
  induction blks with
  | nil =>
    intro tail m M D h hD hm
    cases hm
    rw [Log.installTransFrom, hD, update_eq_self]
    exact ⟨h, rfl⟩
  | cons blk blks ih =>
    intro tail m M D h hD hm
    simp only [Bio.installTransFrom, bind_eq_bind, bind_eq_some_iff, Prod.exists] at hm
    obtain ⟨lbuf, m1, h1, dbuf, m2, h2, m3, h3, h4⟩ := hm
    obtain ⟨ha2, hlbuf, hdbuf, hs, -, hl2⟩ := h.breadNow_two hd h1 h2
    obtain ⟨ha3, hl3⟩ := ha2.copyBuf hdbuf hlbuf hs h3
    have hview : (((D.bread (l.start + tail + 1)).2.bread blk).2.bwrite blk
        (D.bread (l.start + tail + 1)).1).view =
        (M.set dev blk (M dev (l.start + tail + 1))) dev := by
      rw [set_eq_update M dev _ _ hD]
      simp [hD]
    obtain ⟨ha4, hl4⟩ := ih ha3 hview h4
    rw [Flat.set, update_idem] at ha4
    exact ⟨ha4, hl4.trans (hl3.trans hl2)⟩

theorem At.writeHead {D : Log.Dev} (hd : dev ≠ 0) (h : At t m M)
    (hD : D.view = M dev) (hm : m.writeHead l t dev = some m') :
    At t m' (update M dev (Log.writeHead l m.log.lh D).view) ∧ m'.log = m.log := by
  simp only [Bio.writeHead, bind_eq_bind, bind_eq_some_iff, Prod.exists] at hm
  obtain ⟨b, m1, h1, m2, h2, h3⟩ := hm
  obtain ⟨ha1, hb1, -, -, -, -, hl1⟩ := h.breadNow hd h1
  cases hw : (m1.modify b (Log.setHead (m1.buf b).data m1.log.lh)).bwrite t b with
  | error p => rw [hw] at h2; cases h2
  | ok m2' =>
    rw [hw] at h2
    cases h2
    obtain ⟨ha2, hu2, hl2⟩ := ha1.modify_bwrite hb1 hw
    have hs2 : m2.unsaved b = false := by
      rw [hu2]
      exact update_self _ _ _
    obtain ⟨ha3, -, hl3⟩ := ha2.brelse hs2 h3
    refine ⟨?_, hl3.trans (hl2.trans hl1)⟩
    rw [hb1.data ha1.rel, hl1, Flat.set] at ha3
    simpa [Log.writeHead, hD] using ha3

theorem At.commit (hd : dev ≠ 0) (h : At t m M) (hm : m.commit l t dev = some m') :
    Rel m' (update M dev (Log.commit l m.log.lh (.boot (M dev))).view) := by
  have hself : ∀ (M : Flat) (v : Nat → Block), v = update M dev v dev := by
    intro M v
    rw [update_self]
  rw [Bio.commit] at hm
  rw [Log.commit]
  split at hm
  · rename_i hn
    rw [if_pos hn]
    simp only [bind_eq_bind, bind_eq_some_iff] at hm
    obtain ⟨m1, h1, m2, h2, m3, h3, h4⟩ := hm
    obtain ⟨ha1, hl1⟩ := h.writeLogFrom hd (D := .boot (M dev)) rfl h1
    obtain ⟨ha2, hl2⟩ := ha1.writeHead hd
      (D := Log.writeLogFrom l 0 m.log.lh.blocks (.boot (M dev))) (hself _ _) h2
    rw [update_idem, hl1] at ha2
    obtain ⟨ha3, hl3⟩ := ha2.installTransFrom hd
      (D := Log.writeHead l m.log.lh (Log.writeLog l m.log.lh (.boot (M dev))))
      (hself _ _) h3
    rw [update_idem, hl2, hl1] at ha3
    have ha3' : At t { m3 with log := { m3.log with lh := .empty } } _ :=
      ⟨⟨ha3.rel.counted.congr rfl rfl fun b => ⟨rfl, rfl, rfl, rfl, id⟩,
        ha3.rel.current.congr rfl rfl (fun b => ⟨rfl, rfl, rfl, rfl, rfl⟩) fun b _ => id⟩, ha3.idle⟩
    obtain ⟨ha4, -⟩ := ha3'.writeHead hd
      (D := Log.installTrans l m.log.lh (Log.writeHead l m.log.lh
        (Log.writeLog l m.log.lh (.boot (M dev)))))
      (hself _ _) h4
    rw [update_idem] at ha4
    exact ha4.rel
  · rename_i hn
    cases hm
    rw [if_neg hn, Log.Dev.boot_view, update_eq_self]
    exact h.rel

theorem Step.flat {e : Event} (hs : Step m e m') (h : Rel m M) :
    ∃ M', FlatStep M e M' ∧ Rel m' M' := by
  cases hs with
  | basic hb => exact hb.flat h
  | commit hp hd hm => exact ⟨_, .commit M _ _ _ _, At.commit hd ⟨h, hp⟩ hm⟩

/-- Any number of threads, in any order: what the machine answers to a sequence of calls, the flat
map answers, from the contents of the disk at boot on. -/
theorem bcache_transparent {d : Flat} {m0 m : Bio} {es : List Event} (h0 : Boot d m0)
    (h : Run Step m0 es m) : ∃ M, Run FlatStep d es M ∧ Rel m M :=
  h.simulate (fun _ _ _ _ hs hr => hs.flat hr) (Rel.boot h0)

theorem bget_ok (hl : m.cache.Linked) (hb : (m.buf b).refcnt = 0) (hd : (m.buf b).dirty = false)
    (t dev blockno : Nat) : ∃ b' m', m.bget t dev blockno = .ok (b', m') := by
  obtain ⟨xs, hring, hall⟩ := hl
  have hlen := Bcache.Linked.length_le hring.nodup
  simp only [Bio.bget, Bcache.bget, hring.seg.search_next hlen, hring.seg.search_prev hlen]
  split
  · exact ⟨_, _, rfl⟩
  · split
    · exact ⟨_, _, rfl⟩
    · rename_i hnone
      have := List.find?_eq_none.mp hnone b (by simpa using hall b)
      simp only [Bool.and_eq_true, beq_iff_eq, Bool.not_eq_true', not_and] at this
      exact absurd hd (this hb)

theorem bread_ok (m : Bio) (t : Nat) (b : Fin NBUF) : ∃ m', m.bread t b = .ok m' := by
  simp only [Bio.bread, iderw]
  split
  · exact ⟨_, rfl⟩
  · rename_i hv
    rw [if_neg (by simp [setPhase, buf, setBuf]), if_neg fun h => hv h.1]
    split
    · exact ⟨_, rfl⟩
    · exact ⟨_, rfl⟩

/-- Just after `binit`, before a disk of zeros. -/
def bootBio : Bio :=
  ⟨Bcache.binit, fun _ _ => Block.zero, ⟨LOGSIZE, 0, false, .empty⟩, fun _ => .idle, fun _ => false⟩

/-- A thread reads block 2 of device 1 and changes it. -/
theorem bcache_transparent_modify : ∃ (m : Bio) (x : Block) (M : Flat),
      Run Step bootBio [.bget 0 1 2, .bread 0 1 2 x, .modify 0 1 2 (x.setWord 0 7)] m ∧
      Run FlatStep bootBio.disk [.bget 0 1 2, .bread 0 1 2 x, .modify 0 1 2 (x.setWord 0 7)] M := by
  have h0 : Boot bootBio.disk bootBio := ⟨rfl, rfl, fun _ => rfl, fun _ => rfl⟩
  have hrel := Rel.boot h0
  obtain ⟨b, m1, h1⟩ := bget_ok (b := 0) hrel.counted.linked rfl rfl 0 1 2
  have hs1 : Basic bootBio (.bget 0 1 2) m1 := .bget rfl (by decide) h1
  have hrel1 := hrel.bget rfl (by decide) h1
  have hfree : (m1.buf b).holder = none := ((hrel.counted.bget_keeps h1).2 b).trans rfl
  have hp : m1.phase 0 = .locking b 1 2 := by
    obtain ⟨c, -, rfl⟩ := bget_inv h1
    exact update_self 0 (Phase.locking b 1 2) bootBio.phase
  obtain ⟨m2, h2⟩ := bread_ok m1 0 b
  have hs2 : Basic m1 (.bread 0 1 2 (m2.buf b).data) m2 := .bread hp hfree h2
  obtain ⟨x, hm2, -⟩ := bread_inv (hrel1.current.dirty b) h2
  have hsame : m2.buf b = { m1.buf b with holder := some 0, valid := true, data := x } := by
    rw [hm2]; exact buf_setBuf_same m1 b _
  have hat := (hrel1.counted.wanted b 0 1 2 hp).2
  have hs3 := Basic.modify (m := m2) (t := 0) (b := b) ((m2.buf b).data.setWord 0 7)
    (by rw [hm2]; exact update_self 0 Phase.idle m1.phase) (by rw [hsame])
  have hdev : (m2.buf b).dev = 1 := by rw [hsame]; exact hat.1
  have hblk : (m2.buf b).blockno = 2 := by rw [hsame]; exact hat.2
  rw [hdev, hblk] at hs3
  have hrun := ((Run.single (Step.basic hs1)).snoc (.basic hs2)).snoc (.basic hs3)
  obtain ⟨M, hM, -⟩ := bcache_transparent h0 hrun
  exact ⟨_, _, M, hrun, hM⟩

end Bio
end Xv6.Buf
