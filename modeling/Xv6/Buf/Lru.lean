import Xv6.Buf.Flat

/-!
# Xv6.Buf.Lru

The order of the buffer list.

`Lru` is the cache with a history: how many results of `bget` for each buffer are not released yet,
and the number of each buffer's last release, 0 for a buffer that was never released. The calls may
come from any number of threads; `log_write` and `commit` change flags and contents in between.
`brelse` moves a buffer to the front when it counts `refcnt` down to 0, so the buffers that nobody
uses are in the order of their last release, whatever stands between them, and the search from the
back finds the oldest.
-/

namespace Xv6.Buf

open Function List

structure Lru where
  cache : Bcache
  out : Fin NBUF → Nat
  clock : Nat
  last : Fin NBUF → Nat

inductive LruEvent where
  | bget (dev blockno : Nat)
  | brelse (b : Fin NBUF)
  | flags

namespace Lru

def buf (s : Lru) (b : Fin NBUF) : Buffer := s.cache.buf b

def Boot (s : Lru) : Prop :=
  s.cache = Bcache.binit ∧ (∀ b, s.out b = 0) ∧ s.clock = 0 ∧ ∀ b, s.last b = 0

/-- The result of a `bget` is released. -/
def brelse (s : Lru) (b : Fin NBUF) : Lru where
  cache := s.cache.unref b
  out := update s.out b (s.out b - 1)
  clock := s.clock + 1
  last := update s.last b (s.clock + 1)

inductive Step : Lru → LruEvent → Lru → Prop where
  | bget {s : Lru} {dev blockno : Nat} {b : Fin NBUF} {cache : Bcache} :
      s.cache.bget dev blockno = .ok (b, cache) →
      Step s (.bget dev blockno) { s with cache, out := update s.out b (s.out b + 1) }
  | brelse {s : Lru} {b : Fin NBUF} : 0 < s.out b → Step s (.brelse b) (s.brelse b)
  | flags {s : Lru} {buf : Fin NBUF → Buffer} :
      (∀ b, (buf b).dev = (s.buf b).dev ∧ (buf b).blockno = (s.buf b).blockno ∧
        (buf b).refcnt = (s.buf b).refcnt) →
      Step s .flags { s with cache := { s.cache with buf } }

/-- `b` was released after `b'`, or `b'` never was. -/
def Later (last : Fin NBUF → Nat) (b b' : Fin NBUF) : Prop := last b' < last b ∨ last b' = 0

def unused (s : Lru) (b : Fin NBUF) : Bool := (s.buf b).refcnt == 0

/-- The list invariant, with the buffers in the order of the list. -/
structure Listed (s : Lru) (xs : List (Fin NBUF)) : Prop where
  ring : s.cache.links.Ring xs
  all : ∀ b, b ∈ xs
  unique : ∀ b b', (s.buf b).dev ≠ 0 → (s.buf b').dev = (s.buf b).dev →
    (s.buf b').blockno = (s.buf b).blockno → b' = b
  count : ∀ b, (s.buf b).refcnt = s.out b
  recent : (xs.filter s.unused).Pairwise (Later s.last)
  past : ∀ b, s.last b ≤ s.clock

variable {s s' : Lru} {xs : List (Fin NBUF)} {b : Fin NBUF} {dev blockno : Nat}

theorem Boot.listed (h : s.Boot) : ∃ xs, s.Listed xs := by
  obtain ⟨hc, ho, ht, hl⟩ := h
  obtain ⟨xs, hring, hall⟩ := Bcache.binit_linked
  have hbuf : ∀ b, s.buf b = ⟨false, false, 0, 0, 0, none, Block.zero⟩ := by
    intro b
    rw [buf, hc]
    rfl
  refine ⟨xs, by rw [hc]; exact hring, hall, ?_, ?_, ?_, ?_⟩
  · intro b b' hdev
    simp [hbuf] at hdev
  · intro b
    rw [hbuf, ho]
  · refine List.Pairwise.imp_of_mem (R := fun _ _ => True) ?_ (pairwise_of_forall fun _ _ =>
      trivial)
    intro b b' _ _ _
    exact .inr (hl b')
  · intro b
    rw [hl, ht]

theorem Listed.recent_mono (h : s.Listed xs) {p : Fin NBUF → Bool}
    (hp : ∀ b, p b = true → s.unused b = true) : (xs.filter p).Pairwise (Later s.last) :=
  h.recent.sublist (monotone_filter_right xs hp)

theorem Listed.bget (h : s.Listed xs) {cache : Bcache}
    (hget : s.cache.bget dev blockno = .ok (b, cache)) :
    Listed { s with cache, out := update s.out b (s.out b + 1) } xs := by
  have hcount := h.count b
  have hother : ∀ {x : Buffer} {b'}, b' ≠ b → (s.cache.set b x).buf b' = s.buf b' := fun hne =>
    Bcache.set_other hne
  have hself : ∀ x : Buffer, (s.cache.set b x).buf b = x := fun x => by simp [Bcache.set]
  -- in both cases only `b` changes, and it is in use afterwards
  have hused : ∀ x : Buffer, x.refcnt = s.out b + 1 →
      (∀ b', ((s.cache.set b x).buf b').refcnt = update s.out b (s.out b + 1) b') ∧
      ∀ b', (((s.cache.set b x).buf b').refcnt == 0) = true → s.unused b' = true := by
    intro x hx
    constructor
    · intro b'
      by_cases hb : b' = b
      · subst hb
        rw [hself, update_self, hx]
      · rw [hother hb, update_of_ne hb]
        exact h.count b'
    · intro b' hz
      by_cases hb : b' = b
      · subst hb
        rw [hself, hx] at hz
        simp at hz
      · rwa [hother hb] at hz
  rcases Bcache.bget_cases ⟨xs, h.ring, h.all⟩ hget with ⟨hdev, hblock, rfl⟩ | ⟨hmiss, hzero, -,
    rfl⟩
  · obtain ⟨hc, hz⟩ := hused { s.cache.buf b with refcnt := (s.cache.buf b).refcnt + 1 }
      (congrArg (· + 1) hcount)
    have hid : ∀ b', ((s.cache.set b { s.cache.buf b with
        refcnt := (s.cache.buf b).refcnt + 1 }).buf b').dev = (s.buf b').dev ∧
        ((s.cache.set b { s.cache.buf b with
          refcnt := (s.cache.buf b).refcnt + 1 }).buf b').blockno = (s.buf b').blockno := by
      intro b'
      by_cases hb : b' = b
      · subst hb
        rw [hself]
        exact ⟨rfl, rfl⟩
      · rw [hother hb]
        exact ⟨rfl, rfl⟩
    refine ⟨h.ring, h.all, fun b1 b2 h1 h2 h3 => ?_, hc, h.recent_mono hz, h.past⟩
    simp only [buf, (hid b1).1, (hid b2).1, (hid b1).2, (hid b2).2] at h1 h2 h3
    exact h.unique b1 b2 h1 h2 h3
  · obtain ⟨hc, hz⟩ := hused { s.cache.buf b with
      dev, blockno, valid := false, dirty := false, refcnt := 1 } (by rw [← hcount]; simp only
        [buf, hzero])
    refine ⟨h.ring, h.all, fun b1 b2 h1 h2 h3 => ?_, hc, h.recent_mono hz, h.past⟩
    -- nobody had the block, so the new owner of the number is alone
    simp only [buf] at h1 h2 h3
    by_cases hb1 : b1 = b
    · by_cases hb2 : b2 = b
      · rw [hb1, hb2]
      · rw [hb1, hself, hother hb2] at h2 h3
        exact absurd ⟨h2, h3⟩ (hmiss b2)
    · by_cases hb2 : b2 = b
      · rw [hb2, hself, hother hb1] at h2 h3
        exact absurd ⟨h2.symm, h3.symm⟩ (hmiss b1)
      · rw [hother hb1, hother hb2] at h2 h3
        rw [hother hb1] at h1
        exact h.unique b1 b2 h1 h2 h3

theorem brelse_buf (s : Lru) (b : Fin NBUF) : (s.brelse b).cache.buf =
    update s.cache.buf b { s.cache.buf b with refcnt := (s.cache.buf b).refcnt - 1 } :=
  Bcache.unref_buf s.cache b

theorem brelse_unused (hne : b' ≠ b) : (s.brelse b).unused b' = s.unused b' := by
  rw [unused, buf, brelse_buf, update_of_ne hne]
  rfl

theorem brelse_self (s : Lru) (b : Fin NBUF) : (s.brelse b).buf b =
    { s.cache.buf b with refcnt := (s.cache.buf b).refcnt - 1 } := by
  rw [buf, brelse_buf s b, update_self]

theorem brelse_other {b b' : Fin NBUF} (hb : b' ≠ b) : (s.brelse b).buf b' = s.buf b' := by
  rw [buf, brelse_buf s b, update_of_ne hb]
  rfl

theorem brelse_id (s : Lru) (b b' : Fin NBUF) : ((s.brelse b).buf b').dev = (s.buf b').dev ∧
    ((s.brelse b).buf b').blockno = (s.buf b').blockno := by
  by_cases hb : b' = b
  · subst hb
    rw [brelse_self]
    exact ⟨rfl, rfl⟩
  · rw [brelse_other hb]
    exact ⟨rfl, rfl⟩

theorem Listed.brelse_count (h : s.Listed xs) (b b' : Fin NBUF) :
    ((s.brelse b).buf b').refcnt = (s.brelse b).out b' := by
  simp only [Lru.brelse]
  by_cases hb : b' = b
  · subst hb
    rw [update_self, ← h.count b']
    exact congrArg Buffer.refcnt (brelse_self s b')
  · rw [update_of_ne hb]
    exact (congrArg Buffer.refcnt (brelse_other hb)).trans (h.count b')

theorem Listed.brelse_past (h : s.Listed xs) (b b' : Fin NBUF) :
    (s.brelse b).last b' ≤ (s.brelse b).clock := by
  simp only [Lru.brelse]
  by_cases hb : b' = b
  · subst hb
    rw [update_self]
  · rw [update_of_ne hb]
    exact Nat.le_succ_of_le (h.past b')

theorem Listed.brelse_recent (h : s.Listed xs) {b : Fin NBUF} {ys : List (Fin NBUF)}
    (hsub : ys.Sublist xs) (hb : b ∉ ys) :
    (ys.filter (s.brelse b).unused).Pairwise (Later (s.brelse b).last) := by
  have heq : ys.filter (s.brelse b).unused = ys.filter s.unused :=
    filter_congr fun x hx => brelse_unused fun heq => hb (heq ▸ hx)
  rw [heq]
  refine (h.recent.sublist (hsub.filter _)).imp_of_mem ?_
  intro x y hx hy hxy
  have hxb : x ≠ b := fun heq => hb (heq ▸ (mem_filter.mp hx).1)
  have hyb : y ≠ b := fun heq => hb (heq ▸ (mem_filter.mp hy).1)
  simpa [Later, Lru.brelse, hxb, hyb] using hxy

theorem Listed.brelse_links (h : s.Listed xs) (b : Fin NBUF) :
    (s.brelse b).cache.links = if s.out b - 1 = 0 then (s.cache.links.unlink b).pushFront b
      else s.cache.links := by
  rw [← h.count b]
  simp only [Lru.brelse, Bcache.unref, Bcache.set, update_self, buf]
  exact apply_ite Bcache.links _ _ _

theorem Listed.brelse (h : s.Listed xs) (b : Fin NBUF) : ∃ ys, (s.brelse b).Listed ys := by
  have hunique : ∀ b1 b2, ((s.brelse b).buf b1).dev ≠ 0 →
      ((s.brelse b).buf b2).dev = ((s.brelse b).buf b1).dev →
      ((s.brelse b).buf b2).blockno = ((s.brelse b).buf b1).blockno → b2 = b1 := by
    intro b1 b2 h1 h2 h3
    rw [(brelse_id s b b1).1] at h1 h2
    rw [(brelse_id s b b2).1] at h2
    rw [(brelse_id s b b1).2, (brelse_id s b b2).2] at h3
    exact h.unique b1 b2 h1 h2 h3
  have hlinks := h.brelse_links b
  have herase : b ∉ xs.erase b := h.ring.nodup.not_mem_erase
  have hkeep := h.brelse_recent erase_sublist herase
  by_cases hzero : s.out b - 1 = 0
  · rw [if_pos hzero] at hlinks
    refine ⟨b :: xs.erase b, ?_, ?_, hunique, h.brelse_count b, ?_, h.brelse_past b⟩
    · rw [hlinks]
      exact (h.ring.unlink (h.all b)).pushFront herase
    · intro b'
      by_cases hb : b' = b
      · simp [hb]
      · simp [mem_erase_of_ne hb, h.all b']
    · have htop : (s.brelse b).unused b = true := by
        rw [unused, h.brelse_count b]
        simp [Lru.brelse, hzero]
      rw [filter_cons_of_pos htop, pairwise_cons]
      refine ⟨fun x hx => .inl ?_, hkeep⟩
      have hxb : x ≠ b := fun heq => herase (heq ▸ (mem_filter.mp hx).1)
      simp only [Lru.brelse, update_self, update_of_ne hxb]
      exact Nat.lt_succ_of_le (h.past x)
  · rw [if_neg hzero] at hlinks
    refine ⟨xs, by rw [hlinks]; exact h.ring, h.all, hunique, h.brelse_count b, ?_, h.brelse_past b⟩
    -- `b` is still in use, so it is not among the ordered ones
    have hstill : (s.brelse b).unused b = false := by
      rw [unused, h.brelse_count b]
      simp [Lru.brelse, hzero]
    have hdrop : xs.filter (s.brelse b).unused = (xs.erase b).filter (s.brelse b).unused := by
      rw [h.ring.nodup.erase_eq_filter, filter_filter]
      refine filter_congr fun x _ => ?_
      by_cases hx : x = b
      · subst hx
        simp [hstill]
      · simp [hx]
    rw [hdrop]
    exact hkeep

theorem Listed.step {e : LruEvent} (h : s.Listed xs) (hs : Step s e s') : ∃ ys, s'.Listed ys := by
  cases hs with
  | bget hget => exact ⟨xs, h.bget hget⟩
  | brelse _ => exact h.brelse _
  | @flags f hf =>
    refine ⟨xs, h.ring, h.all, ?_, ?_, ?_, h.past⟩
    · intro b b' h1 h2 h3
      simp only [buf, (hf b).1, (hf b').1, (hf b).2.1, (hf b').2.1] at h1 h2 h3
      exact h.unique b b' h1 h2 h3
    · intro b
      exact (hf b).2.2.trans (h.count b)
    · refine h.recent_mono fun b hb => ?_
      rwa [unused, buf, (hf b).2.2] at hb

theorem reach_listed (h : Reach Boot Step s) : ∃ xs, s.Listed xs :=
  h.invariant (P := fun s => ∃ xs, s.Listed xs) (fun _ => Boot.listed)
    fun _ _ _ ⟨_, hxs⟩ hs => hxs.step hs

theorem Listed.bget_miss (h : s.Listed xs) {cache : Bcache}
    (hget : s.cache.bget dev blockno = .ok (b, cache))
    (hmiss : ∀ b', ¬ ((s.buf b').dev = dev ∧ (s.buf b').blockno = blockno)) :
    xs.reverse.find? (fun b => (s.buf b).refcnt == 0 && !(s.buf b).dirty) = some b := by
  have hlen := Bcache.Linked.length_le h.ring.nodup
  have hnone : xs.find? (fun b => (s.cache.buf b).dev == dev &&
    (s.cache.buf b).blockno == blockno) =
      none := by
    rw [List.find?_eq_none]
    intro b' _ hb'
    simp only [Bool.and_eq_true, beq_iff_eq] at hb'
    exact hmiss b' hb'
  simp only [Bcache.bget, h.ring.seg.search_next hlen, h.ring.seg.search_prev hlen, hnone] at hget
  split at hget
  · rename_i b0 hfound
    cases hget
    exact hfound
  · cases hget

theorem find?_reverse_oldest {p q : Fin NBUF → Bool} {R : Fin NBUF → Fin NBUF → Prop}
    (hpq : ∀ x, p x = true → q x = true) (hR : (xs.filter q).Pairwise R)
    (hfind : xs.reverse.find? p = some b) {y : Fin NBUF} (hy : y ∈ xs) (hpy : p y = true) :
    y = b ∨ R y b := by
  induction xs with
  | nil => simp at hy
  | cons x xs ih =>
    rw [reverse_cons, List.find?_append] at hfind
    cases hrest : xs.reverse.find? p with
    | none =>
      -- nothing behind `x` qualifies, so both are `x`
      have hnone : ∀ z ∈ xs, p z ≠ true := by
        intro z hz
        exact List.find?_eq_none.mp hrest z (mem_reverse.mpr hz)
      rw [hrest, Option.none_or] at hfind
      have hbx : b = x := mem_singleton.mp (mem_of_find?_eq_some hfind)
      rcases mem_cons.mp hy with rfl | hy
      · exact .inl hbx.symm
      · exact absurd hpy (hnone y hy)
    | some z =>
      rw [hrest, Option.some_or] at hfind
      obtain rfl := Option.some.inj hfind
      have hzxs : z ∈ xs := mem_reverse.mp (mem_of_find?_eq_some hrest)
      have hz : z ∈ xs.filter q := mem_filter.mpr ⟨hzxs, hpq z (List.find?_some hrest)⟩
      rcases mem_cons.mp hy with rfl | hy
      · rw [filter_cons_of_pos (hpq y hpy), pairwise_cons] at hR
        exact .inr (hR.1 z hz)
      · refine ih ?_ hrest hy
        rw [filter_cons] at hR
        split at hR
        · exact (pairwise_cons.mp hR).2
        · exact hR

/-- What holds of the list after any calls, for the order `xs` of its buffers. -/
structure Ordered (s : Lru) (xs : List (Fin NBUF)) : Prop where
  ring : s.cache.links.Ring xs ∧ ∀ b, b ∈ xs
  inverse : ∀ q, s.cache.links.prev (s.cache.links.next q) = q ∧
    s.cache.links.next (s.cache.links.prev q) = q
  unique : ∀ b b', (s.buf b).dev ≠ 0 → (s.buf b').dev = (s.buf b).dev →
    (s.buf b').blockno = (s.buf b).blockno → b' = b
  count : ∀ b, (s.buf b).refcnt = s.out b
  recent : (xs.filter s.unused).Pairwise (Later s.last)
  recycles : ∀ dev blockno b cache, s.cache.bget dev blockno = .ok (b, cache) →
    (∀ b', ¬ ((s.buf b').dev = dev ∧ (s.buf b').blockno = blockno)) →
    (s.buf b).refcnt = 0 ∧ (s.buf b).dirty = false ∧
      ∀ b', (s.buf b').refcnt = 0 → (s.buf b').dirty = false → s.last b ≤ s.last b'

/-- After `binit` and any calls: the list is intact, no block has two buffers, `refcnt` counts the
results that are not released, the unused buffers are in the order of their release, and a miss
recycles the clean one that was released longest ago. -/
theorem buffer_list (h : Reach Boot Step s) : ∃ xs, s.Ordered xs := by
  obtain ⟨xs, hxs⟩ := reach_listed h
  refine ⟨xs, ⟨hxs.ring, hxs.all⟩, hxs.ring.inverse hxs.all, hxs.unique, hxs.count, hxs.recent, ?_⟩
  intro dev blockno b cache hget hmiss
  have hfind := hxs.bget_miss hget hmiss
  have hb := List.find?_some hfind
  simp only [Bool.and_eq_true, beq_iff_eq, Bool.not_eq_true'] at hb
  refine ⟨hb.1, hb.2, fun b' hz hd => ?_⟩
  have hold := find?_reverse_oldest (q := s.unused) (y := b') ?_ hxs.recent hfind (hxs.all b') ?_
  · rcases hold with rfl | hlt | h0
    · exact Nat.le_refl _
    · exact Nat.le_of_lt hlt
    · rw [h0]
      exact Nat.zero_le _
  · intro x hx
    exact (Bool.and_eq_true _ _ ▸ hx).1
  · simp [hz, hd]

def fresh : Lru := ⟨Bcache.binit, fun _ => 0, 0, fun _ => 0⟩

/-- Block 5 of device 1 is read and released: its buffer is in front. -/
theorem buffer_list_released :
    ∃ s, Reach Boot Step s ∧ s.cache.links.next none = some 0 ∧ s.last 0 = 1 ∧
      ∃ xs, s.Ordered xs := by
  have h0 : Reach Boot Step fresh := .start ⟨rfl, fun _ => rfl, rfl, fun _ => rfl⟩
  have h1 := h0.step (@Step.bget fresh 1 5 0 _ rfl)
  have h2 := h1.step (.brelse (b := 0) (by decide))
  exact ⟨_, h2, by decide +kernel, rfl, buffer_list h2⟩

end Lru
end Xv6.Buf
