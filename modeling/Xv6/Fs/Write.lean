import Xv6.Fs.Bmap

/-!
# Xv6.Fs.Write

The loop of `writei`.

`Vol.Wrote v w i lo hi data` says that `w` is `v` after the bytes `lo..hi-1` of file `i` were set to
`data` and blocks were allocated for them: all other bytes of all files are as before. One turn of
the loop has this effect on the bytes of one block (`writeStep_ends`), the effects of adjacent
ranges compose (`Wrote.trans`), and `writeLoop_ends` is the induction over the turns.
-/

namespace Xv6.Fs

open Function

open Log (Room)

variable {a b m off size : Nat} {src : Nat → UInt8}

namespace Vol

variable {sb : Superblock} {v w x : Vol} {i : Nat}

theorem blocksOf_mono (h : a ≤ b) : blocksOf a ≤ blocksOf b :=
  Nat.div_le_div_right (by omega)

theorem blocksOf_max (a b : Nat) : blocksOf (max a b) = max (blocksOf a) (blocksOf b) := by
  rcases Nat.le_total a b with h | h
  · rw [Nat.max_eq_right h, Nat.max_eq_right (blocksOf_mono h)]
  · rw [Nat.max_eq_left h, Nat.max_eq_left (blocksOf_mono h)]

theorem div_le_blocksOf (a : Nat) : a / BSIZE ≤ blocksOf a :=
  Nat.div_le_div_right (by omega)

theorem div_lt_blocksOf (h : a < b) : a / BSIZE < blocksOf b := by
  simp only [blocksOf, BSIZE]
  omega

theorem blocksOf_add (h1 : 0 < m) (h2 : m ≤ BSIZE - off % BSIZE) :
    blocksOf (off + m) = off / BSIZE + 1 := by
  simp only [blocksOf, BSIZE] at *
  omega

theorem blocksOf_le_maxfile (h : a ≤ MAXFILE * BSIZE) : blocksOf a ≤ MAXFILE := by
  simp only [blocksOf, MAXFILE, NDIRECT, NINDIRECT, BSIZE] at *
  omega

/-- The number of blocks of a file that the bytes `off..hi-1` lie in. -/
def spanned (off hi : Nat) : Nat := if off < hi then blocksOf hi - off / BSIZE else 0

theorem spanned_add {hi : Nat} (hm : m = min (hi - off) (BSIZE - off % BSIZE)) :
    spanned (off + m) hi ≤ blocksOf hi - (off / BSIZE + 1) := by
  simp only [spanned]
  split
  · -- the range goes on in the next block
    have : (off + m) / BSIZE = off / BSIZE + 1 := by
      simp only [BSIZE] at *
      omega
    rw [this]
  · exact Nat.zero_le _

structure Wrote (sb : Superblock) (v w : Vol) (i lo hi : Nat) (data : Nat → UInt8) : Prop where
  dino : ∀ j, { w.dino j with addrs := (v.dino j).addrs } = v.dino j
  other : ∀ j, j ≠ i → w.dino j = v.dino j
  addrOf : ∀ j bn, v.Live sb j → v.addrOf j bn ≠ 0 → w.addrOf j bn = v.addrOf j bn
  maps : ∀ j c, v.Live sb j → j ≠ i → v.Maps j c → w.Maps j c
  fbyte : ∀ j k, v.Live sb j → v.addrOf j (k / BSIZE) ≠ 0 ∨ (j = i ∧ lo ≤ k ∧ k < hi) →
    w.fbyte j k = if j = i ∧ lo ≤ k ∧ k < hi then data k else v.fbyte j k

namespace Wrote

variable {lo mid hi : Nat} {data : Nat → UInt8}

theorem refl (v : Vol) (i lo : Nat) (data : Nat → UInt8) : Wrote sb v v i lo lo data where
  dino := fun _ => rfl
  other := fun _ _ => rfl
  addrOf := fun _ _ _ _ => rfl
  maps := fun _ _ _ _ h => h
  fbyte := by
    intro j k _ _
    rw [if_neg (by omega)]

theorem live_iff (h : Wrote sb v w i lo hi data) (j : Nat) : w.Live sb j ↔ v.Live sb j := by
  have : (w.dino j).type = (v.dino j).type := by rw [← h.dino j]
  simp [Live, this]

theorem size_eq (h : Wrote sb v w i lo hi data) (j : Nat) : (w.dino j).size = (v.dino j).size := by
  rw [← h.dino j]

theorem mapped (h : Wrote sb v w i lo hi data) {j bn : Nat} (hj : v.Live sb j)
    (hbn : v.addrOf j bn ≠ 0) : w.addrOf j bn ≠ 0 := h.addrOf j bn hj hbn ▸ hbn

theorem congr {data' : Nat → UInt8} (h : Wrote sb v w i lo hi data)
    (hdata : ∀ k, lo ≤ k → k < hi → data k = data' k) : Wrote sb v w i lo hi data' where
  dino := h.dino
  other := h.other
  addrOf := h.addrOf
  maps := h.maps
  fbyte := by
    intro j k hj hk
    rw [h.fbyte j k hj hk]
    split
    · rename_i hc
      exact hdata k hc.2.1 hc.2.2
    · rfl

theorem trans (h : Wrote sb v w i lo mid data) (h' : Wrote sb w x i mid hi data) (h1 : lo ≤ mid)
    (h2 : mid ≤ hi) (hmap : ∀ k, lo ≤ k → k < mid → w.addrOf i (k / BSIZE) ≠ 0) :
    Wrote sb v x i lo hi data where
  dino := by
    intro j
    have e := h.dino j
    rw [← h'.dino j] at e
    exact e
  other := fun j hj => (h'.other j hj).trans (h.other j hj)
  addrOf := fun j bn hj hbn =>
    (h'.addrOf j bn ((h.live_iff j).mpr hj) (h.mapped hj hbn)).trans (h.addrOf j bn hj hbn)
  maps := fun j c hj hji hm => h'.maps j c ((h.live_iff j).mpr hj) hji (h.maps j c hj hji hm)
  fbyte := by
    intro j k hj hk
    have hj' := (h.live_iff j).mpr hj
    by_cases hlow : j = i ∧ lo ≤ k ∧ k < mid
    · obtain ⟨rfl, hlo, hmid⟩ := hlow
      rw [h'.fbyte j k hj' (.inl (hmap k hlo hmid)), if_neg (by omega),
        h.fbyte j k hj (.inr ⟨rfl, hlo, hmid⟩), if_pos ⟨rfl, hlo, hmid⟩,
        if_pos ⟨rfl, hlo, by omega⟩]
    · by_cases hhigh : j = i ∧ mid ≤ k ∧ k < hi
      · rw [h'.fbyte j k hj' (.inr hhigh), if_pos hhigh, if_pos ⟨hhigh.1, by omega, hhigh.2.2⟩]
      · have hout : ¬ (j = i ∧ lo ≤ k ∧ k < hi) := by omega
        have hold := hk.resolve_right hout
        rw [h'.fbyte j k hj' (.inl (h.mapped hj hold)), if_neg hhigh,
          h.fbyte j k hj (.inl hold), if_neg hlow, if_neg hout]

end Wrote

theorem Ext.wrote (e : Ext sb v w i) (hrefs : w.Refs sb)
    (hl : v.Live sb i) (hne : w.addrOf i (off / BSIZE) ≠ 0) (hm : m ≤ BSIZE - off % BSIZE) :
    Wrote sb v (w.setBlk (w.addrOf i (off / BSIZE))
      ((w.blk (w.addrOf i (off / BSIZE))).patch (off % BSIZE) m src)) i off (off + m)
      fun k => src (k - off) := by
  have hl' := (e.live_iff i).mpr hl
  have haddr := fun {j : Nat} (hj : w.Live sb j) bn => addrOf_data hrefs hl' hne
    (x := (w.blk (w.addrOf i (off / BSIZE))).patch (off % BSIZE) m src) hj bn
  have hfit : off % BSIZE + m ≤ BSIZE := by simp only [BSIZE] at *; omega
  refine ⟨e.dino, e.other, ?_, ?_, ?_⟩
  · intro j bn hj hbn
    rw [haddr ((e.live_iff j).mpr hj), e.addrOf j bn hj hbn]
  · intro j c hj hji hmaps bn
    rw [haddr ((e.live_iff j).mpr hj)]
    exact e.maps j c hj hji hmaps bn
  · intro j k hj hk
    have hj' := (e.live_iff j).mpr hj
    rw [Vol.fbyte, haddr hj', setBlk_blk]
    by_cases hhit : j = i ∧ k / BSIZE = off / BSIZE
    · -- the written block: inside or outside the range
      obtain ⟨rfl, hblk⟩ := hhit
      rw [hblk, update_self, Block.byte_patch hfit]
      by_cases hin : off ≤ k ∧ k < off + m
      · have hin' : off % BSIZE ≤ k % BSIZE ∧ k % BSIZE < off % BSIZE + m := by
          simp only [BSIZE] at *; omega
        rw [Bytes.patch_in hin'.1 hin'.2, if_pos ⟨rfl, hin⟩]
        congr 1
        simp only [BSIZE] at *
        omega
      · have hout : k % BSIZE < off % BSIZE ∨ off % BSIZE + m ≤ k % BSIZE := by
          simp only [BSIZE] at *; omega
        have hold := hk.resolve_right (fun hc => hin hc.2)
        rw [Bytes.patch_out hout, if_neg (fun hc => hin hc.2), ← e.fbyte_eq hj hold, Vol.fbyte,
          hblk]
    · have hout : ¬ (j = i ∧ off ≤ k ∧ k < off + m) := by
        rintro ⟨rfl, hc⟩
        apply hhit
        refine ⟨rfl, ?_⟩
        simp only [BSIZE] at *
        omega
      have hold := hk.resolve_right hout
      have hother : w.addrOf j (k / BSIZE) ≠ w.addrOf i (off / BSIZE) :=
        fun heq => hhit (hrefs.addrOf_inj hl' hj' hne heq)
      rw [update_of_ne hother, if_neg hout, ← e.fbyte_eq hj hold, Vol.fbyte]

end Vol

variable {sb : Superblock} {P F : Prop} {s : FS} {ip : Fin NINODE} {R : Finset Nat}

/-- The state at the head of the loop: the file had `size` bytes at the start, the next byte to
write is `off` and the last one `hi - 1`; `x` free blocks will be left. -/
structure Writing (sb : Superblock) (P F : Prop) (s : FS) (ip : Fin NINODE) (R : Finset Nat)
    (size off hi x : Nat) : Prop where
  refs : (s.vol sb ip).Refs sb
  live : (s.vol sb ip).Live sb (s.icache ip).inum
  maps : (s.vol sb ip).Maps (s.icache ip).inum (Vol.blocksOf (max size off))
  bitmap : sb.bitmap ⊆ R
  ind : (s.vol sb ip).ind (s.icache ip).inum ≠ 0 → (s.vol sb ip).ind (s.icache ip).inum ∈ R
  has : Has sb P F s R
    (Vol.spanned off hi + (s.vol sb ip).lack (s.icache ip).inum (Vol.blocksOf hi - 1))
    (Vol.blocksOf hi - Vol.blocksOf (max size off) +
      (s.vol sb ip).lack (s.icache ip).inum (Vol.blocksOf hi - 1) + x)

theorem Vol.lack_mono {v : Vol} {i : Nat} (h : a ≤ b) : v.lack i a ≤ v.lack i b := by
  simp only [lack]
  split
  · rename_i hc
    rw [if_pos ⟨hc.1.trans h, hc.2⟩]
  · exact Nat.zero_le _

theorem Vol.lack_add {v w : Vol} {i bn : Nat} (h : NDIRECT ≤ bn ∨ v.ind i ≠ 0 → w.ind i ≠ 0)
    (hb : bn ≤ b) : w.lack i b + v.lack i bn ≤ v.lack i b := by
  by_cases hc : NDIRECT ≤ bn ∨ v.ind i ≠ 0
  · have : w.lack i b = 0 := if_neg fun hw => h hc hw.2
    rw [this, Nat.zero_add]
    exact lack_mono hb
  · have hv : v.ind i = 0 := by
      by_contra hne
      exact hc (.inr hne)
    have : v.lack i bn = 0 := if_neg fun hw => hc (.inl hw.1)
    rw [this]
    simp only [lack, hv, and_true, Nat.add_zero]
    split
    · rename_i hw
      rw [if_pos hw.1]
    · exact Nat.zero_le _

/-- `w` is what the `log_write` of a file's data block leaves. -/
structure DataWritten (sb : Superblock) (ip : Fin NINODE) (s s1 s2 : FS) (off m c : Nat)
    (src : Nat → UInt8) : Prop where
  refs : (s2.vol sb ip).Refs sb
  maps : (s2.vol sb ip).Maps (s.icache ip).inum (max c (off / BSIZE + 1))
  wrote : Vol.Wrote sb (s.vol sb ip) (s2.vol sb ip) (s.icache ip).inum off (off + m)
    fun k => src (k - off)
  frame : Frame sb ip s s2
  ind : (s2.vol sb ip).ind (s.icache ip).inum = (s1.vol sb ip).ind (s.icache ip).inum
  bit : (volOf sb s2.disk).bit = (volOf sb s1.disk).bit
  logged : (s2.vol sb ip).addrOf (s.icache ip).inum (off / BSIZE) ∈ s2.log.lh.blocks

theorem Mapped.write {s1 : FS} {c : Nat}
    (h : Mapped sb ip s (off / BSIZE) c a s1) (hl : (s.vol sb ip).Live sb (s.icache ip).inum)
    (hfit : m ≤ BSIZE - off % BSIZE) {g : Log.LogSt} (hlog : a :: s1.log.lh.blocks ⊆ g.lh.blocks) :
    DataWritten sb ip s s1
      { s1 with disk := update s1.disk a ((s1.disk a).patch (off % BSIZE) m src), log := g }
      off m c src := by
  have hl1 := (h.ext.live_iff _).mpr hl
  have haddr := h.addr
  have hne : (s1.vol sb ip).addrOf (s.icache ip).inum (off / BSIZE) ≠ 0 := haddr ▸ h.ne
  obtain ⟨p, -, hrefers⟩ := Vol.refers_addrOf hl1 hne
  have hdata : sb.dataStart ≤ a := haddr ▸ (h.refs.data _ _ hrefers).1
  have hdisk : s1.disk a = (s1.vol sb ip).blk a := by simp [volOf, hdata]
  generalize hx : (s1.disk a).patch (off % BSIZE) m src = x
  generalize hs2 : ({ s1 with disk := update s1.disk a x, log := g } : FS) = s2
  have hd : volOf sb s2.disk =
      { volOf sb s1.disk with blk := update (volOf sb s1.disk).blk a x } := by
    rw [← hs2]; exact volOf_data hdata x
  have hic : s2.icache = s1.icache := by rw [← hs2]
  have hlog2 : a :: s1.log.lh.blocks ⊆ s2.log.lh.blocks := by rw [← hs2]; exact hlog
  have hvol : s2.vol sb ip = (s1.vol sb ip).setBlk a x := by
    rw [vol_eq hic hd]
    rfl
  have hwrote : Vol.Wrote sb (s.vol sb ip) ((s1.vol sb ip).setBlk a x) (s.icache ip).inum off
      (off + m) fun k => src (k - off) := by
    rw [← hx, hdisk, ← haddr]
    exact h.ext.wrote h.refs hl hne hfit
  subst haddr
  have hframe : Frame sb ip s1 s2 := .of_icache hic (by rw [hd]) (List.cons_subset.mp hlog2).2
  refine ⟨?_, ?_, hvol ▸ hwrote, h.frame.trans hframe, ?_, by rw [hd], ?_⟩
  · rw [hvol]
    exact Vol.refs_data h.refs hl1 hne
  · intro bn
    rw [hvol, Vol.addrOf_data h.refs hl1 hne hl1]
    exact h.maps bn
  · rw [hvol]
    exact Vol.refAt_data h.refs hl1 hne hl1 .indirect
  · rw [hvol, Vol.addrOf_data h.refs hl1 hne hl1]
    exact (List.cons_subset.mp hlog2).1

theorem Writing.split {hi x : Nat} (h : Writing sb P F s ip R size off hi x) (hlt : off < hi)
    {c' : Nat} (hc' : c' = max (Vol.blocksOf (max size off)) (off / BSIZE + 1)) :
    ∃ k f, Has sb P F s R (k + 1 + (s.vol sb ip).lack (s.icache ip).inum (off / BSIZE))
      (f + if off / BSIZE < Vol.blocksOf (max size off) then 0
        else 1 + (s.vol sb ip).lack (s.icache ip).inum (off / BSIZE)) ∧
      ∀ l, l + (s.vol sb ip).lack (s.icache ip).inum (off / BSIZE) ≤
          (s.vol sb ip).lack (s.icache ip).inum (Vol.blocksOf hi - 1) →
        Vol.blocksOf hi - (off / BSIZE + 1) + l ≤ k ∧ Vol.blocksOf hi - c' + l + x ≤ f := by
  have hbn : off / BSIZE < Vol.blocksOf hi := Vol.div_lt_blocksOf hlt
  have hlack : (s.vol sb ip).lack (s.icache ip).inum (off / BSIZE) ≤
      (s.vol sb ip).lack (s.icache ip).inum (Vol.blocksOf hi - 1) :=
    Vol.lack_mono (by omega)
  obtain ⟨l0, hl0⟩ := Nat.exists_eq_add_of_le hlack
  have hspan : Vol.spanned off hi = Vol.blocksOf hi - off / BSIZE := if_pos hlt
  refine ⟨Vol.blocksOf hi - (off / BSIZE + 1) + l0, Vol.blocksOf hi - c' + l0 + x,
    h.has.mono (le_refl R) (by omega) ?_, fun l hl => by omega⟩
  split <;> omega

theorem writeStep_ends {hi x : Nat} (src : Nat → UInt8)
    (h : Writing sb P F s ip R size off hi x) (hlt : off < hi) (hmax : hi ≤ MAXFILE * BSIZE)
    (hm : m = min (hi - off) (BSIZE - off % BSIZE)) :
    Ends (bmap sb s ip (off / BSIZE)) (Stops P F) fun r =>
      Ends (r.2.logWrite r.1 ((r.2.disk r.1).patch (off % BSIZE) m src)) (Stops P F) fun s' =>
        (∃ R', R ⊆ R' ∧ Writing sb P F s' ip R' size (off + m) hi x) ∧ Frame sb ip s s' ∧
          ((s.vol sb ip).ind (s.icache ip).inum ≠ 0 →
            (s'.vol sb ip).ind (s.icache ip).inum ≠ 0) ∧
          Vol.Wrote sb (s.vol sb ip) (s'.vol sb ip) (s.icache ip).inum off (off + m)
            (fun k => src (k - off)) ∧
          (s'.vol sb ip).addrOf (s.icache ip).inum (off / BSIZE) ∈ s'.log.lh.blocks ∧
          (off + m ≤ size → s'.icache = s.icache) := by
  have hpos : 0 < m := by simp only [BSIZE] at hm; omega
  have hfit : m ≤ BSIZE - off % BSIZE := by omega
  have hbn : off / BSIZE < Vol.blocksOf hi := Vol.div_lt_blocksOf hlt
  have hbnc : off / BSIZE ≤ Vol.blocksOf (max size off) :=
    (Vol.div_le_blocksOf off).trans (Vol.blocksOf_mono (Nat.le_max_right size off))
  have hblocks : Vol.blocksOf (off + m) = off / BSIZE + 1 := Vol.blocksOf_add hpos hfit
  have hmaxbn : off / BSIZE < MAXFILE := hbn.trans_le (Vol.blocksOf_le_maxfile hmax)
  have hcnext : Vol.blocksOf (max size (off + m)) =
      max (Vol.blocksOf (max size off)) (off / BSIZE + 1) := by
    rw [← hblocks, ← Vol.blocksOf_max]
    congr 1
    omega
  obtain ⟨k, f, hhas, hnext⟩ := h.split hlt hcnext
  refine (bmap_ends h.refs h.live h.maps hbnc hmaxbn h.bitmap h.ind hhas).imp ?_
  rintro ⟨a, s1⟩ ⟨hmap, hind, ⟨R', hRR', hindR', hroom⟩, hfree⟩
  dsimp only at hmap hind hindR' hroom hfree ⊢
  refine (logWrite_ends _ hroom).imp ?_
  rintro _ ⟨g, rfl, hroom', hlog⟩
  have hw : DataWritten sb ip s s1 _ off m _ src := hmap.write h.live hfit hlog
  have hinum := hw.frame.inum
  obtain ⟨hk, hf⟩ := hnext _ (Vol.lack_add (hw.ind ▸ hind) (Nat.le_sub_one_of_lt hbn))
  refine ⟨⟨R', hRR', ?_⟩, hw.frame, fun h0 => hw.ind ▸ hind (.inr h0), hw.wrote, hw.logged, ?_⟩
  · refine ⟨hw.refs, ?_, ?_, h.bitmap.trans hRR', ?_, ⟨fun hP => ?_, fun hF => ?_⟩⟩ <;> rw [hinum]
    · exact (hw.wrote.live_iff _).mpr h.live
    · rw [hcnext]
      exact hw.maps
    · rw [hw.ind]
      exact hindR'
    · exact (hroom' hP).mono (le_refl R')
        ((Nat.add_le_add_right (Vol.spanned_add hm) _).trans hk)
    · refine le_trans hf ?_
      have hcount := hfree hF
      simp only [Vol.freeCount] at hcount ⊢
      rwa [hw.bit]
  · intro hle
    -- below the old size every block is mapped already
    have hoff : off < size := (Nat.lt_add_of_pos_right hpos).trans_le hle
    have hc : off / BSIZE < Vol.blocksOf (max size off) :=
      Vol.div_lt_blocksOf (lt_max_of_lt_left hoff)
    rw [hmap.same hc]

theorem writeLoop_ends {n tot x : Nat} (htot : tot ≤ n)
    (h : Writing sb P F s ip R size off (off + (n - tot)) x)
    (hmax : off + (n - tot) ≤ MAXFILE * BSIZE) :
    Ends (writeLoop sb ip src n tot off s) (Stops P F) fun r => r.1 = off + (n - tot) ∧
        (∃ R', R ⊆ R' ∧ Writing sb P F r.2 ip R' size (off + (n - tot)) (off + (n - tot)) x) ∧
        Frame sb ip s r.2 ∧
        ((s.vol sb ip).ind (s.icache ip).inum ≠ 0 →
          (r.2.vol sb ip).ind (s.icache ip).inum ≠ 0) ∧
        Vol.Wrote sb (s.vol sb ip) (r.2.vol sb ip) (s.icache ip).inum off (off + (n - tot))
          (fun k => src (tot + (k - off))) ∧
        (∀ k, off ≤ k → k < off + (n - tot) →
          (r.2.vol sb ip).addrOf (s.icache ip).inum (k / BSIZE) ∈ r.2.log.lh.blocks) ∧
        (off + (n - tot) ≤ size → r.2.icache = s.icache) := by
  -- by the number of bytes left
  induction hleft : n - tot using Nat.strong_induction_on generalizing tot off s R with
  | _ left ih =>
  subst hleft
  rw [writeLoop]
  by_cases hlt : tot < n
  · rw [if_pos hlt]
    generalize hm : min (n - tot) (BSIZE - off % BSIZE) = m
    have hm' : m = min (off + (n - tot) - off) (BSIZE - off % BSIZE) := by
      rw [Nat.add_sub_cancel_left, hm]
    have hstep := writeStep_ends (fun k => src (tot + k)) h (by omega) hmax hm'
    -- what the arithmetic below needs of the number of bytes
    have hpos : 0 < m := by simp only [BSIZE] at hm; omega
    have hleft : m ≤ n - tot := hm ▸ Nat.min_le_left _ _
    have hfit : off % BSIZE + m ≤ BSIZE := by simp only [BSIZE] at hm ⊢; omega
    clear hm hm'
    have hend : off + m + (n - (tot + m)) = off + (n - tot) := by omega
    refine hstep.bind ?_
    rintro ⟨a, s1⟩ hwrite
    refine Ends.bind hwrite ?_
    rintro s2 ⟨⟨R', hRR', hs2⟩, hframe, hind, hwrote, hlog, hsame⟩
    rw [← hend] at hs2
    refine (ih (n - (tot + m)) (by omega) (by omega) hs2 (by omega) rfl).imp ?_
    rintro ⟨off', s3⟩ ⟨hoff, ⟨R'', hRR'', hs3⟩, hframe', hind', hwrote', hlog', hsame'⟩
    rw [hend] at hoff hs3 hwrote' hlog' hsame'
    have hmapped : ∀ k, k < off + m → (s2.vol sb ip).addrOf (s.icache ip).inum (k / BSIZE) ≠ 0 := by
      intro k hk
      rw [← hframe.inum]
      exact (hs2.maps _).mpr (Vol.div_lt_blocksOf (by omega))
    have hl2 := hs2.live
    rw [hframe.inum] at hind' hwrote' hlog' hl2
    refine ⟨hoff, ⟨R'', hRR'.trans hRR'', hs3⟩, hframe.trans hframe', hind' ∘ hind, ?_, ?_, ?_⟩
    · refine Vol.Wrote.trans hwrote (hwrote'.congr fun k hk _ => ?_) (by omega) (by omega) ?_
      · show src (tot + m + (k - (off + m))) = src (tot + (k - off))
        congr 1
        omega
      · exact fun k _ hk => hmapped k hk
    · intro k hlo hk
      by_cases hkm : k < off + m
      · have hblk : k / BSIZE = off / BSIZE := by
          simp only [BSIZE] at hfit ⊢
          omega
        rw [hwrote'.addrOf _ _ hl2 (hmapped k hkm), hblk]
        exact hframe'.logged hlog
      · exact hlog' k (by omega) hk
    · intro hle
      rw [hsame' hle, hsame (by omega)]
  · obtain rfl : tot = n := by omega
    rw [if_neg hlt, ends_ok]
    simp only [Nat.sub_self, Nat.add_zero] at h ⊢
    refine ⟨trivial, ⟨R, le_refl R, h⟩, Frame.refl s, id, Vol.Wrote.refl _ _ _ _, ?_,
      fun _ => trivial⟩
    intro k hlo hk
    omega

end Xv6.Fs
