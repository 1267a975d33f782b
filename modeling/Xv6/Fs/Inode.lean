import Xv6.Fs.Write

/-!
# Xv6.Fs.Inode

The invariant of the file system between operations, and `iupdate` and `writei` under it.

`FsOk` joins the volume's `WellFormed` with the inode cache: cached inodes are different inodes, and
a valid copy is the disk inode. An operation on a locked inode changes the copy and at its end
writes it back; `FsOk.of_locked` is the argument all of them share.
-/

namespace Xv6.Fs

open Function Finset

open Log (Room)

variable {dev : Devsw} {hi : Nat} {src : Nat → UInt8} {n off z : UInt32}

structure Coherent (sb : Superblock) (s : FS) : Prop where
  inum_lt : ∀ ip, 0 < (s.icache ip).ref → (s.icache ip).inum < sb.ninodes
  inj : ∀ ip jp, 0 < (s.icache ip).ref → 0 < (s.icache jp).ref →
    (s.icache ip).inum = (s.icache jp).inum → ip = jp
  valid : ∀ ip, 0 < (s.icache ip).ref → (s.icache ip).valid = true →
    (volOf sb s.disk).dino (s.icache ip).inum = (s.icache ip).copy ∧ (s.icache ip).copy.type ≠ 0

structure FsOk (sb : Superblock) (s : FS) : Prop where
  wf : (volOf sb s.disk).WellFormed sb
  cache : Coherent sb s

/-- `ilock` has returned: the caller has a reference and the copy is valid. -/
def Locked (s : FS) (ip : Fin NINODE) : Prop := 0 < (s.icache ip).ref ∧ (s.icache ip).valid = true

variable {sb : Superblock} {P F : Prop} {s s' : FS} {ip : Fin NINODE} {R : Finset Nat} {k : Nat}

theorem vol_eq_volOf (h : (volOf sb s.disk).dino (s.icache ip).inum = (s.icache ip).copy) :
    s.vol sb ip = volOf sb s.disk := by
  rw [FS.vol, ← h, update_eq_self]

theorem FsOk.vol (h : FsOk sb s) (hip : Locked s ip) : s.vol sb ip = volOf sb s.disk :=
  vol_eq_volOf (h.cache.valid ip hip.1 hip.2).1

theorem FsOk.live (h : FsOk sb s) (hip : Locked s ip) :
    (volOf sb s.disk).Live sb (s.icache ip).inum := by
  obtain ⟨heq, htype⟩ := h.cache.valid ip hip.1 hip.2
  exact ⟨h.cache.inum_lt ip hip.1, heq ▸ htype⟩

theorem FsOk.of_locked (h : FsOk sb s) (hip : 0 < (s.icache ip).ref)
    (hwf : (volOf sb s'.disk).WellFormed sb) (hothers : ∀ jp, jp ≠ ip → s'.icache jp = s.icache jp)
    (hinum : (s'.icache ip).inum = (s.icache ip).inum)
    (hdino : ∀ j, j ≠ (s.icache ip).inum → (volOf sb s'.disk).dino j = (volOf sb s.disk).dino j)
    (hself : 0 < (s'.icache ip).ref → (s'.icache ip).valid = true →
      (volOf sb s'.disk).dino (s.icache ip).inum = (s'.icache ip).copy ∧
        (s'.icache ip).copy.type ≠ 0) : FsOk sb s' := by
  refine ⟨hwf, ?_, ?_, ?_⟩
  · intro jp hjp
    by_cases hj : jp = ip
    · subst hj
      rw [hinum]
      exact h.cache.inum_lt jp hip
    · rw [hothers jp hj] at hjp ⊢
      exact h.cache.inum_lt jp hjp
  · have hold : ∀ jp, 0 < (s'.icache jp).ref →
        0 < (s.icache jp).ref ∧ (s'.icache jp).inum = (s.icache jp).inum := by
      intro jp hjp
      by_cases hj : jp = ip
      · subst hj; exact ⟨hip, hinum⟩
      · rw [hothers jp hj] at hjp ⊢
        exact ⟨hjp, rfl⟩
    intro jp kp hjp hkp heq
    obtain ⟨h1, e1⟩ := hold jp hjp
    obtain ⟨h2, e2⟩ := hold kp hkp
    exact h.cache.inj jp kp h1 h2 (e1 ▸ e2 ▸ heq)
  · intro jp hjp hvalid
    by_cases hj : jp = ip
    · subst hj
      rw [hinum]
      exact hself hjp hvalid
    · rw [hothers jp hj] at hjp hvalid ⊢
      obtain ⟨heq, htype⟩ := h.cache.valid jp hjp hvalid
      refine ⟨?_, htype⟩
      rw [hdino _ (fun hc => hj (h.cache.inj jp ip hjp hip hc))]
      exact heq

theorem iupdate_ends (hlt : (s.icache ip).inum < sb.ninodes)
    (hR : sb.iblock (s.icache ip).inum ∈ R) (hroom : P → Room s.log R k) :
    Ends (iupdate sb s ip) (Stops P F) fun s' =>
      volOf sb s'.disk = s.vol sb ip ∧ s'.icache = s.icache ∧
        s.log.lh.blocks ⊆ s'.log.lh.blocks ∧ (P → Room s'.log R k) := by
  refine (logWrite_mem _ hR hroom).imp ?_
  rintro _ ⟨g, rfl, hroom', hlog⟩
  exact ⟨volOf_setDinode hlt _, rfl, (List.cons_subset.mp hlog).2, hroom'⟩

theorem add_wraps_iff (off n : UInt32) : off + n < off ↔ 2 ^ 32 ≤ off.toNat + n.toNat := by
  rw [UInt32.lt_iff_toNat_lt, UInt32.toNat_add]
  have := off.toNat_lt
  have := n.toNat_lt
  omega

theorem toNat_add_of_not_wraps (h : ¬ off + n < off) : (off + n).toNat = off.toNat + n.toNat := by
  rw [add_wraps_iff] at h
  rw [UInt32.toNat_add]
  omega

theorem writei_accepts {size : UInt32} (h1 : ¬ (off > size ∨ off + n < off))
    (h2 : ¬ off + n > UInt32.ofNat (MAXFILE * BSIZE)) :
    off.toNat ≤ size.toNat ∧ off.toNat + n.toNat ≤ MAXFILE * BSIZE := by
  obtain ⟨hle, hwrap⟩ := not_or.mp h1
  have hmaxNat : (UInt32.ofNat (MAXFILE * BSIZE)).toNat = MAXFILE * BSIZE := rfl
  rw [GT.gt, UInt32.lt_iff_toNat_lt] at hle h2
  rw [toNat_add_of_not_wraps hwrap, hmaxNat] at h2
  omega

/-- What a completed write of `src` to the bytes `lo..hi-1` leaves. -/
structure Written (sb : Superblock) (ip : Fin NINODE) (s s' : FS) (lo hi : Nat)
    (src : Nat → UInt8) :
    Prop where
  ok : FsOk sb s'
  wrote : ∃ w, Vol.Wrote sb (volOf sb s.disk) w (s.icache ip).inum lo hi (fun k => src (k - lo)) ∧
    volOf sb s'.disk =
      w.setSize (s.icache ip).inum (UInt32.ofNat (max (s.icache ip).copy.size.toNat hi))
  others : ∀ jp, jp ≠ ip → s'.icache jp = s.icache jp
  logged : ∀ k, lo ≤ k → k < hi →
    (volOf sb s'.disk).addrOf (s.icache ip).inum (k / BSIZE) ∈ s'.log.lh.blocks

/-- What a write of the bytes up to `hi - 1` leaves besides: room in the log, the indirect block and
`x` free blocks. -/
structure Leaves (sb : Superblock) (P F : Prop) (ip : Fin NINODE) (s s' : FS) (hi x : Nat) :
    Prop where
  room : P → Room s'.log ∅ 0
  ind : (volOf sb s.disk).ind (s.icache ip).inum ≠ 0 →
    (volOf sb s'.disk).ind (s.icache ip).inum ≠ 0
  free : F → (volOf sb s'.disk).lack (s.icache ip).inum (Vol.blocksOf hi - 1) + x ≤
    Vol.freeCount sb (volOf sb s'.disk)

theorem vol_setSize (z : UInt32) :
    (s.setInode ip { s.icache ip with copy := { (s.icache ip).copy with size := z } }).vol sb ip =
      (s.vol sb ip).setSize (s.icache ip).inum z := by
  simp [FS.vol, FS.setInode, Vol.setSize]

theorem wellFormed_setSize {v w : Vol} {i lo : Nat} {data : Nat → UInt8}
    (h : v.WellFormed sb) (hw : Vol.Wrote sb v w i lo hi data)
    (hrefs : w.Refs sb) (hmaps : w.Maps i (Vol.blocksOf z.toNat)) :
    (w.setSize i z).WellFormed sb := by
  refine ⟨hrefs.setSize, ?_⟩
  intro j hj
  rw [Vol.live_setSize, hw.live_iff] at hj
  rw [Vol.maps_setSize]
  by_cases hji : j = i
  · subst hji
    rw [Vol.setSize_dino_self]
    exact hmaps
  · rw [Vol.setSize_dino_other hji, hw.size_eq]
    exact hw.maps j _ hj hji (h.maps j hj)

theorem Written.of_loop {s1 : FS} {off : Nat} (h : FsOk sb s)
    (hip : Locked s ip) (hz : z = UInt32.ofNat (max (s.icache ip).copy.size.toNat hi))
    (hhi : hi < 2 ^ 32) (hrefs : (s1.vol sb ip).Refs sb)
    (hmaps : (s1.vol sb ip).Maps (s.icache ip).inum
      (Vol.blocksOf (max (s.icache ip).copy.size.toNat hi))) (hframe : Frame sb ip s s1)
    (hwrote : Vol.Wrote sb (volOf sb s.disk) (s1.vol sb ip) (s.icache ip).inum off hi
      fun k => src (k - off))
    (hdisk : volOf sb s'.disk = (s1.vol sb ip).setSize (s.icache ip).inum z)
    (hic : s'.icache = update s1.icache ip
      { s1.icache ip with copy := { (s1.icache ip).copy with size := z } })
    (hlogged : ∀ k, off ≤ k → k < hi →
      (s1.vol sb ip).addrOf (s.icache ip).inum (k / BSIZE) ∈ s1.log.lh.blocks)
    (hlog : s1.log.lh.blocks ⊆ s'.log.lh.blocks) : Written sb ip s s' off hi src := by
  have hzNat : z.toNat = max (s.icache ip).copy.size.toNat hi := by
    rw [hz, UInt32.toNat_ofNat']
    have := (s.icache ip).copy.size.toNat_lt
    omega
  have hothers : ∀ jp, jp ≠ ip → s'.icache jp = s.icache jp := by
    intro jp hjp
    rw [hic, update_of_ne hjp, hframe.others jp hjp]
  refine ⟨?_, ⟨_, hwrote, hz ▸ hdisk⟩, hothers, fun k hlo hk => ?_⟩
  swap
  · rw [hdisk, Vol.addrOf_setSize]
    exact hlog (hlogged k hlo hk)
  refine h.of_locked hip.1 ?_ hothers ?_ ?_ ?_
  · rw [hdisk]
    exact wellFormed_setSize h.wf hwrote hrefs (hzNat ▸ hmaps)
  · rw [hic, update_self]
    exact hframe.inum
  · intro j hj
    rw [hdisk, Vol.setSize_dino_other hj, hwrote.other j hj]
  · intro _ _
    have hcopy : (s1.vol sb ip).dino (s.icache ip).inum = (s1.icache ip).copy := by
      rw [← hframe.inum, vol_dino_self]
    have htype := (hwrote.live_iff _).mpr (h.live hip)
    rw [hdisk, Vol.setSize_dino_self, hic, update_self, hcopy]
    exact ⟨rfl, hcopy ▸ htype.2⟩

theorem Leaves.of_loop {s1 : FS} {size off x : Nat} (h : FsOk sb s)
    (hip : Locked s ip) (hw : Writing sb P F s1 ip R size off hi x) (hframe : Frame sb ip s s1)
    (hind : (s.vol sb ip).ind (s.icache ip).inum ≠ 0 → (s1.vol sb ip).ind (s.icache ip).inum ≠ 0)
    (hdisk : volOf sb s'.disk = (s1.vol sb ip).setSize (s.icache ip).inum z)
    (hroom : P → Room s'.log ∅ 0) : Leaves sb P F ip s s' hi x := by
  have hset : (volOf sb s'.disk).ind (s.icache ip).inum =
      (s1.vol sb ip).ind (s.icache ip).inum := by
    rw [hdisk, Vol.ind, Vol.setSize_dino_self, Vol.ind]
  refine ⟨hroom, ?_, fun hF => ?_⟩
  · rw [hset, ← h.vol hip]
    exact hind
  · have hfree := hw.has.free hF
    rw [hframe.inum] at hfree
    rw [Vol.lack, hset, ← Vol.lack]
    have hbit : (volOf sb s'.disk).bit = (volOf sb s1.disk).bit := by rw [hdisk]; rfl
    simp only [Vol.freeCount, hbit] at hfree ⊢
    omega

theorem writei_ends {x : Nat} (h : FsOk sb s)
    (hip : Locked s ip) (hdev : (s.icache ip).copy.type ≠ T_DEV)
    (h1 : ¬ (off > (s.icache ip).copy.size ∨ off + n < off))
    (h2 : ¬ off + n > UInt32.ofNat (MAXFILE * BSIZE)) (hRi : sb.iblock (s.icache ip).inum ∈ R)
    (hw : Writing sb P F s ip R (s.icache ip).copy.size.toNat off.toNat (off.toNat + n.toNat) x) :
    Ends (writei sb dev s ip src off n) (Stops P F) fun r =>
      (r.1 = n.toNat ∧ Written sb ip s r.2 off.toNat (off.toNat + n.toNat) src) ∧
        Leaves sb P F ip s r.2 (off.toNat + n.toNat) x := by
  obtain ⟨hoff, hmax⟩ := writei_accepts h1 h2
  simp only [writei, hdev, if_false, h1, h2]
  refine (writeLoop_ends (Nat.zero_le n.toNat) hw hmax).bind ?_
  rintro ⟨off', s1⟩ ⟨hoff', ⟨R', hRR', hw'⟩, hframe, hind, hwrote, hlogged, hsame⟩
  simp only [Nat.sub_zero, Nat.zero_add] at hoff' hw' hframe hind hwrote hlogged hsame
  subst hoff'
  dsimp only
  rw [h.vol hip] at hwrote
  have hsize : (s1.icache ip).copy.size = (s.icache ip).copy.size := by
    have := hwrote.size_eq (s.icache ip).inum
    rw [(h.cache.valid ip hip.1 hip.2).1, ← hframe.inum, vol_dino_self] at this
    exact this
  have hhi : off.toNat + n.toNat < 2 ^ 32 := by
    simp only [MAXFILE, NDIRECT, NINDIRECT, BSIZE] at hmax
    omega
  have hofNat : (UInt32.ofNat (off.toNat + n.toNat)).toNat = off.toNat + n.toNat := by
    rw [UInt32.toNat_ofNat']
    omega
  have hmaps : (s1.vol sb ip).Maps (s.icache ip).inum _ := hframe.inum ▸ hw'.maps
  by_cases hgrow : 0 < n ∧ UInt32.ofNat (off.toNat + n.toNat) > (s1.icache ip).copy.size
  · rw [if_pos hgrow]
    have hgt : (s.icache ip).copy.size.toNat < off.toNat + n.toNat := by
      have := hgrow.2
      rwa [GT.gt, UInt32.lt_iff_toNat_lt, hofNat, hsize] at this
    generalize hs2 : s1.setInode ip { s1.icache ip with
      copy := { (s1.icache ip).copy with size := UInt32.ofNat (off.toNat + n.toNat) } } = s2
    have hinum2 : (s2.icache ip).inum = (s.icache ip).inum := by
      rw [← hframe.inum, ← hs2]
      simp [FS.setInode]
    have hroom2 : P → Room s2.log R' 0 := by
      intro hP
      rw [← hs2]
      exact (hw'.has.room hP).mono (le_refl R') (Nat.zero_le _)
    refine (iupdate_ends (hinum2 ▸ h.cache.inum_lt ip hip.1) (hinum2 ▸ hRR' hRi) hroom2).bind ?_
    rintro s' ⟨hdisk, hic, hlog, hroom'⟩
    have hvol : volOf sb s'.disk = (s1.vol sb ip).setSize (s.icache ip).inum
        (UInt32.ofNat (off.toNat + n.toNat)) := by
      rw [hdisk, ← hs2, vol_setSize, hframe.inum]
    refine ⟨⟨rfl, Written.of_loop h hip (z := UInt32.ofNat (off.toNat + n.toNat)) ?_ hhi hw'.refs
      hmaps hframe hwrote hvol ?_ hlogged (by rw [← hs2] at hlog; exact hlog)⟩,
      Leaves.of_loop h hip hw' hframe hind hvol fun hP =>
        (hroom' hP).mono (empty_subset _) le_rfl⟩
    · rw [Nat.max_eq_right (by omega)]
    · rw [hic, ← hs2]
      rfl
  · rw [if_neg hgrow]
    have hle : off.toNat + n.toNat ≤ (s.icache ip).copy.size.toNat := by
      by_contra hlt
      apply hgrow
      simp only [GT.gt, UInt32.lt_iff_toNat_lt, hofNat, hsize]
      refine ⟨?_, by omega⟩
      show 0 < n.toNat
      omega
    have hic := hsame hle
    have hvol1 : s1.vol sb ip = volOf sb s1.disk := by
      apply vol_eq_volOf
      rw [hframe.dino, hic]
      exact (h.cache.valid ip hip.1 hip.2).1
    have hvol : volOf sb s1.disk =
        (s1.vol sb ip).setSize (s.icache ip).inum (s.icache ip).copy.size := by
      have : (s.icache ip).copy.size = ((s1.vol sb ip).dino (s.icache ip).inum).size := by
        rw [← hframe.inum, vol_dino_self, hsize]
      rw [this, Vol.setSize_self, hvol1]
    refine ⟨⟨rfl, Written.of_loop h hip (z := (s.icache ip).copy.size) ?_ hhi hw'.refs hmaps hframe
      hwrote hvol ?_ hlogged (List.Subset.refl _)⟩,
      Leaves.of_loop h hip hw' hframe hind hvol fun hP =>
        (hw'.has.room hP).mono (empty_subset _) (Nat.zero_le _)⟩
    · rw [Nat.max_eq_left hle, UInt32.ofNat_toNat]
    · simp [hic]

/-- The blocks a write may log that are known before it: the free map, the inode's block and its
indirect block. -/
def logTargets (sb : Superblock) (s : FS) (ip : Fin NINODE) : Finset Nat :=
  let i := (s.icache ip).inum
  let v := volOf sb s.disk
  insert (sb.iblock i) (if v.ind i = 0 then sb.bitmap else insert (v.ind i) sb.bitmap)

/-- The open transaction has room for a write of the bytes `off..off+n-1`. -/
def LogRoom (sb : Superblock) (s : FS) (ip : Fin NINODE) (off n : Nat) : Prop :=
  Room s.log (logTargets sb s ip) (Vol.spanned off (off + n) +
    (volOf sb s.disk).lack (s.icache ip).inum (Vol.blocksOf (off + n) - 1))

/-- Enough blocks are free for a write of the bytes `off..off+n-1`: those past the end of the file
and the indirect block, if it is needed and missing. -/
def EnoughFree (sb : Superblock) (s : FS) (ip : Fin NINODE) (off n : Nat) : Prop :=
  Vol.blocksOf (off + n) - Vol.blocksOf (s.icache ip).copy.size.toNat +
    (volOf sb s.disk).lack (s.icache ip).inum (Vol.blocksOf (off + n) - 1) ≤
      Vol.freeCount sb (volOf sb s.disk)

/-- The blocks that a write of the bytes `off..off+n-1` to file `i` allocates. -/
def Vol.needed (v : Vol) (i off n : Nat) : Nat :=
  Vol.blocksOf (off + n) - Vol.blocksOf (v.dino i).size.toNat +
    v.lack i (Vol.blocksOf (off + n) - 1)

theorem FsOk.enoughFree_iff (h : FsOk sb s) (hip : Locked s ip) (off n : Nat) :
    EnoughFree sb s ip off n ↔
      (volOf sb s.disk).needed (s.icache ip).inum off n ≤ Vol.freeCount sb (volOf sb s.disk) := by
  rw [EnoughFree, Vol.needed, (h.cache.valid ip hip.1 hip.2).1]

theorem FsOk.writing_has (h : FsOk sb s) (hip : Locked s ip) {off : Nat} (n x : Nat)
    (hoff : off ≤ (s.icache ip).copy.size.toNat) : Writing sb (LogRoom sb s ip off n)
      ((volOf sb s.disk).needed (s.icache ip).inum off n + x ≤ Vol.freeCount sb (volOf sb s.disk))
      s ip (logTargets sb s ip) (s.icache ip).copy.size.toNat off (off + n) x := by
  have hvol := h.vol hip
  refine ⟨hvol ▸ h.wf.refs, hvol ▸ h.live hip, ?_, ?_, ?_, ?_⟩
  · rw [hvol, Nat.max_eq_left hoff, ← (h.cache.valid ip hip.1 hip.2).1]
    exact h.wf.maps _ (h.live hip)
  · refine Finset.Subset.trans ?_ (subset_insert _ _)
    split
    · exact Finset.Subset.refl _
    · exact subset_insert _ _
  · rw [hvol]
    intro hind
    simp [logTargets, hind]
  · rw [hvol, Nat.max_eq_left hoff, Vol.needed, (h.cache.valid ip hip.1 hip.2).1]
    exact ⟨id, id⟩

theorem writei_leaves (x : Nat) (h : FsOk sb s)
    (hip : Locked s ip) (hdev : (s.icache ip).copy.type ≠ T_DEV)
    (h1 : ¬ (off > (s.icache ip).copy.size ∨ off + n < off))
    (h2 : ¬ off + n > UInt32.ofNat (MAXFILE * BSIZE)) : Ends (writei sb dev s ip src off n)
      (Stops (LogRoom sb s ip off.toNat n.toNat)
        ((volOf sb s.disk).needed (s.icache ip).inum off.toNat n.toNat + x ≤
          Vol.freeCount sb (volOf sb s.disk))) fun r =>
      (r.1 = n.toNat ∧ Written sb ip s r.2 off.toNat (off.toNat + n.toNat) src) ∧
        Leaves sb (LogRoom sb s ip off.toNat n.toNat)
          ((volOf sb s.disk).needed (s.icache ip).inum off.toNat n.toNat + x ≤
            Vol.freeCount sb (volOf sb s.disk)) ip s r.2 (off.toNat + n.toNat) x := by
  obtain ⟨hoff, -⟩ := writei_accepts h1 h2
  exact writei_ends h hip hdev h1 h2 (mem_insert_self _ _) (h.writing_has hip n.toNat x hoff)

theorem writei_written (h : FsOk sb s) (hip : Locked s ip) (hdev : (s.icache ip).copy.type ≠ T_DEV)
    (h1 : ¬ (off > (s.icache ip).copy.size ∨ off + n < off))
    (h2 : ¬ off + n > UInt32.ofNat (MAXFILE * BSIZE)) : Ends (writei sb dev s ip src off n)
      (Stops (LogRoom sb s ip off.toNat n.toNat) (EnoughFree sb s ip off.toNat n.toNat)) fun r =>
      r.1 = n.toNat ∧ Written sb ip s r.2 off.toNat (off.toNat + n.toNat) src := by
  rw [h.enoughFree_iff hip]
  exact (writei_leaves 0 h hip hdev h1 h2).imp fun _ hr => hr.1

end Xv6.Fs
