import Xv6.Fs.Ops
import Xv6.Fs.Vol
import Xv6.Lib.Ends
import Xv6.Log.Room

/-!
# Xv6.Fs.Bmap

What `balloc`, `bfree` and `bmap` do to the volume.

While an operation holds inode `ip`, the addresses that count are those in memory: `FS.vol` is the
volume with the inode's copy in place of its disk inode. `bmap_ends` says that `bmap` keeps the
references of this volume consistent, maps the block number it is asked for and leaves every other
mapping and every mapped block alone.

The panics of `log_write` and `balloc` are part of the specifications. `Stops P F` are those that
remain when `P` says that the transaction has room and `F` that enough blocks are free, so that one
lemma serves callers that know this and callers that do not.
-/

namespace Xv6.Fs

open Function Finset

open Log (Room)

def Superblock.bitmap (sb : Superblock) : Finset Nat := (Finset.range sb.size).image sb.bblock

/-- The volume as the holder of `ip` sees it. -/
def FS.vol (sb : Superblock) (s : FS) (ip : Fin NINODE) : Vol :=
  { volOf sb s.disk with
    dino := update (volOf sb s.disk).dino (s.icache ip).inum (s.icache ip).copy }

def Stops (P F : Prop) (e : Panic) : Prop :=
  ¬ P ∧ (e = .tooBigTransaction ∨ e = .logWriteOutsideTrans) ∨ ¬ F ∧ e = .ballocOutOfBlocks

/-- Room for the blocks of `R` and `k` more if `P`; `f` free blocks if `F`. -/
structure Has (sb : Superblock) (P F : Prop) (s : FS) (R : Finset Nat) (k f : Nat) : Prop where
  room : P → Room s.log R k
  free : F → f ≤ Vol.freeCount sb (volOf sb s.disk)

/-- Nothing changes but the disk outside the inode blocks, the copy of inode `ip` and the log, which
gets longer. -/
structure Frame (sb : Superblock) (ip : Fin NINODE) (s s' : FS) : Prop where
  others : ∀ jp, jp ≠ ip → s'.icache jp = s.icache jp
  inode : { s'.icache ip with copy := (s.icache ip).copy } = s.icache ip
  dino : (volOf sb s'.disk).dino = (volOf sb s.disk).dino
  logged : s.log.lh.blocks ⊆ s'.log.lh.blocks

namespace Frame

variable {sb : Superblock} {ip : Fin NINODE} {s s' s'' : FS}

theorem refl (s : FS) : Frame sb ip s s := ⟨fun _ _ => rfl, rfl, rfl, List.Subset.refl _⟩

theorem of_icache (hic : s'.icache = s.icache)
    (hdino : (volOf sb s'.disk).dino = (volOf sb s.disk).dino)
    (hlog : s.log.lh.blocks ⊆ s'.log.lh.blocks) : Frame sb ip s s' :=
  ⟨fun jp _ => by rw [hic], by rw [hic], hdino, hlog⟩

theorem inum (h : Frame sb ip s s') : (s'.icache ip).inum = (s.icache ip).inum := by
  rw [← h.inode]

theorem trans (h : Frame sb ip s s') (h' : Frame sb ip s' s'') : Frame sb ip s s'' where
  others := fun jp hjp => (h'.others jp hjp).trans (h.others jp hjp)
  inode := by
    have e := h.inode
    rw [← h'.inode] at e
    exact e
  dino := h'.dino.trans h.dino
  logged := List.Subset.trans h.logged h'.logged

end Frame

variable {sb : Superblock} {P F : Prop} {s : FS} {ip : Fin NINODE} {R : Finset Nat} {b f k : Nat}

theorem Has.mono {R' : Finset Nat} {k' f' : Nat} (h : Has sb P F s R k f) (hR : R' ⊆ R)
    (hk : k' ≤ k) (hf : f' ≤ f) : Has sb P F s R' k' f' :=
  ⟨fun hP => (h.room hP).mono hR hk, fun hF => hf.trans (h.free hF)⟩

theorem logWrite_error {g : Log.LogSt} {e : Panic} (h : g.logWrite b = .error e) :
    e = .tooBigTransaction ∨ e = .logWriteOutsideTrans := by
  simp only [Log.LogSt.logWrite] at h
  split at h
  · cases h; exact .inl rfl
  · split at h
    · cases h; exact .inr rfl
    · cases h

/-- The effect of a `log_write` of block `b` with contents `x`. -/
def Logged (P : Prop) (s : FS) (b : Nat) (x : Block) (R : Finset Nat) (k : Nat) (s' : FS) : Prop :=
  ∃ g, s' = { s with disk := update s.disk b x, log := g } ∧ (P → Room g R k) ∧
    b :: s.log.lh.blocks ⊆ g.lh.blocks

theorem logWrite_ends {R' : Finset Nat} {k' : Nat} (x : Block)
    (hw : P → ∃ g, s.log.logWrite b = .ok g ∧ Room g R' k') :
    Ends (s.logWrite b x) (Stops P F) (Logged P s b x R' k') := by
  rw [FS.logWrite]
  cases hg : s.log.logWrite b with
  | error e =>
    refine .inl ⟨fun hP => ?_, logWrite_error hg⟩
    obtain ⟨g, hok, -⟩ := hw hP
    rw [hg] at hok
    cases hok
  | ok g =>
    refine ⟨g, rfl, fun hP => ?_, ?_⟩
    · obtain ⟨g', hok, hroom⟩ := hw hP
      rw [hg] at hok
      cases hok
      exact hroom
    · obtain ⟨-, -, -, hblocks, -⟩ := Log.LogSt.logWrite_ok hg
      rw [hblocks]
      intro y
      split <;> simp <;> grind

theorem logWrite_mem (x : Block) (hb : b ∈ R) (h : P → Room s.log R k) :
    Ends (s.logWrite b x) (Stops P F) (Logged P s b x R k) :=
  logWrite_ends x fun hP => (h hP).write_mem hb

theorem logWrite_new (x : Block) (h : P → Room s.log R (k + 1)) :
    Ends (s.logWrite b x) (Stops P F) (Logged P s b x (insert b R) k) :=
  logWrite_ends x fun hP => (h hP).write_new

theorem inUse_eq (hb : b < sb.size) : s.inUse sb b = (volOf sb s.disk).bit b := by
  simp [FS.inUse, volOf, hb]

theorem balloc_ends (hmeta : ∀ b, b < sb.dataStart → (volOf sb s.disk).bit b = true)
    (hR : sb.bitmap ⊆ R) (h : Has sb P F s R (k + 1) (f + 1)) :
    Ends (balloc sb s) (Stops P F) fun r => r.1 < sb.size ∧ (volOf sb s.disk).bit r.1 = false ∧
        volOf sb r.2.disk = (volOf sb s.disk).alloc r.1 ∧ r.2.icache = s.icache ∧
        s.log.lh.blocks ⊆ r.2.log.lh.blocks ∧ Has sb P F r.2 (insert r.1 R) k f := by
  rw [balloc]
  cases hfind : (List.range sb.size).find? fun b => !s.inUse sb b with
  | none =>
    refine .inr ⟨fun hF => ?_, rfl⟩
    obtain ⟨b, hb, hfree⟩ := Vol.exists_free (h.free hF)
    have := List.find?_eq_none.mp hfind b (List.mem_range.mpr hb)
    rw [inUse_eq hb, hfree] at this
    simp at this
  | some b =>
    have hb : b < sb.size := List.mem_range.mp (List.mem_of_find?_eq_some hfind)
    have hfree : (volOf sb s.disk).bit b = false := by
      have := List.find?_some hfind
      rw [inUse_eq hb] at this
      simpa using this
    have hdata : sb.dataStart ≤ b := by
      by_contra hlt
      rw [hmeta b (by omega)] at hfree
      cases hfree
    have hmem : sb.bblock b ∈ R := hR (mem_image_of_mem _ (mem_range.mpr hb))
    refine (logWrite_mem _ hmem h.room).bind ?_
    rintro _ ⟨g, rfl, hroom, hlog⟩
    refine (logWrite_new _ hroom).bind ?_
    rintro _ ⟨g', rfl, hroom', hlog'⟩
    have hvol : volOf sb (update (update s.disk (sb.bblock b)
        (setBit (s.disk (sb.bblock b)) (b % BPB))) b Block.zero) = (volOf sb s.disk).alloc b := by
      rw [volOf_data hdata, volOf_setBit hb]
      rfl
    refine ⟨hb, hfree, hvol, rfl,
      List.Subset.trans (List.cons_subset.mp hlog).2 (List.cons_subset.mp hlog').2, hroom',
      fun hF => ?_⟩
    have := h.free hF
    rw [Vol.freeCount_alloc hb hfree (w := (volOf sb s.disk).alloc b) rfl] at this
    rw [hvol]
    omega

theorem bfree_ends (hb : b < sb.size) (huse : (volOf sb s.disk).bit b = true) :
    Ends (bfree sb s b) (Stops False F) fun s' => volOf sb s'.disk =
        { volOf sb s.disk with bit := update (volOf sb s.disk).bit b false } ∧
      s'.icache = s.icache ∧ s.log.lh.blocks ⊆ s'.log.lh.blocks := by
  rw [bfree, inUse_eq hb, if_pos huse]
  have hno : False → ∃ g, s.log.logWrite (sb.bblock b) = .ok g ∧ Room g ∅ 0 := False.elim
  refine (logWrite_ends _ hno).imp ?_
  rintro _ ⟨g, rfl, -, hlog⟩
  exact ⟨volOf_clearBit hb, rfl, (List.cons_subset.mp hlog).2⟩

theorem vol_eq {s' : FS} {w : Vol} (hic : s'.icache = s.icache) (hd : volOf sb s'.disk = w) :
    s'.vol sb ip = { w with dino := update w.dino (s.icache ip).inum (s.icache ip).copy } := by
  subst hd
  rw [FS.vol, hic]

@[simp] theorem vol_bit : (s.vol sb ip).bit = (volOf sb s.disk).bit := rfl
@[simp] theorem vol_blk : (s.vol sb ip).blk = (volOf sb s.disk).blk := rfl

@[simp] theorem vol_dino_self : (s.vol sb ip).dino (s.icache ip).inum = (s.icache ip).copy := by
  simp [FS.vol]

theorem vol_setAddr (kk : Fin (NDIRECT + 1)) (a : UInt32) :
    (s.setAddr ip kk a).vol sb ip = (s.vol sb ip).setAddr (s.icache ip).inum kk a := by
  simp [FS.vol, FS.setAddr, FS.setInode, Vol.setAddr]

theorem frame_setAddr (kk : Fin (NDIRECT + 1)) (a : UInt32) :
    Frame sb ip s (s.setAddr ip kk a) := by
  refine ⟨fun jp hjp => ?_, ?_, rfl, List.Subset.refl _⟩
  · simp [FS.setAddr, FS.setInode, hjp]
  · simp [FS.setAddr, FS.setInode]

theorem bmapAddr_ends {kk : Fin (NDIRECT + 1)} (hrefs : (s.vol sb ip).Refs sb)
    (hR : sb.bitmap ⊆ R) (h : Has sb P F s R (k + 1) (f + 1))
    (h0 : (s.icache ip).copy.addrs kk = 0) : Ends (bmapAddr sb s ip kk) (Stops P F) fun r =>
      r.1 < sb.size ∧ (s.vol sb ip).bit r.1 = false ∧
        r.2.vol sb ip = ((s.vol sb ip).alloc r.1).setAddr (s.icache ip).inum kk (UInt32.ofNat r.1) ∧
        Has sb P F r.2 (insert r.1 R) k f ∧ Frame sb ip s r.2 := by
  rw [bmapAddr, if_pos h0]
  refine (balloc_ends hrefs.meta_used hR h).bind ?_
  rintro ⟨b, s1⟩ ⟨hb, hfree, hvol, hic, hlog, hhas⟩
  dsimp only at hb hfree hvol hic hlog hhas
  have hinum : (s1.icache ip).inum = (s.icache ip).inum := by rw [hic]
  refine ⟨hb, hfree, ?_, ⟨hhas.room, hhas.free⟩, ?_⟩
  · rw [vol_setAddr, hinum, vol_eq hic hvol]
    rfl
  · refine Frame.trans (Frame.of_icache hic ?_ hlog) (frame_setAddr kk _)
    rw [hvol, Vol.alloc_dino]

theorem bmapEntry_ends {e : Nat} (hrefs : (s.vol sb ip).Refs sb)
    (hl : (s.vol sb ip).Live sb (s.icache ip).inum) {a : Nat}
    (ha : (s.vol sb ip).ind (s.icache ip).inum = a) (ha0 : a ≠ 0) (haR : a ∈ R)
    (hR : sb.bitmap ⊆ R) (h : Has sb P F s R (k + 1) (f + 1)) (h0 : (s.disk a).word e = 0) :
    Ends (bmapEntry sb s a e) (Stops P F) fun r => r.1 < sb.size ∧ (s.vol sb ip).bit r.1 = false ∧
        r.2.vol sb ip = ((s.vol sb ip).alloc r.1).setBlk a
          (((s.vol sb ip).blk a).setWord e (UInt32.ofNat r.1)) ∧
        Has sb P F r.2 (insert r.1 R) k f ∧ Frame sb ip s r.2 := by
  have hdata := (hrefs.data _ _ (ha ▸ Vol.refers_ind hl (ha ▸ ha0))).1
  rw [bmapEntry, if_pos h0]
  refine (balloc_ends hrefs.meta_used hR h).bind ?_
  rintro ⟨b, s1⟩ ⟨hb, hfree, hvol, hic, hlog, hhas⟩
  dsimp only at hb hfree hvol hic hlog hhas
  refine (logWrite_mem _ (mem_insert_of_mem haR) hhas.room).bind ?_
  rintro _ ⟨g, rfl, hroom, hlog'⟩
  have hne : a ≠ b := ha ▸ hrefs.ind_ne_free hfree hl
  have hblk : s1.disk a = (s.vol sb ip).blk a := by
    have : (volOf sb s1.disk).blk a = (volOf sb s.disk).blk a := by
      rw [hvol, Vol.alloc_blk, update_of_ne hne]
    simpa [volOf, hdata] using this
  have hd := volOf_data (d := s1.disk) hdata ((s1.disk a).setWord e (UInt32.ofNat b))
  rw [hvol] at hd
  refine ⟨hb, hfree, ?_, ⟨hroom, fun hF => ?_⟩, ?_⟩
  · simp only [FS.vol]
    rw [hd, hic, hblk]
    rfl
  · have := hhas.free hF
    rw [hvol] at this
    exact (congrArg (Vol.freeCount sb) hd) ▸ this
  · refine Frame.of_icache hic ?_ (List.Subset.trans hlog (List.cons_subset.mp hlog').2)
    rw [hd, Vol.alloc_dino]

/-- `bmap(ip, bn)` went from `s` to `s'` with result `a`; the file had the block numbers
below `c`. -/
structure Mapped (sb : Superblock) (ip : Fin NINODE) (s : FS) (bn c a : Nat) (s' : FS) : Prop where
  refs : (s'.vol sb ip).Refs sb
  ext : Vol.Ext sb (s.vol sb ip) (s'.vol sb ip) (s.icache ip).inum
  maps : (s'.vol sb ip).Maps (s.icache ip).inum (max c (bn + 1))
  addr : (s'.vol sb ip).addrOf (s.icache ip).inum bn = a
  ne : a ≠ 0
  frame : Frame sb ip s s'
  same : bn < c → s' = s

theorem Mapped.of_gives {s' : FS} {p : Pos} {a c : Nat} (hrefs : (s.vol sb ip).Refs sb)
    (hmaps : (s.vol sb ip).Maps (s.icache ip).inum c) (hp : Vol.posOf c = some p)
    (g : Vol.Gives sb (s.vol sb ip) (s'.vol sb ip) (s.icache ip).inum p a)
    (hframe : Frame sb ip s s') : Mapped sb ip s c c a s' := by
  have hempty : (s.vol sb ip).refAt (s.icache ip).inum p = 0 := by
    rw [← Vol.addrOf_pos hp]
    by_contra hne
    exact Nat.lt_irrefl c ((hmaps c).mp hne)
  have hmaps' := g.maps_next hrefs hp hmaps
  refine ⟨g.refs hrefs hempty, g.ext hrefs hempty, ?_, g.addrOf_self hp, ?_, hframe, ?_⟩
  · rw [Nat.max_eq_right (Nat.le_succ c)]
    exact hmaps'
  · rw [← g.addrOf_self hp]
    exact (hmaps' c).mpr (Nat.lt_succ_self c)
  · intro hlt
    exact absurd hlt (Nat.lt_irrefl c)

theorem bmapAddr_some {kk : Fin (NDIRECT + 1)} {a : Nat}
    (ha : ((s.icache ip).copy.addrs kk).toNat = a)
    (ha0 : a ≠ 0) : bmapAddr sb s ip kk = .ok (a, s) := by
  rw [bmapAddr, if_neg, ha]
  intro h0
  rw [h0] at ha
  exact ha0 ha.symm

theorem vol_ind : (s.vol sb ip).ind (s.icache ip).inum =
    ((s.icache ip).copy.addrs (Fin.last NDIRECT)).toNat := by
  rw [Vol.ind, vol_dino_self]

theorem disk_ind (hrefs : (s.vol sb ip).Refs sb) (hl : (s.vol sb ip).Live sb (s.icache ip).inum)
    (h : (s.vol sb ip).ind (s.icache ip).inum ≠ 0) : s.disk ((s.vol sb ip).ind (s.icache ip).inum) =
      (s.vol sb ip).blk ((s.vol sb ip).ind (s.icache ip).inum) := by
  have hdata := (hrefs.data _ _ (Vol.refers_ind hl h)).1
  simp [volOf, hdata]

theorem bmap_mapped {bn : Nat} (hrefs : (s.vol sb ip).Refs sb)
    (hl : (s.vol sb ip).Live sb (s.icache ip).inum)
    (h : (s.vol sb ip).addrOf (s.icache ip).inum bn ≠ 0) :
    bmap sb s ip bn = .ok ((s.vol sb ip).addrOf (s.icache ip).inum bn, s) := by
  obtain ⟨p, hp, hr⟩ := Vol.posOf_of_ne_zero h
  rw [bmap]
  by_cases hd : bn < NDIRECT
  · rw [dif_pos hd]
    rw [Vol.posOf_direct hd] at hp
    cases hp
    rw [Vol.refAt_direct, vol_dino_self] at hr
    exact bmapAddr_some hr h
  · by_cases he : bn - NDIRECT < NINDIRECT
    · rw [dif_neg hd, if_pos he]
      rw [Vol.posOf_entry hd he] at hp
      cases hp
      rw [Vol.refAt_entry] at hr
      have hind : (s.vol sb ip).ind (s.icache ip).inum ≠ 0 := by
        intro h0
        rw [if_pos h0] at hr
        exact h hr.symm
      rw [if_neg hind, ← disk_ind hrefs hl hind] at hr
      rw [bmapAddr_some vol_ind.symm hind, ok_bind]
      dsimp only
      rw [bmapEntry, if_neg, hr]
      intro h0
      rw [h0] at hr
      exact h hr.symm
    · rw [Vol.addrOf_none (by simp only [MAXFILE]; omega)] at h
      exact absurd rfl h

-- From here on only the rules of `Ends` are used: unfolding it would run the operations.
attribute [local irreducible] Ends

theorem bmapEntry_next {a c : Nat} (hrefs : (s.vol sb ip).Refs sb)
    (hl : (s.vol sb ip).Live sb (s.icache ip).inum)
    (hmaps : (s.vol sb ip).Maps (s.icache ip).inum c)
    (hd : ¬ c < NDIRECT) (he : c - NDIRECT < NINDIRECT)
    (ha : (s.vol sb ip).ind (s.icache ip).inum = a) (ha0 : a ≠ 0) (haR : a ∈ R)
    (hR : sb.bitmap ⊆ R) (h : Has sb P F s R (k + 1) (f + 1)) :
    Ends (bmapEntry sb s a (c - NDIRECT)) (Stops P F) fun r =>
      Mapped sb ip s c c r.1 r.2 ∧ (r.2.vol sb ip).ind (s.icache ip).inum = a ∧
        Has sb P F r.2 (insert r.1 R) k f := by
  have hp := Vol.posOf_entry hd he
  have h0 : (s.disk a).word (c - NDIRECT) = 0 := by
    by_contra hne
    apply Nat.lt_irrefl c
    apply (hmaps c).mp
    rw [Vol.addrOf_pos hp, Vol.refAt_entry, if_neg (ha ▸ ha0), ← disk_ind hrefs hl (ha ▸ ha0), ha]
    intro hz
    exact hne (UInt32.toNat_inj.mp hz)
  refine (bmapEntry_ends hrefs hl ha ha0 haR hR h h0).imp ?_
  rintro ⟨b, s'⟩ ⟨hb, hfree, hvol, hhas, hframe⟩
  have g := Vol.gives_entry hrefs hb hfree hl (ha ▸ ha0) ⟨c - NDIRECT, he⟩
  rw [ha] at g
  rw [← hvol] at g
  have hm : Mapped sb ip s c c b s' := Mapped.of_gives hrefs hmaps hp g hframe
  refine ⟨hm, ?_, hhas⟩
  have hind := g.refAt (s.icache ip).inum .indirect hl
  rw [if_neg (fun hc => Pos.noConfusion hc.2)] at hind
  exact hind.trans ha

/-- The result of `bmap`. The caller's next step may be a `log_write` of the block returned: with
room at the start there is room for that, too. -/
structure Bmapped (sb : Superblock) (P F : Prop) (ip : Fin NINODE) (s : FS) (bn c : Nat)
    (R : Finset Nat) (k f : Nat) (r : Nat × FS) : Prop where
  mapped : Mapped sb ip s bn c r.1 r.2
  ind : NDIRECT ≤ bn ∨ (s.vol sb ip).ind (s.icache ip).inum ≠ 0 →
    (r.2.vol sb ip).ind (s.icache ip).inum ≠ 0
  room : ∃ R', R ⊆ R' ∧
    ((r.2.vol sb ip).ind (s.icache ip).inum ≠ 0 → (r.2.vol sb ip).ind (s.icache ip).inum ∈ R') ∧
    (P → ∃ g, r.2.log.logWrite r.1 = .ok g ∧ Room g R' k)
  free : F → f ≤ Vol.freeCount sb (volOf sb r.2.disk)

theorem Vol.Maps.ind_ne {v : Vol} {i c bn : Nat} (h : v.Maps i c) (hbn : bn < c)
    (hd : NDIRECT ≤ bn) : v.ind i ≠ 0 := by
  intro h0
  have hmax := h.le
  simp only [MAXFILE] at hmax
  have he : bn - NDIRECT < NINDIRECT := by omega
  have hne := (h bn).mpr hbn
  rw [Vol.addrOf_pos (Vol.posOf_entry (by omega) he), Vol.refAt_entry, if_pos h0] at hne
  exact hne rfl

section Cases

variable {bn c : Nat} (hrefs : (s.vol sb ip).Refs sb)
  (hl : (s.vol sb ip).Live sb (s.icache ip).inum)
  (hmaps : (s.vol sb ip).Maps (s.icache ip).inum c) (hR : sb.bitmap ⊆ R)
  (hindR : (s.vol sb ip).ind (s.icache ip).inum ≠ 0 → (s.vol sb ip).ind (s.icache ip).inum ∈ R)

include hrefs hl hmaps hindR

theorem bmap_old (hlt : bn < c) (h : Has sb P F s R (k + 1) f) :
    Ends (bmap sb s ip bn) (Stops P F) (Bmapped sb P F ip s bn c R k f) := by
  have hne := (hmaps bn).mpr hlt
  rw [bmap_mapped hrefs hl hne, ends_ok]
  refine ⟨⟨hrefs, Vol.Ext.refl _ _, ?_, rfl, hne, Frame.refl s, fun _ => rfl⟩, ?_, ?_, h.free⟩
  · rwa [Nat.max_eq_left hlt]
  · rintro (hd | hind)
    · exact hmaps.ind_ne hlt hd
    · exact hind
  · exact ⟨_, subset_insert _ _, fun h0 => mem_insert_of_mem (hindR h0),
      fun hP => (h.room hP).write_new⟩

include hR

theorem bmap_direct (hd : c < NDIRECT) (h : Has sb P F s R (k + 1) (f + 1)) :
    Ends (bmap sb s ip c) (Stops P F) (Bmapped sb P F ip s c c R k f) := by
  have hp := Vol.posOf_direct hd
  have h0 : (s.icache ip).copy.addrs (Fin.castSucc ⟨c, hd⟩) = 0 := by
    by_contra hne
    apply Nat.lt_irrefl c
    apply (hmaps c).mp
    rw [Vol.addrOf_pos hp, Vol.refAt_direct, vol_dino_self]
    intro hz
    exact hne (UInt32.toNat_inj.mp hz)
  rw [bmap, dif_pos hd]
  refine (bmapAddr_ends hrefs hR h h0).imp ?_
  rintro ⟨b, s'⟩ ⟨hb, hfree, hvol, hhas, hframe⟩
  have g := Vol.gives_direct hrefs hb hfree hl ⟨c, hd⟩
  rw [← hvol] at g
  have hind := g.refAt (s.icache ip).inum .indirect hl
  rw [if_neg (fun hc => Pos.noConfusion hc.2), Vol.refAt_indirect, Vol.refAt_indirect] at hind
  refine ⟨Mapped.of_gives hrefs hmaps hp g hframe, ?_,
    ⟨insert b R, subset_insert _ _, ?_, ?_⟩, hhas.free⟩
  · rw [hind]
    rintro (hge | hne)
    · exact absurd hd (by omega)
    · exact hne
  · rw [hind]
    exact fun hne => mem_insert_of_mem (hindR hne)
  · exact fun hP => (hhas.room hP).write_mem (mem_insert_self b R)

theorem bmap_entry (hd : ¬ c < NDIRECT) (he : c - NDIRECT < NINDIRECT)
    (hind : (s.vol sb ip).ind (s.icache ip).inum ≠ 0) (h : Has sb P F s R (k + 1) (f + 1)) :
    Ends (bmap sb s ip c) (Stops P F) (Bmapped sb P F ip s c c R k f) := by
  rw [bmap, dif_neg hd, if_pos he, bmapAddr_some vol_ind.symm hind, ok_bind]
  dsimp only
  refine (bmapEntry_next hrefs hl hmaps hd he rfl hind (hindR hind) hR h).imp ?_
  rintro ⟨b, s'⟩ ⟨hm, hind', hhas⟩
  have hne : (s'.vol sb ip).ind (s.icache ip).inum ≠ 0 := by rwa [hind']
  refine ⟨hm, fun _ => hne, ⟨insert b R, subset_insert b R, fun _ => ?_, fun hP => ?_⟩, hhas.free⟩
  · rw [hind']
    exact mem_insert_of_mem (hindR hind)
  · exact (hhas.room hP).write_mem (mem_insert_self b R)

omit hindR in
theorem bmap_indirect (hd : ¬ c < NDIRECT) (he : c - NDIRECT < NINDIRECT)
    (hind : (s.vol sb ip).ind (s.icache ip).inum = 0) (h : Has sb P F s R (k + 1 + 1) (f + 1 + 1)) :
    Ends (bmap sb s ip c) (Stops P F) (Bmapped sb P F ip s c c R k f) := by
  have h0 : (s.icache ip).copy.addrs (Fin.last NDIRECT) = 0 := by
    rw [vol_ind] at hind
    exact UInt32.toNat_inj.mp hind
  rw [bmap, dif_neg hd, if_pos he]
  refine (bmapAddr_ends hrefs hR h h0).bind ?_
  rintro ⟨a, s1⟩ ⟨ha, hfree, hvol, hhas1, hframe⟩
  dsimp only at ha hfree hvol hhas1 hframe
  have g := Vol.gives_indirect hrefs ha hfree hl hind
  rw [← hvol] at g
  have hinum := hframe.inum
  have hl1 := (g.live_iff (s.icache ip).inum).mpr hl
  have hind1 : (s1.vol sb ip).ind (s.icache ip).inum = a := by
    have := g.refAt (s.icache ip).inum .indirect hl
    rwa [if_pos ⟨rfl, rfl⟩] at this
  have hmaps1 := g.maps_indirect hmaps
  have ha0 : a ≠ 0 := by
    rintro rfl
    have := (hrefs.free hfree).1
    have := sb.dataStart_pos
    omega
  rw [← hinum] at hind1 hmaps1 hl1
  refine (bmapEntry_next (g.refs hrefs hind) hl1 hmaps1 hd he hind1 ha0 (mem_insert_self a R)
    (hR.trans (subset_insert a R)) hhas1).imp ?_
  rintro ⟨b, s'⟩ ⟨hm, hind', hhas'⟩
  dsimp only at hm hind' hhas'
  have hext := hm.ext
  have hmaps' := hm.maps
  have haddr' := hm.addr
  rw [hinum] at hind' hext hmaps' haddr'
  refine ⟨⟨hm.refs, (g.ext hrefs hind).trans hext, hmaps', haddr', hm.ne, hframe.trans hm.frame,
    fun hc => absurd hc (Nat.lt_irrefl c)⟩, fun _ => hind' ▸ ha0, ⟨insert b (insert a R),
    (subset_insert a R).trans (subset_insert b _), fun _ => ?_, fun hP => ?_⟩,
    hhas'.free⟩
  · rw [hind']
    exact mem_insert_of_mem (mem_insert_self a R)
  · exact (hhas'.room hP).write_mem (mem_insert_self b _)

end Cases

/-- The blocks that mapping block number `bn` of file `i` may need for the indirect block. -/
def Vol.lack (v : Vol) (i bn : Nat) : Nat := if NDIRECT ≤ bn ∧ v.ind i = 0 then 1 else 0

theorem bmap_ends {bn c : Nat} (hrefs : (s.vol sb ip).Refs sb)
    (hl : (s.vol sb ip).Live sb (s.icache ip).inum)
    (hmaps : (s.vol sb ip).Maps (s.icache ip).inum c) (hbn : bn ≤ c) (hmax : bn < MAXFILE)
    (hR : sb.bitmap ⊆ R)
    (hindR : (s.vol sb ip).ind (s.icache ip).inum ≠ 0 → (s.vol sb ip).ind (s.icache ip).inum ∈ R)
    (h : Has sb P F s R (k + 1 + (s.vol sb ip).lack (s.icache ip).inum bn)
      (f + if bn < c then 0 else 1 + (s.vol sb ip).lack (s.icache ip).inum bn)) :
    Ends (bmap sb s ip bn) (Stops P F) (Bmapped sb P F ip s bn c R k f) := by
  by_cases hlt : bn < c
  · exact bmap_old hrefs hl hmaps hindR hlt (h.mono (le_refl R) (by omega) (by omega))
  obtain rfl : bn = c := by omega
  rw [if_neg hlt] at h
  by_cases hd : bn < NDIRECT
  · exact bmap_direct hrefs hl hmaps hR hindR hd (h.mono (le_refl R) (by omega) (by omega))
  have he : bn - NDIRECT < NINDIRECT := by simp only [MAXFILE] at hmax; omega
  by_cases hind : (s.vol sb ip).ind (s.icache ip).inum = 0
  · have hlack : (s.vol sb ip).lack (s.icache ip).inum bn = 1 := by
      rw [Vol.lack, if_pos ⟨by omega, hind⟩]
    rw [hlack] at h
    exact bmap_indirect hrefs hl hmaps hR hd he hind (h.mono (le_refl R) (by omega) (by omega))
  · exact bmap_entry hrefs hl hmaps hR hindR hd he hind (h.mono (le_refl R) (by omega) (by omega))

end Xv6.Fs
