import Xv6.Fs.Trunc

/-!
# Xv6.Fs.Owner

Block ownership: `ialloc`, `writei`, `itrunc` and `iput` keep the file system well formed.
-/

namespace Xv6.Fs

open Function Finset

section Ownership

variable {sb : Superblock} {F : Prop} {s : FS} {ip : Fin NINODE}

theorem Vol.WellFormed.setDino {v : Vol} {i : Nat} {d : Dinode} (h : v.WellFormed sb)
    (hnone : ∀ q x, ¬ v.Refers sb (i, q) x) (haddrs : ∀ k, d.addrs k = 0) (hsize : d.size = 0) :
    ({ v with dino := update v.dino i d } : Vol).WellFormed sb := by
  generalize hw : ({ v with dino := update v.dino i d } : Vol) = w
  have hself : w.dino i = d := by rw [← hw]; exact update_self _ _ _
  have hother : ∀ j, j ≠ i → w.dino j = v.dino j := fun j hj => by
    rw [← hw]; exact update_of_ne hj _ _
  have hblk : w.blk = v.blk := by rw [← hw]
  have hzero : ∀ k, (w.dino i).addrs k = 0 := by rw [hself]; exact haddrs
  refine ⟨h.refs.same (by rw [← hw]) ?_, ?_⟩
  · rintro ⟨j, q⟩ x
    by_cases hj : j = i
    · subst hj
      refine iff_of_false ?_ (hnone q x)
      rintro ⟨-, hr, hx⟩
      exact hx (hr.symm.trans (refAt_zero hzero q))
    · have hr : w.refAt j q = v.refAt j q := refAt_congr (by rw [hother j hj]) (by rw [hblk]) q
      simp only [Refers, Live, hother j hj, hr]
  · intro j hj
    by_cases hji : j = i
    · subst hji
      have hsz : blocksOf (w.dino j).size.toNat = 0 := by rw [hself, hsize]; decide
      rw [hsz]
      exact maps_zero hzero
    · rw [Live, hother j hji] at hj
      rw [hother j hji]
      intro bn
      rw [addrOf_congr (hother j hji) hblk]
      exact h.maps j hj bn

theorem FsOk.setRef (h : FsOk sb s) (hip : 0 < (s.icache ip).ref) (r : Int) :
    FsOk sb (s.setInode ip { s.icache ip with ref := r }) := by
  refine h.of_locked hip h.wf (fun jp hjp => ?_) ?_ (fun _ _ => rfl) ?_
  · simp [FS.setInode, hjp]
  · simp [FS.setInode]
  · simp only [FS.setInode, update_self]
    exact fun _ hvalid => h.cache.valid ip hip hvalid

/-- What `ifree` leaves of an inode. -/
def Dinode.freed (d : Dinode) : Dinode := { d.empty with type := 0 }

theorem ifree_ends (h : FsOk sb s) (hip : Locked s ip) :
    Ends (ifree sb s ip) (Stops False F) fun s' =>
      FsOk sb s' ∧ Replaced sb ip (s.icache ip).copy.freed s s' ∧
        s'.icache = update s.icache ip
          { s.icache ip with valid := false, copy := (s.icache ip).copy.freed } := by
  refine (itrunc_ends h hip).bind ?_
  rintro s1 ⟨h1, hrep1, hic1⟩
  have hx1 : s1.icache ip = { s.icache ip with copy := (s.icache ip).copy.empty } := by
    rw [hic1, update_self]
  have hip1 : Locked s1 ip := by
    rw [Locked, hx1]
    exact hip
  have hinum1 := h1.cache.inum_lt ip hip1.1
  obtain ⟨hdino1, -⟩ := h1.cache.valid ip hip1.1 hip1.2
  have hempty : ∀ k, ((volOf sb s1.disk).dino (s1.icache ip).inum).addrs k = 0 := by
    intro k
    rw [hdino1, hx1]
    rfl
  show Ends (iupdate sb (s1.setInode ip { s1.icache ip with
    copy := { (s1.icache ip).copy with type := 0 } }) ip >>= _) _ _
  generalize hs2 : s1.setInode ip { s1.icache ip with
    copy := { (s1.icache ip).copy with type := 0 } } = s2
  have hx2 : s2.icache ip =
      { s1.icache ip with copy := { (s1.icache ip).copy with type := 0 } } := by
    rw [← hs2]
    simp [FS.setInode]
  refine (iupdate_ends (R := {sb.iblock (s2.icache ip).inum}) (k := 0) (by rw [hx2]; exact hinum1)
    (by simp) False.elim).bind ?_
  rintro s3 ⟨hd3, hic3, -, -⟩
  have hvol : volOf sb s3.disk = { volOf sb s1.disk with
      dino := update (volOf sb s1.disk).dino (s1.icache ip).inum
        { (s1.icache ip).copy with type := 0 } } := by
    rw [hd3, FS.vol, hx2, ← hs2]
    rfl
  refine ⟨h1.of_locked hip1.1 ?_ ?_ ?_ ?_ ?_, ⟨?_, ?_⟩, ?_⟩
  · show (volOf sb s3.disk).WellFormed sb
    rw [hvol]
    refine h1.wf.setDino ?_ ?_ ?_
    · rintro q x ⟨-, hr, hx⟩
      exact hx (hr.symm.trans (Vol.refAt_zero hempty q))
    · rw [hdino1] at hempty
      exact hempty
    · rw [hx1]
      rfl
  · intro jp hjp
    simp [FS.setInode, hjp, hic3, ← hs2]
  · simp [FS.setInode, hic3, hx2]
  · intro j hj
    show (volOf sb s3.disk).dino j = _
    rw [hvol]
    exact update_of_ne hj _ _
  · simp [FS.setInode]
  · show (volOf sb s3.disk).dino = _
    rw [hvol, hrep1.dino, hx1]
    exact update_idem _ _ _
  · show (volOf sb s3.disk).blk = _
    rw [hvol]
    exact hrep1.blk
  · simp only [FS.setInode, hic3, hx1, ← hs2, update_idem, update_self, hic1]
    rfl

theorem iput_ends (h : FsOk sb s) (hip : 0 < (s.icache ip).ref) :
    Ends (iput sb s ip) (Stops False F) fun s' => FsOk sb s' := by
  simp only [iput]
  split
  · rename_i hc
    simp only [Bool.and_eq_true, decide_eq_true_eq] at hc
    refine (ifree_ends h ⟨hip, hc.1.1⟩).bind ?_
    rintro s' ⟨h', -, hic⟩
    refine h'.setRef ?_ _
    rw [hic, update_self]
    exact hip
  · exact h.setRef hip _

theorem iget_ends {inum : Nat} (h : FsOk sb s) (hlt : inum < sb.ninodes) :
    Ends (iget s inum) (· = .igetNoInodes) fun r => FsOk sb r.2 := by
  rw [iget]
  cases hfound : (List.finRange NINODE).find? fun ip =>
      0 < (s.icache ip).ref ∧ (s.icache ip).inum = inum with
  | some ip =>
    have hip := List.find?_some hfound
    simp only [decide_eq_true_eq] at hip
    exact h.setRef hip.1 _
  | none =>
    have hnone : ∀ ip, 0 < (s.icache ip).ref → (s.icache ip).inum ≠ inum := by
      intro ip hip heq
      have := List.find?_eq_none.mp hfound ip (List.mem_finRange ip)
      simp [hip, heq] at this
    cases hempty : (List.finRange NINODE).find? fun ip => (s.icache ip).ref = 0 with
    | none => rfl
    | some ip =>
      -- the recycled entry is not valid yet and differs from all others
      refine ⟨h.wf, ?_, ?_, ?_⟩
      · intro jp hjp
        by_cases hj : jp = ip
        · subst hj; simpa [FS.setInode] using hlt
        · simp only [FS.setInode, update_of_ne hj] at hjp ⊢
          exact h.cache.inum_lt jp hjp
      · intro jp kp hjp hkp heq
        by_cases hj : jp = ip <;> by_cases hk : kp = ip
        · rw [hj, hk]
        · subst hj
          simp only [FS.setInode, update_self, update_of_ne hk] at hkp heq
          exact absurd heq.symm (hnone kp hkp)
        · subst hk
          simp only [FS.setInode, update_self, update_of_ne hj] at hjp heq
          exact absurd heq (hnone jp hjp)
        · simp only [FS.setInode, update_of_ne hj, update_of_ne hk] at hjp hkp heq
          exact h.cache.inj jp kp hjp hkp heq
      · intro jp hjp hvalid
        by_cases hj : jp = ip
        · subst hj; simp [FS.setInode] at hvalid
        · simp only [FS.setInode, update_of_ne hj] at hjp hvalid ⊢
          exact h.cache.valid jp hjp hvalid

/-- Blocks, inodes, cache entries or log space have run out. -/
def Exhausted : Panic → Prop
  | .ballocOutOfBlocks | .iallocNoInodes | .igetNoInodes => True
  | .tooBigTransaction | .logWriteOutsideTrans => True
  | _ => False

theorem exhausted_of_stops {P F : Prop} {e : Panic} (h : Stops P F e) : Exhausted e := by
  rcases h with ⟨-, rfl | rfl⟩ | ⟨-, rfl⟩ <;> trivial

theorem ialloc_ends (h : FsOk sb s) (type : Int16) :
    Ends (ialloc sb s type) Exhausted fun r => FsOk sb r.2 := by
  rw [ialloc]
  cases hfind : (List.range sb.ninodes).find? fun inum =>
      1 ≤ inum ∧ (getDinode (s.disk (sb.iblock inum)) (inum % IPB)).type = 0 with
  | none => trivial
  | some inum =>
    have hlt : inum < sb.ninodes := List.mem_range.mp (List.mem_of_find?_eq_some hfind)
    have htype : ((volOf sb s.disk).dino inum).type = 0 := by
      have := List.find?_some hfind
      simp only [decide_eq_true_eq] at this
      simpa [volOf, hlt] using this.2
    have hno : False → ∃ g, s.log.logWrite (sb.iblock inum) = .ok g ∧ Log.Room g ∅ 0 := False.elim
    refine Ends.bind
      ((logWrite_ends (F := True) _ hno).mono (fun _ => exhausted_of_stops) fun _ => id) ?_
    rintro s1 ⟨g, hs1, -, -⟩
    have hvol : volOf sb s1.disk = { volOf sb s.disk with
        dino := update (volOf sb s.disk).dino inum (.fresh type) } := by
      rw [hs1]
      exact volOf_setDinode hlt _
    have hic : s1.icache = s.icache := by rw [hs1]
    have h1 : FsOk sb s1 := by
      refine ⟨?_, by rw [hic]; exact h.cache.inum_lt, by rw [hic]; exact h.cache.inj, ?_⟩
      · rw [hvol]
        refine h.wf.setDino ?_ (fun _ => rfl) rfl
        rintro q x ⟨hl, -⟩
        exact hl.2 htype
      · intro ip hip hvalid
        rw [hic] at hip hvalid ⊢
        obtain ⟨heq, hne⟩ := h.cache.valid ip hip hvalid
        refine ⟨?_, hne⟩
        rw [hvol]
        refine (update_of_ne ?_ _ _).trans heq
        intro hi
        exact hne (heq ▸ hi ▸ htype)
    refine (iget_ends h1 hlt).mono ?_ fun _ => id
    rintro _ rfl
    trivial

theorem writei_owner {dev : Devsw} {src : Nat → UInt8} {off n : UInt32} (h : FsOk sb s)
    (hip : Locked s ip) : Ends (writei sb dev s ip src off n) Exhausted fun r => FsOk sb r.2 := by
  by_cases hdev : (s.icache ip).copy.type = T_DEV
  · simp only [writei, hdev, if_true]
    split
    · exact h
    · split <;> exact h
  · by_cases h1 : off > (s.icache ip).copy.size ∨ off + n < off
    · simp only [writei, hdev, if_false, h1, if_true]
      exact h
    · by_cases h2 : off + n > UInt32.ofNat (MAXFILE * BSIZE)
      · simp only [writei, hdev, if_false, h1, h2, if_true]
        exact h
      · exact (writei_written h hip hdev h1 h2).mono (fun _ => exhausted_of_stops)
          fun _ hr => hr.2.ok

/-- From a well-formed state, `ialloc`, `writei`, `itrunc` and `iput` end in a well-formed state or
in a panic of an exhausted resource; no other panic, in particular not `freeing free block`, is
reached. -/
theorem block_ownership (dev : Devsw) (h : FsOk sb s) :
    (∀ type, Ends (ialloc sb s type) Exhausted fun r => FsOk sb r.2) ∧
    (∀ ip src off n, Locked s ip →
      Ends (writei sb dev s ip src off n) Exhausted fun r => FsOk sb r.2) ∧
    (∀ ip, Locked s ip → Ends (itrunc sb s ip) Exhausted fun s' => FsOk sb s') ∧
    (∀ ip, 0 < (s.icache ip).ref → Ends (iput sb s ip) Exhausted fun s' => FsOk sb s') := by
  refine ⟨fun type => ialloc_ends h type, fun ip src off n hip => writei_owner h hip,
    fun ip hip => ?_, fun ip hip => ?_⟩
  · exact (itrunc_ends (F := True) h hip).mono (fun _ => exhausted_of_stops) fun _ hr => hr.1
  · exact (iput_ends (F := True) h hip).mono (fun _ => exhausted_of_stops) fun _ => id

end Ownership

namespace Vol

section Single

variable {sb : Superblock} {v : Vol} {i : Nat}
  (haddr : ∀ k, (v.dino i).addrs k = if k.val = 0 then UInt32.ofNat sb.dataStart else 0)

include haddr

theorem ind_single : v.ind i = 0 := by
  rw [ind, haddr, if_neg (by decide)]
  rfl

theorem refAt_single (q : Pos) : v.refAt i q = if q = .direct 0 then sb.dataStart else 0 := by
  cases q with
  | direct k =>
    have hstart : (UInt32.ofNat sb.dataStart).toNat = sb.dataStart := by
      have := sb.size_lt
      rw [UInt32.toNat_ofNat']
      simp only [Superblock.dataStart]
      omega
    rw [refAt_direct, haddr]
    by_cases hk : k = 0
    · subst hk
      exact hstart
    · have hval : k.castSucc.val ≠ 0 := fun h => hk (Fin.ext h)
      rw [if_neg hval, if_neg fun h => hk (Pos.direct.inj h)]
      rfl
  | indirect => simpa [refAt_indirect] using ind_single haddr
  | entry e => simp [refAt_entry, ind_single haddr]

variable (hlive : ∀ j, v.Live sb j ↔ j = i)

include hlive

theorem refers_single (r : Nat × Pos) (x : Nat) :
    v.Refers sb r x ↔ r = (i, .direct 0) ∧ x = sb.dataStart := by
  obtain ⟨j, q⟩ := r
  simp only [Refers, hlive, Prod.mk.injEq]
  constructor
  · rintro ⟨rfl, hr, hx⟩
    rw [refAt_single haddr] at hr
    split at hr
    · rename_i hq
      exact ⟨⟨rfl, hq⟩, hr.symm⟩
    · exact absurd hr.symm hx
  · rintro ⟨⟨rfl, rfl⟩, rfl⟩
    exact ⟨rfl, by rw [refAt_single haddr, if_pos rfl], sb.dataStart_pos.ne'⟩

theorem wellFormed_single (hbit : ∀ b, b < sb.size → v.bit b = decide (b ≤ sb.dataStart))
    (hdata : sb.dataStart < sb.size) (hsize : blocksOf (v.dino i).size.toNat = 1) :
    v.WellFormed sb := by
  have hrefers := refers_single haddr hlive
  refine ⟨⟨fun b h1 h2 => ?_, fun b r r' hr hr' => ?_, fun b r hr => ?_, fun b hb => ?_⟩, ?_⟩
  · simp only [hbit b h2, decide_eq_true_eq, hrefers]
    constructor
    · intro hb
      exact ⟨(i, .direct 0), ⟨rfl, by omega⟩, fun r hr => hr.1⟩
    · rintro ⟨r, ⟨-, rfl⟩, -⟩
      exact le_rfl
  · rw [hrefers] at hr hr'
    rw [hr.1, hr'.1]
  · rw [hrefers] at hr
    rw [hr.2]
    exact ⟨le_rfl, hdata⟩
  · simp only [hbit b (hb.trans hdata), decide_eq_true_eq]
    exact hb.le
  · intro j hj
    obtain rfl := (hlive j).mp hj
    rw [hsize]
    have hpos : posOf 0 = some (.direct 0) := posOf_direct (by decide)
    have hstart := sb.dataStart_pos
    intro bn
    cases hq : posOf bn with
    | none =>
      have hne : bn ≠ 0 := by rintro rfl; rw [hpos] at hq; cases hq
      simp only [addrOf, hq, Option.map_none, Option.getD_none]
      omega
    | some q =>
      rw [addrOf_pos hq, refAt_single haddr]
      by_cases hd : q = .direct 0
      · subst hd
        rw [if_pos rfl, posOf_inj hq hpos]
        omega
      · have hne : bn ≠ 0 := by
          rintro rfl
          rw [hpos] at hq
          exact hd (Option.some.inj hq).symm
        simp only [hd, if_false]
        omega

end Single

end Vol

/-! ## A small file system

128 blocks, two inodes, and a file of five bytes in the first data block. The file is held through
cache entry 0 inside an open transaction. -/

namespace Sample

def sb : Superblock where
  size := 128
  nblocks := 94
  ninodes := 2
  nlog := LOGSIZE
  logstart := 2
  inodestart := 32
  bmapstart := 33
  log_ge := by decide
  inode_ge := by decide
  bmap_gt := by decide
  data_gt := by decide
  size_lt := by decide
  ninodes_lt := by decide

def file : Dinode where
  type := T_FILE
  major := 0
  minor := 0
  nlink := 1
  size := 5
  addrs := fun k => if k = 0 then 34 else 0

/-- Blocks 0 to 34 are in use. -/
def bitmapBlock : Block := fun p => if p.val < 4 then 255 else if p.val = 4 then 7 else 0

def disk (b : Nat) : Block :=
  if b = 33 then bitmapBlock else if b = 32 then setDinode Block.zero 1 file else Block.zero

def fs : FS where
  disk := disk
  log := { size := LOGSIZE, outstanding := 1, committing := false, lh := .empty }
  icache := fun ip =>
    if ip = 0 then { inum := 1, ref := 1, valid := true, copy := file }
    else { inum := 0, ref := 0, valid := false, copy := default }

/-- No device driver is installed. -/
def dev : Devsw := ⟨fun _ => none, fun _ => none⟩

theorem bblock_eq {b : Nat} (hb : b < 128) : sb.bblock b = 33 := by
  simp only [Superblock.bblock, sb, BPB, BSIZE]
  omega

theorem getBit_bitmap : ∀ b : Fin 128, getBit bitmapBlock b.val = decide (b.val < 35) := by decide

theorem bit_eq : ∀ b, b < 128 → (volOf sb disk).bit b = decide (b < 35) := by
  intro b hb
  have hmod : b % BPB = b := Nat.mod_eq_of_lt (by simp only [BPB, BSIZE]; omega)
  have hlt : b < sb.size := hb
  simp only [volOf, hlt, if_true, bblock_eq hb, hmod]
  exact getBit_bitmap ⟨b, hb⟩

theorem dino_one : (volOf sb disk).dino 1 = file :=
  getDinode_setDinode_same (by decide) file

theorem live_iff (j : Nat) : (volOf sb disk).Live sb j ↔ j = 1 := by
  constructor
  · rintro ⟨hlt, htype⟩
    have hlt' : j < 2 := hlt
    by_contra hj
    obtain rfl : j = 0 := by omega
    apply htype
    have : (volOf sb disk).dino 0 = getDinode Block.zero 0 :=
      getDinode_setDinode_other (by decide) (by decide) file
    rw [this]
    decide
  · rintro rfl
    refine ⟨by decide, ?_⟩
    rw [dino_one]
    decide

theorem addrs_one (k : Fin (NDIRECT + 1)) : ((volOf sb disk).dino 1).addrs k =
    if k.val = 0 then UInt32.ofNat sb.dataStart else 0 := by
  rw [dino_one]
  revert k
  decide

theorem ind_one : (volOf sb disk).ind 1 = 0 := Vol.ind_single addrs_one

theorem wellFormed : (volOf sb disk).WellFormed sb := by
  refine Vol.wellFormed_single addrs_one live_iff (fun b hb => ?_) (by decide) ?_
  · have hstart : sb.dataStart = 34 := rfl
    rw [bit_eq b hb, hstart]
    exact decide_eq_decide.mpr Nat.lt_succ_iff
  · rw [dino_one]
    decide

theorem ok : FsOk sb fs := by
  refine ⟨wellFormed, ?_, ?_, ?_⟩
  · intro ip hip
    by_cases h : ip = 0
    · subst h; decide
    · simp [fs, h] at hip
  · intro ip jp hip hjp _
    by_cases h : ip = 0 <;> by_cases h' : jp = 0
    · rw [h, h']
    · simp [fs, h'] at hjp
    · simp [fs, h] at hip
    · simp [fs, h] at hip
  · intro ip hip _
    by_cases h : ip = 0
    · subst h
      exact ⟨dino_one, by decide⟩
    · simp [fs, h] at hip

theorem locked : Locked fs 0 := ⟨by decide, rfl⟩

theorem freeCount_eq : Vol.freeCount sb (volOf sb disk) = 93 := by
  have h : (Finset.range sb.size).filter (fun b => (volOf sb disk).bit b = false) =
      (Finset.range 128).filter fun b => decide (b < 35) = false := by
    refine filter_congr fun b hb => ?_
    rw [bit_eq b (mem_range.mp hb)]
  rw [Vol.freeCount, h]
  decide

theorem logTargets_card : (logTargets sb fs 0).card ≤ 2 := by
  have hsub : logTargets sb fs 0 ⊆ {32, 33} := by
    intro x
    have hind : (volOf sb fs.disk).ind (fs.icache 0).inum = 0 := ind_one
    simp only [logTargets, hind, if_true, mem_insert, Superblock.bitmap, mem_image,
      mem_range, mem_singleton]
    rintro (rfl | ⟨b, hb, rfl⟩)
    · exact .inl rfl
    · exact .inr (bblock_eq hb)
  exact card_le_card hsub

end Sample

theorem block_ownership_sample : FsOk Sample.sb Sample.fs ∧ Locked Sample.fs 0 ∧
    Ends (ialloc Sample.sb Sample.fs T_DIR) Exhausted (fun r => FsOk Sample.sb r.2) ∧
    Ends (writei Sample.sb Sample.dev Sample.fs 0 (fun _ => 7) 3 600) Exhausted
      (fun r => FsOk Sample.sb r.2) ∧
    Ends (itrunc Sample.sb Sample.fs 0) Exhausted (FsOk Sample.sb) ∧
    Ends (iput Sample.sb Sample.fs 0) Exhausted (FsOk Sample.sb) := by
  obtain ⟨h1, h2, h3, h4⟩ := block_ownership Sample.dev Sample.ok
  exact ⟨Sample.ok, Sample.locked, h1 T_DIR, h2 0 _ 3 600 Sample.locked, h3 0 Sample.locked,
    h4 0 Sample.locked.1⟩

end Xv6.Fs
