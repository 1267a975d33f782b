import Xv6.Mkfs.Trusted
import Xv6.Sys.Through

/-!
# Xv6.Mkfs.ReadBack

What `mkfs` writes, the kernel reads back.

`dirlookup` reads the root directory entry by entry and stops at the first one with the name. It
therefore reads bytes that `mkfs` has written only, also when the last block of the directory has no
address, and finds the inode of the file; `readi` then gives the bytes of the file.
-/

namespace Xv6.Mkfs

open Fs Bytes List
open Sys (ROOTINO Dirent St Stop dot dotdot SLASH entAt nents Whole dirlookup scan onFs ilock)

section Names

variable {a b : List UInt8}

theorem hasName_make (ha : 0 ∉ a) (hb : 0 ∉ b) (i : Nat) :
    Dirent.hasName a (Dirent.make b i) = true ↔
      UInt16.ofNat i ≠ 0 ∧ a.take DIRSIZ = b.take DIRSIZ := by
  rw [Dirent.hasName_eq ha, Dirent.key_make hb, Bool.and_eq_true, bne_iff_ne, beq_iff_eq,
    eq_comm (a := a.take DIRSIZ)]
  rfl

theorem eq_of_take_eq (hb : b.length < DIRSIZ) (h : a.take DIRSIZ = b.take DIRSIZ) : a = b := by
  rw [take_of_length_le hb.le] at h
  have hlen := congrArg List.length h
  rw [length_take] at hlen
  rw [← h, take_of_length_le (by omega)]

end Names

/-- Names that an entry can hold and that tell the entries apart. -/
structure GoodNames (files : List Input) : Prop where
  noNul : ∀ f ∈ files, 0 ∉ f.name
  nonempty : ∀ f ∈ files, f.name ≠ []
  noDots : ∀ f ∈ files, f.name ≠ dot ∧ f.name ≠ dotdot
  distinct : files.Pairwise fun f g => f.name.take DIRSIZ ≠ g.name.take DIRSIZ

section Entries

variable {files : List Input} {f : Input} {k : Nat}

theorem rootEnts_file (hk : files[k]? = some f) :
    (rootEnts files).getD (k + 2) Dirent.zero = Dirent.make f.name (k + 2) := by
  simp [rootEnts, hk]

theorem rootEnts_first (hn : GoodNames files) (hlen : files.length + 1 < NINODES)
    (hk : files[k]? = some f) :
    Dirent.hasName f.name ((rootEnts files).getD (k + 2) Dirent.zero) = true ∧
      ∀ j, j < k + 2 →
        Dirent.hasName f.name ((rootEnts files).getD j Dirent.zero) = false := by
  have hmem : f ∈ files := mem_of_getElem? hk
  have hf := hn.noNul f hmem
  have hlt : k < files.length := (List.getElem?_eq_some_iff.mp hk).1
  constructor
  · rw [rootEnts_file hk, hasName_make hf hf]
    refine ⟨fun h => ?_, rfl⟩
    have hnat := congrArg UInt16.toNat h
    rw [UInt16.toNat_ofNat_of_lt' (by simp only [NINODES] at hlen; show _ < 65536; omega)] at hnat
    exact absurd hnat (by simp)
  · intro j hj
    rw [← Bool.not_eq_true]
    match j, hj with
    | 0, _ =>
      intro h
      exact (hn.noDots f hmem).1 (eq_of_take_eq (by decide)
        ((hasName_make hf (by decide) 1).mp h).2)
    | 1, _ =>
      intro h
      exact (hn.noDots f hmem).2 (eq_of_take_eq (by decide)
        ((hasName_make hf (by decide) 1).mp h).2)
    | j + 2, hj =>
      obtain ⟨g, hg⟩ : ∃ g, files[j]? = some g :=
        ⟨files[j], getElem?_eq_getElem (by omega)⟩
      rw [rootEnts_file hg]
      intro h
      obtain ⟨hj', rfl⟩ := List.getElem?_eq_some_iff.mp hg
      obtain ⟨hk', rfl⟩ := List.getElem?_eq_some_iff.mp hk
      exact pairwise_iff_getElem.mp hn.distinct j k hj' hk' (by omega)
        ((hasName_make hf (hn.noNul _ (getElem_mem hj')) _).mp h).2.symm

end Entries

/-- The directory `dp` begins with the bytes `data`, and they have blocks. -/
structure Begins (s : St) (dp : Fin NINODE) (data : List UInt8) : Prop where
  readable : Readable sb s.fs dp 0 data.length
  notDev : (s.fs.icache dp).copy.type ≠ T_DEV
  len_le : data.length ≤ (s.fs.icache dp).copy.size.toNat
  small : data.length ≤ MAXFILE * BSIZE
  take_eq : ((volOf sb s.fs.disk).contents (s.fs.icache dp).inum).take data.length = data

section Scan

variable {s : St} {dp : Fin NINODE} {data : List UInt8} {dev : Devsw}

theorem readi_begins (h : Begins s dp data) {j : Nat} (hj : j < nents data) :
    onFs (readi sb dev · dp (.ofNat (Dirent.size * j)) (.ofNat Dirent.size)) s =
      .ok (((Dirent.size : Nat), (data.drop (Dirent.size * j)).take Dirent.size), s) := by
  have hend : Dirent.size * j + Dirent.size ≤ data.length := by
    simp only [nents, Dirent.size] at hj ⊢
    omega
  have hlen := h.len_le
  have hsmall : Dirent.size * j ≤ MAXFILE * BSIZE := by
    have := h.small
    omega
  have hoff := Sys.toNat_ofNat_of_le hsmall
  have hn : (UInt32.ofNat Dirent.size).toNat = Dirent.size := rfl
  have hread := @readi_mapped sb s.fs dp dev (.ofNat (Dirent.size * j)) (.ofNat Dirent.size)
    (h.readable.mono (Nat.zero_le _) (by rw [hoff, hn]; omega)) h.notDev (by
      rw [not_or, GT.gt, UInt32.lt_iff_toNat_lt, hoff]
      exact ⟨by omega, Sys.ent_no_wrap hsmall⟩)
  have hsplit := take_append_drop data.length
    ((volOf sb s.fs.disk).contents (s.fs.icache dp).inum)
  rw [h.take_eq] at hsplit
  rw [hoff, hn, ← hsplit, drop_append_of_le_length (by omega),
    take_append_of_le_length (by rw [length_drop]; omega),
    Nat.min_eq_left (by omega)] at hread
  simp only [onFs, hread]

theorem scan_turn (h : Begins s dp data) {bad : Stop} {found : Dirent → Bool} {j : Nat}
    (hj : j < nents data) :
    scan sb dev dp bad found (s.fs.icache dp).copy.size.toNat (Dirent.size * j) s =
      if found (entAt data j) then .ok ((Dirent.size * j, some (entAt data j)), s)
      else scan sb dev dp bad found (s.fs.icache dp).copy.size.toNat (Dirent.size * (j + 1)) s := by
  have hlt : Dirent.size * j < (s.fs.icache dp).copy.size.toNat := by
    have := h.len_le
    simp only [nents, Dirent.size] at hj ⊢
    omega
  rw [scan, if_pos hlt]
  simp only [bind]
  rw [StateT.bind, readi_begins h hj]
  show (ite (found (entAt data j) = true) (pure (Dirent.size * j, some (entAt data j)))
    (scan sb dev dp bad found _ (Dirent.size * j + Dirent.size)) : Sys.M _) s = _
  split
  · rfl
  · rw [Nat.mul_succ]

theorem scan_begins (h : Begins s dp data) {bad : Stop} {found : Dirent → Bool} (d j : Nat)
    (hk : j + d < nents data) (hat : found (entAt data (j + d)) = true)
    (hbefore : ∀ i, i < j + d → found (entAt data i) = false) :
    scan sb dev dp bad found (s.fs.icache dp).copy.size.toNat (Dirent.size * j) s =
      .ok ((Dirent.size * (j + d), some (entAt data (j + d))), s) := by
  induction d generalizing j with
  | zero =>
    rw [Nat.add_zero] at hk hat ⊢
    rw [scan_turn h hk, if_pos hat]
  | succ d ih =>
    have hj : found (entAt data j) = false := hbefore j (by omega)
    have hnext : j + 1 + d = j + (d + 1) := by omega
    rw [scan_turn h (by omega), if_neg (by rw [hj]; exact Bool.false_ne_true), ← hnext]
    exact ih (j + 1) (hnext ▸ hk) (hnext ▸ hat) (hnext ▸ hbefore)

theorem dirlookup_begins (h : Begins s dp data) (hdir : (s.fs.icache dp).copy.type = T_DIR)
    {name : List UInt8} {k : Nat} {E : Stop → Prop} {Q : Fin NINODE → St → Prop}
    (hk : k < nents data) (hat : Dirent.hasName name (entAt data k) = true)
    (hbefore : ∀ i, i < k → Dirent.hasName name (entAt data i) = false)
    (hget : Triple (· = s) (Sys.iget (entAt data k).inum.toNat) E Q) :
    Triple (· = s) (dirlookup sb dev dp name) E fun r s' => ∃ ip off, r = some (ip, off) ∧
      Q ip s' := by
  have hscan : scan sb dev dp .dirlookupRead (Dirent.hasName name) _ (Dirent.size * 0) s = _ :=
    scan_begins h k 0 (by omega) (by rw [Nat.zero_add]; exact hat)
      (by rw [Nat.zero_add]; exact hbefore)
  rw [Nat.zero_add] at hscan
  refine .bind (Q := fun x s' => x = s.fs.icache dp ∧ s' = s) ?_
    fun x => .of_imp fun hx => ?_
  · rintro _ rfl
    exact ⟨rfl, rfl⟩
  subst hx
  refine .ite (fun hne => absurd hdir hne) fun _ => ?_
  refine .bind (Q := fun r s' => r = (Dirent.size * k, some (entAt data k)) ∧ s' = s) ?_
    fun r => .of_imp fun hr => ?_
  · rintro _ rfl
    rw [show (0 : Nat) = Dirent.size * 0 from rfl, hscan]
    exact ⟨rfl, rfl⟩
  subst hr
  exact .bind hget fun ip => .pure fun s' hs' => ⟨ip, _, rfl, hs'⟩

end Scan

/-- The inode cache has no free entry, and none for inode `inum`. -/
def CacheFull (fs : FS) (inum : Nat) : Prop :=
  ∀ ip, (fs.icache ip).ref ≠ 0 ∧ ¬ (0 < (fs.icache ip).ref ∧ (fs.icache ip).inum = inum)

/-- `ip` is a reference to inode `inum`, taken in `s`. -/
structure Fetched (s s' : St) (ip : Fin NINODE) (inum : Nat) : Prop where
  disk : s'.fs.disk = s.fs.disk
  locked : s'.locked = s.locked
  inum_eq : (s'.fs.icache ip).inum = inum
  ref_pos : 0 < (s'.fs.icache ip).ref
  copy_eq : (s'.fs.icache ip).valid = true →
    (volOf sb s.fs.disk).dino inum = (s'.fs.icache ip).copy
  other : ∀ jp, 0 < (s.fs.icache jp).ref → (s.fs.icache jp).inum ≠ inum → jp ≠ ip

section Inode

variable {s s' : St} {ip : Fin NINODE} {inum : Nat}

theorem iget_fetched (hc : Coherent sb s.fs) (inum : Nat) : Triple (· = s) (Sys.iget inum)
      (fun e => e = .fs .igetNoInodes ∧ CacheFull s.fs inum) fun ip s' => Fetched s s' ip inum := by
  rintro _ rfl
  rename_i s
  simp only [Sys.iget, onFs, Fs.iget]
  cases hfound : (finRange NINODE).find? fun ip =>
      0 < (s.fs.icache ip).ref ∧ (s.fs.icache ip).inum = inum with
  | some ip =>
    have hip := List.find?_some hfound
    simp only [decide_eq_true_eq] at hip
    obtain ⟨href, rfl⟩ := hip
    refine ⟨rfl, rfl, ?_, ?_, ?_, fun jp _ hne heq => hne (heq ▸ rfl)⟩
    · simp [FS.setInode]
    · simp only [FS.setInode, Function.update_self]
      omega
    · simp only [FS.setInode, Function.update_self]
      exact fun hv => (hc.valid ip href hv).1
  | none =>
    have hnone : ∀ ip, ¬ (0 < (s.fs.icache ip).ref ∧ (s.fs.icache ip).inum = inum) := by
      simpa using hfound
    cases hfree : (finRange NINODE).find? fun ip => (s.fs.icache ip).ref = 0 with
    | some ip =>
      have hip := List.find?_some hfree
      simp only [decide_eq_true_eq] at hip
      refine ⟨rfl, rfl, ?_, ?_, ?_, fun jp hj _ heq => ?_⟩
      · simp [FS.setInode]
      · simp [FS.setInode]
      · simp [FS.setInode]
      · rw [heq, hip] at hj
        exact absurd hj (lt_irrefl _)
    | none =>
      have hused : ∀ ip, (s.fs.icache ip).ref ≠ 0 := by simpa using hfree
      exact ⟨rfl, fun ip => ⟨hused ip, hnone ip⟩⟩

theorem ilock_fetched (h : Fetched s s' ip inum) (hfree : s'.locked ip = false)
    (hl : (volOf sb s.fs.disk).Live sb inum) :
    ∃ s2, ilock sb ip s' = .ok ((), s2) ∧ s2.fs.disk = s.fs.disk ∧
      (s2.fs.icache ip).inum = inum ∧
      (s2.fs.icache ip).copy = (volOf sb s.fs.disk).dino inum := by
  have href : ¬ (s'.fs.icache ip).ref < 1 := by
    have := h.ref_pos
    omega
  rw [Sys.Through.ilock_eq, if_neg href, if_neg (by rw [hfree]; exact Bool.false_ne_true),
    Sys.Through.iload_eq]
  have hdino : getDinode (s'.fs.disk (sb.iblock (s'.fs.icache ip).inum))
      ((s'.fs.icache ip).inum % IPB) = (volOf sb s.fs.disk).dino inum := by
    rw [h.inum_eq, h.disk]
    simp only [volOf]
    rw [if_pos hl.1]
  by_cases hv : (s'.fs.icache ip).valid = true
  · rw [if_pos hv]
    exact ⟨_, rfl, h.disk, h.inum_eq, (h.copy_eq hv).symm⟩
  · rw [if_neg hv]
    dsimp only
    rw [hdino, if_neg hl.2]
    refine ⟨_, rfl, h.disk, ?_, ?_⟩
    · simpa [St.setInode, FS.setInode] using h.inum_eq
    · simp [St.setInode, FS.setInode]

end Inode

/-- The kernel runs on the image: nothing has been written yet, the caller has locked the root
directory and nobody another inode. -/
structure Mounted (m : Mk) (s : St) (dp : Fin NINODE) : Prop where
  disk : s.fs.disk = m.disk
  cache : Coherent sb s.fs
  root : (s.fs.icache dp).inum = ROOTINO
  held : Locked s.fs dp
  free : ∀ ip, ip ≠ dp → s.locked ip = false

section Image

variable {b m : Mk} {files : List Input} {f : Input} {k : Nat} {s : St} {dp : Fin NINODE}

theorem Made.fbyte (h : Made b m files) (i j : Nat) :
    (volOf sb m.disk).fbyte i j = (view b).fbyte i j := by
  rw [h.vol, Vol.fbyte_setSize]

theorem Made.addrOf (h : Made b m files) (i bn : Nat) :
    (volOf sb m.disk).addrOf i bn = (view b).addrOf i bn := by
  rw [h.vol, Vol.addrOf_setSize]

/-- The inode of file `k`. -/
structure FileAt (m : Mk) (f : Input) (i : Nat) : Prop where
  live : (volOf sb m.disk).Live sb i
  type : ((volOf sb m.disk).dino i).type = T_FILE
  size : ((volOf sb m.disk).dino i).size.toNat = f.bytes.length
  contents : (volOf sb m.disk).contents i = f.bytes
  mapped : ∀ j, j < f.bytes.length → (volOf sb m.disk).addrOf i (j / BSIZE) ≠ 0

theorem Made.file (h : Made b m files) (hk : files[k]? = some f) : FileAt m f (k + 2) := by
  obtain ⟨data, -, -, htree⟩ := h.built.tree
  have hne : k + 2 ≠ ROOTINO := by
    show k + 2 ≠ 1
    omega
  have hx : (view b).tree sb (k + 2) = some ⟨T_FILE, 0, 0, 1, f.bytes⟩ := by
    rw [htree, imageTree, if_neg hne, if_pos (Nat.le_add_left 2 k), Nat.add_sub_cancel, hk]
    rfl
  obtain ⟨hl, hnode⟩ := Vol.tree_eq_some.mp hx
  have hdino : (volOf sb m.disk).dino (k + 2) = (view b).dino (k + 2) := by
    rw [h.vol, Vol.setSize_dino_other hne]
  have hdata : (view b).contents (k + 2) = f.bytes := congrArg Node.data hnode
  have hsize : ((view b).dino (k + 2)).size.toNat = f.bytes.length := by
    rw [← hdata, Vol.contents, length_map, length_range]
  refine ⟨(h.live_iff _).mpr hl, ?_, ?_, ?_, fun j hj => ?_⟩
  · rw [hdino]
    exact congrArg Node.type hnode
  · rw [hdino, hsize]
  · rw [← hdata, Vol.contents, Vol.contents, hdino]
    exact map_congr_left fun j _ => h.fbyte _ j
  · rw [h.addrOf]
    exact h.built.sound.wf.mapped hl (hsize ▸ hj)

theorem Made.begins (h : Made b m files) (hn : files.length + 1 < NINODES)
    (hs : Mounted m s dp) : (s.fs.icache dp).copy.type = T_DIR ∧
      ∃ data, Begins s dp data ∧ Holds data (rootEnts files) ∧
        nents data = (rootEnts files).length := by
  obtain ⟨data, hdata, hnents, htree⟩ := h.built.tree
  have hx : (view b).tree sb ROOTINO = some ⟨T_DIR, 0, 0, 1, data⟩ := by
    rw [htree]
    rfl
  obtain ⟨hl, hnode⟩ := Vol.tree_eq_some.mp hx
  obtain ⟨-, hsize⟩ := h.built.root
  have hcontents : (view b).contents ROOTINO = data := congrArg Node.data hnode
  have hlen : data.length = ((view b).dino ROOTINO).size.toNat := by
    rw [← hcontents, Vol.contents, length_map, length_range]
  have hcopy : (volOf sb m.disk).dino ROOTINO = (s.fs.icache dp).copy := by
    rw [← hs.disk, ← hs.root]
    exact (hs.cache.valid dp hs.held.1 hs.held.2).1
  have htype : (s.fs.icache dp).copy.type = T_DIR := by
    rw [← hcopy, h.vol, Vol.setSize_dino_self]
    exact congrArg Node.type hnode
  have hbound : ((view b).dino ROOTINO).size.toNat + BSIZE ≤ MAXFILE * BSIZE := by
    rw [hsize]
    simp only [Dirent.size, NINODES, MAXFILE, NDIRECT, NINDIRECT, BSIZE] at hn ⊢
    omega
  have hcopySize : data.length ≤ (s.fs.icache dp).copy.size.toNat := by
    rw [← hcopy, h.vol, Vol.setSize_dino_self, hlen]
    show _ ≤ (rounded _).toNat
    rw [rounded_toNat (hbound.trans_lt (by decide))]
    simp only [BSIZE]
    omega
  refine ⟨htype, data, ⟨⟨?_, ?_, ?_, fun j _ hj => ?_⟩, ?_, hcopySize, by omega, ?_⟩, hdata, hnents⟩
  · rw [hs.disk]
    exact h.refs
  · rw [hs.disk, hs.root]
    exact (h.live_iff _).mpr hl
  · rw [hs.disk, hs.root]
    exact hcopy
  · rw [hs.disk, hs.root, h.addrOf]
    exact h.built.sound.wf.mapped hl (hlen ▸ hj)
  · rw [htype]
    decide
  · rw [hs.disk, hs.root, Vol.contents, hcopy, ← map_take, take_range, Nat.min_eq_left hcopySize]
    conv_rhs => rw [← hcontents, Vol.contents]
    rw [hlen]
    exact map_congr_left fun j _ => h.fbyte _ j

/-- The kernel finds the file `f` in the root directory, and reads its bytes. -/
def ReadsBack (dev : Devsw) (s : St) (dp : Fin NINODE) (f : Input) : Prop :=
  ∃ ip off s1 s2, dirlookup sb dev dp f.name s = .ok (some (ip, off), s1) ∧
    ilock sb ip s1 = .ok ((), s2) ∧
    (s2.fs.icache ip).copy.type = T_FILE ∧
    (s2.fs.icache ip).copy.size.toNat = f.bytes.length ∧
    readi sb dev s2.fs ip 0 (s2.fs.icache ip).copy.size =
      .ok ((f.bytes.length, f.bytes), s2.fs)

theorem FileAt.readi_all {fs : FS} {ip : Fin NINODE} {i : Nat} (h : FileAt m f i)
    (hrefs : (volOf sb m.disk).Refs sb) (hdisk : fs.disk = m.disk) (hinum : (fs.icache ip).inum = i)
    (hcopy : (fs.icache ip).copy = (volOf sb m.disk).dino i) (dev : Devsw) :
    readi sb dev fs ip 0 (fs.icache ip).copy.size = .ok ((f.bytes.length, f.bytes), fs) := by
  have hsize : (fs.icache ip).copy.size.toNat = f.bytes.length := by rw [hcopy, h.size]
  have hzero : (0 : UInt32).toNat = 0 := rfl
  have hread : Readable sb fs ip 0 f.bytes.length := by
    refine ⟨?_, ?_, ?_, fun j _ hj => ?_⟩
    · rw [hdisk]
      exact hrefs
    · rw [hdisk, hinum]
      exact h.live
    · rw [hdisk, hinum, hcopy]
    · rw [hdisk, hinum]
      exact h.mapped j hj
  have hres := @readi_mapped sb fs ip dev 0 (fs.icache ip).copy.size
    (hread.mono (Nat.zero_le _) (by rw [hsize]; exact Nat.min_le_right _ _))
    (by rw [hcopy, h.type]; decide)
    (by
      rw [not_or, UInt32.zero_add, GT.gt, UInt32.lt_iff_toNat_lt, hzero]
      omega)
  rw [hdisk, hinum, h.contents, hzero, hsize, Nat.sub_zero, Nat.min_self, drop_zero,
    take_length] at hres
  exact hres

theorem Made.reads_back (h : Made b m files) (hlen : files.length + 1 < NINODES)
    (hn : GoodNames files) (hs : Mounted m s dp) (hk : files[k]? = some f) (dev : Devsw) :
    ReadsBack dev s dp f ∨ CacheFull s.fs (k + 2) ∧
      dirlookup sb dev dp f.name s = .error (.fs .igetNoInodes) := by
  obtain ⟨htype, data, hbegins, hholds, hnents⟩ := h.begins hlen hs
  obtain ⟨hat, hbefore⟩ := rootEnts_first hn hlen hk
  have hlt : k < files.length := (List.getElem?_eq_some_iff.mp hk).1
  have hk2 : k + 2 < nents data := by
    rw [hnents]
    simp only [rootEnts, length_cons, length_mapIdx]
    omega
  have hinum : (entAt data (k + 2)).inum.toNat = k + 2 := by
    rw [hholds.ents _ hk2, rootEnts_file hk]
    exact UInt16.toNat_ofNat_of_lt' (by simp only [NINODES] at hlen; show _ < 65536; omega)
  have hget := iget_fetched hs.cache (entAt data (k + 2)).inum.toNat
  have hlook : Ends (dirlookup sb dev dp f.name s) _ _ :=
    dirlookup_begins hbegins htype hk2 (by rw [hholds.ents _ hk2]; exact hat)
      (fun j hj => by rw [hholds.ents _ (hj.trans hk2)]; exact hbefore j hj) hget s rfl
  rw [hinum] at hlook
  cases hrun : dirlookup sb dev dp f.name s with
  | error e =>
    rw [hrun] at hlook
    obtain ⟨rfl, hfull⟩ := hlook
    exact .inr ⟨hfull, rfl⟩
  | ok r =>
    rw [hrun] at hlook
    obtain ⟨r, s1⟩ := r
    obtain ⟨ip, off, rfl, hfetched⟩ := hlook
    have hfile := h.file hk
    have hne : dp ≠ ip := hfetched.other dp hs.held.1 (by
      rw [hs.root]
      show 1 ≠ _
      omega)
    have hfree : s1.locked ip = false := by
      rw [hfetched.locked]
      exact hs.free ip hne.symm
    obtain ⟨s2, hlock, hdisk, hinum2, hcopy⟩ := ilock_fetched hfetched hfree (by
      rw [hs.disk]
      exact hfile.live)
    rw [hs.disk] at hdisk hcopy
    refine .inl ⟨ip, off, s1, s2, hrun, hlock, ?_, ?_, ?_⟩
    · rw [hcopy, hfile.type]
    · rw [hcopy, hfile.size]
    · exact hfile.readi_all h.refs hdisk hinum2 hcopy dev

end Image

variable {files : List Input}

/-- What `mkfs` writes, the kernel reads back: each file is found under its name, with its length
and its bytes. Only an inode cache without room stops `dirlookup`. -/
theorem image_reads_back (hf : Fits files) (hn : GoodNames files) :
    ((∃ m, main files = some m) ↔ ∀ f ∈ files, SLASH ∉ f.arg) ∧
      ∀ m, main files = some m → ∀ s dp, Mounted m s dp → ∀ dev k f, files[k]? = some f →
        ReadsBack dev s dp f ∨ CacheFull s.fs (k + 2) ∧
          dirlookup sb dev dp f.name s = .error (.fs .igetNoInodes) := by
  refine ⟨main_some_iff hf, fun m hm s dp hs dev k f hk => ?_⟩
  obtain ⟨b, hmade⟩ := Made.of_main hf hm
  exact hmade.reads_back hf.inodes hn hs hk dev

/-- A kernel that has the root directory in its inode cache, and nothing else. -/
def booted (m : Mk) : St where
  fs :=
    { disk := m.disk
      log := { size := LOGSIZE, outstanding := 0, committing := false, lh := .empty }
      icache := fun ip =>
        if ip = 0 then
          { inum := ROOTINO, ref := 1, valid := true, copy := (volOf sb m.disk).dino ROOTINO }
        else { inum := 0, ref := 0, valid := false, copy := default } }
  locked := fun ip => ip = 0
  file := fun _ => ⟨.none, 0, false, false, 0⟩
  pipe := fun _ => none
  proc := fun _ => ⟨.unused, fun _ => none, none⟩

theorem booted_ref {m : Mk} {ip : Fin NINODE} (h : 0 < ((booted m).fs.icache ip).ref) : ip = 0 := by
  by_contra hne
  simp [booted, hne] at h

theorem mounted_booted {m : Mk} (hl : (volOf sb m.disk).Live sb ROOTINO) :
    Mounted m (booted m) 0 where
  disk := rfl
  cache := by
    refine ⟨fun ip hip => ?_, fun ip jp hip hjp _ => ?_, fun ip hip _ => ?_⟩
    · rw [booted_ref hip]
      exact hl.1
    · rw [booted_ref hip, booted_ref hjp]
    · rw [booted_ref hip]
      exact ⟨rfl, hl.2⟩
  root := rfl
  held := ⟨Int.zero_lt_one, rfl⟩
  free := fun ip hne => decide_eq_false hne

theorem goodNames_sample : GoodNames [sample] := by
  refine ⟨?_, ?_, ?_, pairwise_singleton _ _⟩
  all_goals
    intro f hf
    rw [mem_singleton.mp hf]
    decide

theorem image_reads_back_sample : Fits [sample] ∧ GoodNames [sample] ∧
    ∃ m, main [sample] = some m ∧ Mounted m (booted m) 0 ∧
      ReadsBack ⟨fun _ => none, fun _ => none⟩ (booted m) 0 sample := by
  obtain ⟨hsome, hback⟩ := image_reads_back fits_sample goodNames_sample
  obtain ⟨m, hm⟩ := hsome.mpr (by decide)
  obtain ⟨b, hmade⟩ := Made.of_main fits_sample hm
  have hmounted := mounted_booted ((hmade.live_iff _).mpr hmade.built.root.1)
  refine ⟨fits_sample, goodNames_sample, m, hm, hmounted, ?_⟩
  rcases hback m hm _ 0 hmounted ⟨fun _ => none, fun _ => none⟩ 0 sample rfl with hr | ⟨hfull, -⟩
  · exact hr
  · exact absurd rfl (hfull 1).1

end Xv6.Mkfs
