import Xv6.Mkfs.Append
import Xv6.Sys.Ents

/-!
# Xv6.Mkfs.Image

`main` of `mkfs.c`, and the file system on the image that it leaves.

The image is a root directory with an entry for each file, and the files with their bytes. `Built`
says so after each turn of the loop over the arguments, and a turn is proved from what `iappend`
does to the tree.
-/

namespace Xv6.Mkfs

open Fs Bytes Function List
open Sys (ROOTINO Dirent dot dotdot SLASH entAt nents Whole putEnt)

/-- An argument of `mkfs`, and what the reads of the file return until one returns nothing. -/
structure Input where
  arg : List UInt8
  reads : List (List UInt8)
  read_le : ∀ buf ∈ reads, 0 < buf.length ∧ buf.length ≤ BSIZE

namespace Input

/-- A leading `_` is skipped. -/
def name (f : Input) : List UInt8 := if f.arg.head? = some 95 then f.arg.tail else f.arg

def bytes (f : Input) : List UInt8 := f.reads.flatten

end Input

def appendAll (m : Mk) (inum : Nat) : List (List UInt8) → Option Mk
  | [] => some m
  | buf :: bufs => do
    let m ← iappend m inum (chars buf) buf.length
    appendAll m inum bufs

/-- One turn of the loop over the arguments. -/
def addFile (m : Mk) (rootino : Nat) (f : Input) : Option Mk :=
  if f.arg.contains SLASH then none
  else do
    let (inum, m) ← ialloc m T_FILE
    let m ← iappend m rootino (Dirent.make f.name inum).byte Dirent.size
    appendAll m inum f.reads

def addFiles (m : Mk) (rootino : Nat) : List Input → Option Mk
  | [] => some m
  | f :: fs => do
    let m ← addFile m rootino f
    addFiles m rootino fs

/-- The fields of `struct superblock` in their order. -/
def superWords : List Nat :=
  [sb.size, sb.nblocks, sb.ninodes, sb.nlog, sb.logstart, sb.inodestart, sb.bmapstart]

def superBlock : Block :=
  superWords.zipIdx.foldl (fun b x => b.setWord x.2 (UInt32.ofNat x.1)) Block.zero

/-- Zeros, and the super block. -/
def start : Mk := (⟨fun _ => Block.zero, 1, nmeta⟩ : Mk).wsect 1 superBlock

/-- `fix size of root inode dir`. -/
def fixRoot (m : Mk) (rootino : Nat) : Option Mk := do
  let din ← m.rinode rootino
  m.winode rootino { din with size := (din.size / UInt32.ofNat BSIZE + 1) * UInt32.ofNat BSIZE }

def balloc (m : Mk) (used : Nat) : Option Mk :=
  if used < BSIZE * 8 then some (m.wsect sb.bmapstart ((range used).foldl setBit Block.zero))
  else none

def main (files : List Input) : Option Mk := do
  let (rootino, m) ← ialloc start T_DIR
  if rootino ≠ ROOTINO then none
  else
    let m ← iappend m rootino (Dirent.make dot rootino).byte Dirent.size
    let m ← iappend m rootino (Dirent.make dotdot rootino).byte Dirent.size
    let m ← addFiles m rootino files
    let m ← fixRoot m rootino
    balloc m m.freeblock

section Steps

variable {m m' : Mk} {i : Nat}

/-- The blocks before the inodes are as they were. -/
abbrev SameBoot (m m' : Mk) : Prop := ∀ b, b < sb.inodestart → m'.disk b = m.disk b

theorem ialloc_allocs {type : Int16} (hs : Sound m) (ht : type ≠ 0) (hlt : m.freeinode < NINODES)
    (h : ialloc m type = some (i, m')) :
    i = m.freeinode ∧ Sound m' ∧ m'.freeinode = m.freeinode + 1 ∧ SameBoot m m' ∧
      (view m').tree sb = update ((view m).tree sb) i (some ⟨type, 0, 0, 1, []⟩) := by
  obtain ⟨_, hw, h⟩ := Option.bind_eq_some_iff.mp h
  cases h
  obtain ⟨hv, hfree, hclean, hboot⟩ := winode_some hlt hw
  generalize hd : (⟨type, 0, 0, 1, 0, fun _ => 0⟩ : Dinode) = d at hv
  change view m' = (view m).setDino m.freeinode d at hv
  have hself : (view m').dino m.freeinode = d := by rw [hv, Vol.setDino_self]
  have hother : ∀ j, j ≠ m.freeinode → (view m').dino j = (view m).dino j := fun j hj => by
    rw [hv, Vol.setDino_other _ _ hj]
  have hblk : (view m').blk = (view m).blk := by rw [hv, Vol.setDino]
  have hlive : (view m').Live sb m.freeinode := ⟨hlt, by rw [hself, ← hd]; exact ht⟩
  refine ⟨rfl, ⟨hclean ⟨hs.clean.start, hs.clean.room, hs.clean.zero⟩, ?_, ?_, ?_⟩, hfree, hboot,
    ?_⟩
  · rw [hv]
    refine hs.wf.setDino (fun q x hr => hs.unused _ (le_refl _) hr.1) ?_ ?_ <;> rw [← hd]
    exact fun _ => rfl
  · intro j hj k hk hne
    by_cases hji : j = m.freeinode
    · subst hji
      have hzero : ∀ a, ((view m').dino m.freeinode).addrs a = 0 := fun a => by rw [hself, ← hd]
      exact absurd ((Vol.maps_zero hzero _).mp hne) (Nat.not_lt_zero _)
    · rw [Vol.Live, hother j hji] at hj
      rw [hother j hji] at hk
      rw [Vol.addrOf_congr (hother j hji) hblk] at hne
      rw [Vol.fbyte, Vol.addrOf_congr (hother j hji) hblk, hblk]
      exact hs.tail j hj k hk hne
  · intro j hj
    rw [hfree] at hj
    rw [Vol.Live, hother j (by simp only at hj; omega)]
    exact hs.unused j (by simp only at hj; omega)
  · rw [Vol.tree_replace (v := view m) (d := d) (by rw [hv, Vol.setDino]) hblk,
      Vol.tree_live hlive, Vol.node, Vol.contents, hself, ← hd]
    rfl

theorem iappend_tree {n : Node} {p : Nat → UInt8} {len : Nat} (hs : Sound m)
    (hn : (view m).tree sb i = some n) (h : iappend m i p len = some m') :
    Sound m' ∧ m'.freeinode = m.freeinode ∧ SameBoot m m' ∧
      (view m').tree sb = update ((view m).tree sb) i
        (some { n with data := n.data ++ (range len).map p }) := by
  obtain ⟨hl, rfl⟩ := Vol.tree_eq_some.mp hn
  exact iappend_appends hs hl h

theorem range_chars (l : List UInt8) : (range l.length).map (chars l) = l := by
  apply ext_getElem
  · simp
  · intro k h1 h2
    simp [chars, h2]

theorem appendAll_tree {n : Node} (bufs : List (List UInt8)) (hs : Sound m)
    (hn : (view m).tree sb i = some n) (h : appendAll m i bufs = some m') :
    Sound m' ∧ m'.freeinode = m.freeinode ∧ SameBoot m m' ∧
      (view m').tree sb = update ((view m).tree sb) i
        (some { n with data := n.data ++ bufs.flatten }) := by
  induction bufs generalizing m n with
  | nil =>
    cases h
    refine ⟨hs, rfl, fun _ _ => rfl, ?_⟩
    rw [flatten_nil, append_nil, ← hn, update_eq_self]
  | cons buf bufs ih =>
    obtain ⟨m1, h1, h⟩ := Option.bind_eq_some_iff.mp h
    obtain ⟨hs1, hfree1, hboot1, htree1⟩ := iappend_tree hs hn h1
    have hn1 := (congrFun htree1 i).trans (update_self _ _ _)
    obtain ⟨hs', hfree', hboot', htree'⟩ := ih hs1 hn1 h
    refine ⟨hs', hfree'.trans hfree1, fun b hb => (hboot' b hb).trans (hboot1 b hb), ?_⟩
    rw [htree', htree1, update_idem, range_chars, flatten_cons, append_assoc]

end Steps

/-- The contents are the entries `es`, and empty ones up to the end. -/
structure Holds (data : List UInt8) (es : List Dirent) : Prop where
  whole : Whole data
  len : es.length ≤ nents data
  ents : ∀ k, k < nents data → entAt data k = es.getD k Dirent.zero

section Contents

variable {data : List UInt8} {es : List Dirent} {de : Dirent}

theorem Holds.nil : Holds [] [] := ⟨rfl, Nat.zero_le _, fun _ h => absurd h (Nat.not_lt_zero _)⟩

theorem putEnt_end (h : Whole data) :
    putEnt data (nents data) de = data ++ (range Dirent.size).map de.byte := by
  rw [putEnt, splice, ← h, take_length, drop_of_length_le (Nat.le_add_right _ _), append_nil]

theorem Holds.append (h : Holds data es) (hn : nents data = es.length)
    (hde : de.name.length = DIRSIZ) : Holds (data ++ (range Dirent.size).map de.byte) (es ++ [de]) ∧
      nents (data ++ (range Dirent.size).map de.byte) = (es ++ [de]).length := by
  rw [← putEnt_end h.whole]
  have hnents : nents (putEnt data (nents data) de) = es.length + 1 := by
    rw [Sys.nents_putEnt h.whole (le_refl _), hn]
    omega
  refine ⟨⟨Sys.whole_putEnt h.whole (le_refl _), ?_, fun k hk => ?_⟩, ?_⟩
  · rw [hnents, length_append, length_singleton]
  · rw [hnents] at hk
    by_cases hlast : k = nents data
    · subst hlast
      rw [Sys.entAt_putEnt_self h.whole (le_refl _) hde, hn]
      simp
    · rw [Sys.entAt_putEnt_other h.whole (le_refl _) hlast, h.ents k (by omega),
        getD_append _ _ _ _ (by omega)]
  · rw [hnents, length_append, length_singleton]

end Contents

def rootEnts (files : List Input) : List Dirent :=
  Dirent.make dot ROOTINO :: Dirent.make dotdot ROOTINO ::
    files.mapIdx fun k f => Dirent.make f.name (k + 2)

/-- The tree on the image when the root directory has the contents `data`. -/
def imageTree (data : List UInt8) (files : List Input) : Tree := fun i =>
  if i = ROOTINO then some ⟨T_DIR, 0, 0, 1, data⟩
  else if 2 ≤ i then files[i - 2]?.map fun f => ⟨T_FILE, 0, 0, 1, f.bytes⟩
  else none

structure Built (m : Mk) (done : List Input) : Prop where
  sound : Sound m
  inodes : m.freeinode = done.length + 2
  boot : SameBoot start m
  tree : ∃ data, Holds data (rootEnts done) ∧ nents data = (rootEnts done).length ∧
    (view m).tree sb = imageTree data done

section Files

variable {m m' : Mk} {done : List Input}

theorem rootEnts_append (f : Input) :
    rootEnts (done ++ [f]) = rootEnts done ++ [Dirent.make f.name (done.length + 2)] := by
  simp [rootEnts, mapIdx_concat]

theorem imageTree_append (data data' : List UInt8) (f : Input) :
    update (update (imageTree data done) (done.length + 2)
      (some ⟨T_FILE, 0, 0, 1, f.bytes⟩)) ROOTINO (some ⟨T_DIR, 0, 0, 1, data'⟩) =
      imageTree data' (done ++ [f]) := by
  funext i
  by_cases hroot : i = ROOTINO
  · subst hroot
    rw [update_self]
    rfl
  · rw [update_of_ne hroot]
    by_cases hi : i = done.length + 2
    · subst hi
      rw [update_self, imageTree, if_neg hroot, if_pos (Nat.le_add_left 2 _)]
      simp
    · rw [update_of_ne hi, imageTree, imageTree, if_neg hroot, if_neg hroot]
      by_cases h2 : 2 ≤ i
      · rw [if_pos h2, if_pos h2, getElem?_append]
        split
        · rfl
        · rw [getElem?_eq_none (by omega), getElem?_eq_none (by simp; omega)]
      · rw [if_neg h2, if_neg h2]

theorem addFile_built {f : Input} (hb : Built m done) (hlt : done.length + 2 < NINODES)
    (h : addFile m ROOTINO f = some m') : Built m' (done ++ [f]) := by
  obtain ⟨data, hdata, hn, htree⟩ := hb.tree
  rw [addFile] at h
  split at h
  · cases h
  obtain ⟨⟨i, m1⟩, h1, h⟩ := Option.bind_eq_some_iff.mp h
  obtain ⟨m2, h2, h3⟩ := Option.bind_eq_some_iff.mp h
  obtain ⟨hi, hs1, hfree1, hboot1, htree1⟩ :=
    ialloc_allocs hb.sound (by decide) (hb.inodes ▸ hlt) h1
  rw [hb.inodes] at hi hfree1
  have hne : ROOTINO ≠ i := by
    rw [hi]
    show 1 ≠ _
    omega
  have hroot : (view m1).tree sb ROOTINO = some ⟨T_DIR, 0, 0, 1, data⟩ := by
    rw [htree1, update_of_ne hne, htree]
    rfl
  obtain ⟨hs2, hfree2, hboot2, htree2⟩ := iappend_tree hs1 hroot h2
  have hfile : (view m2).tree sb i = some ⟨T_FILE, 0, 0, 1, []⟩ := by
    rw [htree2, update_of_ne hne.symm, htree1, update_self]
  obtain ⟨hs3, hfree3, hboot3, htree3⟩ := appendAll_tree _ hs2 hfile h3
  obtain ⟨hdata', hn'⟩ := hdata.append hn (Sys.make_length f.name i)
  refine ⟨hs3, ?_, fun b hb' => ?_,
    data ++ (range Dirent.size).map (Dirent.make f.name i).byte, ?_, ?_, ?_⟩
  · rw [hfree3, hfree2, hfree1, length_append, length_singleton]
  · rw [hboot3 b hb', hboot2 b hb', hboot1 b hb', hb.boot b hb']
  · rw [rootEnts_append, ← hi]
    exact hdata'
  · rw [rootEnts_append, ← hi]
    exact hn'
  · rw [htree3, htree2, htree1, htree, ← imageTree_append data, ← hi, nil_append, Input.bytes,
      update_comm hne, update_idem]

end Files

end Xv6.Mkfs
