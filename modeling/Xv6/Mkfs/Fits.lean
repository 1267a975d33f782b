import Xv6.Mkfs.Image
import Xv6.Mkfs.Room

/-!
# Xv6.Mkfs.Fits

The loop of `mkfs.c` over the arguments goes through for the files that fit.

What the image takes of the disk is a function of the number and the sizes of the files (`usage`),
and `Counted` says that the two counters are right after each turn.
-/

namespace Xv6.Mkfs

open Fs Bytes List Option
open Sys (ROOTINO Dirent dot dotdot SLASH entAt nents Whole putEnt)

/-- The blocks of an image: the metadata, the root directory and the files. -/
def usage (files : List Input) : Nat :=
  nmeta + cost (Dirent.size * (files.length + 2)) + (files.map fun f => cost f.bytes.length).sum

structure Fits (files : List Input) : Prop where
  sizes : ∀ f ∈ files, f.bytes.length ≤ MAXFILE * BSIZE
  inodes : files.length + 1 < NINODES
  blocks : usage files ≤ FSSIZE

/-- The block counter after the files `done`, and no indirect block that is not needed. -/
structure Counted (m : Mk) (done : List Input) : Prop where
  taken : m.freeblock = usage done
  tight : ∀ i, (view m).Live sb i → Tight ((view m).dino i) ((view m).dino i).size.toNat

theorem usage_append (done : List Input) (f : Input) :
    usage (done ++ [f]) + cost (Dirent.size * (done.length + 2)) =
      usage done + cost (Dirent.size * (done.length + 2) + Dirent.size) + cost f.bytes.length := by
  have hsize : Dirent.size * (done.length + 1 + 2) =
      Dirent.size * (done.length + 2) + Dirent.size := by ring
  simp only [usage, length_append, length_singleton, hsize, map_append,
    map_singleton, sum_append, sum_singleton]
  omega

theorem usage_le_append (done fs : List Input) : usage done ≤ usage (done ++ fs) := by
  have hcost : cost (Dirent.size * (done.length + 2)) ≤
      cost (Dirent.size * ((done ++ fs).length + 2)) := by
    refine cost_mono (Nat.mul_le_mul_left _ ?_)
    rw [length_append]
    omega
  simp only [usage, map_append, sum_append]
  omega

section Turn

variable {m m' : Mk} {i n : Nat}

theorem Took.refl (ht : Tight ((view m).dino i) ((view m).dino i).size.toNat) : Took m m i 0 :=
  ⟨rfl, rfl, ht, fun _ _ => rfl⟩

theorem Took.tight_all (h : Took m m' i n)
    (ht : ∀ j, (view m).Live sb j → Tight ((view m).dino j) ((view m).dino j).size.toNat) (j : Nat)
    (hj : (view m').Live sb j) : Tight ((view m').dino j) ((view m').dino j).size.toNat := by
  by_cases hji : j = i
  · subst hji
    exact h.tight
  · rw [Vol.Live, h.others j hji] at hj
    rw [h.others j hji]
    exact ht j hj

theorem appendAll_room {x : Node} (bufs : List (List UInt8)) (hs : Sound m)
    (hx : (view m).tree sb i = some x) (ht : Tight ((view m).dino i) ((view m).dino i).size.toNat)
    (hmax : ((view m).dino i).size.toNat + bufs.flatten.length ≤ MAXFILE * BSIZE)
    (hroom : m.freeblock + cost (((view m).dino i).size.toNat + bufs.flatten.length) ≤
      FSSIZE + cost ((view m).dino i).size.toNat) :
    ∃ m', appendAll m i bufs = some m' ∧ Took m m' i bufs.flatten.length := by
  induction bufs generalizing m x with
  | nil => exact ⟨m, rfl, Took.refl ht⟩
  | cons buf bufs ih =>
    rw [flatten_cons, length_append] at hmax hroom ⊢
    have hmono : cost (((view m).dino i).size.toNat + buf.length) ≤
        cost (((view m).dino i).size.toNat + (buf.length + bufs.flatten.length)) :=
      cost_mono (by omega)
    obtain ⟨m1, h1, htook⟩ := iappend_room (chars buf) buf.length hs (Vol.tree_eq_some.mp hx).1 ht
      (by omega) (by omega)
    obtain ⟨hs1, -, -, htree1⟩ := iappend_tree hs hx h1
    have hx1 := (congrFun htree1 i).trans (Function.update_self _ _ _)
    have hsize := htook.size
    have htaken := htook.taken
    obtain ⟨m', h', htook'⟩ := ih hs1 hx1 htook.tight (by omega) (by
      rw [hsize, Nat.add_assoc]
      omega)
    refine ⟨m', ?_, htook.trans htook'⟩
    rw [appendAll, h1]
    exact h'

end Turn

section Files

variable {m m' : Mk} {done : List Input}

theorem Built.root (h : Built m done) : (view m).Live sb ROOTINO ∧
    ((view m).dino ROOTINO).size.toNat = Dirent.size * (done.length + 2) := by
  obtain ⟨data, hdata, hn, htree⟩ := h.tree
  have hroot : (view m).tree sb ROOTINO = some ⟨T_DIR, 0, 0, 1, data⟩ := by
    rw [htree]
    rfl
  obtain ⟨hl, hnode⟩ := Vol.tree_eq_some.mp hroot
  have hcontents : (view m).contents ROOTINO = data := congrArg Node.data hnode
  have hlen : data.length = ((view m).dino ROOTINO).size.toNat := by
    rw [← hcontents, Vol.contents, length_map, length_range]
  have hwhole := hdata.whole
  rw [Whole, hn] at hwhole
  refine ⟨hl, ?_⟩
  rw [← hlen, hwhole]
  simp [rootEnts]

theorem tight_fresh {type : Int16} : Tight ⟨type, 0, 0, 1, 0, fun _ => 0⟩ 0 :=
  iff_of_true rfl (Nat.zero_le _)

theorem addFile_room {f : Input} (hb : Built m done) (hc : Counted m done)
    (hlt : done.length + 2 < NINODES) (hmax : f.bytes.length ≤ MAXFILE * BSIZE)
    (hslash : SLASH ∉ f.arg) (hroom : usage (done ++ [f]) ≤ FSSIZE) :
    ∃ m', addFile m ROOTINO f = some m' ∧ Built m' (done ++ [f]) ∧ Counted m' (done ++ [f]) := by
  have husage := usage_append done f
  have hzero : cost 0 = 0 := rfl
  obtain ⟨hl, hsize⟩ := hb.root
  have hinodes := hb.inodes
  have htaken := hc.taken
  -- the inode
  obtain ⟨m1, h1, hfree1, hself1, hothers1⟩ := ialloc_room (m := m) T_FILE (by omega)
  obtain ⟨-, hs1, -, -, htree1⟩ := ialloc_allocs hb.sound (by decide) (by omega) h1
  have hne : ROOTINO ≠ m.freeinode := by
    rw [hinodes]
    show 1 ≠ _
    omega
  have hroot1 : (view m1).dino ROOTINO = (view m).dino ROOTINO := hothers1 _ hne
  have hl1 : (view m1).Live sb ROOTINO := by
    rw [Vol.Live, hroot1]
    exact hl
  have htight1 : ∀ j, (view m1).Live sb j →
      Tight ((view m1).dino j) ((view m1).dino j).size.toNat := by
    intro j hj
    by_cases hji : j = m.freeinode
    · subst hji
      rw [hself1]
      exact tight_fresh
    · rw [Vol.Live, hothers1 j hji] at hj
      rw [hothers1 j hji]
      exact hc.tight j hj
  -- the entry in the root directory
  have hentry : Dirent.size * (done.length + 2) + Dirent.size ≤ MAXFILE * BSIZE := by
    simp only [Dirent.size, NINODES, MAXFILE, NDIRECT, NINDIRECT, BSIZE] at hlt ⊢
    omega
  obtain ⟨m2, h2, htook2⟩ := iappend_room (Dirent.make f.name m.freeinode).byte Dirent.size hs1 hl1
    (htight1 _ hl1) (by rw [hroot1, hsize]; exact hentry) (by rw [hroot1, hsize]; omega)
  have htaken2 := htook2.taken
  rw [hroot1, hsize] at htaken2
  obtain ⟨hs2, -, -, htree2⟩ := iappend_appends hs1 hl1 h2
  -- the bytes
  have hfile : (view m2).tree sb m.freeinode = some ⟨T_FILE, 0, 0, 1, []⟩ := by
    rw [htree2, Function.update_of_ne hne.symm, htree1, Function.update_self]
  have hempty : ((view m2).dino m.freeinode).size.toNat = 0 := by
    rw [htook2.others _ hne.symm, hself1]
    rfl
  have htight2 := htook2.tight_all htight1
  obtain ⟨m3, h3, htook3⟩ := appendAll_room f.reads hs2 hfile
    (htight2 _ (Vol.tree_eq_some.mp hfile).1)
    (by
      rw [hempty, Nat.zero_add]
      exact hmax)
    (by
      rw [hempty, Nat.zero_add]
      show m2.freeblock + cost f.bytes.length ≤ _
      omega)
  have htaken3 := htook3.taken
  rw [hempty, Nat.zero_add] at htaken3
  have hrun : addFile m ROOTINO f = some m3 := by
    rw [addFile, if_neg (by simpa using hslash), h1, bind_eq_bind, bind_some]
    dsimp only
    rw [h2, bind_eq_bind, bind_some, h3]
  refine ⟨m3, hrun, addFile_built hb hlt hrun, ?_, htook3.tight_all htight2⟩
  change m3.freeblock + cost 0 = m2.freeblock + cost f.bytes.length at htaken3
  omega

theorem addFiles_room (fs : List Input) (hb : Built m done) (hc : Counted m done)
    (hfits : Fits (done ++ fs)) (hslash : ∀ f ∈ fs, SLASH ∉ f.arg) :
    ∃ m', addFiles m ROOTINO fs = some m' ∧ Built m' (done ++ fs) ∧ Counted m' (done ++ fs) := by
  induction fs generalizing m done with
  | nil =>
    rw [append_nil]
    exact ⟨m, rfl, hb, hc⟩
  | cons f fs ih =>
    rw [append_cons] at hfits ⊢
    have hlen := hfits.inodes
    rw [length_append, length_append, length_singleton] at hlen
    obtain ⟨m1, h1, hb1, hc1⟩ := addFile_room hb hc (by omega) (hfits.sizes f (by simp))
      (hslash f (by simp)) ((usage_le_append _ fs).trans hfits.blocks)
    obtain ⟨m', h', hb', hc'⟩ := ih hb1 hc1 hfits fun g hg => hslash g (mem_cons_of_mem _ hg)
    refine ⟨m', ?_, hb', hc'⟩
    rw [addFiles, h1]
    exact h'

theorem addFiles_slash {fs : List Input} (h : addFiles m ROOTINO fs = some m') :
    ∀ f ∈ fs, SLASH ∉ f.arg := by
  induction fs generalizing m with
  | nil => simp
  | cons f fs ih =>
    obtain ⟨m1, h1, h2⟩ := bind_eq_some_iff.mp h
    refine forall_mem_cons.mpr ⟨fun hmem => ?_, ih h2⟩
    rw [addFile, if_pos (by simpa using hmem)] at h1
    cases h1

end Files

end Xv6.Mkfs
