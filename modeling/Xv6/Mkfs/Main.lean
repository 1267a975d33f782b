import Xv6.Mkfs.Fits

/-!
# Xv6.Mkfs.Main

`main` of `mkfs.c` from the empty image to the free map.

The loop over the arguments is in `Fits`. Around it, `main` makes the root directory, rounds its
size up at the end and writes the free map. `main_made` says which volume that leaves for every list
of files that fits.
-/

namespace Xv6.Mkfs

open Fs Bytes Function Option
open Sys (ROOTINO Dirent dot dotdot SLASH nents Whole)

theorem start_disk {b : Nat} (hb : b ≠ 1) : start.disk b = Block.zero :=
    update_of_ne hb _ _

theorem start_not_live (i : Nat) : ¬ (view start).Live sb i := by
  rintro ⟨hlt, htype⟩
  refine htype ?_
  have hdisk : start.disk (sb.iblock i) = Block.zero := by
    refine start_disk ?_
    have hstart : 2 ≤ sb.inodestart := by decide
    have hle : sb.inodestart ≤ sb.iblock i := Nat.le_add_left _ _
    omega
  simp only [view, volOf]
  rw [if_pos hlt, hdisk]
  exact getDinode_zero_type _

theorem start_sound : Sound start where
  clean := by
    refine ⟨le_refl _, by decide, fun b hb => start_disk ?_⟩
    have hmeta : 1 < start.freeblock := by decide
    omega
  wf := by
    have hdead : ∀ r b, ¬ (view start).Refers sb r b := fun r b hr => start_not_live _ hr.1
    refine ⟨⟨fun b hb hlt => ?_, fun b r _ hr => ?_, fun b r hr => ?_, fun b hb => ?_⟩, ?_⟩
    · have hbit : (view start).bit b = false := by
        simp only [view]
        rw [if_pos hlt, decide_eq_false_iff_not, not_lt]
        exact hb
      rw [hbit]
      refine iff_of_false Bool.false_ne_true ?_
      rintro ⟨r, hr, -⟩
      exact hdead r b hr
    · exact absurd hr (hdead r b)
    · exact absurd hr (hdead r b)
    · simp only [view]
      split
      · exact decide_eq_true hb
      · rfl
    · exact fun i hl => absurd hl (start_not_live i)
  tail := fun i hl => absurd hl (start_not_live i)
  unused := fun i _ => start_not_live i

theorem start_tree : (view start).tree sb = fun _ => none :=
  funext fun i => Vol.tree_not_live (start_not_live i)

theorem root_built : ∃ m1 m2 m, ialloc start T_DIR = some (ROOTINO, m1) ∧
    iappend m1 ROOTINO (Dirent.make dot ROOTINO).byte Dirent.size = some m2 ∧
    iappend m2 ROOTINO (Dirent.make dotdot ROOTINO).byte Dirent.size = some m ∧
    Built m [] ∧ Counted m [] := by
  obtain ⟨m1, h1, hfree1, hself1, hothers1⟩ := ialloc_room (m := start) T_DIR (by decide)
  obtain ⟨-, hs1, hinode1, hboot1, htree1⟩ := ialloc_allocs start_sound (by decide) (by decide) h1
  have hsize1 : ((view m1).dino ROOTINO).size.toNat = 0 := by
    rw [show (view m1).dino ROOTINO = _ from hself1]
    rfl
  have htight1 : ∀ j, (view m1).Live sb j →
      Tight ((view m1).dino j) ((view m1).dino j).size.toNat := by
    intro j hj
    by_cases hroot : j = ROOTINO
    · subst hroot
      rw [show (view m1).dino ROOTINO = _ from hself1]
      exact tight_fresh
    · rw [Vol.Live, hothers1 j hroot] at hj
      exact absurd hj (start_not_live j)
  have hx1 : (view m1).tree sb ROOTINO = some ⟨T_DIR, 0, 0, 1, []⟩ := by
    rw [htree1]
    exact update_self _ _ _
  have hl1 := (Vol.tree_eq_some.mp hx1).1
  change m1.freeblock = nmeta at hfree1
  obtain ⟨m2, h2, htook2⟩ := iappend_room (Dirent.make dot ROOTINO).byte Dirent.size hs1 hl1
    (htight1 _ hl1) (by rw [hsize1]; decide) (by rw [hsize1, hfree1]; decide)
  obtain ⟨hs2, hinode2, hboot2, htree2⟩ := iappend_tree hs1 hx1 h2
  have hx2 := (congrFun htree2 ROOTINO).trans (update_self _ _ _)
  have hsize2 := htook2.size
  have htaken2 := htook2.taken
  rw [hsize1] at hsize2 htaken2
  rw [hfree1] at htaken2
  obtain ⟨m, h3, htook3⟩ := iappend_room (Dirent.make dotdot ROOTINO).byte Dirent.size hs2
    (Vol.tree_eq_some.mp hx2).1 htook2.tight (by rw [hsize2]; decide) (by
      rw [hsize2]
      have hfits : nmeta + cost (0 + Dirent.size + Dirent.size) ≤ FSSIZE + cost 0 := by decide
      omega)
  obtain ⟨hs3, hinode3, hboot3, htree3⟩ := iappend_tree hs2 hx2 h3
  have htaken := (htook2.trans htook3).taken
  rw [hsize1, hfree1] at htaken
  obtain ⟨hd1, hn1⟩ := Holds.nil.append rfl (Sys.make_length dot ROOTINO)
  obtain ⟨hd2, hn2⟩ := hd1.append hn1 (Sys.make_length dotdot ROOTINO)
  refine ⟨m1, m2, m, h1, h2, h3, ⟨hs3, ?_, fun b hb => ?_, _, hd2, hn2, ?_⟩, ?_,
    htook3.tight_all (htook2.tight_all htight1)⟩
  · rw [hinode3, hinode2, hinode1]
    rfl
  · rw [hboot3 b hb, hboot2 b hb, hboot1 b hb]
  · rw [htree3, htree2, htree1, start_tree, update_idem]
    funext i
    by_cases hroot : i = ROOTINO
    · subst hroot
      rfl
    · have hfirst : i ≠ start.freeinode := hroot
      rw [update_of_ne hroot, update_of_ne hfirst, imageTree, if_neg hroot]
      simp
  · exact htaken

section Finish

variable {m : Mk}

abbrev rounded (size : UInt32) : UInt32 := (size / UInt32.ofNat BSIZE + 1) * UInt32.ofNat BSIZE

theorem fixRoot_view (m : Mk) : ∃ m', fixRoot m ROOTINO = some m' ∧ m'.freeblock = m.freeblock ∧
    view m' = (view m).setSize ROOTINO (rounded ((view m).dino ROOTINO).size) := by
  obtain ⟨m', hw, hfree⟩ := winode_room (m := m) (i := ROOTINO)
    { (view m).dino ROOTINO with size := rounded ((view m).dino ROOTINO).size } (by decide)
  obtain ⟨hv, -, -, -⟩ := winode_some (by decide) hw
  refine ⟨m', ?_, hfree, hv⟩
  rw [fixRoot, rinode_eq (by decide), bind_eq_bind, bind_some]
  exact hw

theorem getBit_range (used : Nat) (hused : used ≤ BPB) (b : Nat) :
    getBit ((List.range used).foldl setBit Block.zero) b = decide (b < used) := by
  induction used with
  | zero => simp [getBit]
  | succ used ih =>
    rw [List.range_succ, List.foldl_append, List.foldl_cons, List.foldl_nil,
      getBit_setBit (by omega), ih (by omega)]
    by_cases hb : b = used
    · simp [hb]
    · simp only [hb, if_false, decide_eq_decide]
      omega

theorem balloc_vol (hroom : m.freeblock ≤ FSSIZE) : ∃ m', balloc m m.freeblock = some m' ∧
    m'.freeblock = m.freeblock ∧ volOf sb m'.disk = view m := by
  have hlt : m.freeblock < BSIZE * 8 := lt_of_le_of_lt hroom (by decide)
  refine ⟨_, if_pos hlt, rfl, Vol.ext' (fun b => ?_) (fun i => ?_) fun b => ?_⟩
  · simp only [volOf, view, Mk.wsect]
    by_cases hb : b < sb.size
    · have hb' : b < 1000 := hb
      have hblock : sb.bblock b = sb.bmapstart := by
        rw [Superblock.bblock, Nat.div_eq_of_lt (hb'.trans (by decide)), Nat.zero_add]
      rw [if_pos hb, if_pos hb, hblock, update_self,
        Nat.mod_eq_of_lt (hb'.trans (by decide)), getBit_range _ hlt.le]
    · rw [if_neg hb, if_neg hb]
  · simp only [volOf, view, Mk.wsect]
    by_cases hi : i < sb.ninodes
    · rw [if_pos hi, if_pos hi, update_of_ne (sb.iblock_lt hi).ne]
    · rw [if_neg hi, if_neg hi]
  · simp only [volOf, view, Mk.wsect]
    by_cases hb : sb.dataStart ≤ b
    · rw [if_pos hb, if_pos hb, update_of_ne (sb.bmapstart_lt.trans_le hb).ne']
    · rw [if_neg hb, if_neg hb]

end Finish

/-- `m` is the image with `files`: `b` is the state after the loop over the arguments. -/
structure Made (b m : Mk) (files : List Input) : Prop where
  built : Built b files
  counted : Counted b files
  free : m.freeblock = b.freeblock
  vol : volOf sb m.disk = (view b).setSize ROOTINO (rounded ((view b).dino ROOTINO).size)

variable {files : List Input}

theorem main_eq : ∃ m, Built m [] ∧ Counted m [] ∧ ∀ files, main files =
    (addFiles m ROOTINO files).bind fun m =>
      (fixRoot m ROOTINO).bind fun m => balloc m m.freeblock := by
  obtain ⟨m1, m2, m, h1, h2, h3, hb, hc⟩ := root_built
  refine ⟨m, hb, hc, fun files => ?_⟩
  simp only [main, h1, h2, h3, bind_eq_bind, bind_some, ne_eq, not_true_eq_false, if_false]

theorem main_made (hf : Fits files) (hslash : ∀ f ∈ files, SLASH ∉ f.arg) :
    ∃ b m, main files = some m ∧ Made b m files := by
  obtain ⟨m3, hb3, hc3, heq⟩ := main_eq
  obtain ⟨b, hrun, hb, hc⟩ := addFiles_room files hb3 hc3 hf hslash
  obtain ⟨m4, h4, hfree4, hview4⟩ := fixRoot_view b
  have hroom : m4.freeblock ≤ FSSIZE := by
    rw [hfree4, hc.taken]
    exact hf.blocks
  obtain ⟨m, h5, hfree5, hvol⟩ := balloc_vol hroom
  refine ⟨b, m, ?_, hb, hc, hfree5.trans hfree4, hvol.trans hview4⟩
  rw [heq, hrun, bind_some, h4, bind_some, h5]

theorem main_slash {m : Mk} (h : main files = some m) : ∀ f ∈ files, SLASH ∉ f.arg := by
  obtain ⟨m3, -, -, heq⟩ := main_eq
  rw [heq] at h
  obtain ⟨m4, hrun, -⟩ := bind_eq_some_iff.mp h
  exact addFiles_slash hrun

theorem main_some_iff (hf : Fits files) :
    (∃ m, main files = some m) ↔ ∀ f ∈ files, SLASH ∉ f.arg := by
  constructor
  · rintro ⟨m, hm⟩
    exact main_slash hm
  · intro hslash
    obtain ⟨-, m, hm, -⟩ := main_made hf hslash
    exact ⟨m, hm⟩

theorem Made.of_main {m : Mk} (hf : Fits files) (h : main files = some m) : ∃ b,
    Made b m files := by
  obtain ⟨b, m', hm', hmade⟩ := main_made hf (main_slash h)
  rw [h] at hm'
  cases hm'
  exact ⟨b, hmade⟩

end Xv6.Mkfs
