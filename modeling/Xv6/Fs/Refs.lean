import Xv6.Fs.Ops
import Xv6.Lib.Ends
import Mathlib.Data.Multiset.Count

/-!
# Xv6.Fs.Refs

References in the inode cache, whatever is on the disk.

The block layer and `readi` and `writei` do not touch who is cached or how often it is referenced
(`Keeps`), nor whether the log is in an operation. `Counted` gives the references as a multiset;
`iget` adds to it, `iput` takes away.
-/

namespace Xv6.Fs

open Function Multiset

/-- The same inodes are cached with the same reference counts, in the same operation of the log. -/
structure KeepsRefs (s s' : FS) : Prop where
  ref : ∀ ip, (s'.icache ip).ref = (s.icache ip).ref
  inum : ∀ ip, (s'.icache ip).inum = (s.icache ip).inum
  outstanding : s'.log.outstanding = s.log.outstanding
  committing : s'.log.committing = s.log.committing
  logSize : s'.log.size = s.log.size

/-- Also, the same copies are valid. -/
structure Keeps (s s' : FS) : Prop extends KeepsRefs s s' where
  valid : ∀ ip, (s'.icache ip).valid = (s.icache ip).valid

theorem KeepsRefs.trans {s s' s'' : FS} (h : KeepsRefs s s') (h' : KeepsRefs s' s'') :
    KeepsRefs s s'' where
  ref := fun ip => (h'.ref ip).trans (h.ref ip)
  inum := fun ip => (h'.inum ip).trans (h.inum ip)
  outstanding := h'.outstanding.trans h.outstanding
  committing := h'.committing.trans h.committing
  logSize := h'.logSize.trans h.logSize

theorem KeepsRefs.setCopy (s : FS) (ip : Fin NINODE) (valid : Bool) (copy : Dinode) :
    KeepsRefs s (s.setInode ip { s.icache ip with valid, copy }) := by
  refine ⟨fun jp => ?_, fun jp => ?_, rfl, rfl, rfl⟩ <;>
    · simp only [FS.setInode, update_apply]
      split
      · rename_i hj
        subst hj
        rfl
      · rfl

namespace Keeps

variable {s s' s'' : FS}

theorem refl (s : FS) : Keeps s s := ⟨⟨fun _ => rfl, fun _ => rfl, rfl, rfl, rfl⟩, fun _ => rfl⟩

theorem trans (h : Keeps s s') (h' : Keeps s' s'') : Keeps s s'' where
  toKeepsRefs := h.toKeepsRefs.trans h'.toKeepsRefs
  valid := fun ip => (h'.valid ip).trans (h.valid ip)

theorem setCopy (s : FS) (ip : Fin NINODE) (copy : Dinode) :
    Keeps s (s.setInode ip { s.icache ip with copy }) := by
  refine ⟨KeepsRefs.setCopy s ip _ copy, fun jp => ?_⟩
  simp only [FS.setInode, update_apply]
  split
  · rename_i hj
    subst hj
    rfl
  · rfl

end Keeps

section Frames

variable {sb : Superblock} {s : FS} {ip : Fin NINODE}

theorem logWrite_keeps (b : Nat) (x : Block) : Ends (s.logWrite b x) (fun _ => True) (Keeps s) := by
  rw [FS.logWrite]
  cases hg : s.log.logWrite b with
  | error e => trivial
  | ok g =>
    obtain ⟨-, -, -, -, hsize, hout, hcom⟩ := Log.LogSt.logWrite_ok hg
    exact ⟨⟨fun _ => rfl, fun _ => rfl, hout, hcom, hsize⟩, fun _ => rfl⟩

theorem Keeps.ends {α : Type} {s s' : FS} {r : Except Panic α} {fs : α → FS} (h : Keeps s s')
    (h' : Ends r (fun _ => True) fun a => Keeps s' (fs a)) :
    Ends r (fun _ => True) fun a => Keeps s (fs a) := h'.imp fun _ ha => h.trans ha

theorem balloc_keeps : Ends (balloc sb s) (fun _ => True) fun r => Keeps s r.2 := by
  rw [balloc]
  split
  · trivial
  · refine (logWrite_keeps _ _).bind fun s1 h1 => ?_
    exact (logWrite_keeps _ _).bind fun s2 h2 => h1.trans h2

theorem bfree_keeps (b : Nat) : Ends (bfree sb s b) (fun _ => True) (Keeps s) := by
  rw [bfree]
  split
  · exact logWrite_keeps _ _
  · trivial

theorem setAddr_keeps (k : Fin (NDIRECT + 1)) (a : UInt32) : Keeps s (s.setAddr ip k a) :=
  Keeps.setCopy s ip _

theorem bmapAddr_keeps (k : Fin (NDIRECT + 1)) :
    Ends (bmapAddr sb s ip k) (fun _ => True) fun r => Keeps s r.2 := by
  simp only [bmapAddr]
  split
  · exact balloc_keeps.bind fun r h => h.trans (setAddr_keeps k _)
  · exact Keeps.refl s

theorem bmapEntry_keeps (a bn : Nat) :
    Ends (bmapEntry sb s a bn) (fun _ => True) fun r => Keeps s r.2 := by
  simp only [bmapEntry]
  split
  · refine balloc_keeps.bind fun r h => ?_
    exact (logWrite_keeps _ _).bind fun s2 h2 => h.trans h2
  · exact Keeps.refl s

theorem bmap_keeps (bn : Nat) : Ends (bmap sb s ip bn) (fun _ => True) fun r => Keeps s r.2 := by
  simp only [bmap]
  split
  · exact bmapAddr_keeps _
  · split
    · exact (bmapAddr_keeps _).bind fun r h => h.ends (bmapEntry_keeps _ _)
    · trivial

theorem itruncDirect_keeps (ks : List (Fin NDIRECT)) :
    Ends (itruncDirect sb ip ks s) (fun _ => True) (Keeps s) := by
  induction ks generalizing s with
  | nil => exact Keeps.refl s
  | cons k ks ih =>
    simp only [itruncDirect]
    split
    · exact (bfree_keeps _).bind fun s1 h1 => (h1.trans (setAddr_keeps _ _)).ends ih
    · exact ih

theorem itruncEntries_keeps (a : Nat) (js : List Nat) :
    Ends (itruncEntries sb a js s) (fun _ => True) (Keeps s) := by
  induction js generalizing s with
  | nil => exact Keeps.refl s
  | cons j js ih =>
    simp only [itruncEntries]
    split
    · exact (bfree_keeps _).bind fun s1 h1 => h1.ends ih
    · exact ih

theorem itruncIndirect_keeps : Ends (itruncIndirect sb s ip) (fun _ => True) (Keeps s) := by
  simp only [itruncIndirect]
  split
  · refine (itruncEntries_keeps _ _).bind fun s1 h1 => ?_
    exact (bfree_keeps _).bind fun s2 h2 => (h1.trans h2).trans (setAddr_keeps _ _)
  · exact Keeps.refl s

theorem iupdate_keeps : Ends (iupdate sb s ip) (fun _ => True) (Keeps s) := logWrite_keeps _ _

theorem itrunc_keeps : Ends (itrunc sb s ip) (fun _ => True) (Keeps s) := by
  refine (itruncDirect_keeps _).bind fun s1 h1 => ?_
  refine (itruncIndirect_keeps).bind fun s2 h2 => ?_
  exact iupdate_keeps.imp fun s3 h3 => (h1.trans h2).trans ((Keeps.setCopy s2 ip _).trans h3)

theorem ifree_keeps : Ends (ifree sb s ip) (fun _ => True) (KeepsRefs s) := by
  refine itrunc_keeps.bind fun s1 h1 => ?_
  refine (iupdate_keeps).bind fun s2 h2 => ?_
  exact (h1.trans ((Keeps.setCopy s1 ip _).trans h2)).toKeepsRefs.trans
    (KeepsRefs.setCopy s2 ip _ _)

theorem readLoop_keeps (n tot off : Nat) :
    Ends (readLoop sb ip n tot off s) (fun _ => True) fun r => Keeps s r.2 := by
  induction hleft : n - tot using Nat.strong_induction_on generalizing tot off s with
  | _ left ih =>
    subst hleft
    rw [readLoop]
    split
    · refine (bmap_keeps _).bind fun r h => ?_
      have hless : n - (tot + min (n - tot) (BSIZE - off % BSIZE)) < n - tot := by
        simp only [BSIZE]
        omega
      exact (ih _ hless _ _ rfl).bind fun r' h' => h.trans h'
    · exact Keeps.refl s

theorem readi_keeps (dev : Devsw) (off n : UInt32) :
    Ends (readi sb dev s ip off n) (fun _ => True) fun r => Keeps s r.2 := by
  simp only [readi]
  split
  · split
    · exact Keeps.refl s
    · split <;> exact Keeps.refl s
  · split
    · exact Keeps.refl s
    · exact (readLoop_keeps _ _ _).bind fun r h => h

theorem writeLoop_keeps (src : Nat → UInt8) (n tot off : Nat) :
    Ends (writeLoop sb ip src n tot off s) (fun _ => True) fun r => Keeps s r.2 := by
  induction hleft : n - tot using Nat.strong_induction_on generalizing tot off s with
  | _ left ih =>
    subst hleft
    rw [writeLoop]
    split
    · refine (bmap_keeps _).bind fun r h => ?_
      refine (logWrite_keeps _ _).bind fun s1 h1 => ?_
      have hless : n - (tot + min (n - tot) (BSIZE - off % BSIZE)) < n - tot := by
        simp only [BSIZE]
        omega
      exact (h.trans h1).ends (ih _ hless _ _ rfl)
    · exact Keeps.refl s

theorem writei_keeps (dev : Devsw) (src : Nat → UInt8) (off n : UInt32) :
    Ends (writei sb dev s ip src off n) (fun _ => True) fun r => Keeps s r.2 := by
  simp only [writei]
  split
  · split
    · exact Keeps.refl s
    · split <;> exact Keeps.refl s
  · split
    · exact Keeps.refl s
    · split
      · exact Keeps.refl s
      · refine (writeLoop_keeps _ _ _ _).bind fun r h => ?_
        split
        · exact iupdate_keeps.bind fun s1 h1 => h.trans ((Keeps.setCopy r.2 ip _).trans h1)
        · exact h

end Frames

/-- The references to the entries of the cache are `X`; entries in use are different inodes. In the
log, `op` operations are going on. -/
structure Counted (s : FS) (op : Int) (X : Multiset (Fin NINODE)) : Prop where
  ref : ∀ ip, (s.icache ip).ref = X.count ip
  inj : ∀ ip jp, 0 < (s.icache ip).ref → 0 < (s.icache jp).ref →
    (s.icache ip).inum = (s.icache jp).inum → ip = jp
  outstanding : s.log.outstanding = op
  committing : s.log.committing = false

namespace Counted

variable {sb : Superblock} {s s' : FS} {op : Int} {X : Multiset (Fin NINODE)} {ip : Fin NINODE}

theorem keeps (h : Counted s op X) (hk : KeepsRefs s s') : Counted s' op X := by
  refine ⟨fun ip => (hk.ref ip).trans (h.ref ip), fun ip jp hip hjp heq => ?_,
    hk.outstanding.trans h.outstanding, hk.committing.trans h.committing⟩
  rw [hk.ref] at hip hjp
  rw [hk.inum, hk.inum] at heq
  exact h.inj ip jp hip hjp heq

theorem ref_pos (h : Counted s op X) : 0 < (s.icache ip).ref ↔ ip ∈ X := by
  rw [h.ref ip, Int.natCast_pos, count_pos]

theorem setRef {Y : Multiset (Fin NINODE)} {r : Int} (h : Counted s op X) (hip : ip ∈ X)
    (hr : r = Y.count ip) (hothers : ∀ jp, jp ≠ ip → Y.count jp = X.count jp) :
    Counted (s.setInode ip { s.icache ip with ref := r }) op Y := by
  have hold : ∀ jp, 0 < ((s.setInode ip { s.icache ip with ref := r }).icache jp).ref →
      0 < (s.icache jp).ref := by
    intro jp hjp
    by_cases hj : jp = ip
    · subst hj
      exact h.ref_pos.mpr hip
    · simpa [FS.setInode, hj] using hjp
  have hinum : ∀ jp, ((s.setInode ip { s.icache ip with ref := r }).icache jp).inum =
      (s.icache jp).inum := by
    intro jp
    by_cases hj : jp = ip
    · subst hj
      simp [FS.setInode]
    · simp [FS.setInode, hj]
  refine ⟨fun jp => ?_, fun jp kp hjp hkp heq => ?_, h.outstanding, h.committing⟩
  · by_cases hj : jp = ip
    · subst hj
      simpa [FS.setInode] using hr
    · simp [FS.setInode, hj, h.ref jp, hothers jp hj]
  · rw [hinum, hinum] at heq
    exact h.inj jp kp (hold jp hjp) (hold kp hkp) heq

theorem incRef (h : Counted s op X) (hip : ip ∈ X) :
    Counted (s.setInode ip { s.icache ip with ref := (s.icache ip).ref + 1 }) op (ip ::ₘ X) := by
  refine h.setRef hip ?_ fun jp hj => count_cons_of_ne hj X
  rw [h.ref ip, count_cons_self]
  push_cast
  rfl

theorem decRef (h : Counted s op (ip ::ₘ X)) :
    Counted (s.setInode ip { s.icache ip with ref := (s.icache ip).ref - 1 }) op X := by
  refine h.setRef (mem_cons_self ip X) ?_ fun jp hj =>
    (count_cons_of_ne hj X).symm
  rw [h.ref ip, count_cons_self]
  push_cast
  ring

theorem iget (h : Counted s op X) (inum : Nat) :
    Ends (Fs.iget s inum) (fun _ => True) fun r => Counted r.2 op (r.1 ::ₘ X) := by
  rw [Fs.iget]
  split
  · rename_i ip hfind
    have hip : 0 < (s.icache ip).ref := by
      have := List.find?_some hfind
      simp only [decide_eq_true_eq] at this
      exact this.1
    exact h.incRef (h.ref_pos.mp hip)
  · rename_i hnone
    split
    · trivial
    · rename_i ip hfind
      have h0 : (s.icache ip).ref = 0 := by simpa using List.find?_some hfind
      have hX : X.count ip = 0 := by
        have := h.ref ip
        omega
      -- no entry in use has this number
      have hnew : ∀ jp, 0 < (s.icache jp).ref → (s.icache jp).inum ≠ inum := by
        intro jp hjp heq
        have := List.find?_eq_none.mp hnone jp (List.mem_finRange jp)
        exact this (by simp [hjp, heq])
      refine ⟨fun jp => ?_, fun jp kp hjp hkp heq => ?_, h.outstanding, h.committing⟩
      · by_cases hj : jp = ip
        · subst hj
          simp [FS.setInode, hX]
        · simp [FS.setInode, hj, h.ref jp]
      · by_cases hj : jp = ip <;> by_cases hk : kp = ip
        · rw [hj, hk]
        · subst hj
          simp only [FS.setInode, update_self, update_of_ne hk] at hkp heq
          exact absurd heq.symm (hnew kp hkp)
        · subst hk
          simp only [FS.setInode, update_self, update_of_ne hj] at hjp heq
          exact absurd heq (hnew jp hjp)
        · simp only [FS.setInode, update_of_ne hj, update_of_ne hk] at hjp hkp heq
          exact h.inj jp kp hjp hkp heq

theorem ialloc (h : Counted s op X) (type : Int16) :
    Ends (Fs.ialloc sb s type) (fun _ => True) fun r => Counted r.2 op (r.1 ::ₘ X) := by
  rw [Fs.ialloc]
  split
  · trivial
  · exact (logWrite_keeps _ _).bind fun s1 h1 => (h.keeps h1.toKeepsRefs).iget _

theorem iput (h : Counted s op (ip ::ₘ X)) :
    Ends (Fs.iput sb s ip) (fun _ => True) fun s' => Counted s' op X := by
  simp only [Fs.iput]
  split
  · exact ifree_keeps.bind fun s1 h1 => (h.keeps h1).decRef
  · exact h.decRef

end Counted

end Xv6.Fs
