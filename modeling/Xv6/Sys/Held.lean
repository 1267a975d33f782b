import Xv6.Fs.Refs
import Xv6.Lib.Tally
import Xv6.Sys.Call

/-!
# Xv6.Sys.Held

The references and locks that a running call holds, function by function.

`In B op X L` describes a state in the middle of a call: the references to cached inodes are `X`,
the locks held are `L`, and files, pipes and processes are as in `B`. Each function of `fs.c` and
each exit of it turns `X` and `L` into what its caller counts on, on every disk: the error paths of
`namex`, `dirlink` and `create` release what they took.
-/

namespace Xv6.Sys

open Fs Multiset Finset Option

variable {major minor type : Int16}

/-- The stops that only a wrong reference count or a missing lock can cause. -/
def Stop.Miscount : Stop → Prop
  | .ilock => True
  | .iunlock => True
  | .filedup => True
  | .fileclose => True
  | .nullPointer => True
  | _ => False

def Fine (e : Stop) : Prop := ¬ e.Miscount

structure In (B : St) (op : Int) (X : Multiset (Fin NINODE)) (L : Finset (Fin NINODE)) (s : St) :
    Prop where
  counted : Counted s.fs op X
  locked : ∀ ip, s.locked ip = decide (ip ∈ L)
  file : s.file = B.file
  pipe : s.pipe = B.pipe
  proc : s.proc = B.proc

/-- The references once a call has handed out `r`. -/
def took : Option (Fin NINODE) → Multiset (Fin NINODE) → Multiset (Fin NINODE)
  | none, X => X
  | some ip, X => ip ::ₘ X

section Lower

variable {α : Type} {B : St} {op : Int} {X : Multiset (Fin NINODE)} {L : Finset (Fin NINODE)}
  {ip : Fin NINODE} {P : St → Prop} {E : Stop → Prop}

theorem In.fs {s : St} {fs : FS} {op' : Int} {X' : Multiset (Fin NINODE)} (h : In B op X L s)
    (hc : Counted fs op' X') : In B op' X' L { s with fs } :=
  ⟨hc, h.locked, h.file, h.pipe, h.proc⟩

theorem onFs_spec {f : FS → Except Panic (α × FS)} {X' : α → Multiset (Fin NINODE)}
    (hf : ∀ fs, Counted fs op X → Ends (f fs) (fun _ => True) fun r => Counted r.2 op (X' r.1)) :
    Triple (In B op X L) (onFs f) Fine fun a => In B op (X' a) L := by
  intro s hs
  have h := hf s.fs hs.counted
  simp only [onFs]
  cases hr : f s.fs with
  | error p => exact id
  | ok r =>
    rw [hr] at h
    exact hs.fs h

theorem doFs_spec {f : FS → Except Panic FS} {X' : Multiset (Fin NINODE)}
    (hf : ∀ fs, Counted fs op X → Ends (f fs) (fun _ => True) fun r => Counted r op X') :
    Triple (In B op X L) (doFs f) Fine fun _ => In B op X' L := by
  intro s hs
  have h := hf s.fs hs.counted
  simp only [doFs]
  cases hr : f s.fs with
  | error p => exact id
  | ok r =>
    rw [hr] at h
    exact hs.fs h

theorem readi_spec {sb : Superblock} {dev : Devsw} {off n : UInt32} :
    Triple (In B op X L) (onFs (readi sb dev · ip off n)) Fine fun _ => In B op X L :=
  onFs_spec fun _ h => (readi_keeps dev off n).imp fun _ hk => h.keeps hk.toKeepsRefs

theorem writei_spec {sb : Superblock} {dev : Devsw} {src : Nat → UInt8} {off n : UInt32} :
    Triple (In B op X L) (onFs (writei sb dev · ip src off n)) Fine fun _ => In B op X L :=
  onFs_spec fun _ h => (writei_keeps dev src off n).imp fun _ hk => h.keeps hk.toKeepsRefs

theorem when_spec {c : Prop} [Decidable c] {m : M Unit} (h : Triple P m E fun _ => P) :
    Triple P (when c m) E fun _ => P :=
  Triple.ite (fun _ => h) fun _ => .pure fun _ => id

theorem beginOp_spec : Triple (In B op X L) beginOp Fine fun _ => In B (op + 1) X L := by
  refine .get_bind fun s hs => ?_
  cases hg : s.fs.log.beginOp with
  | none => exact id
  | some g =>
    obtain ⟨hcom, -, rfl⟩ := Log.LogSt.beginOp_some hg
    refine hs.fs ⟨hs.counted.ref, hs.counted.inj, ?_, hcom⟩
    show s.fs.log.outstanding + 1 = _
    rw [hs.counted.outstanding]

theorem endOp_spec : Triple (In B (op + 1) X L) endOp Fine fun _ => In B op X L := by
  refine .get_bind fun s hs => ?_
  cases hg : s.fs.log.endOp with
  | error p => exact id
  | ok r =>
    obtain ⟨doCommit, g⟩ := r
    obtain ⟨hcom, -, rfl⟩ := Log.LogSt.endOp_ok hg
    refine hs.fs ⟨hs.counted.ref, hs.counted.inj, ?_, ?_⟩
    · cases doCommit with
      | true => simp [Log.LogSt.endCommit, hs.counted.outstanding]
      | false => simp [hs.counted.outstanding]
    · cases doCommit with
      | true => rfl
      | false => rfl

theorem endOp_last {a : α} :
    Triple (In B (op + 1) X L) (do endOp; return a) Fine fun _ => In B op X L :=
  Triple.bind endOp_spec fun _ => .pure fun _ => id

end Lower

section Inodes

variable {sb : Superblock} {B : St} {op : Int} {X : Multiset (Fin NINODE)}
  {L : Finset (Fin NINODE)} {ip : Fin NINODE} {P : St → Prop} {E : Stop → Prop}

theorem acquiresleep_spec :
    Triple (In B op X L) (acquiresleep ip) Fine fun _ s => ip ∉ L ∧ In B op X (insert ip L) s := by
  intro s hs
  show Ends ((if s.locked ip then throw .hang
    else set { s with locked := Function.update s.locked ip true } : M Unit) s) _ _
  split
  · exact id
  · rename_i hip
    have hL : ip ∉ L := by simpa [hs.locked ip] using hip
    refine ⟨hL, hs.counted, fun jp => ?_, hs.file, hs.pipe, hs.proc⟩
    by_cases hj : jp = ip
    · simp [hj]
    · simp [hj, hs.locked jp]

theorem releasesleep_spec :
    Triple (In B op X L) (releasesleep ip) Fine fun _ => In B op X (L.erase ip) := by
  intro s hs
  refine ⟨hs.counted, fun jp => ?_, hs.file, hs.pipe, hs.proc⟩
  by_cases hj : jp = ip
  · simp [hj]
  · simp [hj, hs.locked jp]

theorem inode_spec : Triple P (inode ip) E fun x s => x = s.fs.icache ip ∧ P s :=
  fun _ hs => ⟨rfl, hs⟩

theorem inode_any : Triple P (inode ip) E fun _ => P := fun _ hs => hs

theorem iget_spec {inum : Nat} :
    Triple (In B op X L) (iget inum) Fine fun ip => In B op (ip ::ₘ X) L :=
  onFs_spec fun _ h => h.iget inum

theorem ialloc_spec :
    Triple (In B op X L) (onFs (ialloc sb · type)) Fine fun ip => In B op (ip ::ₘ X) L :=
  onFs_spec fun _ h => h.ialloc type

theorem idup_spec (hip : ip ∈ X) :
    Triple (In B op X L) (idup ip) Fine fun r s => r = ip ∧ In B op (ip ::ₘ X) L s :=
  fun _ hs => ⟨rfl, hs.fs (hs.counted.incRef hip)⟩

theorem iload_spec : Triple (In B op X L) (iload sb ip) Fine fun _ => In B op X L := by
  refine .get_bind fun s hs => ?_
  dsimp only
  split
  · exact hs
  · refine ends_set_bind ?_
    split
    · exact id
    · exact hs.fs (hs.counted.keeps (KeepsRefs.setCopy _ _ _ _))

theorem ilock_spec (hip : ip ∈ X) :
    Triple (In B op X L) (ilock sb ip) Fine fun _ s => ip ∉ L ∧ In B op X (insert ip L) s := by
  refine .bind inode_spec fun x => ?_
  refine .ite (fun hx s hs => ?_) fun _ => ?_
  · have := hs.2.counted.ref_pos.mpr hip
    rw [← hs.1] at this
    omega
  · refine .bind (acquiresleep_spec.pre fun s hs => hs.2) fun _ => ?_
    exact .of_imp fun hL => iload_spec.post fun _ s hs => ⟨hL, hs⟩

theorem iunlock_spec (hip : ip ∈ X) (hL : ip ∉ L) :
    Triple (In B op X (insert ip L)) (iunlock ip) Fine fun _ => In B op X L := by
  intro s hs
  show Ends ((if s.locked ip = false ∨ (s.fs.icache ip).ref < 1 then throw .iunlock
    else releasesleep ip : M Unit) s) _ _
  rw [if_neg]
  · exact (releasesleep_spec s hs).imp fun _ hr => by rwa [erase_insert hL] at hr
  · have := hs.counted.ref_pos.mpr hip
    rw [hs.locked ip]
    simp only [mem_insert_self, decide_true, Bool.true_eq_false, false_or, not_lt]
    omega

theorem iput_spec : Triple (In B op (ip ::ₘ X) L) (iput sb ip) Fine fun _ s =>
    ip ∉ L ∧ In B op X L s := by
  refine .bind acquiresleep_spec fun _ => .of_imp fun hL => ?_
  refine .bind (doFs_spec fun _ h => h.iput) fun _ => ?_
  refine releasesleep_spec.post fun _ s hs => ⟨hL, ?_⟩
  rwa [erase_insert hL] at hs

theorem iunlockput_spec (hL : ip ∉ L) :
    Triple (In B op (ip ::ₘ X) (insert ip L)) (iunlockput sb ip) Fine fun _ => In B op X L := by
  refine .bind (iunlock_spec (Multiset.mem_cons_self ip X) hL) fun _ => ?_
  exact iput_spec.post fun _ _ hs => hs.2

theorem iupdate_spec {f : Dinode → Dinode} :
    Triple (In B op X L) (iupdate sb ip f) Fine fun _ => In B op X L := by
  refine .bind inode_spec fun x => ?_
  refine .bind (Q := fun _ => In B op X L) ?_ fun _ =>
    doFs_spec fun _ h => iupdate_keeps.imp fun _ hk => h.keeps hk.toKeepsRefs
  rintro s ⟨rfl, hs⟩
  exact hs.fs (hs.counted.keeps (KeepsRefs.setCopy _ _ _ _))

end Inodes

section Names

variable {sb : Superblock} {dev : Devsw} {B : St} {op : Int} {X : Multiset (Fin NINODE)}
  {L : Finset (Fin NINODE)} {ip dp : Fin NINODE} {name path : List UInt8}

theorem scan_spec {bad : Stop} {found : Dirent → Bool} (hbad : Fine bad) (size off : Nat) :
    Triple (In B op X L) (scan sb dev dp bad found size off) Fine fun _ => In B op X L := by
  induction hleft : size - off using Nat.strong_induction_on generalizing off with
  | _ left ih =>
    subst hleft
    rw [scan]
    refine .ite (fun hlt => ?_) fun _ => .pure fun _ => id
    refine .bind readi_spec fun r => ?_
    refine .ite (fun _ => .throw fun _ _ => hbad) fun _ => ?_
    refine .ite (fun _ => .pure fun _ => id) fun _ => ?_
    exact ih _ (by simp only [Dirent.size]; omega) _ rfl

theorem dirlookup_spec : Triple (In B op X L) (dirlookup sb dev dp name) Fine fun r =>
    In B op (took (r.map Prod.fst) X) L := by
  refine .bind inode_any fun x => ?_
  refine .ite (fun _ => .throw fun _ _ => id) fun _ => ?_
  refine .bind (scan_spec (show Fine .dirlookupRead from id) _ _) fun r => ?_
  obtain ⟨off, de⟩ := r
  cases de with
  | none => exact .pure fun _ => id
  | some de => exact .bind iget_spec fun ip => .pure fun _ => id

theorem dirlink_spec {inum : Nat} :
    Triple (In B op X L) (dirlink sb dev dp name inum) Fine fun _ => In B op X L := by
  refine .bind dirlookup_spec fun r => ?_
  cases r with
  | none =>
    refine .bind inode_any fun x => ?_
    refine .bind (scan_spec (show Fine .dirlinkRead from id) _ _) fun r => ?_
    refine .bind writei_spec fun n => ?_
    exact .ite (fun _ => .throw fun _ _ => id) fun _ => .pure fun _ => id
  | some r =>
    exact .bind iput_spec fun _ => .pure fun _ hs => hs.2

theorem isdirempty_spec :
    Triple (In B op X L) (isdirempty sb dev dp) Fine fun _ => In B op X L := by
  refine .bind inode_any fun x => ?_
  exact .bind (scan_spec (show Fine .isdiremptyRead from id) _ _) fun r => .pure
    fun _ => id

theorem namexLoop_spec (parent : Bool) (path : List UInt8) (ip : Fin NINODE) :
    Triple (In B op (ip ::ₘ X) L) (namexLoop sb dev parent path ip) Fine fun r =>
      In B op (took (r.map Prod.fst) X) L := by
  induction hlen : path.length using Nat.strong_induction_on generalizing path ip with
  | _ len ih =>
    subst hlen
    have hip : ∀ X, ip ∈ ip ::ₘ X := Multiset.mem_cons_self ip
    rw [namexLoop]
    split
    · refine .ite (fun _ => ?_) fun _ => .pure fun _ => id
      exact .bind iput_spec fun _ => .pure fun _ hs => hs.2
    · rename_i rest name helem
      refine .bind (ilock_spec (hip X)) fun _ => .of_imp fun hL => ?_
      refine .bind inode_any fun x => ?_
      refine .ite (fun _ => ?_) fun _ => .ite (fun _ => ?_) fun _ => ?_
      · exact .bind (iunlockput_spec hL) fun _ => .pure fun _ => id
      · exact .bind (iunlock_spec (hip X) hL) fun _ => .pure fun _ => id
      · refine .bind dirlookup_spec fun r => ?_
        cases r with
        | none => exact .bind (iunlockput_spec hL) fun _ => .pure fun _ => id
        | some r =>
          simp only [map_some, took, Multiset.cons_swap r.1 ip X]
          refine .bind (iunlockput_spec hL) fun _ => ?_
          exact ih _ (skipelem_shorter helem) rest r.1 rfl

variable {p : Fin NPROC} {cwd : Fin NINODE}

theorem start_spec (hcwd : (B.proc p).cwd = some cwd) (hX : cwd ∈ X) :
    Triple (In B op X L) (start p path) Fine fun ip => In B op (ip ::ₘ X) L := by
  refine .ite (fun _ => iget_spec) fun _ => .get_bind fun s hs => ?_
  rw [hs.proc, hcwd]
  exact (idup_spec hX s hs).imp fun r hr => hr.1 ▸ hr.2

theorem nameiparent_spec (hcwd : (B.proc p).cwd = some cwd) (hX : cwd ∈ X) :
    Triple (In B op X L) (nameiparent sb dev p path) Fine fun r =>
      In B op (took (r.map Prod.fst) X) L :=
  Triple.bind (start_spec hcwd hX) fun ip => namexLoop_spec true path ip

theorem namei_spec (hcwd : (B.proc p).cwd = some cwd) (hX : cwd ∈ X) :
    Triple (In B op X L) (namei sb dev p path) Fine fun r => In B op (took r X) L := by
  refine .bind (Triple.bind (start_spec hcwd hX) fun ip => namexLoop_spec false path ip)
    fun r => ?_
  exact .pure fun s hs => hs

end Names

section Calls

variable {sb : Superblock} {dev : Devsw} {B : St} {op : Int} {X : Multiset (Fin NINODE)}
  {L : Finset (Fin NINODE)} {ip dp : Fin NINODE} {name path : List UInt8} {p : Fin NPROC}
  {cwd : Fin NINODE}

theorem createDots_spec :
    Triple (In B op X L) (createDots sb dev dp ip) Fine fun _ => In B op X L := by
  refine .bind iupdate_spec fun _ => ?_
  refine .bind inode_any fun x => .bind inode_any fun y => ?_
  refine .bind dirlink_spec fun r => ?_
  refine .ite (fun _ => .throw fun _ _ => id) fun _ => ?_
  refine .bind dirlink_spec fun r => ?_
  exact .ite (fun _ => .throw fun _ _ => id) fun _ => .pure fun _ => id

theorem createNew_spec (hdp : dp ∉ L) :
    Triple (In B op (dp ::ₘ X) (insert dp L)) (createNew sb dev dp name type major minor) Fine
      fun ip s => ip ∉ L ∧ In B op (ip ::ₘ X) (insert ip L) s := by
  refine .bind ialloc_spec fun ip => ?_
  refine .bind (ilock_spec (Multiset.mem_cons_self ip _)) fun _ => .of_imp fun hip => ?_
  obtain ⟨hne, hL⟩ : ip ≠ dp ∧ ip ∉ L := by simpa using hip
  refine .bind iupdate_spec fun _ => ?_
  refine .bind (when_spec createDots_spec) fun _ => ?_
  refine .bind inode_any fun x => .bind dirlink_spec fun r => ?_
  refine .ite (fun _ => .throw fun _ _ => id) fun _ => ?_
  rw [Multiset.cons_swap, insert_comm]
  exact .bind (iunlockput_spec (by simp [hne.symm, hdp])) fun _ => .pure fun s hs => ⟨hL, hs⟩

theorem create_spec (hcwd : (B.proc p).cwd = some cwd) (hX : cwd ∈ X) :
    Triple (In B op X L) (create sb dev p path type major minor) Fine fun r s => match r with
      | none => In B op X L s
      | some ip => ip ∉ L ∧ In B op (ip ::ₘ X) (insert ip L) s := by
  refine .bind (nameiparent_spec hcwd hX) fun r => ?_
  cases r with
  | none => exact .pure fun _ => id
  | some r =>
    obtain ⟨dp, name⟩ := r
    refine .bind (ilock_spec (Multiset.mem_cons_self dp X)) fun _ => ?_
    refine .of_imp fun hdp => .bind dirlookup_spec fun r => ?_
    cases r with
    | none =>
      exact .bind (createNew_spec hdp) fun ip => .pure fun _ => id
    | some r =>
      obtain ⟨ip, off⟩ := r
      simp only [map_some, took, Multiset.cons_swap ip dp X]
      refine .bind (iunlockput_spec hdp) fun _ => ?_
      refine .bind (ilock_spec (Multiset.mem_cons_self ip X)) fun _ => ?_
      refine .of_imp fun hip => .bind inode_any fun x => ?_
      refine .ite (fun _ => .pure fun s hs => ⟨hip, hs⟩) fun _ => ?_
      refine .bind (iunlockput_spec hip) fun _ => .pure fun _ => id

theorem linkBad_spec :
    Triple (In B (op + 1) (ip ::ₘ X) L) (linkBad sb ip) Fine fun _ => In B op X L := by
  refine .bind (ilock_spec (Multiset.mem_cons_self ip X)) fun _ => .of_imp fun hip => ?_
  refine .bind iupdate_spec fun _ => .bind (iunlockput_spec hip) fun _ => ?_
  exact endOp_last

theorem sysLink_spec {args : Option (List UInt8 × List UInt8)} (hcwd : (B.proc p).cwd = some cwd)
    (hX : cwd ∈ X) : Triple (In B op X L) (sysLink sb dev p args) Fine fun _ => In B op X L := by
  cases args with
  | none => exact .pure fun _ => id
  | some args =>
    refine .bind beginOp_spec fun _ => .bind (namei_spec hcwd hX) fun r => ?_
    cases r with
    | none =>
      exact endOp_last
    | some ip =>
      have hmem := Multiset.mem_cons_self ip X
      refine .bind (ilock_spec hmem) fun _ => .of_imp fun hip => ?_
      refine .bind inode_any fun x => .ite (fun _ => ?_) fun _ => ?_
      · refine .bind (iunlockput_spec hip) fun _ => ?_
        exact endOp_last
      · refine .bind iupdate_spec fun _ => .bind (iunlock_spec hmem hip) fun _ => ?_
        refine .bind (nameiparent_spec hcwd (Multiset.mem_cons_of_mem hX)) fun r => ?_
        cases r with
        | none =>
          exact linkBad_spec
        | some r =>
          obtain ⟨dp, name⟩ := r
          refine .bind (ilock_spec (Multiset.mem_cons_self dp _)) fun _ => ?_
          refine .of_imp fun hdp => .bind dirlink_spec fun r => ?_
          refine .ite (fun _ => ?_) fun _ => ?_
          · refine .bind (iunlockput_spec hdp) fun _ => ?_
            exact linkBad_spec
          · refine .bind (iunlockput_spec hdp) fun _ => ?_
            refine .bind (iput_spec.post fun _ _ hs => hs.2) fun _ => ?_
            exact endOp_last

theorem unlinkBad_spec (hdp : dp ∉ L) :
    Triple (In B (op + 1) (dp ::ₘ X) (insert dp L)) (unlinkBad sb dp) Fine fun _ =>
      In B op X L := by
  refine .bind (iunlockput_spec hdp) fun _ => ?_
  exact endOp_last

theorem removable_spec : Triple (In B op X L) (removable sb dev ip) Fine fun _ => In B op X L :=
  Triple.bind inode_any fun _ =>
    Triple.ite (fun _ => isdirempty_spec) fun _ => .pure fun _ => id

theorem unlinkEntry_spec {off : Nat} (hdp : dp ∉ L) (hip : ip ∉ insert dp L) :
    Triple (In B (op + 1) (ip ::ₘ dp ::ₘ X) (insert ip (insert dp L)))
      (unlinkEntry sb dev dp ip off) Fine fun _ => In B op X L := by
  obtain ⟨hne, hL⟩ : ip ≠ dp ∧ ip ∉ L := by simpa using hip
  refine .bind inode_any fun x => .bind writei_spec fun n => ?_
  refine .ite (fun _ => .throw fun _ _ => id) fun _ => ?_
  refine .bind (when_spec iupdate_spec) fun _ => ?_
  rw [Multiset.cons_swap, insert_comm]
  refine .bind (iunlockput_spec (by simp [hne.symm, hdp])) fun _ => ?_
  refine .bind iupdate_spec fun _ => .bind (iunlockput_spec hL) fun _ => ?_
  exact endOp_last

theorem sysUnlink_spec {path : Option (List UInt8)} (hcwd : (B.proc p).cwd = some cwd)
    (hX : cwd ∈ X) : Triple (In B op X L) (sysUnlink sb dev p path) Fine fun _ => In B op X L := by
  cases path with
  | none => exact .pure fun _ => id
  | some path =>
    refine .bind beginOp_spec fun _ => .bind (nameiparent_spec hcwd hX) fun r => ?_
    cases r with
    | none =>
      exact endOp_last
    | some r =>
      obtain ⟨dp, name⟩ := r
      refine .bind (ilock_spec (Multiset.mem_cons_self dp X)) fun _ => ?_
      refine .of_imp fun hdp => ?_
      refine .ite (fun _ => unlinkBad_spec hdp) fun _ => ?_
      refine .bind dirlookup_spec fun r => ?_
      cases r with
      | none =>
        exact unlinkBad_spec hdp
      | some r =>
        obtain ⟨ip, off⟩ := r
        refine .bind (ilock_spec (Multiset.mem_cons_self ip _)) fun _ => ?_
        refine .of_imp fun hip => .bind inode_any fun x => ?_
        refine .ite (fun _ => .throw fun _ _ => id) fun _ => ?_
        refine .bind removable_spec fun empty => ?_
        refine .ite (fun _ => unlinkEntry_spec hdp hip) fun _ => ?_
        refine .bind (iunlockput_spec hip) fun _ => ?_
        exact unlinkBad_spec hdp

theorem openInode_spec {omode : UInt32} (hcwd : (B.proc p).cwd = some cwd) (hX : cwd ∈ X) :
    Triple (In B op X L) (openInode sb dev p path omode) Fine fun r s => match r with
      | none => In B op X L s
      | some ip => ip ∉ L ∧ In B op (ip ::ₘ X) (insert ip L) s := by
  refine .ite (fun _ => create_spec hcwd hX) fun _ => ?_
  refine .bind (namei_spec hcwd hX) fun r => ?_
  cases r with
  | none => exact .pure fun _ => id
  | some ip =>
    refine .bind (ilock_spec (Multiset.mem_cons_self ip X)) fun _ => ?_
    refine .of_imp fun hip => .bind inode_any fun x => ?_
    refine .ite (fun _ => ?_) fun _ => .pure fun s hs => ⟨hip, hs⟩
    refine .bind (iunlockput_spec hip) fun _ => .pure fun _ => id

theorem make_spec {path : Option (List UInt8)} (hcwd : (B.proc p).cwd = some cwd) (hX : cwd ∈ X) :
    Triple (In B op X L) (make sb dev p path type major minor) Fine fun _ => In B op X L := by
  refine .bind beginOp_spec fun _ => ?_
  cases path with
  | none => exact endOp_last
  | some path =>
    refine .bind (create_spec hcwd hX) fun r => ?_
    cases r with
    | none => exact endOp_last
    | some ip =>
      refine .of_imp fun hip => .bind (iunlockput_spec hip) fun _ => ?_
      exact endOp_last

theorem execReads_spec (reads : List (UInt32 × UInt32)) :
    Triple (In B op X L) (execReads sb dev ip reads) Fine fun _ => In B op X L := by
  induction reads with
  | nil => exact .pure fun _ => id
  | cons r reads ih => exact .bind readi_spec fun _ => ih

theorem exec_spec {path : Option (List UInt8)} {reads : List (UInt32 × UInt32)} {ok : Bool}
    (hcwd : (B.proc p).cwd = some cwd) (hX : cwd ∈ X) :
    Triple (In B op X L) (exec sb dev p path reads ok) Fine fun _ => In B op X L := by
  cases path with
  | none => exact .pure fun _ => id
  | some path =>
    refine .bind beginOp_spec fun _ => .bind (namei_spec hcwd hX) fun r => ?_
    cases r with
    | none =>
      exact endOp_last
    | some ip =>
      refine .bind (ilock_spec (Multiset.mem_cons_self ip X)) fun _ => ?_
      refine .of_imp fun hip => .bind (execReads_spec reads) fun _ => ?_
      refine .bind (iunlockput_spec hip) fun _ => ?_
      exact endOp_last

end Calls

end Xv6.Sys
