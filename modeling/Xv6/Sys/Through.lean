import Xv6.Lib.Run
import Xv6.Sys.Names

/-!
# Xv6.Sys.Through

The inode cache writes through.

The calls of `sysfile.c` and `file.c` reach an inode only through the operations of `Op`: they take
and drop references, lock, read, write, set the link count or the device numbers and call `iupdate`,
and allocate. In any sequence of them, by any callers that lock an inode before they use it, a valid
copy in the cache is the inode on disk each time its sleep lock is released. `writei` calls
`iupdate` only when the file grows; a block is allocated only then.
-/

namespace Xv6.Sys
namespace Through

open Fs Function

variable {fs : FS} {jp : Fin NINODE} {α : Type} {u : Unit}

/-- The operations on inodes; `update` sets the fields that only `create`, `sys_link` and
`sys_unlink` set. -/
inductive Op where
  | beginOp
  | endOp
  | iget (inum : Nat)
  | idup (ip : Fin NINODE)
  | ialloc (type : Int16)
  | ilock (ip : Fin NINODE)
  | iunlock (ip : Fin NINODE)
  | iput (ip : Fin NINODE)
  | update (ip : Fin NINODE) (major minor nlink : Int16)
  | readi (ip : Fin NINODE) (off n : UInt32)
  | writei (ip : Fin NINODE) (src : Nat → UInt8) (off n : UInt32)

/-- The result of `m` is not used. -/
def dropped {α : Type} (m : M α) : M Unit := do
  let _ ← m
  return ()

section Ops

variable (sb : Superblock) (dev : Devsw)

def Op.run : Op → M Unit
  | .beginOp => Sys.beginOp
  | .endOp => Sys.endOp
  | .iget inum => dropped (Sys.iget inum)
  | .idup ip => dropped (Sys.idup ip)
  | .ialloc type => dropped (onFs (Fs.ialloc sb · type))
  | .ilock ip => Sys.ilock sb ip
  | .iunlock ip => Sys.iunlock ip
  | .iput ip => Sys.iput sb ip
  | .update ip major minor nlink =>
    Sys.iupdate sb ip fun d => { d with major, minor, nlink }
  | .readi ip off n => dropped (onFs (Fs.readi sb dev · ip off n))
  | .writei ip src off n => dropped (onFs (Fs.writei sb dev · ip src off n))

/-- The callers hold a reference to what they use, and the lock of what they read or change. -/
def Op.Allowed (s : St) : Op → Prop
  | .iget inum => inum < sb.ninodes
  | .idup ip | .iput ip => 0 < (s.fs.icache ip).ref
  | .update ip _ _ _ | .readi ip _ _ | .writei ip _ _ _ => s.locked ip = true
  | _ => True

def Step (s : St) (op : Op) (s' : St) : Prop := op.Allowed sb s ∧ op.run sb dev s = .ok ((), s')

/-- A consistent file system, with no lock held. -/
structure Start (s : St) : Prop where
  ok : FsOk sb s.fs
  unlocked : ∀ ip, s.locked ip = false

/-- The operation releases the sleep lock of `ip`. -/
def Op.Releases (ip : Fin NINODE) (op : Op) : Prop := op = .iunlock ip ∨ op = .iput ip

end Ops

/-- Between operations: valid copies are what is on disk, and a locked inode has one. -/
structure Inv (sb : Superblock) (s : St) : Prop where
  ok : FsOk sb s.fs
  locked : ∀ ip, s.locked ip = true → Locked s.fs ip

section Steps

variable {sb : Superblock} {dev : Devsw} {s s' : St} {ip : Fin NINODE}

theorem iget_locked (inum : Nat) (h : Locked fs jp) :
    Ends (Fs.iget fs inum) (fun _ => True) fun r => Locked r.2 jp := by
  rw [Fs.iget]
  cases hfound : (List.finRange NINODE).find? fun ip =>
      0 < (fs.icache ip).ref ∧ (fs.icache ip).inum = inum with
  | some ip =>
    revert h
    simp only [Ends, Locked, FS.setInode]
    exact update_cases jp (fun h => ⟨h.1.trans (lt_add_one _), h.2⟩) fun _ _ => id
  | none =>
    cases hempty : (List.finRange NINODE).find? fun ip => (fs.icache ip).ref = 0 with
    | none => trivial
    | some ip =>
      have h0 : (fs.icache ip).ref = 0 := by simpa using List.find?_some hempty
      have hj : jp ≠ ip := by
        rintro rfl
        have := h.1
        omega
      have hsame : ∀ x, (fs.setInode ip x).icache jp = fs.icache jp := fun x =>
        update_of_ne hj _ _
      exact ⟨(congrArg Inode.ref (hsame _)).symm ▸ h.1, (congrArg Inode.valid (hsame _)).trans h.2⟩

theorem ialloc_locked (type : Int16) (h : Locked fs jp) :
    Ends (Fs.ialloc sb fs type) (fun _ => True) fun r => Locked r.2 jp := by
  rw [Fs.ialloc]
  split
  · trivial
  · refine (logWrite_keeps _ _).bind fun fs1 hk => ?_
    exact iget_locked _ ⟨(hk.ref jp).symm ▸ h.1, (hk.valid jp).trans h.2⟩

theorem keeps_locked {fs' : FS} (hk : Keeps fs fs') (h : Locked fs jp) :
    Locked fs' jp := ⟨(hk.ref jp).symm ▸ h.1, (hk.valid jp).trans h.2⟩

theorem onFs_inv (f : FS → Except Panic (α × FS))
    (hf : Ends (f s.fs) (fun _ => True) fun r => FsOk sb r.2 ∧
      ∀ jp, s.locked jp = true → Locked r.2 jp) :
    Ends (dropped (onFs f) s) (fun _ => True) fun r => Inv sb r.2 := by
  refine Ends.bind (Q := fun r : α × St => Inv sb r.2) ?_ fun r hr => hr
  rw [onFs]
  cases hr : f s.fs with
  | error e => trivial
  | ok r =>
    rw [hr] at hf
    exact ⟨hf.1, hf.2⟩

theorem ends_locked {x : Except Panic (α × FS)}
    (h : ∀ jp, s.locked jp = true → Ends x (fun _ => True) fun r => Locked r.2 jp) :
    Ends x (fun _ => True) fun r => ∀ jp, s.locked jp = true → Locked r.2 jp := by
  cases x with
  | ok r => exact h
  | error e => trivial

theorem ends_both {x : Except Panic α} {E F : Panic → Prop} {Q R : α → Prop}
    (h : Ends x E Q) (h' : Ends x F R) : Ends x (fun _ => True) fun r => Q r ∧ R r :=
  (h.and h').mono (fun _ _ => trivial) fun _ => id

theorem Inv.setLog (h : Inv sb s) (g : Log.LogSt) : Inv sb (s.setLog g) :=
  ⟨⟨h.ok.wf, h.ok.cache.inum_lt, h.ok.cache.inj, h.ok.cache.valid⟩, h.locked⟩

theorem acquiresleep_eq : acquiresleep ip s =
    if s.locked ip then .error .hang
    else .ok ((), { s with locked := update s.locked ip true }) := by
  simp only [acquiresleep, bind, StateT.bind, get, getThe, MonadStateOf.get, StateT.get,
    Except.bind, pure, Except.pure]
  split
  · rfl
  · rfl

theorem ilock_eq : ilock sb ip s =
    if (s.fs.icache ip).ref < 1 then .error .ilock
    else if s.locked ip then .error .hang
    else iload sb ip { s with locked := update s.locked ip true } := by
  show (ite ((s.fs.icache ip).ref < 1) (throw .ilock) (acquiresleep ip >>= fun _ => iload sb ip) :
    M Unit) s = _
  split
  · rfl
  · simp only [bind]
    rw [StateT.bind, acquiresleep_eq]
    by_cases hl : s.locked ip = true
    · rw [if_pos hl, if_pos hl]; rfl
    · rw [if_neg hl, if_neg hl]; rfl

theorem iput_ok (h : iput sb ip s = .ok (u, s')) :
    s.locked ip = false ∧ ∃ fs, Fs.iput sb s.fs ip = .ok fs ∧ s'.fs = fs ∧ s'.locked =
      s.locked := by
  simp only [iput, bind] at h
  rw [StateT.bind, acquiresleep_eq] at h
  by_cases hl : s.locked ip = true
  · rw [if_pos hl] at h
    cases h
  · rw [if_neg hl] at h
    simp only [bind, Except.bind, StateT.bind, doFs] at h
    have hfree : s.locked ip = false := by simpa using hl
    cases hp : Fs.iput sb s.fs ip with
    | error p => rw [hp] at h; cases h
    | ok fs =>
      rw [hp] at h
      cases h
      refine ⟨hfree, fs, rfl, rfl, ?_⟩
      show update (update s.locked ip true) ip false = s.locked
      rw [update_idem, ← hfree, update_eq_self]

theorem iload_eq : iload sb ip s =
    if (s.fs.icache ip).valid then .ok ((), s)
    else if (getDinode (s.fs.disk (sb.iblock (s.fs.icache ip).inum))
        ((s.fs.icache ip).inum % IPB)).type = 0 then .error .ilockNoType
    else .ok ((), s.setInode ip { s.fs.icache ip with
      copy := getDinode (s.fs.disk (sb.iblock (s.fs.icache ip).inum))
        ((s.fs.icache ip).inum % IPB)
      valid := true }) := by
  show (ite ((s.fs.icache ip).valid = true) (pure ())
    (set (s.setInode ip _) >>= fun _ => ite (_ = 0) (throw .ilockNoType) (pure ())) : M Unit) s = _
  split
  · rfl
  · show (ite (_ = 0) (throw .ilockNoType) (pure ()) : M Unit) _ = _
    split
    · rfl
    · rfl

theorem iunlock_eq : iunlock ip s =
    if s.locked ip = false ∨ (s.fs.icache ip).ref < 1 then .error .iunlock
    else .ok ((), { s with locked := update s.locked ip false }) := by
  simp only [iunlock, bind, StateT.bind, get, getThe, MonadStateOf.get, StateT.get, Except.bind,
    pure, Except.pure]
  split
  · rfl
  · rfl

theorem Inv.idup (h : Inv sb s) (hip : 0 < (s.fs.icache ip).ref) :
    Inv sb (s.setInode ip { s.fs.icache ip with ref := (s.fs.icache ip).ref + 1 }) := by
  refine ⟨h.ok.setRef hip _, fun jp hj => ?_⟩
  have := h.locked jp hj
  revert this
  simp only [Locked, St.setInode, FS.setInode]
  exact update_cases jp (fun h => ⟨h.1.trans (lt_add_one _), h.2⟩) fun _ _ => id

theorem getDinode_eq (h : FsOk sb s.fs) (hip : 0 < (s.fs.icache ip).ref) :
    getDinode (s.fs.disk (sb.iblock (s.fs.icache ip).inum)) ((s.fs.icache ip).inum % IPB) =
      (volOf sb s.fs.disk).dino (s.fs.icache ip).inum := by
  have hlt := h.cache.inum_lt ip hip
  simp [volOf, hlt]

theorem Inv.ilock (h : Inv sb s) (hrun : Sys.ilock sb ip s = .ok (u, s')) :
    Inv sb s' := by
  rw [ilock_eq] at hrun
  split at hrun
  · cases hrun
  · next href =>
    split at hrun
    · cases hrun
    · rw [iload_eq] at hrun
      have hpos : 0 < (s.fs.icache ip).ref := by omega
      split at hrun
      · next hvalid =>
        cases hrun
        refine ⟨h.ok, ?_⟩
        dsimp only
        exact fun jp => update_cases jp (fun _ => ⟨hpos, hvalid⟩) fun jp _ => h.locked jp
      · split at hrun
        · cases hrun
        · next htype =>
          cases hrun
          have hdino := getDinode_eq h.ok hpos
          refine ⟨h.ok.of_locked hpos h.ok.wf (fun jp hj => ?_) ?_ (fun _ _ => rfl) fun _ _ => ?_,
            fun jp hj => ?_⟩
          · simp only [St.setInode, FS.setInode, update_of_ne hj]
          · simp only [St.setInode, FS.setInode, update_self]
          · simp only [St.setInode, FS.setInode, update_self]
            exact ⟨hdino.symm, htype⟩
          · revert hj
            simp only [Locked, St.setInode, FS.setInode]
            refine update_cases (f := s.locked) jp (fun _ => ?_) fun jp hjp hj => ?_
            · simp [hpos]
            · rw [update_of_ne hjp]
              exact h.locked jp hj

theorem Inv.iunlock (h : Inv sb s) (hrun : Sys.iunlock ip s = .ok (u, s')) :
    Inv sb s' := by
  rw [iunlock_eq] at hrun
  split at hrun
  · cases hrun
  · cases hrun
    refine ⟨h.ok, ?_⟩
    dsimp only
    exact fun jp => update_cases jp Bool.noConfusion fun jp _ => h.locked jp

theorem Inv.iput (h : Inv sb s) (hip : 0 < (s.fs.icache ip).ref)
    (hrun : Sys.iput sb ip s = .ok (u, s')) : Inv sb s' := by
  obtain ⟨hfree, fs, hput, hfs, hlocked⟩ := iput_ok hrun
  have heff := iput_effect h.ok hip
  rw [hput] at heff
  obtain ⟨hok, _, hothers, _⟩ := heff
  refine ⟨hfs ▸ hok, fun jp hj => ?_⟩
  rw [hlocked] at hj
  have hjp : jp ≠ ip := fun heq => by
    rw [heq, hfree] at hj
    cases hj
  rw [hfs, Locked, hothers jp hjp]
  exact h.locked jp hj

theorem Inv.update {major minor nlink : Int16} (h : Inv sb s) (hip : s.locked ip = true)
    (hrun : Sys.iupdate sb ip (fun d => { d with major, minor, nlink }) s = .ok (u, s')) :
    Inv sb s' := by
  have hrun' : doFs (Fs.iupdate sb · ip) (s.setInode ip { s.fs.icache ip with
      copy := { (s.fs.icache ip).copy with major, minor, nlink } }) = .ok (u, s') := hrun
  have heff := iupdate_effect h.ok (h.locked ip hip)
    (d := { (s.fs.icache ip).copy with major, minor, nlink }) ⟨rfl, rfl, rfl⟩
  have hkeeps : Ends (Fs.iupdate sb (s.fs.setInode ip { s.fs.icache ip with
      copy := { (s.fs.icache ip).copy with major, minor, nlink } }) ip) (fun _ => True)
        (Keeps _) := iupdate_keeps
  simp only [doFs, St.setInode] at hrun'
  split at hrun'
  · next fs hfs =>
    cases hrun'
    rw [hfs] at heff hkeeps
    refine ⟨heff.1, fun jp hj => keeps_locked hkeeps ?_⟩
    have := h.locked jp hj
    revert this
    simp only [Locked, FS.setInode]
    exact update_cases jp id fun _ _ => id
  · cases hrun'

theorem Inv.op {op : Op} (h : Inv sb s) (hst : Step sb dev s op s') : Inv sb s' := by
  obtain ⟨ha, hrun⟩ := hst
  have hE : Allows fun _ => True := fun _ _ => trivial
  cases op with
  | beginOp =>
    have hset := beginOp_sets hE s
    rw [show beginOp s = _ from hrun] at hset
    obtain ⟨g, hg⟩ := hset
    exact (show s' = s.setLog g from hg) ▸ h.setLog g
  | endOp =>
    have hset := endOp_sets hE s
    rw [show endOp s = _ from hrun] at hset
    obtain ⟨g, hg⟩ := hset
    exact (show s' = s.setLog g from hg) ▸ h.setLog g
  | iget inum =>
    have hinv := onFs_inv (Fs.iget · inum) (ends_both (iget_ends h.ok ha)
      (ends_locked fun jp hj => iget_locked inum (h.locked jp hj)))
    rw [show dropped (onFs (Fs.iget · inum)) s = _ from hrun] at hinv
    exact hinv
  | idup ip =>
    cases hrun
    exact h.idup ha
  | ialloc type =>
    have hinv := onFs_inv (Fs.ialloc sb · type) (ends_both (ialloc_ends h.ok type)
      (ends_locked fun jp hj => ialloc_locked type (h.locked jp hj)))
    rw [show dropped (onFs (Fs.ialloc sb · type)) s = _ from hrun] at hinv
    exact hinv
  | ilock ip => exact h.ilock hrun
  | iunlock ip => exact h.iunlock hrun
  | iput ip => exact h.iput ha hrun
  | update ip major minor nlink => exact h.update ha hrun
  | readi ip off n =>
    obtain ⟨r, hr⟩ := readi_same dev h.ok (h.locked ip ha) off n
    have hsame : dropped (onFs (Fs.readi sb dev · ip off n)) s = .ok ((), s) := by
      simp only [dropped, bind, StateT.bind, onFs, hr, Except.bind]
      rfl
    rw [show dropped (onFs (Fs.readi sb dev · ip off n)) s = _ from hrun] at hsame
    cases hsame
    exact h
  | writei ip src off n =>
    have hinv := onFs_inv (Fs.writei sb dev · ip src off n) (ends_both
      (writei_owner h.ok (h.locked ip ha))
      (ends_locked fun jp hj => (writei_keeps dev src off n).imp fun r hk =>
        keeps_locked hk (h.locked jp hj)))
    rw [show dropped (onFs (Fs.writei sb dev · ip src off n)) s = _ from hrun] at hinv
    exact hinv

end Steps

section Result

variable {sb : Superblock} {dev : Devsw} {s s' : St} {ip : Fin NINODE}

theorem reach_inv (h : Reach (Start sb) (Step sb dev) s) : Inv sb s := by
  refine h.invariant (P := Inv sb) ?_ fun s e s' hs hst => hs.op hst
  intro s hs
  refine ⟨hs.ok, fun ip hip => ?_⟩
  rw [hs.unlocked ip] at hip
  cases hip

theorem reload (h : Inv sb s) (hlock : s.locked ip = false) (href : 0 < (s.fs.icache ip).ref)
    (hvalid : (s.fs.icache ip).valid = true) :
    ilock sb ip (s.setInode ip { s.fs.icache ip with valid := false }) =
      .ok ((), { s with locked := update s.locked ip true }) := by
  obtain ⟨hcopy, htype⟩ := h.ok.cache.valid ip href hvalid
  have hdino := (getDinode_eq h.ok href).trans hcopy
  have hself : (s.setInode ip { s.fs.icache ip with valid := false }).fs.icache ip =
      { s.fs.icache ip with valid := false } := update_self _ _ _
  have hlocked : (s.setInode ip { s.fs.icache ip with valid := false }).locked ip = false := hlock
  have href' : ¬ ({ s.fs.icache ip with valid := false } : Inode).ref < 1 := not_lt.mpr href
  have hback : ({ s.fs.icache ip with valid := true } : Inode) = s.fs.icache ip := by
    rw [← hvalid]
  rw [ilock_eq, hself, if_neg href', hlocked, if_neg Bool.false_ne_true, iload_eq]
  simp only [St.setInode, FS.setInode, update_self, update_idem, hdino, htype,
    Bool.false_eq_true, if_false, hback, update_eq_self]

theorem iput_copy {fs' : FS} (h : FsOk sb fs) (hip : 0 < (fs.icache ip).ref)
    (hrun : Fs.iput sb fs ip = .ok fs') (hvalid : (fs'.icache ip).valid = true) :
    fs'.disk = fs.disk ∧ (fs'.icache ip).inum = (fs.icache ip).inum ∧
      (fs'.icache ip).copy = (fs.icache ip).copy ∧ (fs.icache ip).valid = true := by
  simp only [Fs.iput] at hrun
  split at hrun
  · next hc =>
    simp only [Bool.and_eq_true, decide_eq_true_eq] at hc
    have hfree := ifree_ends (F := True) h ⟨hip, hc.1.1⟩
    cases hi : ifree sb fs ip with
    | error e => rw [hi] at hrun; cases hrun
    | ok fs1 =>
      rw [hi] at hrun hfree
      cases hrun
      obtain ⟨-, -, hic⟩ := hfree
      simp [FS.setInode, hic] at hvalid
  · cases hrun
    simp only [FS.setInode, update_self] at hvalid ⊢
    exact ⟨trivial, trivial, trivial, hvalid⟩

/-- Whenever a sleep lock is released, a valid copy is the inode on disk, and to drop the entry and
load it again changes nothing. -/
theorem write_through (h : Reach (Start sb) (Step sb dev) s) {op : Op}
    (hst : Step sb dev s op s') (hop : op.Releases ip) (hvalid : (s'.fs.icache ip).valid = true) :
    (volOf sb s'.fs.disk).dino (s'.fs.icache ip).inum = (s'.fs.icache ip).copy ∧
      (0 < (s'.fs.icache ip).ref →
        ilock sb ip (s'.setInode ip { s'.fs.icache ip with valid := false }) =
          .ok ((), { s' with locked := Function.update s'.locked ip true })) := by
  have hinv := reach_inv h
  have hinv' := hinv.op hst
  rcases hop with rfl | rfl
  · have hrun : iunlock ip s = .ok ((), s') := hst.2
    rw [iunlock_eq] at hrun
    split at hrun
    · cases hrun
    · next hheld =>
      cases hrun
      have href : 0 < (s.fs.icache ip).ref := by
        have := (not_or.mp hheld).2
        omega
      exact ⟨(hinv'.ok.cache.valid ip href hvalid).1, fun hpos =>
        reload hinv' (update_self _ _ _) hpos hvalid⟩
  · obtain ⟨hfree, fs, hput, hfs, hlocked⟩ := iput_ok hst.2
    have hvalid' : (fs.icache ip).valid = true := hfs ▸ hvalid
    obtain ⟨hdisk, hinum, hcopy, hold⟩ := iput_copy hinv.ok hst.1 hput hvalid'
    refine ⟨?_, fun hpos => reload hinv' (hlocked ▸ hfree) hpos hvalid⟩
    rw [hfs, hdisk, hinum, hcopy]
    exact (hinv.ok.cache.valid ip hst.1 hold).1

end Result

section Runs

variable (sb : Superblock) (dev : Devsw)

instance (s : St) (op : Op) : Decidable (op.Allowed sb s) := by
  cases op <;> (unfold Op.Allowed; infer_instance)

/-- The step that `op` makes, if it can. -/
def next (s : St) (op : Op) : Option St :=
  if op.Allowed sb s then (op.run sb dev s).toOption.map Prod.snd else none

variable {sb dev}

theorem next_step {s s' : St} {op : Op} (h : next sb dev s op = some s') : Step sb dev s op s' := by
  rw [next] at h
  split at h
  · next ha =>
    obtain ⟨⟨u, s1⟩, hr, rfl⟩ := Option.map_eq_some_iff.mp h
    refine ⟨ha, ?_⟩
    cases hrun : op.run sb dev s with
    | error e => rw [hrun] at hr; cases hr
    | ok r =>
      rw [hrun] at hr
      exact congrArg Except.ok (Option.some.inj hr)
  · cases h

/-- The blocks below `ceil(size / BSIZE)` of every inode have an address; nothing is said about the
addresses. -/
structure Loose (sb : Superblock) (s : St) : Prop where
  cache : Coherent sb s.fs
  mapped : ∀ i, (volOf sb s.fs.disk).Live sb i →
    ∀ bn < Vol.blocksOf ((volOf sb s.fs.disk).dino i).size.toNat,
      (volOf sb s.fs.disk).addrOf i bn ≠ 0
  unlocked : ∀ ip, s.locked ip = false

end Runs

namespace Sample

open Fs.Sample

/-- The file of `Xv6.Fs.Sample`, held by one process. -/
def held (fs : FS) : St where
  fs := fs
  locked := fun _ => false
  file := fun _ => ⟨.none, 0, false, false, 0⟩
  pipe := fun _ => none
  proc := fun _ => ⟨.unused, fun _ => none, none⟩

/-- A file of 100 bytes whose first block is the block of the inodes. -/
def crossFile : Dinode := ⟨T_FILE, 0, 0, 1, 100, fun k => if k.val = 0 then 32 else 0⟩

def crossFs : FS where
  disk := fun b => if b = 32 then setDinode Block.zero 1 crossFile else Block.zero
  log := { size := LOGSIZE, outstanding := 1, committing := false, lh := .empty }
  icache := fun ip =>
    if ip = 0 then { inum := 1, ref := 1, valid := true, copy := crossFile }
    else { inum := 0, ref := 0, valid := false, copy := default }

theorem cross_dino : (volOf sb crossFs.disk).dino 1 = crossFile :=
  getDinode_setDinode_same (by decide) crossFile

theorem cross_live {i : Nat} (h : (volOf sb crossFs.disk).Live sb i) : i = 1 := by
  obtain ⟨hlt, htype⟩ := h
  have hlt' : i < 2 := hlt
  by_contra hi
  obtain rfl : i = 0 := by omega
  apply htype
  have hzero : (volOf sb crossFs.disk).dino 0 = getDinode Block.zero 0 :=
    getDinode_setDinode_other (by decide) (by decide) crossFile
  rw [hzero]
  decide

theorem cross_entry {ip : Fin NINODE} (h : 0 < (crossFs.icache ip).ref) : ip = 0 := by
  by_contra hne
  simp [crossFs, hne] at h

theorem cross_loose : Loose sb (held crossFs) where
  cache := by
    refine ⟨fun ip hip => ?_, fun ip jp hip hjp _ => ?_, fun ip hip _ => ?_⟩
    · rw [cross_entry hip]
      decide
    · rw [cross_entry hip, cross_entry hjp]
    · rw [cross_entry hip]
      exact ⟨cross_dino, by decide⟩
  mapped := by
    intro i hl bn hbn
    obtain rfl := cross_live hl
    have hone : bn < 1 := by
      rw [show (held crossFs).fs = crossFs from rfl, cross_dino] at hbn
      exact hbn
    obtain rfl : bn = 0 := Nat.lt_one_iff.mp hone
    rw [show (held crossFs).fs = crossFs from rfl, Vol.addrOf_pos (Vol.posOf_direct (by decide)),
      Vol.refAt_direct, cross_dino]
    decide
  unlocked := fun _ => rfl

end Sample

/-- A write of one byte into the file that begins in the block of the inodes: the file does not
grow, and its inode on disk is no longer the copy. -/
theorem crossed_file_stale : ∃ s s', Reach (Loose Fs.Sample.sb)
    (Step Fs.Sample.sb Fs.Sample.dev) s ∧
    Step Fs.Sample.sb Fs.Sample.dev s (.iunlock 0) s' ∧ (s'.fs.icache 0).valid = true ∧
    (s'.fs.icache 0).copy.type = T_FILE ∧
    ((volOf Fs.Sample.sb s'.fs.disk).dino (s'.fs.icache 0).inum).type = T_DEV := by
  have hrun : (([Op.ilock 0, .writei 0 (fun _ => 3) 64 1].foldlM (next Fs.Sample.sb Fs.Sample.dev)
      (Sample.held Sample.crossFs)).any fun s =>
        (next Fs.Sample.sb Fs.Sample.dev s (.iunlock 0)).any fun s' =>
          (s'.fs.icache 0).valid && (s'.fs.icache 0).copy.type == T_FILE &&
            ((volOf Fs.Sample.sb s'.fs.disk).dino (s'.fs.icache 0).inum).type == T_DEV) = true := by
    decide +kernel
  obtain ⟨s, hs, hrun⟩ := (Option.any_eq_true _ _).mp hrun
  obtain ⟨s', hs', hcheck⟩ := (Option.any_eq_true _ _).mp hrun
  simp only [Bool.and_eq_true, beq_iff_eq] at hcheck
  have hreach : Reach (Loose Fs.Sample.sb) (Step Fs.Sample.sb Fs.Sample.dev) s :=
    Reach.follow (Q := fun _ => True) (fun _ _ _ _ => next_step) (.start Sample.cross_loose)
      (fun _ _ => trivial) hs
  exact ⟨s, s', hreach, next_step hs', hcheck.1.1, hcheck.1.2, hcheck.2⟩

/-- A byte is appended to the file of `Xv6.Fs.Sample`. -/
theorem write_through_sample : ∃ s s', Reach (Start Fs.Sample.sb)
    (Step Fs.Sample.sb Fs.Sample.dev) s ∧
    Step Fs.Sample.sb Fs.Sample.dev s (.iunlock 0) s' ∧ (s'.fs.icache 0).valid = true ∧
    (s'.fs.icache 0).copy.size = 6 ∧
    (volOf Fs.Sample.sb s'.fs.disk).dino (s'.fs.icache 0).inum = (s'.fs.icache 0).copy := by
  have hrun : (([Op.ilock 0, .writei 0 (fun _ => 3) 5 1].foldlM (next Fs.Sample.sb Fs.Sample.dev)
      (Sample.held Fs.Sample.fs)).any fun s =>
        (next Fs.Sample.sb Fs.Sample.dev s (.iunlock 0)).any fun s' =>
          (s'.fs.icache 0).valid && (s'.fs.icache 0).copy.size == 6) = true := by
    decide +kernel
  obtain ⟨s, hs, hrun⟩ := (Option.any_eq_true _ _).mp hrun
  obtain ⟨s', hs', hcheck⟩ := (Option.any_eq_true _ _).mp hrun
  simp only [Bool.and_eq_true, beq_iff_eq] at hcheck
  have hreach : Reach (Start Fs.Sample.sb) (Step Fs.Sample.sb Fs.Sample.dev) s :=
    Reach.follow (Q := fun _ => True) (fun _ _ _ _ => next_step)
      (.start ⟨Fs.Sample.ok, fun _ => rfl⟩) (fun _ _ => trivial) hs
  exact ⟨s, s', hreach, next_step hs', hcheck.1, hcheck.2,
    (write_through hreach (next_step hs') (.inl rfl) hcheck.1).1⟩

end Through
end Xv6.Sys
