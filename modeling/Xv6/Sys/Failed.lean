import Xv6.Sys.Refs
import Xv6.Sys.Succeed

/-!
# Xv6.Sys.Failed

What a failed system call leaves behind.

`open`, `mkdir`, `mknod`, `link`, `unlink` and `chdir` return -1 with everything on disk and in the
process table as it was, with one exception: `sys_open` looks for a free file and a free descriptor
only after `create` has made the file, and does not take it back.
-/

namespace Xv6.Sys

open Fs Multiset

variable {path : Option (List UInt8)} {omode : UInt32}

section Tables

variable {sb : Superblock} {B : St} {op : Int} {X : Multiset (Fin NINODE)}
  {L V : Finset (Fin NINODE)} {N : Fin NINODE → Nat} {v : Vol} {E : Stop → Prop} {p : Fin NPROC}
  {f : Fin NFILE} {ip : Fin NINODE} {s : St}

theorem On.rebase (h : On sb B op X L V N v s) : On sb s op X L V N v s :=
  ⟨⟨h.counted, h.locked, rfl, rfl, rfl⟩, h.shows⟩

theorem On.setFile (h : On sb B op X L V N v s) (f : Fin NFILE) (x : File) :
    On sb (B.setFile f x) op X L V N v (s.setFile f x) := by
  refine ⟨⟨h.counted, h.locked, ?_, h.pipe, h.proc⟩, h.shows⟩
  simp only [St.setFile, h.file]

theorem On.setFd (h : On sb B op X L V N v s) (p : Fin NPROC) (fd : Fin NOFILE)
    (f : Option (Fin NFILE)) : On sb (B.setFd p fd f) op X L V N v (s.setFd p fd f) := by
  refine ⟨⟨h.counted, h.locked, h.file, h.pipe, ?_⟩, h.shows⟩
  simp only [St.setFd, St.setProc, h.proc]

theorem filealloc_on : Triple (On sb B op X L V N v) filealloc E fun r s => match r with
    | none => (∀ f, (B.file f).ref ≠ 0) ∧ On sb B op X L V N v s
    | some f => (B.file f).ref = 0 ∧
        On sb (B.setFile f { B.file f with ref := 1 }) op X L V N v s := by
  refine .get_bind fun s hs => ?_
  cases hfind : (List.finRange NFILE).find? fun f => (s.file f).ref = 0 with
  | none =>
    refine ⟨fun f h0 => ?_, hs⟩
    have := List.find?_eq_none.mp hfind f (List.mem_finRange f)
    rw [hs.file] at this
    simp [h0] at this
  | some f =>
    have h0 := List.find?_some hfind
    simp only [hs.file, decide_eq_true_eq] at h0
    refine ends_set_bind ⟨h0, ?_⟩
    rw [hs.file]
    exact hs.setFile f _

theorem fdalloc_on : Triple (On sb B op X L V N v) (fdalloc p f) E fun r s => match r with
    | none => (∀ fd, (B.proc p).ofile fd ≠ none) ∧ On sb B op X L V N v s
    | some fd => (B.proc p).ofile fd = none ∧ On sb (B.setFd p fd (some f)) op X L V N v s := by
  refine .get_bind fun s hs => ?_
  cases hfind : (List.finRange NOFILE).find? fun fd => ((s.proc p).ofile fd).isNone with
  | none =>
    refine ⟨fun fd h0 => ?_, hs⟩
    have := List.find?_eq_none.mp hfind fd (List.mem_finRange fd)
    rw [hs.proc] at this
    simp [h0] at this
  | some fd =>
    have h0 := List.find?_some hfind
    simp only [hs.proc, Option.isNone_iff_eq_none] at h0
    exact ends_set_bind ⟨h0, hs.setFd p fd _⟩

theorem fileclose_idle (href : (B.file f).ref = 1) (htype : (B.file f).type = .none) :
    Triple (On sb B op X L V N v) (fileclose sb f) E fun _ s =>
      ∃ B', B'.proc = B.proc ∧ On sb B' op X L V N v s := by
  refine .get_bind fun s hs => ?_
  rw [hs.file, href, htype, if_neg (by decide), if_neg (by decide)]
  exact ends_set_bind ⟨B.setFile f _, rfl, hs.setFile f _⟩

/-- Neither a free file nor, then, a free descriptor. -/
def Full (s : St) (p : Fin NPROC) : Prop :=
  (∀ f, (s.file f).ref ≠ 0) ∨ ∀ fd, (s.proc p).ofile fd ≠ none

theorem openFile_rule {Q : Int → St → Prop} (hE : Allows E) (hL : ip ∉ L)
    (hidle : ∀ f, (B.file f).ref = 0 → (B.file f).type = .none)
    (hfull : ∀ B', B'.proc = B.proc → Full B p →
      Triple (On sb B' (op + 1) (ip ::ₘ X) (insert ip L) V N v)
        (do iunlockput sb ip; endOp; return -1) E Q)
    (hok : ∀ (fd : Fin NOFILE) s, ¬ Full B p → On sb s op (ip ::ₘ X) L V N v s → Q fd.val s) :
    Triple (On sb B (op + 1) (ip ::ₘ X) (insert ip L) V N v) (openFile sb p ip omode) E Q := by
  refine .bind filealloc_on fun r => ?_
  cases r with
  | none => exact .of_imp fun hfull' => hfull B rfl (.inl hfull')
  | some f =>
    refine .of_imp fun href => .bind fdalloc_on fun r => ?_
    cases r with
    | none =>
      refine .of_imp fun hfds => ?_
      refine .bind (fileclose_idle (by simp [St.setFile])
        (by simp [St.setFile, hidle f href])) fun _ =>
        Triple.of_forall fun B' => .of_imp fun hB' => ?_
      exact hfull B' hB' (.inr hfds)
    | some fd =>
      refine .of_imp fun hfd => .bind (iunlock_on hL) fun _ => ?_
      refine .bind (endOp_on hE) fun _ => .get_bind fun s hs => ?_
      refine ends_set_bind (hok fd _ ?_ (hs.setFile f _).rebase)
      rintro (h | h)
      · exact h f href
      · exact h fd hfd

end Tables

abbrev St.tree (sb : Superblock) (s : St) : Tree := (volOf sb s.fs.disk).tree sb

/-- The root and the inodes that an entry of some directory names. -/
def Named (t : Tree) (i : Nat) : Prop :=
  i = ROOTINO ∨ ∃ d n k, t d = some n ∧ n.type = T_DIR ∧ k < nents n.data ∧
    (entAt n.data k).inum ≠ 0 ∧ (entAt n.data k).inum.toNat = i

/-- Some process or file holds inode `i`. -/
def Cached (s : St) (i : Nat) : Prop := ∃ ip, 0 < (s.fs.icache ip).ref ∧ (s.fs.icache ip).inum = i

/-- Between calls: references are accounted for, the file system is well formed, and entries name
inodes that have links or are held. -/
structure Consistent (sb : Superblock) (s : St) : Prop where
  quiet : Quiet s
  ok : FsOk sb s.fs
  named : ∀ i, Named (s.tree sb) i →
    i < sb.ninodes ∧ ∀ n, s.tree sb i = some n → n.nlink ≠ 0 ∨ Cached s i

/-- What a failed call has to leave alone. -/
structure Same (sb : Superblock) (s s' : St) : Prop where
  bit : (volOf sb s'.fs.disk).bit = (volOf sb s.fs.disk).bit
  dino : (volOf sb s'.fs.disk).dino = (volOf sb s.fs.disk).dino
  contents : ∀ i, (volOf sb s'.fs.disk).contents i = (volOf sb s.fs.disk).contents i
  ofile : ∀ p, (s'.proc p).ofile = (s.proc p).ofile
  cwd : ∀ p, ((s'.proc p).cwd.map fun ip => (s'.fs.icache ip).inum) =
    (s.proc p).cwd.map fun ip => (s.fs.icache ip).inum
  outstanding : s'.fs.log.outstanding = s.fs.log.outstanding

section Consistent

variable {sb : Superblock} {dev : Devsw} {s s' : St} {p : Fin NPROC} {F : Fin NFILE → FdType}
  {cwd : Fin NINODE} {X : Multiset (Fin NINODE)}

def nums (s : St) (ip : Fin NINODE) : Nat := (s.fs.icache ip).inum

def refs (F : Fin NFILE → FdType) (P : Fin NPROC → Proc) : Multiset (Fin NINODE) := inodes F +
    cwds P

theorem Settled.on (h : Settled s.proc F s) (hok : FsOk sb s.fs) :
    On sb s 0 (refs F s.proc) ∅ ∅ (nums s) (volOf sb s.fs.disk) s where
  toIn := h.toIn
  shows := ⟨hok, rfl, fun _ _ => rfl, fun ip hip => by simp at hip⟩

theorem Settled.held_iff (h : Settled s.proc F s) {i : Nat} :
    HeldBy (refs F s.proc) (nums s) i ↔ Cached s i :=
  exists_congr fun _ => and_congr_left fun _ => h.counted.ref_pos.symm

theorem Consistent.ready (h : Consistent sb s) (hF : Settled s.proc F s)
    (hcwd : (s.proc p).cwd = some cwd) :
    Ready sb (fun _ => True) s (refs F s.proc) ∅ (nums s) (s.tree sb)
      (fun i => Named (s.tree sb) i ∨ Cached s i) p cwd := by
  have hmem : cwd ∈ refs F s.proc := mem_add.mpr (.inr (mem_cwds hcwd))
  have hheld : Cached s (nums s cwd) := ⟨cwd, hF.counted.ref_pos.mpr hmem, rfl⟩
  refine ⟨fun _ _ => trivial, by simp, ⟨?_, fun _ _ => .inr trivial, ?_, ?_⟩, .inl (.inl rfl), hcwd,
    hmem, .inr hheld⟩
  · rintro i (hi | ⟨ip, hpos, rfl⟩)
    · exact (h.named i hi).1
    · exact h.ok.cache.inum_lt ip hpos
  · rintro i n (hi | hi) hn
    · exact ((h.named i hi).2 n hn).imp_right hF.held_iff.mpr
    · exact .inr (hF.held_iff.mpr hi)
  · intro i n k _ hn hdir hk hne
    exact .inl (.inr ⟨i, n, k, hn, hdir, hk, hne, rfl⟩)

theorem On.same {B : St} (hF : Settled s.proc F s) (hB : B.proc = s.proc)
    (h : On sb B 0 (refs F s.proc) ∅ ∅ (nums s) (volOf sb s.fs.disk) s') : Same sb s s' where
  bit := by rw [h.shows.vol]
  dino := by rw [h.shows.vol]
  contents _ := by rw [h.shows.vol]
  ofile p := by rw [h.proc, hB]
  cwd p := by
    rw [h.proc, hB]
    cases hcwd : (s.proc p).cwd with
    | none => rfl
    | some ip => exact congrArg some (h.shows.num ip (mem_add.mpr (.inr (mem_cwds hcwd))))
  outstanding := by rw [h.counted.outstanding, hF.counted.outstanding]

/-- The calls that fail by returning -1 before they change anything. -/
inductive Call.OnName : Call → Prop
  | open (args : Option (List UInt8 × UInt32)) : OnName (.open args)
  | mkdir (path : Option (List UInt8)) : OnName (.mkdir path)
  | mknod (path : Option (List UInt8)) (major minor : Int16) : OnName (.mknod path major minor)
  | link (args : Option (List UInt8 × List UInt8)) : OnName (.link args)
  | unlink (path : Option (List UInt8)) : OnName (.unlink path)
  | chdir (path : Option (List UInt8)) : OnName (.chdir path)

/-- `open` is to create a file and there is no file or descriptor to open it with. -/
def NoRoom (sb : Superblock) (s : St) (p : Fin NPROC) (c : Call) : Prop :=
  ∃ path omode cwd, c = .open (some (path, omode)) ∧ omode &&& O_CREATE ≠ 0 ∧
    (s.proc p).cwd = some cwd ∧ Absent sb (volOf sb s.fs.disk) path (nums s cwd) ∧ Full s p

theorem endOp_zero {m : M Unit} (P : St → Prop) :
    Triple P (do m; endOp; return 0 : M Int) (fun _ => True) fun r _ => r = 0 :=
  Triple.bind (Triple.trivial P _) fun _ => .bind (Triple.trivial _ _) fun _ =>
    Triple.pure fun _ _ => rfl

theorem unlinkEntry_zero (P : St → Prop) (dp ip : Fin NINODE) (off : Nat) :
    Triple P (unlinkEntry sb dev dp ip off) (fun _ => True) fun r _ => r = 0 := by
  refine .bind (Triple.trivial P _) fun _ => .bind (Triple.trivial _ _) fun _ => ?_
  refine .ite (fun _ => .throw fun _ _ => trivial) fun _ => ?_
  refine .bind (Triple.trivial _ _) fun _ => .bind (Triple.trivial _ _) fun _ => ?_
  exact .bind (Triple.trivial _ _) fun _ => endOp_zero _

section Fails

variable {B : St} {op : Int} {L V : Finset (Fin NINODE)} {N : Fin NINODE → Nat} {v : Vol}
  {S : Nat → Prop} {Q : Int → St → Prop}

theorem refused_on (hfail : ∀ s, On sb B op X L V N v s → Q (-1) s) :
    Triple (On sb B op X L V N v) (do beginOp; endOp; return -1) (fun _ => True) Q :=
  Triple.bind (beginOp_on fun _ _ => trivial) fun _ => endOp_return (fun _ _ => trivial) hfail

variable (h : Ready sb (fun _ => True) B X V N (v.tree sb) S p cwd)
  (hfail : ∀ s, On sb B op X L V N v s → Q (-1) s) (hzero : ∀ s, Q 0 s)
include h hfail hzero

theorem make_fails {type major minor : Int16} (htype : type ≠ T_FILE) :
    Triple (On sb B op X L V N v) (make sb dev p path type major minor) (fun _ => True) Q := by
  cases path with
  | none => exact refused_on hfail
  | some path =>
    refine make_rule htype h hfail fun _ _ _ _ _ _ _ _ _ _ => ?_
    refine .bind (Triple.trivial _ _) fun _ => (endOp_zero _).post ?_
    rintro _ s rfl
    exact hzero s

theorem sysLink_fails {args : Option (List UInt8 × List UInt8)} :
    Triple (On sb B op X L V N v) (sysLink sb dev p args) (fun _ => True) Q := by
  cases args with
  | none => exact .pure hfail
  | some args =>
    refine sysLink_rule h hfail fun _ _ _ _ _ _ _ _ => ?_
    refine .bind (Triple.trivial _ _) fun _ => (endOp_zero _).post ?_
    rintro _ s rfl
    exact hzero s

theorem sysUnlink_fails :
    Triple (On sb B op X L V N v) (sysUnlink sb dev p path) (fun _ => True) Q := by
  cases path with
  | none => exact .pure hfail
  | some path =>
    refine sysUnlink_rule h hfail fun _ _ _ _ _ _ _ _ => (unlinkEntry_zero _ _ _ _).post ?_
    rintro _ s rfl
    exact hzero s

theorem sysChdir_fails :
    Triple (On sb B op X L V N v) (sysChdir sb dev p path) (fun _ => True) Q := by
  cases path with
  | none => exact refused_on hfail
  | some path =>
    refine sysChdir_rule h hfail fun _ _ _ _ _ _ => ?_
    refine .bind (Triple.trivial _ _) fun _ => .bind (Triple.trivial _ _) fun _ => ?_
    refine .bind (Triple.trivial _ _) fun _ => .bind (Triple.trivial _ _) fun _ => ?_
    exact .pure fun s _ => hzero s

end Fails

/-- What `open` finds or makes before it looks for a file and a descriptor. -/
structure Opened (sb : Superblock) (v : Vol) (X : Multiset (Fin NINODE)) (N : Fin NINODE → Nat)
    (made : Prop) (ip : Fin NINODE) (N' : Fin NINODE → Nat) (v' : Vol) : Prop where
  agree : Agree X N N'
  old : ¬ made → v' = v
  new : made → (v.dino (N' ip)).type = 0 ∧ v'.Live sb (N' ip)
  keep : v'.Live sb (N' ip) → (v'.dino (N' ip)).nlink ≠ 0 ∨ HeldBy X N' (N' ip)

theorem openInode_opens {B : St} {op : Int} {V : Finset (Fin NINODE)} {N : Fin NINODE → Nat}
    {v : Vol} {S : Nat → Prop} {path : List UInt8}
    (h : Ready sb (fun _ => True) B X V N (v.tree sb) S p cwd) :
    Triple (On sb B op X ∅ V N v) (openInode sb dev p path omode) (fun _ => True) fun r s =>
      match r with
      | none => ¬ (omode &&& O_CREATE ≠ 0 ∧ Absent sb v path (N cwd)) ∧ On sb B op X ∅ V N v s
      | some ip => ∃ N' v', Opened sb v X N (omode &&& O_CREATE ≠ 0 ∧ Absent sb v path (N cwd))
          ip N' v' ∧ On sb B op (ip ::ₘ X) (insert ip ∅) V N' v' s := by
  refine openInode_rule h (fun s hm hs => ⟨hm, hs⟩) ?_ ?_
  · intro ip N' s hm hS hlive _ hN hs
    exact ⟨N', v, ⟨hN, fun _ => rfl, fun hc => absurd hc hm, (h.agree hN).closed.keeps hS⟩, hs⟩
  · intro d name dp N' hcreate hw hlive hk hd _ hN
    subst hd
    have hS := h.parent_mem hw
    refine (createNew_on h.stops h.read (by decide) (by simp) hlive hk ?_).post ?_
    · rw [if_neg (by decide)]
      exact (h.agree hN).closed.keeps hS hlive
    · rintro ip s ⟨N'', v', -, hlt, hfree, hX, -, hon, htree⟩
      have hne : N'' ip ≠ N' dp := by
        intro heq
        rw [heq, Vol.tree_live hlive] at hfree
        cases hfree
      have hnode : v'.tree sb (N'' ip) = some ⟨T_FILE, 0, 0, 1, []⟩ := by
        rw [htree, grown, if_neg (by decide), Function.update_of_ne hne, Function.update_self]
      obtain ⟨hlive', heq⟩ := Vol.tree_eq_some.mp hnode
      have hfree' : (v.dino (N'' ip)).type = 0 := by
        by_contra ht
        rw [Vol.tree_live ⟨hlt, ht⟩] at hfree
        cases hfree
      refine ⟨N'', v', ⟨hN.trans hX, ?_, fun _ => ⟨hfree', hlive'⟩, fun _ => .inl ?_⟩, hon⟩
      · exact fun hc => absurd ⟨hcreate, _, _, hw, hk⟩ hc
      · rw [show (v'.dino (N'' ip)).nlink = 1 from congrArg Node.nlink heq]
        decide

theorem Settled.idle (h : Settled s.proc F s) (f : Fin NFILE) (hf : (s.file f).ref = 0) :
    (s.file f).type = .none := by
  rw [h.filed.type f]
  refine h.filed.idle f ?_
  rw [← count_eq_zero]
  have := h.filed.ref f
  omega

theorem sysOpen_on {path : List UInt8} (h : Consistent sb s)
    (hF : Settled s.proc F s) (hcwd : (s.proc p).cwd = some cwd) {made : Prop}
    (hmade : made = (omode &&& O_CREATE ≠ 0 ∧
      Absent sb (volOf sb s.fs.disk) path (nums s cwd))) :
    Triple (On sb s 0 (refs F s.proc) ∅ ∅ (nums s) (volOf sb s.fs.disk))
      (sysOpen sb dev p (some (path, omode))) (fun _ => True) fun r s' =>
      (r = -1 → made ∧ Full s p ∨ Same sb s s') ∧
      (made ∧ Full s p → r = -1 ∧ ¬ Same sb s s') := by
  have hnoE : Allows fun _ => True := fun _ _ => trivial
  refine .bind (beginOp_on hnoE) fun _ => ?_
  refine .bind (openInode_opens (h.ready hF hcwd)) fun r => ?_
  rw [← hmade]
  cases r with
  | none =>
    refine .of_imp fun hm => endOp_return hnoE fun s' hs' => ⟨fun _ => .inr ?_, fun hc => ?_⟩
    · exact hs'.same hF rfl
    · exact absurd hc.1 hm
  | some ip =>
    refine .of_forall fun N' => .of_forall fun v' => .of_imp fun ho => ?_
    refine openFile_rule hnoE (by simp) hF.idle (fun B' hB' hfull => ?_) fun fd s' hno _ => ?_
    · refine .bind (iunlockput_keep (by simp) (by simp) ho.keep) fun _ => ?_
      refine endOp_return hnoE fun s' hs' => ?_
      by_cases hm : made
      · refine ⟨fun _ => .inl ⟨hm, hfull⟩, fun _ => ⟨rfl, fun hsame => ?_⟩⟩
        obtain ⟨hfree, hlive⟩ := ho.new hm
        refine hlive.2 ?_
        rw [← hs'.shows.vol, hsame.dino, hfree]
      · rw [ho.old hm] at hs'
        refine ⟨fun _ => .inr ?_, fun hc => absurd hc.1 hm⟩
        exact (hs'.agree fun jp hjp => (ho.agree jp hjp).symm).same hF hB'
    · refine ⟨fun hr => ?_, fun hc => absurd hc.2 hno⟩
      have : (0 : Int) ≤ fd.val := Int.natCast_nonneg _
      omega

theorem sysOpen_ends (dev : Devsw) (args : Option (List UInt8 × UInt32)) (h : Consistent sb s)
    (hp : (s.proc p).state = .live) : Ends (sysOpen sb dev p args s) (fun _ => True) fun r =>
      (r.1 = -1 → NoRoom sb s p (.open args) ∨ Same sb s r.2) ∧
      (NoRoom sb s p (.open args) → r.1 = -1 ∧ ¬ Same sb s r.2) := by
  obtain ⟨F, hF, hP⟩ := h.quiet
  obtain ⟨cwd, hcwd⟩ := hP.live p hp
  cases args with
  | none =>
    refine ⟨fun _ => .inr ((hF.on h.ok).same hF rfl), ?_⟩
    rintro ⟨path, omode, cwd', hc, -⟩
    cases hc
  | some args =>
    obtain ⟨path, omode⟩ := args
    have hroom : NoRoom sb s p (.open (some (path, omode))) ↔
        (omode &&& O_CREATE ≠ 0 ∧ Absent sb (volOf sb s.fs.disk) path (nums s cwd)) ∧ Full s p := by
      constructor
      · rintro ⟨path', omode', cwd', hc, h1, h2, h3, h4⟩
        cases hc
        rw [hcwd] at h2
        cases h2
        exact ⟨⟨h1, h3⟩, h4⟩
      · rintro ⟨⟨h1, h3⟩, h4⟩
        exact ⟨path, omode, cwd, rfl, h1, hcwd, h3, h4⟩
    rw [hroom]
    exact sysOpen_on h hF hcwd rfl s (hF.on h.ok)

/-- A call on names that returns -1 has changed nothing, unless it is an `open` that had to create
the file and found no file or descriptor for it. -/
theorem failed_unchanged (c : Call) (hc : c.OnName) (h : Consistent sb s)
    (hp : (s.proc p).state = .live) {r : Int} (hcall : call sb dev p c s = .ok (r, s')) :
    (r = -1 → Same sb s s') ↔ ¬ NoRoom sb s p c := by
  have hfails : (∃ args, c = .open args) ∨ (¬ NoRoom sb s p c ∧
      Ends (call sb dev p c s) (fun _ => True) fun r => r.1 = -1 → Same sb s r.2) := by
    obtain ⟨F, hF, hP⟩ := h.quiet
    obtain ⟨cwd, hcwd⟩ := hP.live p hp
    have hready := h.ready hF hcwd
    have hon := hF.on h.ok
    have hfail : ∀ s', On sb s 0 (refs F s.proc) ∅ ∅ (nums s) (volOf sb s.fs.disk) s' →
        ((-1 : Int) = -1 → Same sb s s') := fun s' hs' _ => hs'.same hF rfl
    have hzero : ∀ s' : St, (0 : Int) = -1 → Same sb s s' := fun s' h0 => absurd h0 (by decide)
    have hno : ∀ c', (∀ args, c' ≠ Call.open args) → ¬ NoRoom sb s p c' := by
      rintro c' hc' ⟨path, omode, cwd', rfl, -⟩
      exact hc' _ rfl
    cases hc with
    | «open» args => exact .inl ⟨args, rfl⟩
    | mkdir path | mknod path major minor =>
      exact .inr ⟨hno _ fun _ => Call.noConfusion, make_fails
        (Q := fun r s' => r = -1 → Same sb s s') hready hfail hzero (by decide) s hon⟩
    | link args =>
      exact .inr ⟨hno _ fun _ => Call.noConfusion, sysLink_fails
        (Q := fun r s' => r = -1 → Same sb s s') hready hfail hzero s hon⟩
    | unlink path =>
      exact .inr ⟨hno _ fun _ => Call.noConfusion, sysUnlink_fails
        (Q := fun r s' => r = -1 → Same sb s s') hready hfail hzero s hon⟩
    | chdir path =>
      exact .inr ⟨hno _ fun _ => Call.noConfusion, sysChdir_fails
        (Q := fun r s' => r = -1 → Same sb s s') hready hfail hzero s hon⟩
  rcases hfails with ⟨args, rfl⟩ | ⟨hno, hends⟩
  · obtain ⟨h1, h2⟩ := (sysOpen_ends dev args h hp).of_ok hcall
    refine ⟨fun hsame hroom => ?_, fun hno hr => (h1 hr).resolve_left hno⟩
    exact (h2 hroom).2 (hsame (h2 hroom).1)
  · exact ⟨fun _ => hno, fun _ => hends.of_ok hcall⟩

end Consistent

/-! ## A full descriptor table

A root directory with `.`, `..` and room for one entry, and a process that has opened it sixteen
times. -/

namespace Crowded

theorem bmap_gt : 32 + 4 / IPB < 33 := by decide

theorem ninodes_lt : 4 < 2 ^ 31 := by decide

def sb : Superblock where
  size := 128
  nblocks := 94
  ninodes := 4
  nlog := LOGSIZE
  logstart := 2
  inodestart := 32
  bmapstart := 33
  log_ge := Fs.Sample.sb.log_ge
  inode_ge := Fs.Sample.sb.inode_ge
  bmap_gt := bmap_gt
  data_gt := Fs.Sample.sb.data_gt
  size_lt := Fs.Sample.sb.size_lt
  ninodes_lt := ninodes_lt

def root : Dinode := ⟨T_DIR, 0, 0, 1, 48, fun k => if k.val = 0 then 34 else 0⟩

/-- The entries `.` and `..`, and zeros. -/
def entries : Block := fun k =>
  if k.val = 0 ∨ k.val = 16 then 1 else if k.val = 2 ∨ k.val = 18 ∨ k.val = 19 then 46 else 0

def disk (b : Nat) : Block :=
  if b = 33 then Fs.Sample.bitmapBlock
  else if b = 32 then setDinode Block.zero 1 root
  else if b = 34 then entries
  else Block.zero

def files (f : Fin NFILE) : FdType := if f.val = 0 then .inode 0 else .none

def state : St where
  fs :=
    { disk
      log := { size := LOGSIZE, outstanding := 0, committing := false, lh := .empty }
      icache := fun ip =>
        if ip.val = 0 then { inum := 1, ref := 2, valid := true, copy := root }
        else { inum := 0, ref := 0, valid := false, copy := default } }
  locked := fun _ => false
  file := fun f => ⟨files f, if f.val = 0 then 16 else 0, true, false, 0⟩
  pipe := fun _ => none
  proc := fun p =>
    if p.val = 0 then ⟨.live, fun _ => some 0, some 0⟩ else ⟨.unused, fun _ => none, none⟩

theorem dino_one : (volOf sb disk).dino 1 = root := getDinode_setDinode_same (by decide) root

theorem live_iff (j : Nat) : (volOf sb disk).Live sb j ↔ j = 1 := by
  constructor
  · rintro ⟨hlt, htype⟩
    by_contra hj
    refine htype ?_
    have hlt' : j < 4 := hlt
    have hmod : j % IPB = j := Nat.mod_eq_of_lt (hlt'.trans (by decide))
    have hblock : sb.iblock j = 32 := by
      simp only [Superblock.iblock, sb, IPB, BSIZE]
      omega
    have hdino : (volOf sb disk).dino j = getDinode (setDinode Block.zero 1 root) j := by
      simp only [volOf, hlt, if_true, hblock, hmod]
      rfl
    rw [hdino, getDinode_setDinode_other (by decide) hj]
    exact getDinode_zero_type j
  · rintro rfl
    refine ⟨by decide, ?_⟩
    rw [dino_one]
    decide

theorem addrs_one (k : Fin (NDIRECT + 1)) : ((volOf sb disk).dino 1).addrs k =
    if k.val = 0 then UInt32.ofNat sb.dataStart else 0 := by
  rw [dino_one]
  rfl

theorem wellFormed : (volOf sb disk).WellFormed sb := by
  refine Vol.wellFormed_single addrs_one live_iff (fun b hb => ?_) (by decide) ?_
  · have hlt : b < 128 := hb
    have hstart : sb.dataStart = 34 := rfl
    have hmod : b % BPB = b := Nat.mod_eq_of_lt (by simp only [BPB, BSIZE]; omega)
    have hblock : sb.bblock b = 33 := by
      simp only [Superblock.bblock, sb, BPB, BSIZE]
      omega
    simp only [volOf, hb, if_true, hblock, hmod, hstart]
    exact (Fs.Sample.getBit_bitmap ⟨b, hlt⟩).trans (decide_eq_decide.mpr Nat.lt_succ_iff)
  · rw [dino_one]
    decide

theorem entry_zero {ip : Fin NINODE} (h : 0 < (state.fs.icache ip).ref) : ip = 0 := by
  by_contra hne
  simp [state, hne] at h

theorem fsOk : FsOk sb state.fs := by
  refine ⟨wellFormed, fun ip hip => ?_, fun ip jp hip hjp _ => ?_, fun ip hip _ => ?_⟩
  · rw [entry_zero hip]
    decide
  · rw [entry_zero hip, entry_zero hjp]
  · rw [entry_zero hip]
    exact ⟨dino_one, by decide⟩

theorem ofile_eq (p : Fin NPROC) (fd : Fin NOFILE) :
    (state.proc p).ofile fd = if p = 0 then some 0 else none := by
  by_cases hp : p = 0
  · subst hp
    rfl
  · have hval : p.val ≠ 0 := fun h => hp (Fin.ext h)
    rw [if_neg hp]
    simp only [state, if_neg hval]

theorem count_slots (f : Fin NFILE) : (slots state.proc).count f = if f = 0 then 16 else 0 := by
  rw [slots, count_tally]
  split
  · have hall : (Finset.univ.filter fun x : Fin NPROC × Fin NOFILE =>
        (state.proc x.1).ofile x.2 = some f) = {0} ×ˢ Finset.univ := by
      ext ⟨p, fd⟩
      simp_all [ofile_eq, eq_comm]
    rw [hall]
    rfl
  · rw [Finset.card_eq_zero, Finset.filter_eq_empty_iff]
    rintro ⟨p, fd⟩ -
    simp_all [ofile_eq, eq_comm]

theorem settled : Settled state.proc files state where
  counted := by
    refine ⟨fun ip => ?_, fun ip jp hip hjp _ => ?_, rfl, rfl⟩
    · rw [count_add, inodes, cwds, count_tally, count_tally]
      revert ip
      decide +kernel
    · rw [entry_zero hip, entry_zero hjp]
  locked := fun _ => rfl
  filed := by
    refine ⟨fun f => ?_, fun _ => rfl, fun f hf => ?_⟩
    · rw [count_slots]
      simp only [state, Fin.val_eq_zero_iff]
      split <;> rfl
    · rw [files, if_neg]
      intro h0
      obtain rfl : f = 0 := Fin.ext h0
      rw [slots, mem_tally] at hf
      exact hf ⟨(0, 0), ofile_eq 0 0⟩
  proc := rfl

theorem procsOk : ProcsOk state.proc := by
  refine ⟨fun p hp => ?_, fun p hp => ?_⟩ <;> by_cases h0 : p.val = 0
  · exact ⟨0, by simp only [state, h0, if_true]⟩
  · simp only [state, h0, if_false] at hp
    cases hp
  · simp only [state, h0, if_true] at hp
    exact absurd rfl hp
  · simp only [state, h0, if_false]
    exact ⟨trivial, fun _ => trivial⟩

theorem entries_inum : ∀ k : Fin 3,
    (entAt ((volOf sb disk).contents 1) k.val).inum = if k.val < 2 then 1 else 0 := by
  decide +kernel

theorem named {i : Nat} (h : Named (state.tree sb) i) : i = 1 := by
  rcases h with h | ⟨d, n, k, hn, -, hk, hne, rfl⟩
  · exact h
  · obtain ⟨hl, rfl⟩ := Vol.tree_eq_some.mp hn
    obtain rfl := (live_iff d).mp hl
    have hlen : nents ((volOf sb disk).contents 1) = 3 := by
      rw [nents, contents_length, dino_one]
      rfl
    have hk3 : k < 3 := hlen ▸ hk
    have hinum := entries_inum ⟨k, hk3⟩
    change (entAt ((volOf sb disk).contents 1) k).inum ≠ 0 at hne
    show (entAt ((volOf sb disk).contents 1) k).inum.toNat = 1
    dsimp only at hinum
    split at hinum
    · rw [hinum]
      rfl
    · exact absurd hinum hne

theorem consistent : Consistent sb state where
  quiet := ⟨files, settled, procsOk⟩
  ok := fsOk
  named := by
    intro i hi
    obtain rfl := named hi
    refine ⟨by decide, fun n hn => .inl ?_⟩
    obtain ⟨-, rfl⟩ := Vol.tree_eq_some.mp hn
    show ((volOf sb disk).dino 1).nlink ≠ 0
    rw [dino_one]
    decide

abbrev openCall : Call := .open (some ([120], O_CREATE ||| O_RDWR))

/-- A call that returns -1, in a state where inode 2 has the type `type`. -/
def failed (r : Except Stop (Int × St)) (type : Int16) : Bool :=
  match r with
  | .ok (r, s) => r == -1 && ((volOf sb s.fs.disk).dino 2).type == type
  | .error _ => false

theorem failed_ok {r : Except Stop (Int × St)} {type : Int16} (h : failed r type = true) :
    ∃ s, r = .ok (-1, s) ∧ ((volOf sb s.fs.disk).dino 2).type = type := by
  cases r with
  | error e => cases h
  | ok r =>
    obtain ⟨r, s⟩ := r
    simp only [failed, Bool.and_eq_true, beq_iff_eq] at h
    exact ⟨s, by rw [h.1], h.2⟩

theorem open_fails : failed (call sb Fs.Sample.dev 0 openCall state) T_FILE = true := by
  decide +kernel

theorem unlink_fails : failed (call sb Fs.Sample.dev 0 (.unlink (some [120])) state) 0 = true := by
  decide +kernel

end Crowded

/-- The call has made the file that it could not open. -/
theorem open_leaves_file : Consistent Crowded.sb Crowded.state ∧
    (Crowded.state.proc 0).state = .live ∧
    ∃ s, call Crowded.sb Fs.Sample.dev 0 Crowded.openCall Crowded.state = .ok (-1, s) ∧
      ((volOf Crowded.sb s.fs.disk).dino 2).type = T_FILE ∧ ¬ Same Crowded.sb Crowded.state s := by
  obtain ⟨s, hs, htype⟩ := Crowded.failed_ok Crowded.open_fails
  refine ⟨Crowded.consistent, rfl, s, hs, htype, fun hsame => ?_⟩
  rw [hsame.dino] at htype
  change ((volOf Crowded.sb Crowded.disk).dino 2).type = T_FILE at htype
  exact (Crowded.live_iff 2).not.mpr (by decide) ⟨by decide, by rw [htype]; decide⟩

theorem failed_unchanged_unlink : Consistent Crowded.sb Crowded.state ∧
    ∃ s, call Crowded.sb Fs.Sample.dev 0 (.unlink (some [120])) Crowded.state = .ok (-1, s) ∧
      Same Crowded.sb Crowded.state s := by
  obtain ⟨s, hs, -⟩ := Crowded.failed_ok Crowded.unlink_fails
  refine ⟨Crowded.consistent, s, hs, ?_⟩
  refine (failed_unchanged _ (.unlink _) Crowded.consistent rfl hs).mpr ?_ rfl
  rintro ⟨_, _, _, hc, -⟩
  cases hc

end Xv6.Sys
