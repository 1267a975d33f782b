import Xv6.Fs.Owner
import Xv6.Lib.Run
import Xv6.Sys.Held

/-!
# Xv6.Sys.Refs

Reference counts are exact between system calls.

`Acc P F op Z Y L` is the account of a running call: the files have the references `Y`, their types
are `F`, the processes are `P`, and the references to inodes are those of the files and `Z`. Between
calls `Z` is the current directories and `Y` the descriptors (`Settled`). Each function moves
references between the parts of the account, and each system call brings it back to a settled one.
-/

namespace Xv6.Sys

open Fs Function

def FdType.ip : FdType → Option (Fin NINODE)
  | .inode ip => some ip
  | _ => Option.none

def inodes (F : Fin NFILE → FdType) : Multiset (Fin NINODE) := tally fun f => (F f).ip

def cwds (P : Fin NPROC → Proc) : Multiset (Fin NINODE) := tally fun p => (P p).cwd

def slots (P : Fin NPROC → Proc) : Multiset (Fin NFILE) :=
  tally fun x : Fin NPROC × Fin NOFILE => (P x.1).ofile x.2

structure Filed (Y : Multiset (Fin NFILE)) (F : Fin NFILE → FdType) (file : Fin NFILE → File) :
    Prop where
  ref : ∀ f, (file f).ref = Y.count f
  type : ∀ f, (file f).type = F f
  idle : ∀ f, f ∉ Y → F f = .none

structure Acc (P : Fin NPROC → Proc) (F : Fin NFILE → FdType) (op : Int)
    (Z : Multiset (Fin NINODE)) (Y : Multiset (Fin NFILE)) (L : Finset (Fin NINODE)) (s : St) :
    Prop where
  counted : Counted s.fs op (inodes F + Z)
  locked : ∀ ip, s.locked ip = decide (ip ∈ L)
  filed : Filed Y F s.file
  proc : s.proc = P

/-- The processes with `p->ofile[fd] = f`. -/
def withFd (P : Fin NPROC → Proc) (p : Fin NPROC) (fd : Fin NOFILE) (f : Option (Fin NFILE)) :
    Fin NPROC → Proc :=
  Function.update P p { P p with ofile := Function.update (P p).ofile fd f }

section Tables

variable {P : Fin NPROC → Proc} {p : Fin NPROC} {fd : Fin NOFILE}

theorem slots_withFd (P : Fin NPROC → Proc) (p : Fin NPROC) (fd : Fin NOFILE)
    (f : Option (Fin NFILE)) :
    slots (withFd P p fd f) + one ((P p).ofile fd) = slots P + one f := by
  have heq : (fun x : Fin NPROC × Fin NOFILE => (withFd P p fd f x.1).ofile x.2) =
      update (fun x => (P x.1).ofile x.2) (p, fd) f := by
    funext x
    by_cases hp : x.1 = p
    · by_cases hfd : x.2 = fd
      · have hx : x = (p, fd) := Prod.ext hp hfd
        simp [withFd, hx]
      · have hx : x ≠ (p, fd) := fun h => hfd (by rw [h])
        simp [withFd, hp, hfd, hx]
    · have hx : x ≠ (p, fd) := fun h => hp (by rw [h])
      simp [withFd, hp, hx]
  rw [slots, heq]
  exact tally_update _ (p, fd) f

theorem slots_store {f : Fin NFILE} (h : (P p).ofile fd = none) :
    slots (withFd P p fd (some f)) = f ::ₘ slots P := by
  have := slots_withFd P p fd (some f)
  rw [h, one_none, add_zero, one_some, add_comm, Multiset.singleton_add] at this
  exact this

theorem slots_clear {f : Fin NFILE} (h : (P p).ofile fd = some f) :
    slots P = f ::ₘ slots (withFd P p fd none) := by
  have := slots_withFd P p fd none
  rw [h, one_none, add_zero, one_some, add_comm, Multiset.singleton_add] at this
  exact this.symm

theorem cwds_withFd (p : Fin NPROC) (fd : Fin NOFILE) (f : Option (Fin NFILE)) : cwds
    (withFd P p fd f) = cwds P := by
  refine tally_congr fun q => ?_
  rw [withFd]
  exact update_cases q rfl fun _ _ => rfl

theorem mem_slots {f : Fin NFILE} (h : (P p).ofile fd = some f) : f ∈ slots P := by
  rw [slots, mem_tally]
  exact ⟨(p, fd), h⟩

theorem mem_cwds {cwd : Fin NINODE} (h : (P p).cwd = some cwd) : cwd ∈ cwds P := by
  rw [cwds, mem_tally]
  exact ⟨p, h⟩

theorem slots_update {x : Proc} (h : x.ofile = (P p).ofile) :
    slots (update P p x) = slots P := by
  refine tally_congr fun y => ?_
  by_cases hp : y.1 = p
  · simp [hp, h]
  · simp [hp]

theorem cwds_update (P : Fin NPROC → Proc) (p : Fin NPROC) (x : Proc) :
    cwds (update P p x) + one (P p).cwd = cwds P + one x.cwd := by
  have heq : (fun q => (update P p x q).cwd) =
      update (fun q => (P q).cwd) p x.cwd := comp_update Proc.cwd P p x
  rw [cwds, heq]
  exact tally_update _ p x.cwd

theorem inodes_update (F : Fin NFILE → FdType) (f : Fin NFILE) (t : FdType) :
    inodes (update F f t) + one (F f).ip = inodes F + one t.ip := by
  have heq : (fun g => (update F f t g).ip) =
      update (fun g => (F g).ip) f t.ip := comp_update FdType.ip F f t
  rw [inodes, heq]
  exact tally_update _ f t.ip

end Tables

attribute [local irreducible] slots cwds inodes

/-! ## The file table -/

section Files

variable {α : Type} {sb : Superblock} {P : Fin NPROC → Proc} {F : Fin NFILE → FdType} {op : Int}
  {Z : Multiset (Fin NINODE)} {Y : Multiset (Fin NFILE)} {L : Finset (Fin NINODE)}
  {f : Fin NFILE} {ip : Fin NINODE} {p : Fin NPROC} {fd : Fin NOFILE}

theorem Acc.toIn {s : St} (h : Acc P F op Z Y L s) : In s op (inodes F + Z) L s :=
  ⟨h.counted, h.locked, rfl, rfl, rfl⟩

theorem Acc.ofIn {s s' : St} {op' : Int} {Z' : Multiset (Fin NINODE)} {L' : Finset (Fin NINODE)}
    (h : Acc P F op Z Y L s) (h' : In s op' (inodes F + Z') L' s') : Acc P F op' Z' Y L' s' :=
  ⟨h'.counted, h'.locked, h'.file ▸ h.filed, h'.proc.trans h.proc⟩

theorem Acc.run {m : M α} {op' : Int} {Z' : Multiset (Fin NINODE)} {L' : Finset (Fin NINODE)}
    (h : ∀ B : St, B.proc = P → Triple (In B op (inodes F + Z) L) m Fine fun _ =>
      In B op' (inodes F + Z') L') :
    Triple (Acc P F op Z Y L) m Fine fun _ => Acc P F op' Z' Y L' :=
  fun s hs => (h s hs.proc s hs.toIn).imp fun _ hr => hs.ofIn hr

theorem Acc.setFile {s : St} {x : File} {Y' : Multiset (Fin NFILE)}
    (h : Acc P F op Z Y L s) (Z' : Multiset (Fin NINODE)) (href : x.ref = Y'.count f)
    (hothers : ∀ g, g ≠ f → Y'.count g = Y.count g) (hidle : f ∉ Y' → x.type = .none)
    (hin : inodes (update F f x.type) + Z' = inodes F + Z) :
    Acc P (update F f x.type) op Z' Y' L (s.setFile f x) := by
  refine ⟨?_, h.locked, ⟨fun g => ?_, fun g => ?_, fun g hg => ?_⟩, h.proc⟩
  · rw [hin]
    exact h.counted
  · simp only [St.setFile]
    exact update_cases g href fun g hg => by rw [hothers g hg, h.filed.ref g]
  · by_cases hgf : g = f
    · subst hgf
      simp [St.setFile]
    · simp [St.setFile, hgf, h.filed.type g]
  · by_cases hgf : g = f
    · subst hgf
      simpa using hidle hg
    · rw [update_of_ne hgf]
      refine h.filed.idle g fun hmem => hg ?_
      rw [← Multiset.count_pos] at hmem ⊢
      rwa [hothers g hgf]

theorem Acc.setRef {s : St} {x : File} {Y' : Multiset (Fin NFILE)} (h : Acc P F op Z Y L s)
    (htype : x.type = F f) (href : x.ref = Y'.count f)
    (hothers : ∀ g, g ≠ f → Y'.count g = Y.count g) (hf : f ∉ Y' → F f = .none) :
    Acc P F op Z Y' L (s.setFile f x) := by
  have hF : update F f x.type = F := by rw [htype, update_eq_self]
  have := h.setFile Z href hothers (fun hg => htype.trans (hf hg)) (by rw [hF])
  rwa [hF] at this

theorem filealloc_spec : Triple (Acc P F op Z Y L) filealloc Fine fun r s =>
    match r with
    | none => Acc P F op Z Y L s
    | some f => F f = .none ∧ Acc P F op Z (f ::ₘ Y) L s := by
  refine .get_bind fun s hs => ?_
  cases hfind : (List.finRange NFILE).find? fun f => (s.file f).ref = 0 with
  | none => exact hs
  | some f =>
    have h0 : (s.file f).ref = 0 := by simpa using List.find?_some hfind
    have hf : f ∉ Y := by
      rw [← Multiset.count_eq_zero]
      have := hs.filed.ref f
      omega
    refine ⟨hs.filed.idle f hf, hs.setRef (hs.filed.type f) ?_ ?_ fun h => ?_⟩
    · simp [hf]
    · exact fun g hg => Multiset.count_cons_of_ne hg Y
    · exact absurd (Multiset.mem_cons_self f Y) h

theorem filedup_spec (hf : f ∈ Y) :
    Triple (Acc P F op Z Y L) (filedup f) Fine fun _ => Acc P F op Z (f ::ₘ Y) L := by
  refine .get_bind fun s hs => ?_
  have href := hs.filed.ref f
  have hpos := Multiset.count_pos.mpr hf
  rw [if_neg (by omega)]
  refine hs.setRef (hs.filed.type f) ?_ (fun g hg => Multiset.count_cons_of_ne hg Y) fun h => ?_
  · rw [Multiset.count_cons_self]
    push_cast
    rw [href]
  · exact absurd (Multiset.mem_cons_self f Y) h

theorem pipeclose_spec {q : Nat} {w : Bool} :
    Triple (Acc P F op Z Y L) (pipeclose q w) Fine fun _ => Acc P F op Z Y L := by
  refine .get_bind fun s hs => ?_
  have hset : ∀ e, Acc P F op Z Y L (s.setPipe q e) := fun e =>
    ⟨hs.counted, hs.locked, hs.filed, hs.proc⟩
  cases s.pipe q with
  | none => exact hs
  | some e =>
    dsimp only
    split
    · exact hset _
    · exact hset _

theorem beginOp_acc : Triple (Acc P F op Z Y L) beginOp Fine fun _ => Acc P F (op + 1) Z Y L :=
  Acc.run fun _ _ => beginOp_spec

theorem endOp_acc : Triple (Acc P F (op + 1) Z Y L) endOp Fine fun _ => Acc P F op Z Y L :=
  Acc.run fun _ _ => endOp_spec

theorem iput_acc : Triple (Acc P F op (ip ::ₘ Z) Y L) (iput sb ip) Fine fun _ => Acc P F op Z Y L :=
  Acc.run fun _ _ => by
    rw [Multiset.add_cons]
    exact iput_spec.post fun _ _ hs => hs.2

theorem iunlockput_acc (hip : ip ∉ L) :
    Triple (Acc P F op (ip ::ₘ Z) Y (insert ip L)) (iunlockput sb ip) Fine fun _ =>
      Acc P F op Z Y L :=
  Acc.run fun _ _ => by
    rw [Multiset.add_cons]
    exact iunlockput_spec hip

theorem iunlock_acc (hip : ip ∉ L) :
    Triple (Acc P F op (ip ::ₘ Z) Y (insert ip L)) (iunlock ip) Fine fun _ =>
      Acc P F op (ip ::ₘ Z) Y L :=
  Acc.run fun _ _ => iunlock_spec (by simp) hip

theorem fileclose_spec : Triple (Acc P F op Z (f ::ₘ Y) L) (fileclose sb f) Fine fun _ s =>
    ∃ F', Acc P F' op Z Y L s := by
  refine .get_bind fun s hs => ?_
  have href := hs.filed.ref f
  rw [Multiset.count_cons_self] at href
  have hothers : ∀ g, g ≠ f → Y.count g = (f ::ₘ Y).count g := fun g hg =>
    (Multiset.count_cons_of_ne hg Y).symm
  rw [if_neg (by omega)]
  split
  · rename_i hlt
    have hf : f ∈ Y := by
      rw [← Multiset.count_pos]
      omega
    refine ⟨F, hs.setRef (hs.filed.type f) ?_ hothers fun h => absurd hf h⟩
    show (s.file f).ref - 1 = _
    omega
  · refine ends_set_bind ?_
    have hin := inodes_update F f .none
    have hclosed : ∀ Z', inodes (update F f .none) + Z' = inodes F + Z →
        Acc P (update F f .none) op Z' Y L
          (s.setFile f { s.file f with ref := 0, type := .none }) := by
      intro Z' hZ'
      refine hs.setFile (x := { s.file f with ref := 0, type := .none }) Z' ?_ hothers
        (fun _ => rfl) hZ'
      show 0 = _
      omega
    rw [hs.filed.type f]
    cases ht : F f with
    | none =>
      rw [ht] at hin
      have hin' : inodes (update F f .none) = inodes F := by simpa [FdType.ip] using hin
      exact ⟨_, hclosed Z (by rw [hin'])⟩
    | pipe q =>
      rw [ht] at hin
      have hin' : inodes (update F f .none) = inodes F := by simpa [FdType.ip] using hin
      exact (pipeclose_spec _ (hclosed Z (by rw [hin']))).imp fun _ hr => ⟨_, hr⟩
    | inode ip =>
      rw [ht] at hin
      have hin' : inodes (update F f .none) + (ip ::ₘ Z) = inodes F + Z := by
        simp only [FdType.ip, one_some, one_none, add_zero] at hin
        rw [← hin, add_assoc, Multiset.singleton_add]
      refine (Triple.bind beginOp_acc fun _ => .bind iput_acc fun _ =>
        endOp_acc) _ (hclosed _ hin') |>.imp fun _ hr => ⟨_, hr⟩

theorem Acc.setFd {s : St} (h : Acc P F op Z Y L s) (p : Fin NPROC) (fd : Fin NOFILE)
    (g : Option (Fin NFILE)) :
    Acc (withFd P p fd g) F op Z Y L (s.setFd p fd g) := by
  refine ⟨h.counted, h.locked, h.filed, ?_⟩
  rw [withFd, ← h.proc]
  rfl

theorem argfd_spec {n : Int} : Triple (Acc P F op Z Y L) (argfd p n) Fine fun r s =>
    (∀ x, r = some x → (P p).ofile x.1 = some x.2) ∧ Acc P F op Z Y L s := by
  refine .get_bind fun s hs => ?_
  split
  · exact ⟨fun x hx => absurd hx (Option.some_ne_none x).symm, hs⟩
  · refine ⟨fun x hx => ?_, hs⟩
    simp only [hs.proc, Option.map_eq_some_iff] at hx
    obtain ⟨g, hg, rfl⟩ := hx
    exact hg

theorem fdalloc_spec : Triple (Acc P F op Z Y L) (fdalloc p f) Fine fun r s =>
    match r with
    | none => Acc P F op Z Y L s
    | some fd => (P p).ofile fd = none ∧ Acc (withFd P p fd (some f)) F op Z Y L s := by
  refine .get_bind fun s hs => ?_
  cases hfind : (List.finRange NOFILE).find? fun fd => ((s.proc p).ofile fd).isNone with
  | none => exact hs
  | some fd =>
    refine ⟨?_, hs.setFd _ _ _⟩
    simpa [hs.proc] using List.find?_some hfind

theorem fdclear_spec :
    Triple (Acc P F op Z Y L) (fdclear p fd) Fine fun _ => Acc (withFd P p fd none) F op Z Y L :=
  Triple.get_bind fun _ hs => hs.setFd _ _ none

theorem Acc.setPipeType {s : St} {q : Nat} {x : File} (h : Acc P F op Z Y L s) (hf : f ∈ Y)
    (hip : (F f).ip = none) (href : x.ref = (s.file f).ref) (htype : x.type = .pipe q) :
    Acc P (update F f (.pipe q)) op Z Y L (s.setFile f x) := by
  rw [← htype]
  refine h.setFile _ (href.trans (h.filed.ref f)) (fun _ _ => rfl) (fun hn => absurd hf hn) ?_
  have := inodes_update F f x.type
  rw [hip, htype] at this
  rw [htype]
  simpa [FdType.ip] using this

theorem pipealloc_spec {page : Option Nat} :
    Triple (Acc P F op Z Y L) (pipealloc sb page) Fine fun r s =>
      match r with
      | none => ∃ F', Acc P F' op Z Y L s
      | some (f0, f1) => ∃ F', Acc P F' op Z (f0 ::ₘ f1 ::ₘ Y) L s := by
  refine .bind filealloc_spec fun r => ?_
  cases r with
  | none => exact .pure fun s hs => ⟨F, hs⟩
  | some f0 =>
    refine .of_imp fun h0 => .bind filealloc_spec fun r => ?_
    cases r with
    | none => exact .bind fileclose_spec fun _ => .pure fun _ => id
    | some f1 =>
      refine .of_imp fun h1 => ?_
      rw [Multiset.cons_swap]
      cases page with
      | none =>
        refine .bind fileclose_spec fun _ => .of_forall fun F1 => ?_
        exact .bind fileclose_spec fun _ => .pure fun _ => id
      | some q =>
        refine .get_bind fun s hs => ends_set_bind ?_
        have hs1 : Acc P F op Z (f0 ::ₘ f1 ::ₘ Y) L (s.setPipe q (some ⟨true, true⟩)) :=
          ⟨hs.counted, hs.locked, hs.filed, hs.proc⟩
        have hs2 := hs1.setPipeType (f := f0) (q := q) (x := { s.file f0 with
          type := .pipe q, readable := true, writable := false }) (by simp)
            (by rw [h0]; rfl) rfl rfl
        refine ⟨_, hs2.setPipeType (f := f1) (q := q) (by simp) ?_ rfl rfl⟩
        by_cases h01 : f1 = f0
        · subst h01
          simp [FdType.ip]
        · rw [update_of_ne h01, h1]
          rfl

end Files

/-! ## Between calls -/

structure ProcsOk (P : Fin NPROC → Proc) : Prop where
  live : ∀ p, (P p).state = .live → ∃ ip, (P p).cwd = some ip
  dead : ∀ p, (P p).state ≠ .live → (P p).cwd = none ∧ ∀ fd, (P p).ofile fd = none

def Settled (P : Fin NPROC → Proc) (F : Fin NFILE → FdType) (s : St) : Prop :=
  Acc P F 0 (cwds P) (slots P) ∅ s

/-- No call is in progress and every reference is accounted for. -/
def Quiet (s : St) : Prop := ∃ F, Settled s.proc F s ∧ ProcsOk s.proc

section Quiet

variable {sb : Superblock} {dev : Devsw} {P : Fin NPROC → Proc} {F : Fin NFILE → FdType}
  {f : Fin NFILE} {ip cwd : Fin NINODE} {p q : Fin NPROC} {fd : Fin NOFILE} {s : St}

theorem Settled.quiet (h : Settled P F s) (hP : ProcsOk P) : Quiet s := by
  obtain rfl := h.proc
  exact ⟨F, h, hP⟩

theorem ProcsOk.update {x : Proc} (h : ProcsOk P) (hlive : x.state = .live → ∃ ip, x.cwd = some ip)
    (hdead : x.state ≠ .live → x.cwd = none ∧ ∀ fd, x.ofile fd = none) :
    ProcsOk (update P p x) := by
  refine ⟨fun q hq => ?_, fun q hq => ?_⟩ <;> by_cases hqp : q = p
  · subst hqp
    rw [update_self] at hq ⊢
    exact hlive hq
  · rw [update_of_ne hqp] at hq ⊢
    exact h.live q hq
  · subst hqp
    rw [update_self] at hq ⊢
    exact hdead hq
  · rw [update_of_ne hqp] at hq ⊢
    exact h.dead q hq

theorem ProcsOk.setFd (h : ProcsOk P) (hp : (P p).state = .live) (g : Option (Fin NFILE)) :
    ProcsOk (withFd P p fd g) :=
  h.update (fun _ => h.live p hp) fun hn => absurd hp hn

theorem Settled.store (h : Acc (withFd P p fd (some f)) F 0 (cwds P) (f ::ₘ slots P) ∅ s)
    (hfd : (P p).ofile fd = none) : Settled (withFd P p fd (some f)) F s := by
  rw [Settled, cwds_withFd, slots_store hfd]
  exact h

theorem names_quiet {m : M Int} (hP : ProcsOk P) (hp : (P p).state = .live)
    (h : ∀ (B : St) (X : Multiset (Fin NINODE)) (cwd : Fin NINODE), (B.proc p).cwd = some cwd →
      cwd ∈ X → Triple (In B 0 X ∅) m Fine fun _ => In B 0 X ∅) :
    Triple (Settled P F) m Fine fun _ => Quiet := by
  obtain ⟨cwd, hcwd⟩ := hP.live p hp
  refine (Acc.run fun B hB => ?_).post fun _ s hs => Settled.quiet hs hP
  exact h B _ cwd (hB ▸ hcwd) (Multiset.mem_add.mpr (.inr (mem_cwds hcwd)))

theorem openFile_quiet {omode : UInt32} (hP : ProcsOk P) (hp : (P p).state = .live) :
    Triple (Acc P F (0 + 1) (ip ::ₘ cwds P) (slots P) (insert ip ∅)) (openFile sb p ip omode) Fine
      fun _ => Quiet := by
  have hip : ip ∉ (∅ : Finset (Fin NINODE)) := Finset.notMem_empty ip
  refine .bind filealloc_spec fun r => ?_
  cases r with
  | none =>
    refine .bind (iunlockput_acc hip) fun _ => .bind endOp_acc fun _ => ?_
    exact .pure fun s hs => Settled.quiet hs hP
  | some f =>
    refine .of_imp fun hf => .bind fdalloc_spec fun r => ?_
    cases r with
    | none =>
      refine .bind fileclose_spec fun _ => .of_forall fun F' => ?_
      refine .bind (iunlockput_acc hip) fun _ => .bind endOp_acc fun _ => ?_
      exact .pure fun s hs => Settled.quiet hs hP
    | some fd =>
      refine .of_imp fun hfd => .bind (iunlock_acc hip) fun _ => ?_
      refine .bind endOp_acc fun _ => .get_bind fun s hs => ends_set_bind ?_
      -- the file takes over the reference to the inode
      have hset := hs.setFile (f := f) (x := { s.file f with
          type := .inode ip
          off := 0
          readable := omode &&& O_WRONLY == 0
          writable := omode &&& O_WRONLY != 0 || omode &&& O_RDWR != 0 })
        (cwds P) (hs.filed.ref f) (fun _ _ => rfl)
        (fun hn => absurd (Multiset.mem_cons_self f _) hn) ?_
      · exact (Settled.store hset hfd).quiet (hP.setFd hp _)
      · have := inodes_update F f (.inode ip)
        rw [hf] at this
        simp only [FdType.ip, one_none, one_some, add_zero] at this
        rw [this, add_assoc, Multiset.singleton_add]

theorem sysOpen_quiet {args : Option (List UInt8 × UInt32)} (hP : ProcsOk P)
    (hp : (P p).state = .live) :
    Triple (Settled P F) (sysOpen sb dev p args) Fine fun _ => Quiet := by
  obtain ⟨cwd, hcwd⟩ := hP.live p hp
  have hX : cwd ∈ inodes F + cwds P := Multiset.mem_add.mpr (.inr (mem_cwds hcwd))
  cases args with
  | none => exact .pure fun s hs => Settled.quiet hs hP
  | some args =>
    obtain ⟨path, omode⟩ := args
    refine .bind beginOp_acc fun _ => ?_
    refine .bind (Q := fun r => r.elim (Acc P F (0 + 1) (cwds P) (slots P) ∅) fun ip =>
      Acc P F (0 + 1) (ip ::ₘ cwds P) (slots P) (insert ip ∅)) ?_ fun r => ?_
    · intro s hs
      refine (openInode_spec (hs.proc ▸ hcwd) hX s hs.toIn).imp fun r hr => ?_
      obtain ⟨r, s'⟩ := r
      cases r with
      | none => exact hs.ofIn hr
      | some ip =>
        refine hs.ofIn ?_
        rw [Multiset.add_cons]
        exact hr.2
    · cases r with
      | none =>
        exact .bind endOp_acc fun _ => .pure fun s hs => Settled.quiet hs hP
      | some ip => exact openFile_quiet hP hp

theorem sysDup_quiet {n : Int} (hP : ProcsOk P) (hp : (P p).state = .live) :
    Triple (Settled P F) (sysDup p n) Fine fun _ => Quiet := by
  refine .bind argfd_spec fun r => .of_imp fun hr => ?_
  cases r with
  | none => exact .pure fun s hs => Settled.quiet hs hP
  | some x =>
    refine .bind fdalloc_spec fun r => ?_
    cases r with
    | none => exact .pure fun s hs => Settled.quiet hs hP
    | some fd =>
      refine .of_imp fun hfd => .bind (filedup_spec (mem_slots (hr x rfl))) fun _ => ?_
      exact .pure fun s hs => (Settled.store hs hfd).quiet (hP.setFd hp _)

theorem sysClose_quiet {n : Int} (hP : ProcsOk P) (hp : (P p).state = .live) :
    Triple (Settled P F) (sysClose sb p n) Fine fun _ => Quiet := by
  refine .bind argfd_spec fun r => .of_imp fun hr => ?_
  cases r with
  | none => exact .pure fun s hs => Settled.quiet hs hP
  | some x =>
    obtain ⟨fd, f⟩ := x
    rw [slots_clear (hr (fd, f) rfl), ← cwds_withFd p fd none]
    refine .bind fdclear_spec fun _ => .bind fileclose_spec fun _ => ?_
    exact .pure fun s hs => hs.elim fun F' hs => Settled.quiet hs (hP.setFd hp _)

theorem withFd_undo {g : Option (Fin NFILE)} (h : (P p).ofile fd = none) :
    withFd (withFd P p fd g) p fd none = P := by
  have hupd : update (P p).ofile fd none = (P p).ofile := by
    rw [← h, update_eq_self]
  simp [withFd, hupd]

theorem sysPipe_quiet {arg : Bool} {page : Option Nat} (hP : ProcsOk P)
    (hp : (P p).state = .live) :
    Triple (Settled P F) (sysPipe sb p arg page) Fine fun _ => Quiet := by
  refine .ite (fun _ => .pure fun s hs => Settled.quiet hs hP) fun _ => ?_
  refine .bind pipealloc_spec fun r => ?_
  -- both ways out with a failure close the two files
  have hclose : ∀ F' f0 f1, Triple (Acc P F' 0 (cwds P) (f0 ::ₘ f1 ::ₘ slots P) ∅)
      (do fileclose sb f0; fileclose sb f1; return -1 : M Int) Fine fun _ => Quiet := by
    intro F' f0 f1
    refine .bind fileclose_spec fun _ => .of_forall fun F1 => ?_
    refine .bind fileclose_spec fun _ => .of_forall fun F2 => ?_
    exact .pure fun s hs => Settled.quiet hs hP
  cases r with
  | none =>
    exact .pure fun s hs => hs.elim fun F' hs => Settled.quiet hs hP
  | some x =>
    obtain ⟨f0, f1⟩ := x
    refine .of_forall fun F' => .bind fdalloc_spec fun r => ?_
    cases r with
    | none => exact hclose F' f0 f1
    | some fd0 =>
      refine .of_imp fun h0 => .bind fdalloc_spec fun r => ?_
      cases r with
      | none =>
        refine .bind fdclear_spec fun _ => ?_
        rw [withFd_undo h0]
        exact hclose F' f0 f1
      | some fd1 =>
        refine .of_imp fun h1 => .pure fun s hs => ?_
        rw [Multiset.cons_swap, ← slots_store (f := f0) h0,
          ← cwds_withFd p fd0 (some f0)] at hs
        exact (Settled.store hs h1).quiet ((hP.setFd hp _).setFd (by simp [withFd, hp]) _)

theorem sysChdir_quiet {path : Option (List UInt8)} (hP : ProcsOk P) (hp : (P p).state = .live) :
    Triple (Settled P F) (sysChdir sb dev p path) Fine fun _ => Quiet := by
  obtain ⟨cwd, hcwd⟩ := hP.live p hp
  have hX : cwd ∈ inodes F + cwds P := Multiset.mem_add.mpr (.inr (mem_cwds hcwd))
  have hend : Triple (Acc P F (0 + 1) (cwds P) (slots P) ∅) (do endOp; return -1 : M Int) Fine
      fun _ => Quiet := Triple.bind endOp_acc fun _ => .pure fun s hs => Settled.quiet hs hP
  refine .bind beginOp_acc fun _ => ?_
  cases path with
  | none => exact hend
  | some path =>
    refine .bind (Q := fun r => Acc P F (0 + 1) (took r (cwds P)) (slots P) ∅) ?_ fun r => ?_
    · intro s hs
      refine (namei_spec (hs.proc ▸ hcwd) hX s hs.toIn).imp fun r hr => hs.ofIn ?_
      have hadd : took r.1 (inodes F + cwds P) = inodes F + took r.1 (cwds P) := by
        cases r.1 <;> simp [took]
      exact hadd ▸ hr
    · cases r with
      | none => exact hend
      | some ip =>
        have hip : ip ∉ (∅ : Finset (Fin NINODE)) := Finset.notMem_empty ip
        refine .bind (Q := fun _ => Acc P F (0 + 1) (ip ::ₘ cwds P) (slots P) (insert ip ∅))
          (Acc.run fun B _ => (ilock_spec (by simp [took])).post fun _ _ hs => hs.2) fun _ => ?_
        refine .bind inode_any fun x => .ite (fun _ => ?_) fun _ => ?_
        · exact .bind (iunlockput_acc hip) fun _ => hend
        · refine .bind (iunlock_acc hip) fun _ => .get_of fun s hs => ?_
          rw [hs.proc, hcwd]
          -- the new directory and the old one change places
          generalize hP' : update P p { P p with cwd := some ip } = P'
          have hcwds : ip ::ₘ cwds P = cwd ::ₘ cwds P' := by
            have := cwds_update P p { P p with cwd := some ip }
            rw [hP', hcwd, one_some, one_some, add_comm, add_comm (cwds P),
              Multiset.singleton_add, Multiset.singleton_add] at this
            exact this.symm
          have hslots : slots P' = slots P := by
            rw [← hP']
            exact slots_update rfl
          have hP'ok : ProcsOk P' := by
            rw [← hP']
            exact hP.update (fun _ => ⟨ip, rfl⟩) fun hn => absurd hp hn
          rw [hcwds]
          refine .bind iput_acc fun _ => .bind endOp_acc fun _ => ?_
          refine .get_bind fun s1 hs1 => Settled.quiet (P := P') (F := F) ?_ hP'ok
          refine ⟨hs1.counted, hs1.locked, hslots ▸ hs1.filed, ?_⟩
          rw [← hP', ← hs1.proc]
          rfl

/-! ## fork, exit and wait -/

/-- Only the descriptors of `q` are different. -/
def Refd (P P' : Fin NPROC → Proc) (q : Fin NPROC) : Prop :=
  ∃ o, P' = Function.update P q { P q with ofile := o }

theorem Refd.refl (P : Fin NPROC → Proc) (q : Fin NPROC) : Refd P P q :=
  ⟨(P q).ofile, (update_eq_self q P).symm⟩

theorem Refd.trans {P' P'' : Fin NPROC → Proc} (h : Refd P P' q) (h' : Refd P' P'' q) :
    Refd P P'' q := by
  obtain ⟨o, rfl⟩ := h
  obtain ⟨o', rfl⟩ := h'
  exact ⟨o', by simp⟩

theorem refd_withFd (P : Fin NPROC → Proc) (q : Fin NPROC) (fd : Fin NOFILE)
    (g : Option (Fin NFILE)) : Refd P (withFd P q fd g) q := ⟨_, rfl⟩

theorem Refd.cwds_eq {P' : Fin NPROC → Proc} (h : Refd P P' q) : cwds P' = cwds P := by
  obtain ⟨o, rfl⟩ := h
  have := cwds_update P q { P q with ofile := o }
  exact add_right_cancel this

theorem forkFiles_spec {op : Int} {Z : Multiset (Fin NINODE)} {L : Finset (Fin NINODE)}
    (fds : List (Fin NOFILE)) (hnd : fds.Nodup) (hnone : ∀ fd ∈ fds, (P q).ofile fd = none) :
    Triple (Acc P F op Z (slots P) L) (forkFiles p q fds) Fine fun _ s =>
      ∃ P', Refd P P' q ∧ Acc P' F op Z (slots P') L s := by
  induction fds generalizing P with
  | nil => exact .pure fun s hs => ⟨P, Refd.refl P q, hs⟩
  | cons fd fds ih =>
    obtain ⟨hfd, hnd⟩ := List.nodup_cons.mp hnd
    refine .get_of fun s hs => ?_
    rw [hs.proc]
    cases hg : (P p).ofile fd with
    | none => exact ih hnd fun fd' h => hnone fd' (List.mem_cons_of_mem _ h)
    | some f =>
      refine .bind (filedup_spec (mem_slots hg)) fun _ => ?_
      refine .get_bind fun s1 hs1 => ends_set_bind ?_
      have hacc := hs1.setFd q fd (some f)
      rw [← slots_store (hnone fd (List.mem_cons_self ..))] at hacc
      refine (ih hnd (fun fd' h => ?_) _ hacc).imp fun r hr => ?_
      · have hne : fd' ≠ fd := fun heq => hfd (heq ▸ h)
        simp [withFd, hne, hnone fd' (List.mem_cons_of_mem _ h)]
      · obtain ⟨P', hP', hacc'⟩ := hr
        exact ⟨P', (refd_withFd P q fd _).trans hP', hacc'⟩

theorem fork_quiet {mem : Bool} (hP : ProcsOk P) (hp : (P p).state = .live) :
    Triple (Settled P F) (fork p mem) Fine fun _ => Quiet := by
  obtain ⟨cwd, hcwd⟩ := hP.live p hp
  refine .get_of fun s hs => ?_
  cases hfind : (List.finRange NPROC).find? fun q => (s.proc q).state = .unused with
  | none => exact .pure fun s hs => Settled.quiet hs hP
  | some q =>
    have hq : (P q).state = .unused := by
      have := List.find?_some hfind
      simpa [hs.proc] using this
    have hdead := hP.dead q (by rw [hq]; decide)
    have hpq : p ≠ q := by
      rintro rfl
      rw [hp] at hq
      cases hq
    refine .ite (fun _ => .pure fun s hs => Settled.quiet hs hP) fun _ => ?_
    refine .bind (forkFiles_spec _ (List.nodup_finRange _) fun fd _ => hdead.2 fd)
      fun _ => .of_forall fun P' => .of_imp fun hP' => ?_
    refine .get_of fun s1 hs1 => ?_
    obtain ⟨o, rfl⟩ := hP'
    rw [hs1.proc, update_of_ne hpq, hcwd]
    have hdup : Triple (Acc (update P q { P q with ofile := o }) F 0 (cwds P)
        (slots (update P q { P q with ofile := o })) ∅) (idup cwd) Fine fun r s => r =
          cwd ∧
        Acc (update P q { P q with ofile := o }) F 0 (cwd ::ₘ cwds P)
          (slots (update P q { P q with ofile := o })) ∅ s := by
      intro s2 hs2
      have hmem : cwd ∈ inodes F + cwds P := Multiset.mem_add.mpr (.inr (mem_cwds hcwd))
      refine (idup_spec hmem s2 hs2.toIn).imp fun r hr => ⟨hr.1, hs2.ofIn ?_⟩
      rw [Multiset.add_cons]
      exact hr.2
    refine .bind hdup fun r => ?_
    refine .of_imp fun hr => .get_bind fun s2 hs2 => ends_set_bind ?_
    subst hr
    generalize hP'' : update P q { P q with ofile := o, cwd := some r, state := .live } =
      P''
    have hcwds : cwds P'' = r ::ₘ cwds P := by
      have := cwds_update P q { P q with ofile := o, cwd := some r, state := .live }
      rw [hP'', hdead.1, one_none, add_zero, one_some, add_comm, Multiset.singleton_add] at this
      exact this
    have hslots : slots P'' = slots (update P q { P q with ofile := o }) := by
      have := slots_update (P := update P q { P q with ofile := o }) (p := q)
        (x := { P q with ofile := o, cwd := some r, state := .live }) (by simp)
      rwa [update_idem, hP''] at this
    refine Settled.quiet (P := P'') (F := F) ?_ ?_
    · refine ⟨hcwds ▸ hs2.counted, hs2.locked, hslots ▸ hs2.filed, ?_⟩
      simp [St.setProc, hs2.proc, ← hP'']
    · rw [← hP'']
      exact hP.update (fun _ => ⟨r, rfl⟩) fun hn => absurd rfl hn

theorem exitFiles_spec {op : Int} {Z : Multiset (Fin NINODE)} {L : Finset (Fin NINODE)}
    (fds : List (Fin NOFILE)) :
    Triple (Acc P F op Z (slots P) L) (exitFiles sb p fds) Fine fun _ s =>
      ∃ P' F', Refd P P' p ∧ (∀ fd, fd ∈ fds ∨ (P p).ofile fd = none → (P' p).ofile fd = none) ∧
        Acc P' F' op Z (slots P') L s := by
  induction fds generalizing P F with
  | nil =>
    refine .pure fun s hs => ⟨P, F, Refd.refl P p, fun fd h => ?_, hs⟩
    exact h.resolve_left (List.not_mem_nil)
  | cons fd fds ih =>
    refine .get_of fun s hs => ?_
    rw [hs.proc]
    cases hg : (P p).ofile fd with
    | none =>
      refine ih.post fun _ s hr => ?_
      obtain ⟨P', F', hP', hnone, hacc⟩ := hr
      refine ⟨P', F', hP', fun fd' h => hnone fd' ?_, hacc⟩
      rcases h with h | h
      · rcases List.mem_cons.mp h with rfl | h
        · exact .inr hg
        · exact .inl h
      · exact .inr h
    | some f =>
      rw [slots_clear hg]
      refine .bind fileclose_spec fun _ => .of_forall fun F1 => ?_
      refine .bind fdclear_spec fun _ => ih.post fun _ s hr => ?_
      obtain ⟨P', F', hP', hnone, hacc⟩ := hr
      refine ⟨P', F', (refd_withFd P p fd _).trans hP', fun fd' h => hnone fd' ?_, hacc⟩
      by_cases heq : fd' = fd
      · subst heq
        exact .inr (by simp [withFd])
      · rcases h with h | h
        · exact .inl ((List.mem_cons.mp h).resolve_left heq)
        · exact .inr (by simp [withFd, heq, h])

theorem exit_quiet (hP : ProcsOk P) (hp : (P p).state = .live) :
    Triple (Settled P F) (exit sb p) Fine fun _ => Quiet := by
  obtain ⟨cwd, hcwd⟩ := hP.live p hp
  refine .ite (fun _ => .throw fun _ _ => id) fun _ => ?_
  refine .bind (exitFiles_spec _) fun _ => .of_forall fun P' => ?_
  refine .of_forall fun F' => .of_imp fun hP' => .of_imp fun hnone => ?_
  refine .bind beginOp_acc fun _ => .get_of fun s hs => ?_
  have hnone : ∀ fd, (P' p).ofile fd = none := fun fd => hnone fd (.inl (List.mem_finRange fd))
  have hcwd' : (P' p).cwd = some cwd := by
    obtain ⟨o, rfl⟩ := hP'
    simpa using hcwd
  rw [hs.proc, hcwd']
  generalize hP'' : update P' p { P' p with cwd := none, state := .zombie } = P''
  have hcwds : cwds P = cwd ::ₘ cwds P'' := by
    have := cwds_update P' p { P' p with cwd := none, state := .zombie }
    rw [hP'', hcwd', one_none, add_zero, one_some, add_comm, Multiset.singleton_add,
      hP'.cwds_eq] at this
    exact this.symm
  have hslots : slots P'' = slots P' := by
    rw [← hP'']
    exact slots_update rfl
  rw [hcwds]
  refine .bind iput_acc fun _ => .bind endOp_acc fun _ => ?_
  refine .get_bind fun s1 hs1 => ends_set_bind (Settled.quiet (P := P'') (F := F') ?_ ?_)
  · refine ⟨hs1.counted, hs1.locked, hslots ▸ hs1.filed, ?_⟩
    rw [← hP'', ← hs1.proc]
    rfl
  · have hP'ok : ProcsOk P' := by
      obtain ⟨o, rfl⟩ := hP'
      exact hP.update (fun _ => hP.live p hp) fun hn => absurd hp hn
    rw [← hP'']
    exact hP'ok.update (fun h => ProcState.noConfusion h) fun _ => ⟨rfl, hnone⟩

theorem wait_quiet (hP : ProcsOk P) : Triple (Settled P F) (wait q) Fine fun _ => Quiet := by
  refine .get_bind fun s hs => ?_
  split
  · rename_i hz
    rw [hs.proc] at hz
    have hdead := hP.dead q (by rw [hz]; decide)
    refine ends_set_bind (Settled.quiet (F := F)
      (P := update P q { P q with state := .unused }) ?_ ?_)
    · have hcwds := cwds_update P q { P q with state := .unused }
      have hslots : slots (update P q { P q with state := .unused }) = slots P :=
        slots_update rfl
      refine ⟨?_, hs.locked, hslots ▸ hs.filed, ?_⟩
      · rw [add_right_cancel hcwds]
        exact hs.counted
      · simp [St.setProc, hs.proc]
    · exact hP.update (fun h => ProcState.noConfusion h) fun _ => hdead
  · exact Settled.quiet hs hP

theorem call_quiet (c : Call) (h : Quiet s) (hp : (s.proc p).state = .live) :
    Ends (call sb dev p c s) Fine fun r => Quiet r.2 := by
  obtain ⟨F, hs, hP⟩ := h
  cases c with
  | «open» args => exact sysOpen_quiet hP hp s hs
  | dup fd => exact sysDup_quiet hP hp s hs
  | close fd => exact sysClose_quiet hP hp s hs
  | pipe arg page => exact sysPipe_quiet hP hp s hs
  | link args => exact names_quiet hP hp (fun _ _ _ h1 h2 => sysLink_spec h1 h2) s hs
  | unlink path => exact names_quiet hP hp (fun _ _ _ h1 h2 => sysUnlink_spec h1 h2) s hs
  | mkdir path | mknod path major minor =>
    exact names_quiet hP hp (fun _ _ _ h1 h2 => make_spec h1 h2) s hs
  | chdir path => exact sysChdir_quiet hP hp s hs
  | fork mem => exact fork_quiet hP hp s hs
  | exec path reads ok => exact names_quiet hP hp (fun _ _ _ h1 h2 => exec_spec h1 h2) s hs
  | exit => exact exit_quiet hP hp s hs
  | wait q => exact wait_quiet hP s hs

end Quiet

/-- The state that `userinit` leaves: the first process, with the root as its current directory. -/
structure Boot (s : St) : Prop where
  init : s.proc initproc = ⟨.live, fun _ => none, some 0⟩
  procs : ∀ p, p ≠ initproc → s.proc p = ⟨.unused, fun _ => none, none⟩
  root : (s.fs.icache 0).inum = ROOTINO ∧ (s.fs.icache 0).ref = 1 ∧ (s.fs.icache 0).valid = false
  icache : ∀ ip, ip ≠ 0 → (s.fs.icache ip).ref = 0
  file : ∀ f, (s.file f).ref = 0 ∧ (s.file f).type = .none
  locked : ∀ ip, s.locked ip = false
  log : s.fs.log.outstanding = 0 ∧ s.fs.log.committing = false ∧ s.fs.log.lh.blocks = []

/-- Reference counts as the number of references there are. -/
structure Exact (s : St) : Prop where
  file : ∀ f, (s.file f).ref =
    ((Finset.univ.filter fun x : Fin NPROC × Fin NOFILE => (s.proc x.1).ofile x.2 = some f).card :
      Int)
  icache : ∀ ip, (s.fs.icache ip).ref =
    (Finset.univ.filter fun p => (s.proc p).cwd = some ip).card +
      (Finset.univ.filter fun f => 0 < (s.file f).ref ∧ (s.file f).type = .inode ip).card
  unique : ∀ ip jp, 0 < (s.fs.icache ip).ref → 0 < (s.fs.icache jp).ref →
    (s.fs.icache ip).inum = (s.fs.icache jp).inum → ip = jp

theorem FdType.ip_eq_some {t : FdType} {ip : Fin NINODE} : t.ip = some ip ↔ t = .inode ip := by
  cases t with
  | none => simp [FdType.ip]
  | pipe q => simp [FdType.ip]
  | inode jp => simp [FdType.ip]

theorem Quiet.exact {s : St} (h : Quiet s) : Exact s := by
  obtain ⟨F, hs, -⟩ := h
  refine ⟨fun f => ?_, fun ip => ?_, hs.counted.inj⟩
  · rw [hs.filed.ref f, slots, count_tally]
  · rw [hs.counted.ref ip, Multiset.count_add, inodes, cwds, count_tally, count_tally, add_comm]
    push_cast
    congr 3
    -- a file of type `FD_INODE` is in use
    ext f
    simp only [Finset.mem_filter, Finset.mem_univ, true_and, FdType.ip_eq_some, hs.filed.type f]
    refine ⟨fun hf => ⟨?_, hf⟩, fun hf => hf.2⟩
    by_contra hle
    have hmem : f ∉ slots s.proc := by
      rw [← Multiset.count_eq_zero]
      have := hs.filed.ref f
      omega
    rw [hs.filed.idle f hmem] at hf
    cases hf

theorem Boot.quiet {s : St} (h : Boot s) : Quiet s := by
  have hproc : s.proc = update (fun _ => ⟨.unused, fun _ => none, none⟩) initproc
      ⟨.live, fun _ => none, some 0⟩ := by
    funext p
    by_cases hp : p = initproc
    · subst hp
      rw [h.init, update_self]
    · rw [h.procs p hp, update_of_ne hp]
  have hslots : slots s.proc = 0 := by
    rw [slots]
    refine (tally_congr (g := fun _ => none) fun x => ?_).trans tally_none
    by_cases hp : x.1 = initproc
    · rw [hp, h.init]
    · rw [h.procs x.1 hp]
  have hcwds : cwds s.proc = {0} := by
    have := cwds_update (fun _ => ⟨.unused, fun _ => none, none⟩) initproc
      ⟨.live, fun _ => none, some 0⟩
    rw [← hproc, one_none, add_zero, one_some] at this
    rw [this, cwds, tally_none, zero_add]
  have hinodes : inodes (fun _ => .none) = 0 := by
    rw [inodes]
    exact (tally_congr (g := fun _ => none) fun _ => rfl).trans tally_none
  refine ⟨fun _ => .none, ⟨⟨fun ip => ?_, fun ip jp hip hjp _ => ?_, h.log.1, h.log.2.1⟩,
    fun ip => ?_, ⟨fun f => ?_, fun f => (h.file f).2, fun _ _ => rfl⟩, rfl⟩, fun p hp => ?_,
    fun p hp => ?_⟩
  · rw [hinodes, hcwds, zero_add]
    by_cases hip : ip = 0
    · subst hip
      simp [h.root.2.1]
    · simp [h.icache ip hip, hip]
  · have hzero : ∀ ip, 0 < (s.fs.icache ip).ref → ip = 0 := by
      intro ip hip
      by_contra hne
      rw [h.icache ip hne] at hip
      exact absurd hip (lt_irrefl 0)
    rw [hzero ip hip, hzero jp hjp]
  · simpa using h.locked ip
  · rw [hslots]
    simpa using (h.file f).1
  · by_cases hinit : p = initproc
    · subst hinit
      exact ⟨0, by rw [h.init]⟩
    · rw [h.procs p hinit] at hp
      cases hp
  · by_cases hinit : p = initproc
    · subst hinit
      rw [h.init] at hp
      exact absurd rfl hp
    · rw [h.procs p hinit]
      exact ⟨rfl, fun _ => rfl⟩

section Runs

variable {sb : Superblock} {dev : Devsw} {s : St}

theorem reach_quiet (h : Reach Boot (Step sb dev) s) : Quiet s := by
  refine Reach.invariant (P := Quiet) (fun s hs => hs.quiet) ?_ h
  rintro s e s' hq ⟨hp, r, hr⟩
  exact (call_quiet e.2 hq hp).of_ok hr

/-- Between system calls every reference count is the number of references, and no call can run into
the checks of the counts. -/
theorem refs_exact (h : Reach Boot (Step sb dev) s) :
    Exact s ∧ ∀ p c e, (s.proc p).state = .live → call sb dev p c s = .error e →
      e ≠ .filedup ∧ e ≠ .fileclose ∧ e ≠ .ilock ∧ e ≠ .iunlock := by
  have hq := reach_quiet h
  refine ⟨hq.exact, fun p c e hp he => ?_⟩
  have hfine : Fine e := (call_quiet c hq hp).of_error he
  refine ⟨?_, ?_, ?_, ?_⟩ <;>
    · rintro rfl
      exact hfine trivial

/-- The calls of `es` in a row; `none` when one of them does not return. -/
def after (sb : Superblock) (dev : Devsw) : List (Fin NPROC × Call) → St → Option St
  | [], s => some s
  | e :: es, s =>
    if (s.proc e.1).state = .live then
      match call sb dev e.1 e.2 s with
      | .ok (_, s') => after sb dev es s'
      | .error _ => none
    else none

theorem reach_after {init : St → Prop} {s' : St} (es : List (Fin NPROC × Call))
    (h : Reach init (Step sb dev) s) (hs : after sb dev es s = some s') :
    Reach init (Step sb dev) s' := by
  induction es generalizing s with
  | nil =>
    cases hs
    exact h
  | cons e es ih =>
    rw [after] at hs
    split at hs
    · rename_i hlive
      split at hs
      · rename_i r s1 hr
        exact ih (.step h ⟨hlive, r, hr⟩) hs
      · cases hs
    · cases hs

end Runs

namespace Sample

/-- After `userinit`, with an empty disk. -/
def boot : St where
  fs := ⟨fun _ => .zero, ⟨LOGSIZE, 0, false, .empty⟩, fun ip =>
    ⟨ROOTINO, if ip = 0 then 1 else 0, false, default⟩⟩
  locked := fun _ => false
  file := fun _ => ⟨.none, 0, false, false, 0⟩
  pipe := fun _ => none
  proc := fun p =>
    if p = initproc then ⟨.live, fun _ => none, some 0⟩ else ⟨.unused, fun _ => none, none⟩

theorem boot_ok : Boot boot where
  init := rfl
  procs := fun p hp => by rw [boot]; exact if_neg hp
  root := ⟨rfl, rfl, rfl⟩
  icache := fun ip hip => by rw [boot]; exact if_neg hip
  file := fun _ => ⟨rfl, rfl⟩
  locked := fun _ => rfl
  log := ⟨rfl, rfl, rfl⟩

/-- A pipe, a child, and the child duplicates one end and closes the other. -/
def calls : List (Fin NPROC × Call) :=
  [(0, .pipe true (some 7)), (0, .fork true), (1, .dup 0), (1, .close 1)]

end Sample

theorem refs_exact_pipe :
    ∃ s, Reach Boot (Step Fs.Sample.sb Fs.Sample.dev) s ∧ (s.file 0).ref = 3 ∧ (s.file 1).ref = 1 ∧
      (s.fs.icache 0).ref = 2 ∧ Exact s := by
  have hrun : ((after Fs.Sample.sb Fs.Sample.dev Sample.calls Sample.boot).any fun s =>
      (s.file 0).ref = 3 && (s.file 1).ref = 1 && (s.fs.icache 0).ref = 2) = true := by
    decide +kernel
  obtain ⟨s, hs, hrefs⟩ := (Option.any_eq_true _ _).mp hrun
  simp only [Bool.and_eq_true, decide_eq_true_eq] at hrefs
  have hreach := reach_after Sample.calls (.start Sample.boot_ok) hs
  exact ⟨s, hreach, hrefs.1.1, hrefs.1.2, hrefs.2, (refs_exact hreach).1⟩

end Xv6.Sys
