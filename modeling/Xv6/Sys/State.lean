import Xv6.Fs.Ops
import Xv6.Lib.Hoare

/-!
# Xv6.Sys.State

The state behind the file system calls of `sysfile.c`: the file system, the sleep locks of the inode
cache, the file table and each process's descriptors and current directory.

System calls run one after the other. A sleep lock that is held is then held by the running call
itself, and to acquire it again is to sleep for ever (`Stop.hang`), as is `begin_op` when it sleeps.
-/

namespace Xv6.Sys

open Fs Function

abbrev NFILE : Nat := 100
abbrev ROOTINO : Nat := 1

/-- `initproc`: `userinit` takes the first slot. -/
instance : NeZero NOFILE := ⟨by decide⟩

instance : NeZero NINODE := ⟨by decide⟩

abbrev initproc : Fin NPROC := 0

/-- How a call can end without returning: a panic of the layers below or of this one, an access
through a null pointer, or sleep without end. -/
inductive Stop where
  | fs (p : Panic)
  | ilock
  | ilockNoType
  | iunlock
  | dirlookupNotDir
  | dirlookupRead
  | dirlinkRead
  | dirlink
  | isdiremptyRead
  | unlinkNlink
  | unlinkWritei
  | createDots
  | createDirlink
  | filedup
  | fileclose
  | filewrite
  | shortFilewrite
  | initExiting
  | nullPointer
  | hang
  deriving DecidableEq, Repr

/-- `f->type`, with the pointer that goes with it. -/
inductive FdType where
  | none
  | pipe (p : Nat)
  | inode (ip : Fin NINODE)
  deriving DecidableEq, Repr

structure File where
  type : FdType
  ref : Int
  readable : Bool
  writable : Bool
  off : UInt32

/-- The flags of a `struct pipe`. -/
structure PipeEnds where
  readopen : Bool
  writeopen : Bool

inductive ProcState where
  | unused
  | live
  | zombie
  deriving DecidableEq, Repr

structure Proc where
  state : ProcState
  ofile : Fin NOFILE → Option (Fin NFILE)
  cwd : Option (Fin NINODE)

/-- The state between and during calls; `pipe` has the pages that hold a `struct pipe`. -/
structure St where
  fs : FS
  locked : Fin NINODE → Bool
  file : Fin NFILE → File
  pipe : Nat → Option PipeEnds
  proc : Fin NPROC → Proc

abbrev M := StateT St (Except Stop)

namespace St

def setInode (s : St) (ip : Fin NINODE) (x : Inode) : St := { s with fs := s.fs.setInode ip x }

def setLog (s : St) (g : Log.LogSt) : St := { s with fs := { s.fs with log := g } }

def setFile (s : St) (f : Fin NFILE) (x : File) : St :=
  { s with file := update s.file f x }

def setPipe (s : St) (q : Nat) (e : Option PipeEnds) : St :=
  { s with pipe := update s.pipe q e }

def setProc (s : St) (p : Fin NPROC) (x : Proc) : St :=
  { s with proc := update s.proc p x }

def setFd (s : St) (p : Fin NPROC) (fd : Fin NOFILE) (f : Option (Fin NFILE)) : St :=
  s.setProc p { s.proc p with ofile := update (s.proc p).ofile fd f }

def setCwd (s : St) (p : Fin NPROC) (ip : Option (Fin NINODE)) : St :=
  s.setProc p { s.proc p with cwd := ip }

end St

section Lower

variable {α : Type}

def onFs (f : FS → Except Panic (α × FS)) : M α := fun s =>
  match f s.fs with
  | .ok (a, fs) => .ok (a, { s with fs })
  | .error p => .error (.fs p)

def doFs (f : FS → Except Panic FS) : M Unit := fun s =>
  match f s.fs with
  | .ok fs => .ok ((), { s with fs })
  | .error p => .error (.fs p)

/-- `if(c) m;` -/
def when (c : Prop) [Decidable c] (m : M Unit) : M Unit := if c then m else return ()

end Lower

def beginOp : M Unit := do
  let s ← get
  match s.fs.log.beginOp with
  | none => throw .hang
  | some g => set (s.setLog g)

def endOp : M Unit := do
  let s ← get
  match s.fs.log.endOp with
  | .error p => throw (.fs p)
  | .ok (doCommit, g) => set (s.setLog (if doCommit then g.commit.endCommit else g))

def acquiresleep (ip : Fin NINODE) : M Unit := do
  let s ← get
  if s.locked ip then throw .hang
  else set { s with locked := update s.locked ip true }

def releasesleep (ip : Fin NINODE) : M Unit := do
  let s ← get
  set { s with locked := update s.locked ip false }

def inode (ip : Fin NINODE) : M Inode := do
  let s ← get
  return s.fs.icache ip

def setInode (ip : Fin NINODE) (x : Inode) : M Unit := do
  let s ← get
  set (s.setInode ip x)

def idup (ip : Fin NINODE) : M (Fin NINODE) := do
  let x ← inode ip
  setInode ip { x with ref := x.ref + 1 }
  return ip

def iget (inum : Nat) : M (Fin NINODE) := onFs (Fs.iget · inum)

section Inodes

variable (sb : Superblock)

/-- `ilock` after `acquiresleep`: the copy is filled from the disk. -/
def iload (ip : Fin NINODE) : M Unit := do
  let s ← get
  let x := s.fs.icache ip
  if x.valid then return ()
  else
    let copy := getDinode (s.fs.disk (sb.iblock x.inum)) (x.inum % IPB)
    set (s.setInode ip { x with copy, valid := true })
    if copy.type = 0 then throw .ilockNoType else return ()

def ilock (ip : Fin NINODE) : M Unit := do
  let x ← inode ip
  if x.ref < 1 then throw .ilock
  else
    acquiresleep ip
    iload sb ip

def iunlock (ip : Fin NINODE) : M Unit := do
  let s ← get
  if s.locked ip = false ∨ (s.fs.icache ip).ref < 1 then throw .iunlock else releasesleep ip

def iput (ip : Fin NINODE) : M Unit := do
  acquiresleep ip
  doFs (Fs.iput sb · ip)
  releasesleep ip

def iunlockput (ip : Fin NINODE) : M Unit := do
  iunlock ip
  iput sb ip

/-- A change of the copy, then `iupdate(ip)`. -/
def iupdate (ip : Fin NINODE) (f : Dinode → Dinode) : M Unit := do
  let x ← inode ip
  setInode ip { x with copy := f x.copy }
  doFs (Fs.iupdate sb · ip)

end Inodes

end Xv6.Sys
