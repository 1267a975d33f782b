import Xv6.Sys.Dir

/-!
# Xv6.Sys.Call

The file table of `file.c`, the descriptors of a process, and the system calls of `sysfile.c`, with
what `fork`, `exec` and `exit` do to descriptors and current directories.

A system call takes its arguments as the user gave them. Strings are what `argstr` found; `none`
stands for arguments that one of `argstr`, `argint`, `argptr` refuses.
-/

namespace Xv6.Sys

open Fs

def filealloc : M (Option (Fin NFILE)) := do
  let s ← get
  match (List.finRange NFILE).find? fun f => (s.file f).ref = 0 with
  | none => return none
  | some f =>
    set (s.setFile f { s.file f with ref := 1 })
    return some f

def filedup (f : Fin NFILE) : M Unit := do
  let s ← get
  if (s.file f).ref < 1 then throw .filedup
  else set (s.setFile f { s.file f with ref := (s.file f).ref + 1 })

def PipeEnds.close (e : PipeEnds) (writable : Bool) : PipeEnds :=
  if writable then { e with writeopen := false } else { e with readopen := false }

/-- `pipeclose(p, writable)`: the page is freed when both ends are closed. -/
def pipeclose (q : Nat) (writable : Bool) : M Unit := do
  let s ← get
  match s.pipe q with
  | none => return ()
  | some e =>
    let e := e.close writable
    if e.readopen = false ∧ e.writeopen = false then set (s.setPipe q none)
    else set (s.setPipe q (some e))

section Calls

variable (sb : Superblock) (dev : Devsw)

def fileclose (f : Fin NFILE) : M Unit := do
  let s ← get
  let x := s.file f
  if x.ref < 1 then throw .fileclose
  else if 0 < x.ref - 1 then set (s.setFile f { x with ref := x.ref - 1 })
  else
    set (s.setFile f { x with ref := 0, type := .none })
    match x.type with
    | .none => return ()
    | .pipe q => pipeclose q x.writable
    | .inode ip => do
      beginOp
      iput sb ip
      endOp

/-- `pipealloc(&f0, &f1)`; `page` is what `kalloc` returns. -/
def pipealloc (page : Option Nat) : M (Option (Fin NFILE × Fin NFILE)) := do
  match ← filealloc with
  | none => return none
  | some f0 =>
    match ← filealloc with
    | none => do
      fileclose sb f0
      return none
    | some f1 =>
      match page with
      | none => do
        fileclose sb f0
        fileclose sb f1
        return none
      | some q => do
        let s ← get
        let s := s.setPipe q (some ⟨true, true⟩)
        let s := s.setFile f0 { s.file f0 with type := .pipe q, readable := true, writable :=
          false }
        let s := s.setFile f1 { s.file f1 with type := .pipe q, readable := false, writable :=
          true }
        set s
        return some (f0, f1)

def argfd (p : Fin NPROC) (fd : Int) : M (Option (Fin NOFILE × Fin NFILE)) := do
  let s ← get
  if fd < 0 ∨ (NOFILE : Int) ≤ fd then return none
  else
    let i := Fin.ofNat NOFILE fd.toNat
    return (s.proc p).ofile i |>.map fun f => (i, f)

def fdalloc (p : Fin NPROC) (f : Fin NFILE) : M (Option (Fin NOFILE)) := do
  let s ← get
  match (List.finRange NOFILE).find? fun fd => ((s.proc p).ofile fd).isNone with
  | none => return none
  | some fd =>
    set (s.setFd p fd (some f))
    return some fd

def fdclear (p : Fin NPROC) (fd : Fin NOFILE) : M Unit := do
  let s ← get
  set (s.setFd p fd none)

def sysDup (p : Fin NPROC) (fd : Int) : M Int := do
  match ← argfd p fd with
  | none => return -1
  | some (_, f) =>
    match ← fdalloc p f with
    | none => return -1
    | some fd => do
      filedup f
      return fd.val

def sysClose (p : Fin NPROC) (fd : Int) : M Int := do
  match ← argfd p fd with
  | none => return -1
  | some (fd, f) => do
    fdclear p fd
    fileclose sb f
    return 0

def sysPipe (p : Fin NPROC) (arg : Bool) (page : Option Nat) : M Int := do
  if arg = false then return -1
  else
    match ← pipealloc sb page with
    | none => return -1
    | some (rf, wf) =>
      match ← fdalloc p rf with
      | none => do
        fileclose sb rf
        fileclose sb wf
        return -1
      | some fd0 =>
        match ← fdalloc p wf with
        | none => do
          fdclear p fd0
          fileclose sb rf
          fileclose sb wf
          return -1
        | some _ => return 0

/-- The exit of `sys_link` through `bad`. -/
def linkBad (ip : Fin NINODE) : M Int := do
  ilock sb ip
  iupdate sb ip fun d => { d with nlink := d.nlink - 1 }
  iunlockput sb ip
  endOp
  return -1

/-- `sys_link`; there is one device, so `dp->dev` is `ip->dev`. -/
def sysLink (p : Fin NPROC) (args : Option (List UInt8 × List UInt8)) : M Int := do
  match args with
  | none => return -1
  | some (old, new) => do
    beginOp
    match ← namei sb dev p old with
    | none => do
      endOp
      return -1
    | some ip => do
      ilock sb ip
      let x ← inode ip
      if x.copy.type = T_DIR then
        iunlockput sb ip
        endOp
        return -1
      else
        iupdate sb ip fun d => { d with nlink := d.nlink + 1 }
        iunlock ip
        match ← nameiparent sb dev p new with
        | none => linkBad sb ip
        | some (dp, name) => do
          ilock sb dp
          let r ← dirlink sb dev dp name x.inum
          if r < 0 then
            iunlockput sb dp
            linkBad sb ip
          else
            iunlockput sb dp
            iput sb ip
            endOp
            return 0

/-- The exit of `sys_unlink` through `bad`. -/
def unlinkBad (dp : Fin NINODE) : M Int := do
  iunlockput sb dp
  endOp
  return -1

/-- `!(ip->type == T_DIR && !isdirempty(ip))`. -/
def removable (ip : Fin NINODE) : M Bool := do
  let x ← inode ip
  if x.copy.type = T_DIR then isdirempty sb dev ip else return true

/-- `sys_unlink` once the entry at `off` of `dp` may go. -/
def unlinkEntry (dp ip : Fin NINODE) (off : Nat) : M Int := do
  let x ← inode ip
  let n ← onFs (writei sb dev · dp Dirent.zero.byte (.ofNat off) (.ofNat Dirent.size))
  if n ≠ Dirent.size then throw .unlinkWritei
  else
    when (x.copy.type = T_DIR) (iupdate sb dp fun d => { d with nlink := d.nlink - 1 })
    iunlockput sb dp
    iupdate sb ip fun d => { d with nlink := d.nlink - 1 }
    iunlockput sb ip
    endOp
    return 0

def sysUnlink (p : Fin NPROC) (path : Option (List UInt8)) : M Int := do
  match path with
  | none => return -1
  | some path => do
    beginOp
    match ← nameiparent sb dev p path with
    | none => do
      endOp
      return -1
    | some (dp, name) => do
      ilock sb dp
      if namecmp (chars name) (chars dot) = 0 ∨ namecmp (chars name) (chars dotdot) = 0 then
        unlinkBad sb dp
      else
        match ← dirlookup sb dev dp name with
        | none => unlinkBad sb dp
        | some (ip, off) => do
          ilock sb ip
          let x ← inode ip
          if x.copy.nlink < 1 then throw .unlinkNlink
          else
            if ← removable sb dev ip then unlinkEntry sb dev dp ip off
            else
              iunlockput sb ip
              unlinkBad sb dp

/-- The entries `.` and `..` of the new directory `ip`. -/
def createDots (dp ip : Fin NINODE) : M Unit := do
  iupdate sb dp fun d => { d with nlink := d.nlink + 1 }
  let x ← inode ip
  let y ← inode dp
  let r ← dirlink sb dev ip dot x.inum
  if r < 0 then throw .createDots
  else
    let r ← dirlink sb dev ip dotdot y.inum
    if r < 0 then throw .createDots else return ()

/-- `create` once `dp` is locked and has no entry `name`. -/
def createNew (dp : Fin NINODE) (name : List UInt8) (type major minor : Int16) :
    M (Fin NINODE) := do
  let ip ← onFs (ialloc sb · type)
  ilock sb ip
  iupdate sb ip fun d => { d with major, minor, nlink := 1 }
  when (type = T_DIR) (createDots sb dev dp ip)
  let x ← inode ip
  let r ← dirlink sb dev dp name x.inum
  if r < 0 then throw .createDirlink
  else
    iunlockput sb dp
    return ip

def create (p : Fin NPROC) (path : List UInt8) (type major minor : Int16) :
    M (Option (Fin NINODE)) := do
  match ← nameiparent sb dev p path with
  | none => return none
  | some (dp, name) => do
    ilock sb dp
    match ← dirlookup sb dev dp name with
    | some (ip, _) => do
      iunlockput sb dp
      ilock sb ip
      let x ← inode ip
      if type = T_FILE ∧ x.copy.type = T_FILE then return some ip
      else
        iunlockput sb ip
        return none
    | none => do
      let ip ← createNew sb dev dp name type major minor
      return some ip

abbrev O_RDONLY : UInt32 := 0x000
abbrev O_WRONLY : UInt32 := 0x001
abbrev O_RDWR : UInt32 := 0x002
abbrev O_CREATE : UInt32 := 0x200

/-- The first half of `sys_open`: the inode, locked. -/
def openInode (p : Fin NPROC) (path : List UInt8) (omode : UInt32) : M (Option (Fin NINODE)) := do
  if omode &&& O_CREATE ≠ 0 then create sb dev p path T_FILE 0 0
  else
    match ← namei sb dev p path with
    | none => return none
    | some ip => do
      ilock sb ip
      let x ← inode ip
      if x.copy.type = T_DIR ∧ omode ≠ O_RDONLY then
        iunlockput sb ip
        return none
      else return some ip

/-- The second half of `sys_open`: a file and a descriptor for the inode. -/
def openFile (p : Fin NPROC) (ip : Fin NINODE) (omode : UInt32) : M Int := do
  match ← filealloc with
  | none => do
    iunlockput sb ip
    endOp
    return -1
  | some f =>
    match ← fdalloc p f with
    | none => do
      fileclose sb f
      iunlockput sb ip
      endOp
      return -1
    | some fd => do
      iunlock ip
      endOp
      let s ← get
      set (s.setFile f { s.file f with
        type := .inode ip
        off := 0
        readable := omode &&& O_WRONLY == 0
        writable := omode &&& O_WRONLY != 0 || omode &&& O_RDWR != 0 })
      return fd.val

def sysOpen (p : Fin NPROC) (args : Option (List UInt8 × UInt32)) : M Int := do
  match args with
  | none => return -1
  | some (path, omode) => do
    beginOp
    match ← openInode sb dev p path omode with
    | none => do
      endOp
      return -1
    | some ip => openFile sb p ip omode

/-- `sys_mkdir` and `sys_mknod` after their arguments are fetched. -/
def make (p : Fin NPROC) (path : Option (List UInt8)) (type major minor : Int16) : M Int := do
  beginOp
  match path with
  | none => do
    endOp
    return -1
  | some path =>
    match ← create sb dev p path type major minor with
    | none => do
      endOp
      return -1
    | some ip => do
      iunlockput sb ip
      endOp
      return 0

def sysMkdir (p : Fin NPROC) (path : Option (List UInt8)) : M Int := make sb dev p path T_DIR 0 0

def sysMknod (p : Fin NPROC) (path : Option (List UInt8)) (major minor : Int16) : M Int :=
  make sb dev p path T_DEV major minor

def sysChdir (p : Fin NPROC) (path : Option (List UInt8)) : M Int := do
  beginOp
  match path with
  | none => do
    endOp
    return -1
  | some path =>
    match ← namei sb dev p path with
    | none => do
      endOp
      return -1
    | some ip => do
      ilock sb ip
      let x ← inode ip
      if x.copy.type ≠ T_DIR then
        iunlockput sb ip
        endOp
        return -1
      else
        iunlock ip
        let s ← get
        match (s.proc p).cwd with
        | none => throw .nullPointer
        | some cwd => do
          iput sb cwd
          endOp
          let s ← get
          set (s.setCwd p (some ip))
          return 0

/-- The loop of `fork` over the descriptors `fds`. -/
def forkFiles (p np : Fin NPROC) : List (Fin NOFILE) → M Unit
  | [] => return ()
  | fd :: fds => do
    let s ← get
    match (s.proc p).ofile fd with
    | none => forkFiles p np fds
    | some f => do
      filedup f
      let s ← get
      set (s.setFd np fd (some f))
      forkFiles p np fds

/-- `fork`; `mem` says that `allocproc` got a stack and `copyuvm` its pages. -/
def fork (p : Fin NPROC) (mem : Bool) : M Int := do
  let s ← get
  match (List.finRange NPROC).find? fun q => (s.proc q).state = .unused with
  | none => return -1
  | some np =>
    if mem = false then return -1
    else
      forkFiles p np (List.finRange NOFILE)
      let s ← get
      match (s.proc p).cwd with
      | none => throw .nullPointer
      | some cwd => do
        let ip ← idup cwd
        let s ← get
        set (s.setProc np { s.proc np with cwd := some ip, state := .live })
        return np.val

/-- The reads of the program file by `exec`. -/
def execReads (ip : Fin NINODE) : List (UInt32 × UInt32) → M Unit
  | [] => return ()
  | (off, n) :: reads => do
    let _ ← onFs (readi sb dev · ip off n)
    execReads ip reads

/-- `exec`, on the side of the file system: its headers and memory decide what it reads until it
gives up or has loaded the image, which `ok` tells. -/
def exec (p : Fin NPROC) (path : Option (List UInt8)) (reads : List (UInt32 × UInt32)) (ok : Bool) :
    M Int := do
  match path with
  | none => return -1
  | some path => do
    beginOp
    match ← namei sb dev p path with
    | none => do
      endOp
      return -1
    | some ip => do
      ilock sb ip
      execReads sb dev ip reads
      iunlockput sb ip
      endOp
      return if ok then 0 else -1

/-- The loop of `exit` over the descriptors `fds`. -/
def exitFiles (p : Fin NPROC) : List (Fin NOFILE) → M Unit
  | [] => return ()
  | fd :: fds => do
    let s ← get
    match (s.proc p).ofile fd with
    | none => exitFiles p fds
    | some f => do
      fileclose sb f
      fdclear p fd
      exitFiles p fds

def exit (p : Fin NPROC) : M Int := do
  if p = initproc then throw .initExiting
  else
    exitFiles sb p (List.finRange NOFILE)
    beginOp
    let s ← get
    match (s.proc p).cwd with
    | none => throw .nullPointer
    | some cwd => do
      iput sb cwd
      endOp
      let s ← get
      set (s.setProc p { s.proc p with cwd := none, state := .zombie })
      return 0

/-- What `wait` does to the slot of the child `q` that it finds. -/
def wait (q : Fin NPROC) : M Int := do
  let s ← get
  if (s.proc q).state = .zombie then
    set (s.setProc q { s.proc q with state := .unused })
    return q.val
  else return -1

inductive Call where
  | open (args : Option (List UInt8 × UInt32))
  | dup (fd : Int)
  | close (fd : Int)
  | pipe (arg : Bool) (page : Option Nat)
  | link (args : Option (List UInt8 × List UInt8))
  | unlink (path : Option (List UInt8))
  | mkdir (path : Option (List UInt8))
  | mknod (path : Option (List UInt8)) (major minor : Int16)
  | chdir (path : Option (List UInt8))
  | fork (mem : Bool)
  | exec (path : Option (List UInt8)) (reads : List (UInt32 × UInt32)) (ok : Bool)
  | exit
  | wait (q : Fin NPROC)

def call (p : Fin NPROC) : Call → M Int
  | .open args => sysOpen sb dev p args
  | .dup fd => sysDup p fd
  | .close fd => sysClose sb p fd
  | .pipe arg page => sysPipe sb p arg page
  | .link args => sysLink sb dev p args
  | .unlink path => sysUnlink sb dev p path
  | .mkdir path => sysMkdir sb dev p path
  | .mknod path major minor => sysMknod sb dev p path major minor
  | .chdir path => sysChdir sb dev p path
  | .fork mem => fork p mem
  | .exec path reads ok => exec sb dev p path reads ok
  | .exit => exit sb p
  | .wait q => wait q

/-- A live process makes a call and the call returns (or, for `exit`, is over). -/
def Step (s : St) (e : Fin NPROC × Call) (s' : St) : Prop :=
  (s.proc e.1).state = .live ∧ ∃ r, call sb dev e.1 e.2 s = .ok (r, s')

end Calls

end Xv6.Sys
