import Xv6.Str
import Xv6.Sys.State

/-!
# Xv6.Sys.Dir

Directories and path names: the last third of `fs.c`.

A path is the list of its bytes before the terminating zero. The buffer `char name[DIRSIZ]` that
`skipelem` fills is the string in it: `namecmp` and `strncpy` do not look behind its zero.
-/

namespace Xv6.Sys

open Fs Bytes

/-- `struct dirent`; `name` has `DIRSIZ` bytes. -/
structure Dirent where
  inum : UInt16
  name : List UInt8
  deriving DecidableEq, Repr

namespace Dirent

/-- `sizeof(struct dirent)`. -/
abbrev size : Nat := 16

def ofBytes (bytes : List UInt8) : Dirent := ⟨rd16 (chars bytes) 0, bytes.drop 2⟩

def byte (de : Dirent) (k : Nat) : UInt8 :=
  if k < 2 then byteOf de.inum.toNat k else chars de.name (k - 2)

/-- An entry after `memset(&de, 0, sizeof(de))`. -/
def zero : Dirent := ⟨0, List.replicate DIRSIZ 0⟩

def make (name : List UInt8) (inum : Nat) : Dirent :=
  ⟨UInt16.ofNat inum, strncpy (chars name) DIRSIZ 0⟩

/-- What `dirlookup` looks for. -/
def hasName (name : List UInt8) (de : Dirent) : Bool :=
  de.inum != 0 && namecmp (chars name) (chars de.name) == 0

end Dirent

abbrev dot : List UInt8 := [46]

abbrev dotdot : List UInt8 := [46, 46]

abbrev SLASH : UInt8 := 47

/-- `skipelem(path, name)`: the rest of the path and the element. -/
def skipelem (path : List UInt8) : Option (List UInt8 × List UInt8) :=
  let path := path.dropWhile (· == SLASH)
  if path = [] then none
  else
    let elem := path.takeWhile (· != SLASH)
    let rest := path.dropWhile (· != SLASH)
    some (rest.dropWhile (· == SLASH), elem.take DIRSIZ)

theorem skipelem_shorter {path rest name : List UInt8} (h : skipelem path = some (rest, name)) :
    rest.length < path.length := by
  simp only [skipelem] at h
  split at h
  · cases h
  · rename_i hne
    cases h
    generalize hp : path.dropWhile (· == SLASH) = p at hne
    have hlen : p.length ≤ path.length := by
      rw [← hp]
      exact (List.dropWhile_suffix _).length_le
    obtain ⟨c, cs, rfl⟩ := List.exists_cons_of_ne_nil hne
    -- the first byte is no slash, so the element is not empty
    have hc : (c == SLASH) = false := by
      have := List.head_dropWhile_not (· == SLASH) (l := path) (by rw [hp]; simp)
      simpa [hp] using this
    have hrest : (List.dropWhile (· != SLASH) (c :: cs)).length ≤ cs.length := by
      rw [List.dropWhile_cons_of_pos (by simpa using hc)]
      exact (List.dropWhile_suffix _).length_le
    have := (List.dropWhile_suffix (· == SLASH) (l := List.dropWhile (· != SLASH)
      (c :: cs))).length_le
    simp only [List.length_cons] at hlen
    omega

section Names

variable (sb : Superblock) (dev : Devsw)

/-- The loops over the entries of a directory of `size` bytes, from `off` on: they stop at an entry
with `found`. The result is the final `off`, with the entry if the loop was left there. -/
def scan (dp : Fin NINODE) (bad : Stop) (found : Dirent → Bool) (size off : Nat) :
    M (Nat × Option Dirent) :=
  if off < size then do
    let (n, bytes) ← onFs (readi sb dev · dp (.ofNat off) (.ofNat Dirent.size))
    if n ≠ Dirent.size then throw bad
    else if found (.ofBytes bytes) then return (off, some (.ofBytes bytes))
    else scan dp bad found size (off + Dirent.size)
  else return (off, none)
termination_by size - off
decreasing_by simp only [Dirent.size]; omega

def dirlookup (dp : Fin NINODE) (name : List UInt8) : M (Option (Fin NINODE × Nat)) := do
  let x ← inode dp
  if x.copy.type ≠ T_DIR then throw .dirlookupNotDir
  else
    match ← scan sb dev dp .dirlookupRead (Dirent.hasName name) x.copy.size.toNat 0 with
    | (_, none) => return none
    | (off, some de) => do
      let ip ← iget de.inum.toNat
      return some (ip, off)

def dirlink (dp : Fin NINODE) (name : List UInt8) (inum : Nat) : M Int := do
  match ← dirlookup sb dev dp name with
  | some (ip, _) => do
    iput sb ip
    return -1
  | none => do
    let x ← inode dp
    let (off, _) ← scan sb dev dp .dirlinkRead (·.inum == 0) x.copy.size.toNat 0
    let n ← onFs (writei sb dev · dp (Dirent.make name inum).byte (.ofNat off) (.ofNat Dirent.size))
    if n ≠ Dirent.size then throw .dirlink else return 0

def isdirempty (dp : Fin NINODE) : M Bool := do
  let x ← inode dp
  let (_, de) ← scan sb dev dp .isdiremptyRead (·.inum != 0) x.copy.size.toNat (2 * Dirent.size)
  return de.isNone

def namexLoop (nameiparent : Bool) (path : List UInt8) (ip : Fin NINODE) :
    M (Option (Fin NINODE × List UInt8)) :=
  match _h : skipelem path with
  | none =>
    if nameiparent then do
      iput sb ip
      return none
    else return some (ip, [])
  | some (rest, name) => do
    ilock sb ip
    let x ← inode ip
    if x.copy.type ≠ T_DIR then
      iunlockput sb ip
      return none
    else if nameiparent ∧ rest = [] then
      iunlock ip
      return some (ip, name)
    else
      match ← dirlookup sb dev ip name with
      | none => do
        iunlockput sb ip
        return none
      | some (next, _) => do
        iunlockput sb ip
        namexLoop nameiparent rest next
termination_by path.length
decreasing_by exact skipelem_shorter _h

/-- Where `namex` starts: at the root or the current directory. -/
def start (p : Fin NPROC) (path : List UInt8) : M (Fin NINODE) := do
  if path.head? = some SLASH then iget ROOTINO
  else
    let s ← get
    match (s.proc p).cwd with
    | none => throw .nullPointer
    | some ip => idup ip

def namex (p : Fin NPROC) (path : List UInt8) (nameiparent : Bool) :
    M (Option (Fin NINODE × List UInt8)) := do
  let ip ← start p path
  namexLoop sb dev nameiparent path ip

def namei (p : Fin NPROC) (path : List UInt8) : M (Option (Fin NINODE)) := do
  let r ← namex sb dev p path false
  return r.map Prod.fst

def nameiparent (p : Fin NPROC) (path : List UInt8) : M (Option (Fin NINODE × List UInt8)) :=
  namex sb dev p path true

end Names

end Xv6.Sys
