import Xv6.Fs.Format
import Xv6.Log.State

/-!
# Xv6.Fs.Ops

The block and inode layers of `fs.c`: `balloc`, `bfree`, `ialloc`, `iget`, `iupdate`, `bmap`,
`itrunc`, `iput`, `readi`, `writei`.

The state is the disk as the buffer cache shows it, the log's bookkeeping and the inode cache; an
inode pointer is an index into the cache. There is one device, so `dev` arguments are dropped. Every
`bread`, change of `bp->data`, `log_write`, `brelse` is one `FS.logWrite`, which panics when
`log_write` does. Locks are left out: each function is run by the process that holds the inode's
sleep lock.
-/

namespace Xv6.Fs

structure Inode where
  inum : Nat
  ref : Int
  valid : Bool
  copy : Dinode

structure FS where
  disk : Nat → Block
  log : Log.LogSt
  icache : Fin NINODE → Inode

abbrev T_DIR : Int16 := 1
abbrev T_FILE : Int16 := 2
abbrev T_DEV : Int16 := 3

/-- The entries of `devsw`: what a device's `read` returns and delivers, what its
`write` returns. -/
structure Devsw where
  read : Fin NDEV → Option (UInt32 → Int × List UInt8)
  write : Fin NDEV → Option ((Nat → UInt8) → UInt32 → Int)

namespace FS

def logWrite (s : FS) (b : Nat) (x : Block) : Except Panic FS := do
  let g ← s.log.logWrite b
  return { s with disk := Function.update s.disk b x, log := g }

def setInode (s : FS) (ip : Fin NINODE) (x : Inode) : FS :=
  { s with icache := Function.update s.icache ip x }

def setAddr (s : FS) (ip : Fin NINODE) (k : Fin (NDIRECT + 1)) (a : UInt32) : FS :=
  let x := s.icache ip
  s.setInode ip { x with copy := { x.copy with addrs := Function.update x.copy.addrs k a } }

/-- The test `(bp->data[bi/8] & m) != 0` of `balloc` and `bfree` for block `b`. -/
def inUse (sb : Superblock) (s : FS) (b : Nat) : Bool := getBit (s.disk (sb.bblock b)) (b % BPB)

end FS

def bzero (s : FS) (b : Nat) : Except Panic FS := s.logWrite b Block.zero

/-- The two loops of `balloc` visit the blocks `b + bi` in increasing order. -/
def balloc (sb : Superblock) (s : FS) : Except Panic (Nat × FS) :=
  match (List.range sb.size).find? fun b => !s.inUse sb b with
  | none => .error .ballocOutOfBlocks
  | some b => do
    let s ← s.logWrite (sb.bblock b) (setBit (s.disk (sb.bblock b)) (b % BPB))
    let s ← bzero s b
    return (b, s)

def bfree (sb : Superblock) (s : FS) (b : Nat) : Except Panic FS :=
  if s.inUse sb b then s.logWrite (sb.bblock b) (clearBit (s.disk (sb.bblock b)) (b % BPB))
  else .error .freeingFreeBlock

def iget (s : FS) (inum : Nat) : Except Panic (Fin NINODE × FS) :=
  match (List.finRange NINODE).find? fun ip => 0 < (s.icache ip).ref ∧ (s.icache ip).inum =
    inum with
  | some ip => .ok (ip, s.setInode ip { s.icache ip with ref := (s.icache ip).ref + 1 })
  | none =>
    match (List.finRange NINODE).find? fun ip => (s.icache ip).ref = 0 with
    | none => .error .igetNoInodes
    | some ip => .ok (ip, s.setInode ip { s.icache ip with inum, ref := 1, valid := false })

def ialloc (sb : Superblock) (s : FS) (type : Int16) : Except Panic (Fin NINODE × FS) :=
  match (List.range sb.ninodes).find? fun inum =>
      1 ≤ inum ∧ (getDinode (s.disk (sb.iblock inum)) (inum % IPB)).type = 0 with
  | none => .error .iallocNoInodes
  | some inum => do
    let s ← s.logWrite (sb.iblock inum)
      (setDinode (s.disk (sb.iblock inum)) (inum % IPB) (.fresh type))
    iget s inum

def iupdate (sb : Superblock) (s : FS) (ip : Fin NINODE) : Except Panic FS :=
  let x := s.icache ip
  s.logWrite (sb.iblock x.inum) (setDinode (s.disk (sb.iblock x.inum)) (x.inum % IPB) x.copy)

/-- `if((addr = ip->addrs[k]) == 0) ip->addrs[k] = addr = balloc(ip->dev);` -/
def bmapAddr (sb : Superblock) (s : FS) (ip : Fin NINODE) (k : Fin (NDIRECT + 1)) :
    Except Panic (Nat × FS) :=
  let addr := (s.icache ip).copy.addrs k
  if addr = 0 then do
    let (b, s) ← balloc sb s
    return (b, s.setAddr ip k (UInt32.ofNat b))
  else .ok (addr.toNat, s)

/-- The same for entry `bn` of the indirect block `a`, which is then logged. -/
def bmapEntry (sb : Superblock) (s : FS) (a bn : Nat) : Except Panic (Nat × FS) :=
  let addr := (s.disk a).word bn
  if addr = 0 then do
    let (b, s) ← balloc sb s
    let s ← s.logWrite a ((s.disk a).setWord bn (UInt32.ofNat b))
    return (b, s)
  else .ok (addr.toNat, s)

def bmap (sb : Superblock) (s : FS) (ip : Fin NINODE) (bn : Nat) : Except Panic (Nat × FS) :=
  if h : bn < NDIRECT then bmapAddr sb s ip ⟨bn, by omega⟩
  else if bn - NDIRECT < NINDIRECT then do
    let (a, s) ← bmapAddr sb s ip (Fin.last NDIRECT)
    bmapEntry sb s a (bn - NDIRECT)
  else .error .bmapOutOfRange

/-- The first loop of `itrunc`, over the direct addresses `ks`. -/
def itruncDirect (sb : Superblock) (ip : Fin NINODE) : List (Fin NDIRECT) → FS → Except Panic FS
  | [], s => .ok s
  | k :: ks, s =>
    let addr := (s.icache ip).copy.addrs k.castSucc
    if addr ≠ 0 then do
      let s ← bfree sb s addr.toNat
      itruncDirect sb ip ks (s.setAddr ip k.castSucc 0)
    else itruncDirect sb ip ks s

/-- The second loop of `itrunc`, over the entries `js` of the indirect block `a`. -/
def itruncEntries (sb : Superblock) (a : Nat) : List Nat → FS → Except Panic FS
  | [], s => .ok s
  | j :: js, s =>
    let addr := (s.disk a).word j
    if addr ≠ 0 then do
      let s ← bfree sb s addr.toNat
      itruncEntries sb a js s
    else itruncEntries sb a js s

def itruncIndirect (sb : Superblock) (s : FS) (ip : Fin NINODE) : Except Panic FS :=
  let addr := (s.icache ip).copy.addrs (Fin.last NDIRECT)
  if addr ≠ 0 then do
    let s ← itruncEntries sb addr.toNat (List.range NINDIRECT) s
    let s ← bfree sb s addr.toNat
    return s.setAddr ip (Fin.last NDIRECT) 0
  else .ok s

def itrunc (sb : Superblock) (s : FS) (ip : Fin NINODE) : Except Panic FS := do
  let s ← itruncDirect sb ip (List.finRange NDIRECT) s
  let s ← itruncIndirect sb s ip
  let x := s.icache ip
  iupdate sb (s.setInode ip { x with copy := { x.copy with size := 0 } }) ip

/-- The branch of `iput` for an inode with no links and no other references. -/
def ifree (sb : Superblock) (s : FS) (ip : Fin NINODE) : Except Panic FS := do
  let s ← itrunc sb s ip
  let x := s.icache ip
  let s ← iupdate sb (s.setInode ip { x with copy := { x.copy with type := 0 } }) ip
  return s.setInode ip { s.icache ip with valid := false }

def iput (sb : Superblock) (s : FS) (ip : Fin NINODE) : Except Panic FS := do
  let x := s.icache ip
  let s ← if x.valid && x.copy.nlink = 0 && x.ref = 1 then ifree sb s ip else pure s
  return s.setInode ip { s.icache ip with ref := (s.icache ip).ref - 1 }

/-- The loop of `readi`: `tot` bytes have been delivered, `off` is the position in the file. -/
def readLoop (sb : Superblock) (ip : Fin NINODE) (n tot off : Nat) (s : FS) :
    Except Panic (List UInt8 × FS) :=
  if tot < n then do
    let (a, s) ← bmap sb s ip (off / BSIZE)
    let m := min (n - tot) (BSIZE - off % BSIZE)
    let part := (List.range m).map fun k => (s.disk a).byte (off % BSIZE + k)
    let (rest, s) ← readLoop sb ip n (tot + m) (off + m) s
    return (part ++ rest, s)
  else .ok ([], s)
termination_by n - tot
decreasing_by simp only [BSIZE]; omega

def readi (sb : Superblock) (dev : Devsw) (s : FS) (ip : Fin NINODE) (off n : UInt32) :
    Except Panic ((Int × List UInt8) × FS) :=
  let x := (s.icache ip).copy
  if x.type = T_DEV then
    if x.major < 0 ∨ NDEV ≤ x.major.toInt then .ok ((-1, []), s)
    else
      match dev.read (Fin.ofNat NDEV x.major.toInt.toNat) with
      | none => .ok ((-1, []), s)
      | some read => .ok (read n, s)
  else if off > x.size ∨ off + n < off then .ok ((-1, []), s)
  else do
    let n := if off + n > x.size then x.size - off else n
    let (bytes, s) ← readLoop sb ip n.toNat 0 off.toNat s
    return ((n.toNat, bytes), s)

/-- The loop of `writei`; it ends with the final `off`. -/
def writeLoop (sb : Superblock) (ip : Fin NINODE) (src : Nat → UInt8) (n tot off : Nat) (s : FS) :
    Except Panic (Nat × FS) :=
  if tot < n then do
    let (a, s) ← bmap sb s ip (off / BSIZE)
    let m := min (n - tot) (BSIZE - off % BSIZE)
    let s ← s.logWrite a ((s.disk a).patch (off % BSIZE) m fun k => src (tot + k))
    writeLoop sb ip src n (tot + m) (off + m) s
  else .ok (off, s)
termination_by n - tot
decreasing_by simp only [BSIZE]; omega

def writei (sb : Superblock) (dev : Devsw) (s : FS) (ip : Fin NINODE) (src : Nat → UInt8)
    (off n : UInt32) : Except Panic (Int × FS) :=
  let x := (s.icache ip).copy
  if x.type = T_DEV then
    if x.major < 0 ∨ NDEV ≤ x.major.toInt then .ok (-1, s)
    else
      match dev.write (Fin.ofNat NDEV x.major.toInt.toNat) with
      | none => .ok (-1, s)
      | some write => .ok (write src n, s)
  else if off > x.size ∨ off + n < off then .ok (-1, s)
  else if off + n > UInt32.ofNat (MAXFILE * BSIZE) then .ok (-1, s)
  else do
    let (off, s) ← writeLoop sb ip src n.toNat 0 off.toNat s
    let x := s.icache ip
    let s ←
      if 0 < n ∧ UInt32.ofNat off > x.copy.size then
        iupdate sb (s.setInode ip { x with copy := { x.copy with size := UInt32.ofNat off } }) ip
      else pure s
    return (n.toNat, s)

end Xv6.Fs
