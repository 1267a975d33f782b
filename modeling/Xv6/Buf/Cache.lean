import Xv6.Lib.Ring
import Xv6.Lib.Run
import Xv6.Log.State

/-!
# Xv6.Buf.Cache

The buffer cache of `bio.c`: `binit`, `bget`, `bread`, `bwrite`, `brelse`, the pin that `log_write`
puts on a buffer, and `commit` as it uses them.

The buffers are linked in the order of their last use. A kernel thread is a natural number. `bget`
and `brelse` are cut where `bcache.lock` is free, so that a thread can be between its `bget` and the
buffer's sleep lock (`Phase.locking`), or between giving up the sleep lock and counting down
`refcnt` (`Phase.releasing`), while others run. The disk driver is taken to transfer whole blocks:
`iderw` is one read or write of `disk`.

`unsaved` is not in the source. It marks a buffer whose holder has changed the data since its last
`log_write` or `bwrite`; a holder that keeps to the protocol of `bio.c` does not release such a
buffer.
-/

namespace Xv6.Buf

open Function

abbrev NBUF : Nat := MAXOPBLOCKS * 3

inductive BufPanic where
  | bgetNoBuffers
  | bwrite
  | brelse
  | iderwNotLocked
  | iderwNothingToDo
  | log (p : Panic)
  deriving DecidableEq

/-- `struct buf`. The flags `B_VALID` and `B_DIRTY` are two fields, and `holder` is the thread that
has the sleep lock. -/
structure Buffer where
  valid : Bool
  dirty : Bool
  dev : Nat
  blockno : Nat
  refcnt : Nat
  holder : Option Nat
  data : Block

structure Bcache where
  buf : Fin NBUF → Buffer
  links : Links (Fin NBUF)

namespace Bcache

def set (c : Bcache) (b : Fin NBUF) (x : Buffer) : Bcache :=
  { c with buf := update c.buf b x }

def binit : Bcache where
  buf := fun _ => ⟨false, false, 0, 0, 0, none, Block.zero⟩
  links := (List.finRange NBUF).foldl Links.pushFront Links.single

/-- `bget` up to `release(&bcache.lock)`. -/
def bget (c : Bcache) (dev blockno : Nat) : Except BufPanic (Fin NBUF × Bcache) :=
  let cached := Links.search c.links.next
    (fun b => (c.buf b).dev == dev && (c.buf b).blockno == blockno) NBUF (c.links.next none)
  match cached with
  | some b => .ok (b, c.set b { c.buf b with refcnt := (c.buf b).refcnt + 1 })
  | none =>
    -- recycle, from the least recently used on
    let unused := Links.search c.links.prev
      (fun b => (c.buf b).refcnt == 0 && !(c.buf b).dirty) NBUF (c.links.prev none)
    match unused with
    | some b =>
      .ok (b, c.set b { c.buf b with dev, blockno, valid := false, dirty := false, refcnt := 1 })
    | none => .error .bgetNoBuffers

/-- `brelse` after `releasesleep`. -/
def unref (c : Bcache) (b : Fin NBUF) : Bcache :=
  let c := c.set b { c.buf b with refcnt := (c.buf b).refcnt - 1 }
  if (c.buf b).refcnt = 0 then { c with links := (c.links.unlink b).pushFront b } else c

end Bcache

inductive Phase where
  | idle
  | locking (b : Fin NBUF) (dev blockno : Nat)
  | releasing (b : Fin NBUF)

structure Bio where
  cache : Bcache
  disk : Nat → Nat → Block
  log : Log.LogSt
  phase : Nat → Phase
  unsaved : Fin NBUF → Bool

namespace Bio

def buf (m : Bio) (b : Fin NBUF) : Buffer := m.cache.buf b

def setBuf (m : Bio) (b : Fin NBUF) (x : Buffer) : Bio := { m with cache := m.cache.set b x }

def setPhase (m : Bio) (t : Nat) (p : Phase) : Bio :=
  { m with phase := update m.phase t p }

def setDisk (m : Bio) (dev blockno : Nat) (x : Block) : Bio :=
  { m with disk := update m.disk dev (update (m.disk dev) blockno x) }

def iderw (m : Bio) (t : Nat) (b : Fin NBUF) : Except BufPanic Bio :=
  let x := m.buf b
  if x.holder ≠ some t then .error .iderwNotLocked
  else if x.valid ∧ ¬ x.dirty then .error .iderwNothingToDo
  else if x.dirty then
    .ok ((m.setDisk x.dev x.blockno x.data).setBuf b { x with valid := true, dirty := false })
  else .ok (m.setBuf b { x with valid := true, data := m.disk x.dev x.blockno })

/-- The first half of `bread`. -/
def bget (m : Bio) (t dev blockno : Nat) : Except BufPanic (Fin NBUF × Bio) := do
  let (b, c) ← m.cache.bget dev blockno
  pure (b, { m with cache := c, phase := update m.phase t (.locking b dev blockno) })

/-- `bread` once the sleep lock of `b` is free. -/
def bread (m : Bio) (t : Nat) (b : Fin NBUF) : Except BufPanic Bio :=
  let m := (m.setBuf b { m.buf b with holder := some t }).setPhase t .idle
  if (m.buf b).valid then .ok m else m.iderw t b

def modify (m : Bio) (b : Fin NBUF) (x : Block) : Bio :=
  { m.setBuf b { m.buf b with data := x } with unsaved := update m.unsaved b true }

def logWrite (m : Bio) (b : Fin NBUF) : Except BufPanic Bio :=
  match m.log.logWrite (m.buf b).blockno with
  | .error p => .error (.log p)
  | .ok g =>
    .ok { m.setBuf b { m.buf b with dirty := true } with
      log := g, unsaved := update m.unsaved b false }

def bwrite (m : Bio) (t : Nat) (b : Fin NBUF) : Except BufPanic Bio :=
  if (m.buf b).holder ≠ some t then .error .bwrite
  else do
    let m ← (m.setBuf b { m.buf b with dirty := true }).iderw t b
    pure { m with unsaved := update m.unsaved b false }

/-- `brelse` up to `releasesleep`. -/
def releasesleep (m : Bio) (t : Nat) (b : Fin NBUF) : Except BufPanic Bio :=
  if (m.buf b).holder ≠ some t then .error .brelse
  else .ok ((m.setBuf b { m.buf b with holder := none }).setPhase t (.releasing b))

/-- The rest of `brelse`. -/
def unref (m : Bio) (t : Nat) (b : Fin NBUF) : Bio :=
  { m with cache := m.cache.unref b, phase := update m.phase t .idle }

end Bio

inductive Event where
  | bget (t dev blockno : Nat)
  | bread (t dev blockno : Nat) (x : Block)
  | modify (t dev blockno : Nat) (x : Block)
  | logWrite (t : Nat) (b : Fin NBUF)
  | bwrite (t : Nat) (b : Fin NBUF)
  | releasesleep (t : Nat) (b : Fin NBUF)
  | unref (t : Nat) (b : Fin NBUF)
  | trans
  | commit (t dev : Nat) (l : Log.Area) (lh : Log.Header)

namespace Bio

/-- The steps of the threads outside `commit`. A thread that has no buffer of device 0 and saves
what it changes may do anything; `bget` blocks on a buffer that another thread holds. -/
inductive Basic : Bio → Event → Bio → Prop where
  | bget {m m' : Bio} {t dev blockno : Nat} {b : Fin NBUF} :
      m.phase t = .idle → dev ≠ 0 → m.bget t dev blockno = .ok (b, m') →
      Basic m (.bget t dev blockno) m'
  | bread {m m' : Bio} {t dev blockno : Nat} {b : Fin NBUF} :
      m.phase t = .locking b dev blockno → (m.buf b).holder = none → m.bread t b = .ok m' →
      Basic m (.bread t dev blockno (m'.buf b).data) m'
  | modify {m : Bio} {t : Nat} {b : Fin NBUF} (x : Block) :
      m.phase t = .idle → (m.buf b).holder = some t →
      Basic m (.modify t (m.buf b).dev (m.buf b).blockno x) (m.modify b x)
  | logWrite {m m' : Bio} {t : Nat} {b : Fin NBUF} :
      m.phase t = .idle → (m.buf b).holder = some t → m.logWrite b = .ok m' →
      Basic m (.logWrite t b) m'
  | bwrite {m m' : Bio} {t : Nat} {b : Fin NBUF} :
      m.phase t = .idle → m.bwrite t b = .ok m' → Basic m (.bwrite t b) m'
  | releasesleep {m m' : Bio} {t : Nat} {b : Fin NBUF} :
      m.phase t = .idle → m.unsaved b = false → m.releasesleep t b = .ok m' →
      Basic m (.releasesleep t b) m'
  | unref {m : Bio} {t : Nat} {b : Fin NBUF} :
      m.phase t = .releasing b → Basic m (.unref t b) (m.unref t b)
  /-- `begin_op`, `end_op` and the threads in `commit` change the fields of `log`. -/
  | trans {m : Bio} (g : Log.LogSt) : Basic m .trans { m with log := g }

/-! ## commit

A `commit` whose buffers other threads want in between is a sequence of `Basic` steps. `Bio.commit`
is the whole function, when nobody comes between.
-/

/-- `bread` by a thread that finds the sleep lock free. -/
def breadNow (m : Bio) (t dev blockno : Nat) : Option (Fin NBUF × Bio) :=
  match m.bget t dev blockno with
  | .error _ => none
  | .ok (b, m) => if (m.buf b).holder = none then (m.bread t b).toOption.map (b, ·) else none

def brelse (m : Bio) (t : Nat) (b : Fin NBUF) : Option Bio :=
  (m.releasesleep t b).toOption.map (·.unref t b)

/-- `memmove(to->data, from->data, BSIZE); bwrite(to); brelse(from); brelse(to);` -/
def copyBuf (m : Bio) (t : Nat) (dst src : Fin NBUF) : Option Bio := do
  let m ← ((m.modify dst (m.buf src).data).bwrite t dst).toOption
  let m ← m.brelse t src
  m.brelse t dst

def writeLogFrom (l : Log.Area) (t dev : Nat) : Nat → List Nat → Bio → Option Bio
  | _, [], m => some m
  | tail, blk :: blks, m => do
    let (dst, m) ← m.breadNow t dev (l.start + tail + 1)
    let (src, m) ← m.breadNow t dev blk
    let m ← m.copyBuf t dst src
    m.writeLogFrom l t dev (tail + 1) blks

def installTransFrom (l : Log.Area) (t dev : Nat) : Nat → List Nat → Bio → Option Bio
  | _, [], m => some m
  | tail, blk :: blks, m => do
    let (lbuf, m) ← m.breadNow t dev (l.start + tail + 1)
    let (dbuf, m) ← m.breadNow t dev blk
    let m ← m.copyBuf t dbuf lbuf
    m.installTransFrom l t dev (tail + 1) blks

def writeHead (l : Log.Area) (t dev : Nat) (m : Bio) : Option Bio := do
  let (b, m) ← m.breadNow t dev l.start
  let m ← ((m.modify b (Log.setHead (m.buf b).data m.log.lh)).bwrite t b).toOption
  m.brelse t b

/-- `commit` by thread `t` of the log in area `l` of device `dev`; `none` when it panics or has to
wait for a buffer. -/
def commit (l : Log.Area) (t dev : Nat) (m : Bio) : Option Bio :=
  if 0 < m.log.lh.n then do
    let m ← m.writeLogFrom l t dev 0 m.log.lh.blocks
    let m ← m.writeHead l t dev
    let m ← m.installTransFrom l t dev 0 m.log.lh.blocks
    writeHead l t dev { m with log := { m.log with lh := .empty } }
  else some m

/-- All steps: those of `Basic`, and `commit`. -/
inductive Step : Bio → Event → Bio → Prop where
  | basic {m m' : Bio} {e : Event} : Basic m e m' → Step m e m'
  | commit {m m' : Bio} {t dev : Nat} {l : Log.Area} :
      m.phase t = .idle → dev ≠ 0 → m.commit l t dev = some m' →
      Step m (.commit t dev l m.log.lh) m'

/-- After `binit`, with any contents on the disk. -/
def Boot (d : Nat → Nat → Block) (m : Bio) : Prop :=
  m.cache = Bcache.binit ∧ m.disk = d ∧ (∀ t, m.phase t = .idle) ∧ ∀ b, m.unsaved b = false

end Bio
end Xv6.Buf
