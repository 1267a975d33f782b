import Xv6.Fs.Named
import Xv6.Mkfs.ReadBack

/-!
# Xv6.Sys.FileWrite

`filewrite`, which writes a few blocks at a time so that each piece fits a transaction.

`filewrite_names` says that it does: one turn of the loop names at most `MAXOPBLOCKS` blocks.
`filewrite_single_iff` compares the loop with the one `writei` that it stands for. `During` is what
holds of the file between the steps of a turn, `writeChunk_total` the effect of a turn and
`filewriteLoop_total` that of the loop: it stops at the first piece that would take the file past
its largest size, and the pieces before that one stay written.
-/

namespace Xv6.Sys

open Fs Function List Finset
open Log (LogSt)
open Through (ilock_eq iload_eq iunlock_eq getDinode_eq)

/-- `int max = ((MAXOPBLOCKS-1-1-2) / 2) * 512;` -/
def filewriteMax : Nat := (MAXOPBLOCKS - 1 - 1 - 2) / 2 * 512

theorem filewriteMax_eq : filewriteMax = 1536 := rfl

/-- `n1` when `i` of `n` bytes are written. -/
def chunkLen (n : Int) (i : Nat) : Nat := min (n.toNat - i) filewriteMax

section Code

variable (sb : Superblock) (dev : Devsw)

/-- `f->off += r;` -/
def advance (f : Fin NFILE) (r : Int) : M Unit := do
  let s ← get
  set (s.setFile f { s.file f with off := (s.file f).off + UInt32.ofNat r.toNat })

/-- One transaction of the loop, with its `r`; `addr k` is the byte at `addr + k`. -/
def writeChunk (f : Fin NFILE) (ip : Fin NINODE) (addr : Nat → UInt8) (i n1 : Nat) : M Int := do
  beginOp
  ilock sb ip
  let s ← get
  let r ← onFs (writei sb dev · ip (fun k => addr (i + k)) (s.file f).off (.ofNat n1))
  when (0 < r) (advance f r)
  iunlock ip
  endOp
  return r

/-- The loop, with the value of `i` after it. -/
def filewriteLoop (f : Fin NFILE) (ip : Fin NINODE) (addr : Nat → UInt8) (n : Int) (i : Nat) :
    M Nat :=
  if i < n then do
    let r ← writeChunk sb dev f ip addr i (chunkLen n i)
    if r < 0 then return i
    else if r ≠ chunkLen n i then throw .shortFilewrite
    else filewriteLoop f ip addr n (i + chunkLen n i)
  else return i
termination_by n.toNat - i
decreasing_by simp only [chunkLen, filewriteMax_eq]; omega

/-- `pipewrite` is the branch for pipes, of `Xv6.Ipc.Pipe`. -/
def filewrite (pipewrite : Nat → (Nat → UInt8) → Int → M Int) (f : Fin NFILE) (addr : Nat → UInt8)
    (n : Int) : M Int := do
  let s ← get
  if (s.file f).writable = false then return -1
  else
    match (s.file f).type with
    | .pipe p => pipewrite p addr n
    | .inode ip => do
      let i ← filewriteLoop sb dev f ip addr n 0
      return if i = n then n else -1
    | .none => throw .filewrite

end Code

/-! ## One transaction -/

theorem chunkLen_le (n : Int) (i : Nat) : chunkLen n i ≤ 3 * BSIZE := by
  simp only [chunkLen, filewriteMax_eq, BSIZE]
  omega

/-- On an image of `FSSIZE` blocks the calls of `log_write` in one turn of the loop name at most
`MAXOPBLOCKS` blocks: whatever the log `g` holds when the turn gets to `writei`, it is only added
blocks of one set of that size, and a transaction with this many entries reserved is not stopped by
the log. -/
theorem filewrite_names {sb : Superblock} {s : FS} {ip : Fin NINODE} (h : FsOk sb s)
    (hsize : sb.size = Mkfs.FSSIZE) (hip : Locked s ip) (hfile : (s.icache ip).copy.type = T_FILE)
    (dev : Devsw) (addr : Nat → UInt8) (off : UInt32) (n : Int) (i : Nat) :
    ∃ N : Finset Nat, N.card ≤ MAXOPBLOCKS ∧ ∀ g : LogSt,
      Ends (writei sb dev { s with log := g } ip (fun k => addr (i + k)) off
          (.ofNat (chunkLen n i)))
        (fun e => ¬ Reserved g ∧ LogStop e ∨ e = .ballocOutOfBlocks) fun r =>
        ∀ b ∈ r.2.log.lh.blocks, b ∈ g.lh.blocks ∨ b ∈ N := by
  have hlen := chunkLen_le n i
  refine writei_names h hip ?_ ?_ dev _ off ?_
  · rw [hfile]
    decide
  · rw [hsize]
    decide
  · rw [UInt32.toNat_ofNat']
    exact (Nat.mod_le _ _).trans hlen

/-- The file `cat` of the sample image, opened by the only process. -/
def catFs (m : Mkfs.Mk) : FS where
  disk := m.disk
  log := { size := LOGSIZE, outstanding := 1, committing := false, lh := .empty }
  icache := fun ip =>
    if ip = 0 then { inum := 2, ref := 1, valid := true, copy := (volOf Mkfs.sb m.disk).dino 2 }
    else { inum := 0, ref := 0, valid := false, copy := default }

theorem catFs_ref {m : Mkfs.Mk} {ip : Fin NINODE} (h : 0 < ((catFs m).icache ip).ref) : ip = 0 := by
  by_contra hne
  simp [catFs, hne] at h

theorem catFs_ok {b m : Mkfs.Mk} (hmade : Mkfs.Made b m [Mkfs.sample]) :
    FsOk Mkfs.sb (catFs m) := by
  have hcat : Mkfs.FileAt m Mkfs.sample 2 := hmade.file (k := 0) rfl
  refine ⟨hmade.wellFormed Mkfs.fits_sample.inodes (by decide), fun ip hip => ?_,
    fun ip jp hip hjp _ => ?_, fun ip hip _ => ?_⟩
  · rw [catFs_ref hip]
    exact hcat.live.1
  · rw [catFs_ref hip, catFs_ref hjp]
  · rw [catFs_ref hip]
    exact ⟨rfl, hcat.live.2⟩

/-- 2000 bytes for the end of that file: the first turn has 1536 of them. -/
theorem filewrite_names_cat : ∃ m, Mkfs.main [Mkfs.sample] = some m ∧
    ∃ N : Finset Nat, N.card ≤ MAXOPBLOCKS ∧ ∀ g : LogSt,
      Ends (writei Mkfs.sb Fs.Sample.dev { catFs m with log := g } 0 (fun _ => 7) 4
          (.ofNat (chunkLen 2000 0)))
        (fun e => ¬ Reserved g ∧ LogStop e ∨ e = .ballocOutOfBlocks) fun r =>
        ∀ b ∈ r.2.log.lh.blocks, b ∈ g.lh.blocks ∨ b ∈ N := by
  obtain ⟨m, hm⟩ := (Mkfs.main_some_iff Mkfs.fits_sample).mpr (by decide)
  obtain ⟨b, hmade⟩ := Mkfs.Made.of_main Mkfs.fits_sample hm
  have hcat : Mkfs.FileAt m Mkfs.sample 2 := hmade.file (k := 0) rfl
  have hok : FsOk Mkfs.sb (catFs m) := catFs_ok hmade
  have hip : Locked (catFs m) 0 := ⟨Int.zero_lt_one, rfl⟩
  exact ⟨m, hm, filewrite_names hok rfl hip hcat.type _ (fun _ => 7) 4 2000 0⟩

/-! ## The steps of a turn -/

/-- File `f` is open for writing on inode `i`, a regular file of the volume `v`, at the offset `o`,
and nobody else is in a transaction. `op` counts the operations of the log, `held` says whether the
inode is locked and `clean` whether the log must be empty. -/
structure During (sb : Superblock) (f : Fin NFILE) (ip : Fin NINODE) (i : Nat) (v : Vol) (o : Nat)
    (op : Int) (held clean : Bool) (s : St) : Prop where
  ok : FsOk sb s.fs
  vol : volOf sb s.fs.disk = v
  type : (v.dino i).type = T_FILE
  opened : (s.file f).type = .inode ip ∧ (s.file f).writable = true
  off : (s.file f).off.toNat = o
  ref : 0 < (s.fs.icache ip).ref
  inum : (s.fs.icache ip).inum = i
  locked : s.locked ip = held
  valid : held = true → (s.fs.icache ip).valid = true
  outstanding : s.fs.log.outstanding = op
  committing : s.fs.log.committing = false
  logSize : s.fs.log.size = LOGSIZE
  empty : clean = true → s.fs.log.lh.blocks = []

/-- Nothing stops. -/
abbrev Never (_ : Stop) : Prop := False

namespace During

variable {sb : Superblock} {f : Fin NFILE} {ip : Fin NINODE} {i o : Nat} {v : Vol} {op : Int}
  {held clean : Bool} {s : St}

theorem copy (h : During sb f ip i v o op true clean s) :
    Locked s.fs ip ∧ (s.fs.icache ip).copy = v.dino i := by
  have hlocked : Locked s.fs ip := ⟨h.ref, h.valid rfl⟩
  refine ⟨hlocked, ?_⟩
  rw [← h.vol, ← h.inum]
  exact (h.ok.cache.valid ip hlocked.1 hlocked.2).1.symm

theorem not_dev (h : During sb f ip i v o op true clean s) :
    (s.fs.icache ip).copy.type ≠ T_DEV := by
  rw [h.copy.2, h.type]
  decide

theorem beginOp : Triple (During sb f ip i v o 0 false true) beginOp Never
    fun _ => During sb f ip i v o 1 false true := by
  refine .get_bind fun s hs => ?_
  have hempty : s.fs.log.lh.n = 0 := by
    rw [Log.Header.n, hs.empty rfl]
    rfl
  cases hg : s.fs.log.beginOp with
  | none =>
    rw [LogSt.beginOp, hs.committing, if_neg Bool.false_ne_true, hempty, hs.outstanding,
      if_neg (by decide)] at hg
    cases hg
  | some g =>
    obtain ⟨-, -, rfl⟩ := LogSt.beginOp_some hg
    exact { hs with
      ok := hs.ok.withLog _
      outstanding := by
        show s.fs.log.outstanding + 1 = 1
        rw [hs.outstanding]
        rfl }

theorem ilock : Triple (During sb f ip i v o op false clean) (ilock sb ip) Never
    fun _ => During sb f ip i v o op true clean := by
  intro s hs
  have href : ¬ (s.fs.icache ip).ref < 1 := not_lt.mpr hs.ref
  rw [ilock_eq, if_neg href, hs.locked, if_neg Bool.false_ne_true, iload_eq]
  by_cases hv : (s.fs.icache ip).valid = true
  · rw [if_pos hv]
    exact { hs with
      locked := update_self _ _ _
      valid := fun _ => hv }
  · have hdino := getDinode_eq hs.ok hs.ref
    rw [hs.inum, hs.vol] at hdino
    have htype : ¬ (v.dino i).type = 0 := by
      rw [hs.type]
      decide
    rw [if_neg hv]
    dsimp only
    rw [hs.inum, hdino, if_neg htype]
    obtain ⟨x, hx⟩ : ∃ x : Inode, x = ⟨i, (s.fs.icache ip).ref, true, v.dino i⟩ := ⟨_, rfl⟩
    have hself : (s.fs.setInode ip x).icache ip = x := update_self _ _ _
    have hok : FsOk sb (s.fs.setInode ip x) := by
      refine hs.ok.of_locked hs.ref hs.ok.wf (fun jp hj => update_of_ne hj _ _) ?_
        (fun _ _ => rfl) fun _ _ => ?_
      · rw [hself, hx, hs.inum]
      · rw [hself, hx, hs.inum]
        exact ⟨congrArg (fun w => w.dino i) hs.vol, htype⟩
    rw [← hx]
    refine ⟨hok, hs.vol, hs.type, hs.opened, hs.off, ?_, ?_, update_self _ _ _,
      fun _ => ?_, hs.outstanding, hs.committing, hs.logSize, hs.empty⟩
    · show 0 < ((s.fs.setInode ip x).icache ip).ref
      rw [hself, hx]
      exact hs.ref
    · show ((s.fs.setInode ip x).icache ip).inum = i
      rw [hself, hx]
    · show ((s.fs.setInode ip x).icache ip).valid = true
      rw [hself, hx]

theorem iunlock : Triple (During sb f ip i v o op true clean) (iunlock ip) Never
    fun _ => During sb f ip i v o op false clean := by
  intro s hs
  have href : ¬ (s.locked ip = false ∨ (s.fs.icache ip).ref < 1) := by
    rw [hs.locked, not_or]
    exact ⟨Bool.true_eq_false_eq_False, not_lt.mpr hs.ref⟩
  rw [iunlock_eq, if_neg href]
  exact { hs with
    locked := update_self _ _ _
    valid := fun hc => absurd hc Bool.false_ne_true }

theorem endOp : Triple (During sb f ip i v o 1 false clean) endOp Never
    fun _ => During sb f ip i v o 0 false true := by
  refine .get_bind fun s hs => ?_
  have hend : s.fs.log.endOp =
      .ok (true, { s.fs.log with outstanding := 0, committing := true }) := by
    simp only [LogSt.endOp, hs.committing, hs.outstanding]
    rfl
  rw [hend]
  refine { hs with
    ok := hs.ok.withLog _
    outstanding := ?_
    committing := rfl
    logSize := ?_
    empty := fun _ => ?_ }
  · simp [St.setLog, LogSt.endCommit]
  · simp only [St.setLog, if_true, LogSt.endCommit, LogSt.commit]
    split <;> exact hs.logSize
  · simp [St.setLog, LogSt.endCommit]

theorem advance {r : Nat} (hr : o + r < 2 ^ 32) :
    Triple (During sb f ip i v o op held clean) (when (0 < (r : Int)) (advance f r)) Never
      fun _ => During sb f ip i v (o + r) op held clean := by
  refine .ite (fun _ => .get_bind fun s hs => ?_) fun h0 => ?_
  · have hnat : ((s.file f).off + UInt32.ofNat r).toNat = o + r := by
      rw [UInt32.toNat_add, UInt32.toNat_ofNat', hs.off]
      omega
    refine { hs with opened := ?_, off := ?_ }
    · simpa [St.setFile] using hs.opened
    · simpa [St.setFile] using hnat
  · obtain rfl : r = 0 := by omega
    exact .pure fun _ => id

end During

/-- `w` is `v` after `data` has been written to file `i` at `o`, with `x` blocks still free. -/
structure Grown (sb : Superblock) (v w : Vol) (i o : Nat) (data : List UInt8) (x : Nat) : Prop where
  contents : w.contents i = splice (v.contents i) o data
  maps : w.Maps i (Vol.blocksOf (w.dino i).size.toNat)
  ind : v.ind i ≠ 0 → w.ind i ≠ 0
  free : x ≤ Vol.freeCount sb w

section Turn

variable {sb : Superblock} {dev : Devsw} {f : Fin NFILE} {ip : Fin NINODE} {i o : Nat} {v : Vol}
  {src : Nat → UInt8} {off : UInt32} {n x : Nat}

theorem rejected_iff {C : List UInt8} (ho : o ≤ C.length) (hn : o + n < 2 ^ 32) :
    WriteRejected C.length o n ↔ MAXFILE * BSIZE < o + n := by
  simp only [WriteRejected]
  omega

theorem During.writei_refused (hoff : off.toNat = o) (ho : o ≤ (v.contents i).length)
    (hn : o + n < 2 ^ 32) (hmax : MAXFILE * BSIZE < o + n) :
    Triple (During sb f ip i v o 1 true true) (onFs (writei sb dev · ip src off (.ofNat n))) Never
      fun r s => r = -1 ∧ During sb f ip i v o 1 true true s := by
  intro s hs
  obtain ⟨hip, hcopy⟩ := hs.copy
  have hlen : (UInt32.ofNat n).toNat = n :=
    UInt32.toNat_ofNat_of_lt' (show n < 4294967296 by omega)
  have hrej : WriteRejected (s.fs.icache ip).copy.size.toNat off.toNat (UInt32.ofNat n).toNat := by
    rw [hcopy, hoff, hlen, ← contents_length]
    exact (rejected_iff ho hn).mpr hmax
  simp only [onFs, writei_rejected hs.not_dev hrej]
  exact ⟨rfl, hs⟩

theorem During.writei_grows (hsize : sb.size ≤ BPB) (hoff : off.toNat = o)
    (ho : o ≤ (v.contents i).length) (hn : n ≤ 3 * BSIZE) (hmax : o + n ≤ MAXFILE * BSIZE)
    (hfree : v.needed i o n + x ≤ Vol.freeCount sb v) :
    Triple (During sb f ip i v o 1 true true) (onFs (writei sb dev · ip src off (.ofNat n))) Never
      fun r s => r = n ∧ ∃ w, Grown sb v w i o ((List.range n).map src) x ∧
        During sb f ip i w o 1 true false s := by
  intro s hs
  have hmaxNat : MAXFILE * BSIZE = 71680 := rfl
  obtain ⟨hip, hcopy⟩ := hs.copy
  have hlen : (UInt32.ofNat n).toNat = n :=
    UInt32.toNat_ofNat_of_lt' (show n < 4294967296 by omega)
  have hacc : ¬ WriteRejected (s.fs.icache ip).copy.size.toNat off.toNat
      (UInt32.ofNat n).toNat := by
    rw [hcopy, hoff, hlen, ← contents_length, rejected_iff ho (by omega)]
    omega
  rw [writeRejected_iff, not_or] at hacc
  have hreserved : Reserved s.fs.log := by
    refine ⟨hs.outstanding.ge, ?_⟩
    rw [Log.Header.n, hs.empty rfl, LogSt.cap, hs.logSize]
    decide
  have hroom := logRoom_of_reserved ip hsize hreserved o hn
  have hwrite := (writei_leaves x hs.ok hip hs.not_dev hacc.1 hacc.2).and
    (writei_keeps dev src off (.ofNat n))
  rw [hoff, hlen, hs.inum, hs.vol] at hwrite
  obtain ⟨r, hres, ⟨⟨hret, hw⟩, hleaves⟩, hkeeps⟩ := (hwrite.mono (fun e he => by
    rcases he.1 with ⟨hno, -⟩ | ⟨hno, -⟩
    · exact hno hroom
    · exact hno hfree) fun _ => id).total
  have hcont := hw.contents_self hs.ok hip (by rwa [hcopy, ← contents_length]) (by omega)
  have hind := hleaves.ind
  have hleft := hleaves.free hfree
  rw [hs.inum, hs.vol] at hcont hind
  rw [hs.inum] at hleft
  have hlive : (volOf sb r.2.disk).Live sb i ∧ ((volOf sb r.2.disk).dino i).type = T_FILE := by
    obtain ⟨w, hwrote, hvol⟩ := hw.wrote
    rw [hs.inum] at hwrote hvol
    rw [hs.vol] at hwrote
    have hl : v.Live sb i := by
      rw [← hs.vol, ← hs.inum]
      exact hs.ok.live hip
    refine ⟨?_, ?_⟩
    · rw [hvol, Vol.live_setSize, hwrote.live_iff]
      exact hl
    · rw [hvol, Vol.setSize_dino_self, ← hs.type, ← hwrote.dino i]
  simp only [onFs, hres]
  refine ⟨hret, _, ⟨hcont, hw.ok.wf.maps i hlive.1, hind, le_of_add_le_right hleft⟩, hw.ok, rfl,
    hlive.2, hs.opened, hs.off, ?_, ?_, hs.locked, fun _ => ?_, ?_, ?_, ?_, ?_⟩
  · exact (hkeeps.ref ip).symm ▸ hs.ref
  · exact (hkeeps.inum ip).trans hs.inum
  · exact (hkeeps.valid ip).trans (hs.valid rfl)
  · exact hkeeps.outstanding.trans hs.outstanding
  · exact hkeeps.committing.trans hs.committing
  · exact hkeeps.logSize.trans hs.logSize
  · intro hc
    cases hc

theorem writeChunk_refused (dev : Devsw) (addr : Nat → UInt8) (k : Nat)
    (ho : o ≤ (v.contents i).length) (hn : o + n < 2 ^ 32) (hmax : MAXFILE * BSIZE < o + n) :
    Triple (During sb f ip i v o 0 false true) (writeChunk sb dev f ip addr k n) Never
      fun r s => r = -1 ∧ During sb f ip i v o 0 false true s := by
  refine .bind During.beginOp fun _ => .bind During.ilock fun _ => ?_
  refine .get_of fun s hs => ?_
  refine .bind (During.writei_refused hs.off ho hn hmax) fun r => ?_
  refine .of_imp fun hr => ?_
  subst hr
  have hskip : Triple (During sb f ip i v o 1 true true) (when (0 < (-1 : Int)) (advance f (-1)))
      Never fun _ => During sb f ip i v o 1 true true :=
    Triple.ite (fun hc => absurd hc (by decide)) fun _ => .pure fun _ => id
  refine .bind hskip fun _ => ?_
  refine .bind During.iunlock fun _ => .bind During.endOp fun _ => ?_
  exact .pure fun _ h => ⟨rfl, h⟩

theorem writeChunk_grows (dev : Devsw) (addr : Nat → UInt8) (k : Nat) (hsize : sb.size ≤ BPB)
    (ho : o ≤ (v.contents i).length) (hn : n ≤ 3 * BSIZE) (hmax : o + n ≤ MAXFILE * BSIZE)
    (hfree : v.needed i o n + x ≤ Vol.freeCount sb v) :
    Triple (During sb f ip i v o 0 false true) (writeChunk sb dev f ip addr k n) Never
      fun r s => r = n ∧ ∃ w, Grown sb v w i o ((List.range n).map fun j => addr (k + j)) x ∧
        During sb f ip i w (o + n) 0 false true s := by
  have hmaxNat : MAXFILE * BSIZE = 71680 := rfl
  refine .bind During.beginOp fun _ => .bind During.ilock fun _ => ?_
  refine .get_of fun s hs => ?_
  refine .bind (During.writei_grows hsize hs.off ho hn hmax hfree) fun r => ?_
  refine .of_imp fun hr => .of_forall fun w => .of_imp fun hw => ?_
  subst hr
  refine .bind (During.advance (by omega)) fun _ => ?_
  refine .bind During.iunlock fun _ => .bind During.endOp fun _ => ?_
  exact .pure fun _ h => ⟨rfl, w, hw, h⟩

end Turn

theorem splice_splice {C : List UInt8} {o : Nat} (ho : o ≤ C.length) (D E : List UInt8) :
    splice (splice C o D) (o + D.length) E = splice C o (D ++ E) := by
  have hlen : (C.take o ++ D).length = o + D.length := by
    rw [length_append, length_take, Nat.min_eq_left ho]
  simp only [splice, length_append]
  rw [take_append_of_le_length hlen.ge, take_of_length_le hlen.le, ← hlen,
    drop_append, drop_of_length_le (by omega), hlen, drop_drop]
  simp only [append_assoc, nil_append]
  congr 4
  omega

theorem splice_length {C D : List UInt8} {o : Nat} (ho : o ≤ C.length) :
    (splice C o D).length = max C.length (o + D.length) := by
  simp only [splice, length_append, length_take, length_drop]
  omega

/-- Of `m` bytes for the offset `o`, those that the loop writes: all, or the pieces that keep the
file below its largest size. -/
def written (o m : Nat) : Nat :=
  if o + m ≤ MAXFILE * BSIZE then m
  else filewriteMax * ((MAXFILE * BSIZE - o) / filewriteMax)

theorem written_zero {o m : Nat} (ho : o ≤ MAXFILE * BSIZE)
    (h : m = 0 ∨ MAXFILE * BSIZE < o + min m filewriteMax) : written o m = 0 := by
  have hmax : MAXFILE * BSIZE = 71680 := rfl
  simp only [written, hmax, filewriteMax_eq] at *
  split <;> omega

theorem written_next {o m k : Nat} (hk : k = min m filewriteMax)
    (h : o + k ≤ MAXFILE * BSIZE) : written o m = k + written (o + k) (m - k) := by
  have hmax : MAXFILE * BSIZE = 71680 := rfl
  simp only [written, hmax, filewriteMax_eq] at *
  split <;> split <;> omega

theorem needed_mono (v : Vol) (i o : Nat) {k m : Nat} (h : k ≤ m) :
    v.needed i o k ≤ v.needed i o m := by
  have hblocks : Vol.blocksOf (o + k) ≤ Vol.blocksOf (o + m) := Vol.blocksOf_mono (by omega)
  have hlack : v.lack i (Vol.blocksOf (o + k) - 1) ≤ v.lack i (Vol.blocksOf (o + m) - 1) :=
    Vol.lack_mono (by omega)
  simp only [Vol.needed]
  omega

theorem Grown.needed {sb : Superblock} {v w : Vol} {i o k m : Nat} {data : List UInt8}
    (h : Grown sb v w i o data (v.needed i o (k + m) - v.needed i o k))
    (ho : o ≤ (v.contents i).length) (hk : data.length = k) (hpos : 0 < k) :
    w.needed i (o + k) m ≤ Vol.freeCount sb w := by
  have hsize : (w.dino i).size.toNat = max (v.dino i).size.toNat (o + k) := by
    rw [← contents_length, h.contents, splice_length ho, hk, contents_length]
  have hblocks : Vol.blocksOf (w.dino i).size.toNat =
      max (Vol.blocksOf (v.dino i).size.toNat) (Vol.blocksOf (o + k)) := by
    rw [hsize, Vol.blocksOf_max]
  have hmono : Vol.blocksOf (o + k) ≤ Vol.blocksOf (o + k + m) := Vol.blocksOf_mono (by omega)
  have hlast : 0 < Vol.blocksOf (o + k) := by
    simp only [Vol.blocksOf, BSIZE]
    omega
  have hlack : w.lack i (Vol.blocksOf (o + k + m) - 1) + v.lack i (Vol.blocksOf (o + k) - 1) ≤
      v.lack i (Vol.blocksOf (o + k + m) - 1) := by
    refine Vol.lack_add ?_ (by omega)
    rintro (hd | hne)
    · exact h.maps.ind_ne (by omega) hd
    · exact h.ind hne
  have hleft := h.free
  simp only [Vol.needed, hblocks, ← Nat.add_assoc] at hleft ⊢
  omega

theorem bind_of_ok {α β : Type} {m : M α} {g : α → M β} {s s' : St} {a : α}
    (h : m s = .ok (a, s')) : (m >>= g) s = g a s' := by
  show (m s >>= fun r => g r.1 r.2) = _
  rw [h]
  rfl

theorem filewriteLoop_total {sb : Superblock} (dev : Devsw) {f : Fin NFILE} {ip : Fin NINODE}
    {i : Nat} (addr : Nat → UInt8) {n : Int} (hsize : sb.size ≤ BPB) (hn : n < 2 ^ 31) {s : St}
    {v : Vol} {o k : Nat} (hs : During sb f ip i v o 0 false true s)
    (ho : o ≤ (v.contents i).length) (hle : (v.contents i).length ≤ MAXFILE * BSIZE)
    (hfree : v.needed i o (min (n.toNat - k) (MAXFILE * BSIZE - o)) ≤ Vol.freeCount sb v) :
    ∃ s' w, filewriteLoop sb dev f ip addr n k s = .ok (k + written o (n.toNat - k), s') ∧
      During sb f ip i w (o + written o (n.toNat - k)) 0 false true s' ∧
      w.contents i = splice (v.contents i) o
        ((List.range (written o (n.toNat - k))).map fun j => addr (k + j)) := by
  have hmaxNat : MAXFILE * BSIZE = 71680 := rfl
  -- by the number of bytes left
  induction hleft : n.toNat - k using Nat.strong_induction_on generalizing k o v s with
  | _ left ih =>
  have hnone : ∀ C : List UInt8, splice C o [] = C := by
    intro C
    simp [splice]
  rw [filewriteLoop]
  by_cases hlt : (k : Int) < n
  · rw [if_pos hlt]
    generalize hc : chunkLen n k = c
    have hcmin : c = min left filewriteMax := by rw [← hc, chunkLen, hleft]
    have hpos : 0 < c := by rw [filewriteMax_eq] at hcmin; omega
    by_cases hmax : o + c ≤ MAXFILE * BSIZE
    · have hsplit : min left (MAXFILE * BSIZE - o) =
          c + min (left - c) (MAXFILE * BSIZE - (o + c)) := by omega
      rw [hleft, hsplit] at hfree
      have hmono := needed_mono v i o (Nat.le_add_right c (min (left - c) (MAXFILE * BSIZE -
        (o + c))))
      obtain ⟨⟨r, s1⟩, hrun, rfl, w, hw, hs1⟩ := (writeChunk_grows dev addr k hsize ho
        (hc ▸ chunkLen_le n k) hmax ((Nat.add_sub_cancel' hmono).le.trans hfree) s hs).total
      have hdata : ((List.range c).map fun j => addr (k + j)).length = c := by simp
      have hlen : (w.contents i).length = max (v.contents i).length (o + c) := by
        rw [hw.contents, splice_length ho, hdata]
      have hk : n.toNat - (k + c) = left - c := by omega
      obtain ⟨s', w', hrest, hs', hcont⟩ := ih (left - c) (by omega) hs1 (by omega) (by omega)
        (by rw [hk]; exact hw.needed ho hdata hpos) hk
      have hnext := written_next (o := o) (m := left) hcmin hmax
      refine ⟨s', w', ?_, ?_, ?_⟩
      · rw [bind_of_ok hrun, if_neg (by omega), if_neg (by simp), hrest, hnext, Nat.add_assoc]
      · rw [hnext, ← Nat.add_assoc]
        exact hs'
      · have hsplice := splice_splice ho ((List.range c).map fun j => addr (k + j))
          ((List.range (written (o + c) (left - c))).map fun j => addr (k + c + j))
        rw [hdata] at hsplice
        rw [hcont, hw.contents, hsplice, hnext, List.range_add, map_append, List.map_map]
        simp only [Function.comp_def, Nat.add_assoc]
    · have hz : written o left = 0 := written_zero (by omega) (.inr (by omega))
      obtain ⟨⟨r, s1⟩, hrun, rfl, hs1⟩ := (writeChunk_refused dev addr k (n := c) ho (by omega)
        (by omega) s hs).total
      refine ⟨s1, v, ?_, ?_, ?_⟩
      · rw [bind_of_ok hrun, hz]
        rfl
      · rw [hz]
        exact hs1
      · rw [hz]
        exact (hnone _).symm
  · have hz : written o left = 0 := written_zero (by omega) (.inl (by omega))
    rw [if_neg hlt, hz]
    exact ⟨s, v, rfl, hs, (hnone _).symm⟩

instance (size off n : Nat) : Decidable (WriteRejected size off n) :=
  inferInstanceAs (Decidable (_ ∨ _ ∨ _))

/-- The result, the contents and the offset after one `writei` of `data` at `o`, when the offset is
advanced by a result that is not negative. -/
def oneWrite (C : List UInt8) (o : Nat) (data : List UInt8) : Int × List UInt8 × Nat :=
  if WriteRejected C.length o data.length then (-1, C, o)
  else (data.length, splice C o data, o + data.length)

section Single

variable {sb : Superblock} {f : Fin NFILE} {ip : Fin NINODE} {i o : Nat} {v : Vol} {s : St}
  {n : Int}

theorem During.contents_le {op : Int} {held clean : Bool}
    (hs : During sb f ip i v o op held clean s) : (v.contents i).length ≤ MAXFILE * BSIZE := by
  have hlt := hs.ok.cache.inum_lt ip hs.ref
  refine Sys.contents_le (hs.vol ▸ hs.ok.wf) ⟨hs.inum ▸ hlt, ?_⟩
  rw [hs.type]
  decide

theorem During.writei_single (dev : Devsw) (addr : Nat → UInt8)
    (hs : During sb f ip i v o 1 true true s) (ho : o ≤ (v.contents i).length) (hn : n < 2 ^ 31)
    (hfree : v.needed i o (min n.toNat (MAXFILE * BSIZE - o)) ≤ Vol.freeCount sb v)
    (hroom : LogRoom sb s.fs ip o n.toNat) :
    ∃ r fs, writei sb dev s.fs ip addr (s.file f).off (.ofNat n.toNat) = .ok (r, fs) ∧
      (r, (volOf sb fs.disk).contents i, o + r.toNat) =
        oneWrite (v.contents i) o ((List.range n.toNat).map addr) := by
  have hle := hs.contents_le
  have hmaxNat : MAXFILE * BSIZE = 71680 := rfl
  obtain ⟨hip, hcopy⟩ := hs.copy
  have hlen : (UInt32.ofNat n.toNat).toNat = n.toNat :=
    UInt32.toNat_ofNat_of_lt' (show n.toNat < 4294967296 by omega)
  obtain ⟨hrejects, hwrites, -⟩ := contents_refine dev hs.ok hip hs.not_dev
  have hrej := hrejects addr (s.file f).off (.ofNat n.toNat)
  have hacc := hwrites addr (s.file f).off (.ofNat n.toNat)
  rw [hcopy, hs.off, hlen, ← contents_length] at hrej hacc
  rw [hs.inum, hs.vol] at hacc
  rw [oneWrite, length_map, length_range]
  by_cases hr : WriteRejected (v.contents i).length o n.toNat
  · rw [if_pos hr]
    refine ⟨-1, s.fs, hrej hr, ?_⟩
    rw [hs.vol]
    rfl
  · rw [if_neg hr]
    have hmin : min n.toNat (MAXFILE * BSIZE - o) = n.toNat := by
      rw [rejected_iff ho (by omega)] at hr
      omega
    have henough : EnoughFree sb s.fs ip o n.toNat := by
      rw [hs.ok.enoughFree_iff hip, hs.inum, hs.vol, ← hmin]
      exact hfree
    obtain ⟨⟨r, fs⟩, hrun, hret, -, hcont, -⟩ := ((hacc hr).mono (fun e he => by
      rcases he with ⟨hno, -⟩ | ⟨hno, -⟩
      · exact hno hroom
      · exact hno henough) fun _ => id).total
    refine ⟨r, fs, hrun, ?_⟩
    rw [hcont, show r = (n.toNat : Int) from hret]
    rfl

theorem filewrite_total (dev : Devsw) (pipewrite : Nat → (Nat → UInt8) → Int → M Int)
    (addr : Nat → UInt8) (hs : During sb f ip i v o 0 false true s) (hsize : sb.size ≤ BPB)
    (ho : o ≤ (v.contents i).length) (hn0 : 0 ≤ n) (hn : n < 2 ^ 31)
    (hfree : v.needed i o (min n.toNat (MAXFILE * BSIZE - o)) ≤ Vol.freeCount sb v) :
    ∃ s', filewrite sb dev pipewrite f addr n s =
        .ok (if written o n.toNat = n.toNat then n else -1, s') ∧
      (volOf sb s'.fs.disk).contents i =
        splice (v.contents i) o ((List.range (written o n.toNat)).map addr) ∧
      (s'.file f).off.toNat = o + written o n.toNat := by
  obtain ⟨s', w, hrun, hs', hcont⟩ := filewriteLoop_total dev addr (k := 0) hsize
    hn hs ho hs.contents_le hfree
  simp only [Nat.sub_zero, Nat.zero_add] at hrun hs' hcont
  refine ⟨s', ?_, ?_, hs'.off⟩
  · show (ite ((s.file f).writable = false) (pure (-1)) _ : M Int) s = _
    rw [if_neg (by rw [hs.opened.2]; exact Bool.true_eq_false_eq_False), hs.opened.1]
    refine (bind_of_ok hrun).trans ?_
    have hiff : ((written o n.toNat : Nat) : Int) = n ↔ written o n.toNat = n.toNat := by omega
    simp only [hiff]
    rfl
  · rw [hs'.vol]
    exact hcont

/-- `filewrite` agrees with the one `writei` it stands for if the bytes all fit into the largest
file, or not even the first piece of them does. Otherwise it returns -1 like `writei`, but has
written the pieces that fit and advanced the offset. -/
theorem filewrite_single_iff (dev : Devsw) (pipewrite : Nat → (Nat → UInt8) → Int → M Int)
    (addr : Nat → UInt8) (hs : During sb f ip i v o 0 false true s) (hsize : sb.size ≤ Mkfs.FSSIZE)
    (ho : o ≤ (v.contents i).length) (hn0 : 0 ≤ n) (hn : n < 2 ^ 31)
    (hfree : v.needed i o (min n.toNat (MAXFILE * BSIZE - o)) ≤ Vol.freeCount sb v) :
    (∀ t : St, During sb f ip i v o 1 true true t → LogRoom sb t.fs ip o n.toNat →
      ∃ r fs, writei sb dev t.fs ip addr (t.file f).off (.ofNat n.toNat) = .ok (r, fs) ∧
        (r, (volOf sb fs.disk).contents i, o + r.toNat) =
          oneWrite (v.contents i) o ((List.range n.toNat).map addr)) ∧
    ∃ r s', filewrite sb dev pipewrite f addr n s = .ok (r, s') ∧
      ((r, (volOf sb s'.fs.disk).contents i, (s'.file f).off.toNat) =
          oneWrite (v.contents i) o ((List.range n.toNat).map addr) ↔
        o + n.toNat ≤ MAXFILE * BSIZE ∨ MAXFILE * BSIZE < o + min n.toNat filewriteMax) := by
  have hmaxNat : MAXFILE * BSIZE = 71680 := rfl
  have hle := hs.contents_le
  have hbpb : Mkfs.FSSIZE ≤ BPB := by decide
  refine ⟨fun t ht hroom => ht.writei_single dev addr ho hn hfree hroom, ?_⟩
  obtain ⟨s', hrun, hcont, hoff⟩ := filewrite_total dev pipewrite addr hs (hsize.trans hbpb) ho hn0
    hn hfree
  refine ⟨_, s', hrun, ?_⟩
  rw [hcont, hoff, oneWrite, length_map, length_range,
    if_congr (rejected_iff ho (by omega)) rfl rfl]
  by_cases hfit : o + n.toNat ≤ MAXFILE * BSIZE
  · have hall : written o n.toNat = n.toNat := if_pos hfit
    rw [hall, if_pos rfl, if_neg (by omega)]
    refine iff_of_true ?_ (.inl hfit)
    rw [Int.toNat_of_nonneg hn0]
  · have hpart : written o n.toNat ≠ n.toNat := by
      simp only [written, if_neg hfit, filewriteMax_eq]
      omega
    rw [if_neg hpart, if_pos (by omega)]
    simp only [Prod.mk.injEq, true_and, hfit, false_or]
    constructor
    · rintro ⟨-, h0⟩
      have hz : written o n.toNat = 0 := by omega
      simp only [written, if_neg hfit, filewriteMax_eq] at hz ⊢
      omega
    · intro hfirst
      have hz : written o n.toNat = 0 := written_zero (by omega) (.inr hfirst)
      rw [hz]
      exact ⟨by simp [splice], rfl⟩

end Single

/-- The process with that file open at its end, between transactions. -/
def catSt (m : Mkfs.Mk) : St where
  fs := { catFs m with log := { (catFs m).log with outstanding := 0 } }
  locked := fun _ => false
  file := fun _ => ⟨.inode 0, 1, true, true, 4⟩
  pipe := fun _ => none
  proc := fun _ => ⟨.unused, fun _ => none, none⟩

/-- Pipes play no part. -/
def noPipe : Nat → (Nat → UInt8) → Int → M Int := fun _ _ _ => return -1

theorem catSt_during : ∃ m v, Mkfs.main [Mkfs.sample] = some m ∧
    During Mkfs.sb 0 0 2 v 4 0 false true (catSt m) ∧ v.contents 2 = Mkfs.sample.bytes ∧
    ∀ k ≤ MAXFILE * BSIZE - 4, v.needed 2 4 k ≤ Vol.freeCount Mkfs.sb v := by
  obtain ⟨m, hm⟩ := (Mkfs.main_some_iff Mkfs.fits_sample).mpr (by decide)
  obtain ⟨b, hmade⟩ := Mkfs.Made.of_main Mkfs.fits_sample hm
  have hcat : Mkfs.FileAt m Mkfs.sample 2 := hmade.file (k := 0) rfl
  refine ⟨m, _, hm, ⟨(catFs_ok hmade).withLog _, rfl, hcat.type, ⟨rfl, rfl⟩, rfl,
    Int.zero_lt_one, rfl, rfl, fun _ => rfl, rfl, rfl, rfl, fun _ => rfl⟩, hcat.contents, ?_⟩
  intro k hk
  have hmaxNat : MAXFILE * BSIZE = 71680 := rfl
  have hneed : (volOf Mkfs.sb m.disk).needed 2 4 k ≤ MAXFILE + 1 := by
    have hblocks : Vol.blocksOf (4 + k) ≤ MAXFILE := Vol.blocksOf_le_maxfile (by omega)
    have hlack : (volOf Mkfs.sb m.disk).lack 2 (Vol.blocksOf (4 + k) - 1) ≤ 1 := by
      rw [Vol.lack]
      split <;> decide
    rw [Vol.needed]
    omega
  have hused : m.freeblock ≤ 100 := by
    rw [hmade.free, hmade.counted.taken]
    decide
  have hfree : Finset.Ico 100 Mkfs.FSSIZE ⊆
      (Finset.range Mkfs.sb.size).filter fun b => (volOf Mkfs.sb m.disk).bit b = false := by
    intro b hb
    rw [mem_Ico] at hb
    rw [Finset.mem_filter, Finset.mem_range, ← Bool.not_eq_true, hmade.bits hb.2]
    exact ⟨hb.2, by omega⟩
  have hcard := card_le_card hfree
  rw [Nat.card_Ico] at hcard
  have hmaxfile : MAXFILE + 1 ≤ Mkfs.FSSIZE - 100 := by decide
  exact hneed.trans (hmaxfile.trans hcard)

theorem filewrite_single_cat : ∃ (m : Mkfs.Mk) (v : Vol), Mkfs.main [Mkfs.sample] = some m ∧
    v.contents 2 = Mkfs.sample.bytes ∧
    ∃ r s', filewrite Mkfs.sb Fs.Sample.dev noPipe 0 (fun _ => 7) 3000 (catSt m) = .ok (r, s') ∧
      ((r, (volOf Mkfs.sb s'.fs.disk).contents 2, (s'.file 0).off.toNat) =
          oneWrite (v.contents 2) 4 ((List.range 3000).map fun _ => 7) ↔
        4 + 3000 ≤ MAXFILE * BSIZE ∨ MAXFILE * BSIZE < 4 + min 3000 filewriteMax) := by
  obtain ⟨m, v, hm, hs, hcont, hfree⟩ := catSt_during
  refine ⟨m, v, hm, hcont, ?_⟩
  exact (filewrite_single_iff Fs.Sample.dev noPipe (fun _ => 7) hs le_rfl
    (by rw [hcont]; decide) (by decide) (by decide) (hfree _ (Nat.min_le_right _ _))).2

/-- 80000 bytes at the offset 4: `filewrite` returns -1, has made the file 70660 bytes long and
moved the offset there. One `writei` on the locked inode returns -1 and changes nothing. -/
theorem filewrite_keeps_pieces : ∃ m v, Mkfs.main [Mkfs.sample] = some m ∧
    During Mkfs.sb 0 0 2 v 4 0 false true (catSt m) ∧ v.contents 2 = Mkfs.sample.bytes ∧
    v.needed 2 4 (min 80000 (MAXFILE * BSIZE - 4)) ≤ Vol.freeCount Mkfs.sb v ∧
    (∃ s', filewrite Mkfs.sb Fs.Sample.dev noPipe 0 (fun _ => 7) 80000 (catSt m) = .ok (-1, s') ∧
      ((volOf Mkfs.sb s'.fs.disk).contents 2).length = 70660 ∧ (s'.file 0).off.toNat = 70660) ∧
    ∃ t, (do beginOp; ilock Mkfs.sb 0) (catSt m) = .ok ((), t) ∧
      writei Mkfs.sb Fs.Sample.dev t.fs 0 (fun _ => 7) 4 80000 = .ok (-1, t.fs) := by
  obtain ⟨m, v, hm, hs, hcont, hfree⟩ := catSt_during
  have hlen : (v.contents 2).length = 4 := by
    rw [hcont]
    decide
  have hfree' := hfree (min 80000 (MAXFILE * BSIZE - 4)) (Nat.min_le_right _ _)
  refine ⟨m, v, hm, hs, hcont, hfree', ?_, ?_⟩
  · obtain ⟨s', hrun, hcont', hoff⟩ := filewrite_total (n := 80000) Fs.Sample.dev noPipe
      (fun _ => 7) hs (by decide) hlen.ge (by decide) (by decide) hfree'
    have hw : written 4 (Int.toNat 80000) = 70656 := by decide
    rw [hw] at hrun hcont' hoff
    refine ⟨s', hrun, ?_, hoff⟩
    rw [hcont', splice_length hlen.ge, length_map, length_range, hlen]
    decide
  · obtain ⟨⟨_, t⟩, hrun, ht⟩ := (During.beginOp.bind (fun _ => During.ilock) (catSt m) hs).total
    refine ⟨t, hrun, writei_rejected ht.not_dev ?_⟩
    rw [ht.copy.2, ← contents_length, hlen]
    decide

end Xv6.Sys
