import Xv6.Block
import Xv6.Lib.Crash

/-!
# Xv6.Log.Commit

The writing half of `log.c`: `write_log`, `write_head`, `install_trans`, `commit`, and what runs at
boot, `read_head` and `recover_from_log`.

These functions act on a device `Dev`: the platter, the buffers holding a valid copy of a block, and
the disk writes issued so far, oldest first. `bread` answers from the buffer when there is one;
`bwrite` changes buffer and platter and is one disk write. A machine that starts (`boot`) has the
platter only.

The header block is kept as the source keeps it: word 0 is `n`, word `i + 1` is `block[i]`, and
`write_head` leaves every other word of the block as it was read.
-/

namespace Xv6.Log

open Bytes Function

structure Dev where
  disk : Nat → Block
  cache : Nat → Option Block
  writes : List (Nat × Block)

namespace Dev

def bread (m : Dev) (b : Nat) : Block × Dev :=
  match m.cache b with
  | some v => (v, m)
  | none => (m.disk b, { m with cache := update m.cache b (some (m.disk b)) })

def bwrite (m : Dev) (b : Nat) (v : Block) : Dev where
  disk := update m.disk b v
  cache := update m.cache b (some v)
  writes := m.writes ++ [(b, v)]

/-- The contents `bread` returns for block `b`. -/
def view (m : Dev) (b : Nat) : Block := (m.cache b).getD (m.disk b)

/-- The machine just after power-on: nothing is buffered. -/
def boot (d : Nat → Block) : Dev where
  disk := d
  cache := fun _ => none
  writes := []

@[simp] theorem bread_fst (m : Dev) (b : Nat) : (m.bread b).1 = m.view b := by
  simp only [bread, view]
  cases m.cache b <;> rfl

@[simp] theorem bread_writes (m : Dev) (b : Nat) : (m.bread b).2.writes = m.writes := by
  simp only [bread]
  cases m.cache b <;> rfl

@[simp] theorem bread_disk (m : Dev) (b : Nat) : (m.bread b).2.disk = m.disk := by
  simp only [bread]
  cases m.cache b <;> rfl

@[simp] theorem bread_view (m : Dev) (b : Nat) : (m.bread b).2.view = m.view := by
  funext x
  simp only [bread]
  cases h : m.cache b with
  | some v => rfl
  | none =>
    by_cases hx : x = b
    · subst hx; simp [view, h]
    · simp [view, update_of_ne hx]

@[simp] theorem bwrite_writes (m : Dev) (b : Nat) (v : Block) :
    (m.bwrite b v).writes = m.writes ++ [(b, v)] := rfl

@[simp] theorem bwrite_disk (m : Dev) (b : Nat) (v : Block) :
    (m.bwrite b v).disk = update m.disk b v := rfl

@[simp] theorem bwrite_view (m : Dev) (b : Nat) (v : Block) :
    (m.bwrite b v).view = update m.view b v := by
  funext x
  by_cases hx : x = b
  · subst hx; simp [view, bwrite]
  · simp [view, bwrite, update_of_ne hx]

@[simp] theorem boot_view (d : Nat → Block) : (boot d).view = d := rfl

@[simp] theorem boot_writes (d : Nat → Block) : (boot d).writes = [] := rfl

@[simp] theorem boot_disk (d : Nat → Block) : (boot d).disk = d := rfl

end Dev

/-- `log.start` and `log.size`, as `initlog` takes them from the superblock. -/
structure Area where
  start : Nat
  size : Nat
  fits : start + size < 2 ^ 31

/-- The blocks of the log: the header block and the log blocks. -/
def Area.region (l : Area) : Set Nat := { b | l.start ≤ b ∧ b < l.start + l.size }

/-- `struct logheader`: `block[0..n)`, inside an array of `LOGSIZE` entries. -/
structure Header where
  blocks : List Nat
  len_le : blocks.length ≤ LOGSIZE

namespace Header

def n (lh : Header) : Nat := lh.blocks.length

/-- The header after `log.lh.n = 0`. -/
def empty : Header := ⟨[], Nat.zero_le _⟩

end Header

/-- `for (i = 0; i < log.lh.n; i++) hb->block[i] = log.lh.block[i];` -/
def setBlocks : Nat → List Nat → Block → Block
  | _, [], hb => hb
  | i, b :: bs, hb => setBlocks (i + 1) bs (hb.setWord (i + 1) (UInt32.ofNat b))

def setHead (hb : Block) (lh : Header) : Block :=
  setBlocks 0 lh.blocks (hb.setWord 0 (UInt32.ofNat lh.n))

/-- `lh->n` of a header block. -/
def headN (hb : Block) : Int := int32 (hb.word 0)

/-- The header `read_head` copies out of a header block; it writes past `log.lh.block` when the
block says more than `LOGSIZE`. -/
def getHead (hb : Block) : Option Header :=
  if h : (headN hb).toNat ≤ LOGSIZE then
    some ⟨(List.range (headN hb).toNat).map fun i => (hb.word (i + 1)).toNat, by simpa using h⟩
  else none

def writeHead (l : Area) (lh : Header) (m : Dev) : Dev :=
  let (hb, m) := m.bread l.start
  m.bwrite l.start (setHead hb lh)

def readHead (l : Area) (m : Dev) : Option (Header × Dev) :=
  let (hb, m) := m.bread l.start
  (getHead hb).map fun lh => (lh, m)

def writeLogFrom (l : Area) : Nat → List Nat → Dev → Dev
  | _, [], m => m
  | tail, b :: bs, m =>
    let (_, m) := m.bread (l.start + tail + 1)
    let (data, m) := m.bread b
    writeLogFrom l (tail + 1) bs (m.bwrite (l.start + tail + 1) data)

def writeLog (l : Area) (lh : Header) (m : Dev) : Dev := writeLogFrom l 0 lh.blocks m

def installTransFrom (l : Area) : Nat → List Nat → Dev → Dev
  | _, [], m => m
  | tail, b :: bs, m =>
    let (data, m) := m.bread (l.start + tail + 1)
    let (_, m) := m.bread b
    installTransFrom l (tail + 1) bs (m.bwrite b data)

def installTrans (l : Area) (lh : Header) (m : Dev) : Dev := installTransFrom l 0 lh.blocks m

def commit (l : Area) (lh : Header) (m : Dev) : Dev :=
  if 0 < lh.n then
    writeHead l .empty (installTrans l lh (writeHead l lh (writeLog l lh m)))
  else m

def recoverFromLog (l : Area) (m : Dev) : Option Dev :=
  (readHead l m).map fun (lh, m) => writeHead l .empty (installTrans l lh m)

/-- The disk writes of one run of `recover_from_log` after power-on. -/
def recoverWrites (l : Area) (d : Nat → Block) : Option (List (Nat × Block)) :=
  (recoverFromLog l (.boot d)).map (·.writes)

theorem setBlocks_word_below : ∀ {bs : List Nat} {i j : Nat} {hb : Block},
    4 * (i + bs.length) + 4 ≤ BSIZE → j ≤ i → (setBlocks i bs hb).word j = hb.word j := by
  intro bs
  induction bs with
  | nil => intro i j hb _ _; rfl
  | cons b bs ih =>
    intro i j hb h hj
    simp only [List.length_cons] at h
    rw [setBlocks, ih (by omega) (by omega), Block.word_setWord_other (by omega) (by omega)]

theorem setBlocks_word : ∀ {bs : List Nat} {i k b : Nat} {hb : Block},
    4 * (i + bs.length) + 4 ≤ BSIZE → bs[k]? = some b →
      (setBlocks i bs hb).word (i + k + 1) = UInt32.ofNat b := by
  intro bs
  induction bs with
  | nil => intro i k b hb _ h; simp at h
  | cons a bs ih =>
    intro i k b hb h hk
    simp only [List.length_cons] at h
    rw [setBlocks]
    cases k with
    | zero =>
      simp only [List.getElem?_cons_zero, Option.some.injEq] at hk
      subst hk
      rw [Nat.add_zero, setBlocks_word_below (by omega) (Nat.le_refl _),
        Block.word_setWord_same (by omega)]
    | succ k =>
      rw [List.getElem?_cons_succ] at hk
      rw [show i + (k + 1) + 1 = i + 1 + k + 1 by omega]
      exact ih (by omega) hk

theorem headN_setHead (hb : Block) (lh : Header) : headN (setHead hb lh) = lh.n := by
  have hl := lh.len_le
  simp only [LOGSIZE, MAXOPBLOCKS] at hl
  rw [headN, setHead, setBlocks_word_below (by simp only [BSIZE]; omega) (Nat.le_refl _),
    Block.word_setWord_same (by simp only [BSIZE]; omega), int32_ofNat]
  simp only [Header.n]
  omega

theorem getHead_setHead (hb : Block) {lh : Header} (hlt : ∀ b ∈ lh.blocks, b < 2 ^ 32) :
    getHead (setHead hb lh) = some lh := by
  have hn := headN_setHead hb lh
  have hl := lh.len_le
  have htn : (headN (setHead hb lh)).toNat = lh.blocks.length := by rw [hn]; rfl
  simp only [getHead, htn, dif_pos hl]
  congr 2
  apply List.ext_getElem
  · simp
  · intro i h1 h2
    simp only [LOGSIZE, MAXOPBLOCKS] at hl
    have hw : (setHead hb lh).word (i + 1) = UInt32.ofNat lh.blocks[i] := by
      have := @setBlocks_word lh.blocks 0 i _ (hb.setWord 0 (UInt32.ofNat lh.n))
        (by simp only [BSIZE]; omega) (List.getElem?_eq_getElem h2)
      simpa [setHead] using this
    have hb' := hlt _ (List.getElem_mem h2)
    rw [List.getElem_map, List.getElem_range, hw, UInt32.toNat_ofNat']
    omega

theorem getHead_of_zero {hb : Block} (h : headN hb = 0) : getHead hb = some .empty := by
  simp [getHead, h, Header.empty]

end Xv6.Log
