import Xv6.Block
import Mathlib.Data.Nat.Bitwise

/-!
# Xv6.Fs.Format

The on-disk format of `fs.h`: where the inode blocks, the free bit map and the data blocks are, how
a `struct dinode` lies in its 64 bytes, and how a bit of the free map is tested and changed.

The last section reads a disk as a volume (`Vol`): one free-map bit for each block of the file
system, one inode for each inode number, the contents of each data block. A block write by the file
system changes one component of the volume at one place (`volOf_setBit`, `volOf_setDinode`,
`volOf_data`), because the layout keeps the three areas apart.
-/

namespace Xv6.Fs

open Bytes Function

variable {b bi bj : Nat}

abbrev NDIRECT : Nat := 12
abbrev NINDIRECT : Nat := BSIZE / 4
abbrev MAXFILE : Nat := NDIRECT + NINDIRECT
abbrev IPB : Nat := BSIZE / 64
abbrev BPB : Nat := BSIZE * 8

/-- `struct superblock`, with the order of the areas:
`[ boot block | super block | log | inode blocks | free bit map | data blocks ]`. -/
structure Superblock where
  size : Nat
  nblocks : Nat
  ninodes : Nat
  nlog : Nat
  logstart : Nat
  inodestart : Nat
  bmapstart : Nat
  log_ge : 2 ≤ logstart
  inode_ge : logstart + nlog ≤ inodestart
  bmap_gt : inodestart + ninodes / IPB < bmapstart
  data_gt : bmapstart + size / BPB < size - nblocks
  size_lt : size < 2 ^ 31
  ninodes_lt : ninodes < 2 ^ 31

namespace Superblock

/-- The first data block: the data blocks are the last `nblocks` of the image. -/
def dataStart (sb : Superblock) : Nat := sb.size - sb.nblocks

def iblock (sb : Superblock) (i : Nat) : Nat := i / IPB + sb.inodestart

def bblock (sb : Superblock) (b : Nat) : Nat := b / BPB + sb.bmapstart

theorem iblock_lt (sb : Superblock) {i : Nat} (h : i < sb.ninodes) :
    sb.iblock i < sb.bmapstart := by
  have := sb.bmap_gt
  have : i / IPB ≤ sb.ninodes / IPB := Nat.div_le_div_right (by omega)
  simp only [iblock]
  omega

theorem le_bblock (sb : Superblock) (b : Nat) : sb.bmapstart ≤ sb.bblock b :=
  Nat.le_add_left _ _

theorem bblock_lt (sb : Superblock) (h : b < sb.size) : sb.bblock b < sb.dataStart := by
  have := sb.data_gt
  have : b / BPB ≤ sb.size / BPB := Nat.div_le_div_right (by omega)
  simp only [bblock, dataStart]
  omega

theorem bmapstart_lt (sb : Superblock) : sb.bmapstart < sb.dataStart :=
  Nat.lt_of_le_of_lt (Nat.le_add_right _ _) sb.data_gt

theorem dataStart_pos (sb : Superblock) : 0 < sb.dataStart := by
  have := sb.bmapstart_lt
  omega

end Superblock

structure Dinode where
  type : Int16
  major : Int16
  minor : Int16
  nlink : Int16
  size : UInt32
  addrs : Fin (NDIRECT + 1) → UInt32

/-- A dinode after `memset(dip, 0, sizeof(*dip)); dip->type = type`. -/
def Dinode.fresh (type : Int16) : Dinode := ⟨type, 0, 0, 0, 0, fun _ => 0⟩

instance : Inhabited Dinode := ⟨.fresh 0⟩

def Dinode.bytes (d : Dinode) (k : Nat) : UInt8 :=
  if k < 2 then byteOf d.type.toUInt16.toNat k
  else if k < 4 then byteOf d.major.toUInt16.toNat (k - 2)
  else if k < 6 then byteOf d.minor.toUInt16.toNat (k - 4)
  else if k < 8 then byteOf d.nlink.toUInt16.toNat (k - 6)
  else if k < 12 then byteOf d.size.toNat (k - 8)
  else if h : (k - 12) / 4 < NDIRECT + 1 then byteOf (d.addrs ⟨(k - 12) / 4, h⟩).toNat
    ((k - 12) % 4)
  else 0

/-- `*((struct dinode*)bp->data + k)`. -/
def getDinode (b : Block) (k : Nat) : Dinode where
  type := (rd16 b.byte (64 * k)).toInt16
  major := (rd16 b.byte (64 * k + 2)).toInt16
  minor := (rd16 b.byte (64 * k + 4)).toInt16
  nlink := (rd16 b.byte (64 * k + 6)).toInt16
  size := rd32 b.byte (64 * k + 8)
  addrs := fun i => rd32 b.byte (64 * k + 12 + 4 * i.val)

def setDinode (b : Block) (k : Nat) (d : Dinode) : Block := b.patch (64 * k) 64 d.bytes

theorem getDinode_zero_type (k : Nat) : (getDinode Block.zero k).type = 0 := by
  have hzero : Bytes.rd16 Block.zero.byte (64 * k) = 0 := by
    refine Bytes.rd16_of_bytes fun j _ => ?_
    simp [Bytes.byteOf]
  rw [getDinode, hzero]
  rfl

theorem getDinode_setDinode_same {b : Block} {k : Nat} (hk : k < IPB) (d : Dinode) :
    getDinode (setDinode b k d) k = d := by
  have hbytes : ∀ j, j < 64 → (setDinode b k d).byte (64 * k + j) = d.bytes j := by
    intro j hj
    simp only [IPB, BSIZE] at hk
    rw [setDinode, Block.byte_patch (by simp only [BSIZE]; omega), patch_in (by omega) (by omega),
      Nat.add_sub_cancel_left]
  -- each field occupies its own range of the 64 bytes
  have htype : rd16 (setDinode b k d).byte (64 * k) = d.type.toUInt16 := by
    apply rd16_of_bytes
    intro j hj
    rw [hbytes j (by omega), Dinode.bytes, if_pos hj]
  have hmajor : rd16 (setDinode b k d).byte (64 * k + 2) = d.major.toUInt16 := by
    apply rd16_of_bytes
    intro j hj
    rw [Nat.add_assoc, hbytes (2 + j) (by omega), Dinode.bytes, if_neg (by omega),
      if_pos (by omega), Nat.add_sub_cancel_left]
  have hminor : rd16 (setDinode b k d).byte (64 * k + 4) = d.minor.toUInt16 := by
    apply rd16_of_bytes
    intro j hj
    rw [Nat.add_assoc, hbytes (4 + j) (by omega), Dinode.bytes, if_neg (by omega),
      if_neg (by omega), if_pos (by omega), Nat.add_sub_cancel_left]
  have hnlink : rd16 (setDinode b k d).byte (64 * k + 6) = d.nlink.toUInt16 := by
    apply rd16_of_bytes
    intro j hj
    rw [Nat.add_assoc, hbytes (6 + j) (by omega), Dinode.bytes, if_neg (by omega),
      if_neg (by omega), if_neg (by omega), if_pos (by omega), Nat.add_sub_cancel_left]
  have hsize : rd32 (setDinode b k d).byte (64 * k + 8) = d.size := by
    apply rd32_of_bytes
    intro j hj
    rw [Nat.add_assoc, hbytes (8 + j) (by omega), Dinode.bytes, if_neg (by omega),
      if_neg (by omega), if_neg (by omega), if_neg (by omega), if_pos (by omega),
      Nat.add_sub_cancel_left]
  have haddrs : ∀ i : Fin (NDIRECT + 1),
      rd32 (setDinode b k d).byte (64 * k + 12 + 4 * i.val) = d.addrs i := by
    intro i
    have hi : i.val < 13 := i.isLt
    apply rd32_of_bytes
    intro j hj
    have hdiv : (12 + 4 * i.val + j - 12) / 4 = i.val := by omega
    have hmod : (12 + 4 * i.val + j - 12) % 4 = j := by omega
    rw [show 64 * k + 12 + 4 * i.val + j = 64 * k + (12 + 4 * i.val + j) by omega,
      hbytes _ (by omega), Dinode.bytes, if_neg (by omega), if_neg (by omega), if_neg (by omega),
      if_neg (by omega), if_neg (by omega)]
    simp only [hdiv, hmod, i.isLt, dif_pos]
  simp only [getDinode, htype, hmajor, hminor, hnlink, hsize, haddrs]
  simp

theorem getDinode_setDinode_other {b : Block} {k j : Nat} (hk : k < IPB) (hkj : j ≠ k)
    (d : Dinode) : getDinode (setDinode b k d) j = getDinode b j := by
  simp only [IPB, BSIZE] at hk
  have hbyte : (setDinode b k d).byte = patch b.byte (64 * k) 64 d.bytes :=
    Block.byte_patch (by simp only [BSIZE]; omega)
  have haddrs : ∀ i : Fin (NDIRECT + 1), rd32 (setDinode b k d).byte (64 * j + 12 + 4 * i.val) =
      rd32 b.byte (64 * j + 12 + 4 * i.val) := by
    intro i
    have hi : i.val < 13 := i.isLt
    rw [hbyte, rd32_patch_other (by omega)]
  simp only [getDinode, haddrs]
  rw [hbyte, rd16_patch_other (by omega), rd16_patch_other (by omega), rd16_patch_other (by omega),
    rd16_patch_other (by omega), rd32_patch_other (by omega)]

/-- `m = 1 << (bi % 8)`. -/
def mask (bi : Nat) : UInt8 := UInt8.ofNat (1 <<< (bi % 8))

/-- `(bp->data[bi/8] & m) != 0`. -/
def getBit (b : Block) (bi : Nat) : Bool := b.byte (bi / 8) &&& mask bi != 0

/-- `bp->data[bi/8] |= m`. -/
def setBit (b : Block) (bi : Nat) : Block := b.patch (bi / 8) 1 fun _ => b.byte (bi / 8) ||| mask bi

/-- `bp->data[bi/8] &= ~m`. -/
def clearBit (b : Block) (bi : Nat) : Block :=
  b.patch (bi / 8) 1 fun _ => b.byte (bi / 8) &&& ~~~ mask bi

theorem mask_toNat (bi : Nat) : (mask bi).toNat = 2 ^ (bi % 8) := by
  have h : (2 : Nat) ^ (bi % 8) < 2 ^ 8 := Nat.pow_lt_pow_right (by omega) (by omega)
  rw [mask, UInt8.toNat_ofNat', Nat.one_shiftLeft, Nat.mod_eq_of_lt h]

theorem and_mask_ne_zero (x : UInt8) (bi : Nat) :
    (x &&& mask bi != 0) = x.toNat.testBit (bi % 8) := by
  have hand : (x &&& mask bi).toNat = (x.toNat.testBit (bi % 8)).toNat * 2 ^ (bi % 8) := by
    rw [UInt8.toNat_and, mask_toNat, Nat.and_two_pow]
  have hpos : 0 < 2 ^ (bi % 8) := Nat.two_pow_pos _
  have hzero : (x &&& mask bi = 0) ↔ x.toNat.testBit (bi % 8) = false := by
    rw [← UInt8.toNat_inj, hand]
    cases x.toNat.testBit (bi % 8) <;> simp
  cases h : x.toNat.testBit (bi % 8) with
  | false => simp [hzero.mpr h]
  | true =>
    have : ¬ (x &&& mask bi = 0) := by rw [hzero, h]; simp
    simp [this]

theorem getBit_eq_testBit (b : Block) (bi : Nat) :
    getBit b bi = (b.byte (bi / 8)).toNat.testBit (bi % 8) := and_mask_ne_zero _ _

theorem testBit_or_mask (x : UInt8) (bi j : Nat) :
    (x ||| mask bi).toNat.testBit j = (x.toNat.testBit j || decide (bi % 8 = j)) := by
  rw [UInt8.toNat_or, mask_toNat, Nat.testBit_or, Nat.testBit_two_pow]

theorem testBit_and_not_mask (x : UInt8) {j : Nat} (hj : j < 8) :
    (x &&& ~~~ mask bi).toNat.testBit j = (x.toNat.testBit j && !decide (bi % 8 = j)) := by
  have hnot : (~~~ mask bi).toNat.testBit j = !(mask bi).toNat.testBit j := by
    have := BitVec.getLsbD_not (x := (mask bi).toBitVec) (i := j)
    simp only [hj, decide_true, Bool.true_and] at this
    exact this
  rw [UInt8.toNat_and, Nat.testBit_and, hnot, mask_toNat, Nat.testBit_two_pow]

theorem getBit_patch {b : Block} {x : UInt8} (hi : bi < BPB) :
    getBit (b.patch (bi / 8) 1 fun _ => x) bj =
      if bj / 8 = bi / 8 then x.toNat.testBit (bj % 8) else getBit b bj := by
  simp only [BPB, BSIZE] at hi
  rw [getBit_eq_testBit, Block.byte_patch (by simp only [BSIZE]; omega)]
  split
  · rename_i h
    rw [patch_in (by omega) (by omega)]
  · rw [patch_out (by omega), getBit_eq_testBit]

theorem getBit_setBit {b : Block} (hi : bi < BPB) :
    getBit (setBit b bi) bj = if bj = bi then true else getBit b bj := by
  rw [setBit, getBit_patch hi, testBit_or_mask]
  by_cases h8 : bj / 8 = bi / 8
  · rw [if_pos h8, getBit_eq_testBit, h8]
    by_cases h : bj = bi
    · simp [h]
    · have : ¬ bi % 8 = bj % 8 := by omega
      simp [h, this]
  · have : bj ≠ bi := by rintro rfl; exact h8 rfl
    rw [if_neg h8, if_neg this]

theorem getBit_clearBit {b : Block} (hi : bi < BPB) :
    getBit (clearBit b bi) bj = if bj = bi then false else getBit b bj := by
  rw [clearBit, getBit_patch hi, testBit_and_not_mask _ (by omega)]
  by_cases h8 : bj / 8 = bi / 8
  · rw [if_pos h8, getBit_eq_testBit, h8]
    by_cases h : bj = bi
    · simp [h]
    · have : ¬ bi % 8 = bj % 8 := by omega
      simp [h, this]
  · have : bj ≠ bi := by rintro rfl; exact h8 rfl
    rw [if_neg h8, if_neg this]

/-- What a disk stores: the free map, the inodes, the data blocks. -/
structure Vol where
  bit : Nat → Bool
  dino : Nat → Dinode
  blk : Nat → Block

/-- The volume on disk `d`. Outside their areas the components have fixed values. -/
def volOf (sb : Superblock) (d : Nat → Block) : Vol where
  bit := fun b => if b < sb.size then getBit (d (sb.bblock b)) (b % BPB) else true
  dino := fun i => if i < sb.ninodes then getDinode (d (sb.iblock i)) (i % IPB) else default
  blk := fun b => if sb.dataStart ≤ b then d b else Block.zero

variable {sb : Superblock} {d : Nat → Block}

theorem volOf_blk (hb : sb.dataStart ≤ b) : (volOf sb d).blk b = d b := if_pos hb

theorem Vol.ext' {v w : Vol} (h1 : ∀ b, v.bit b = w.bit b) (h2 : ∀ i, v.dino i = w.dino i)
    (h3 : ∀ b, v.blk b = w.blk b) : v = w := by
  cases v
  cases w
  simp only [Vol.mk.injEq]
  exact ⟨funext h1, funext h2, funext h3⟩

theorem volOf_bmap (hb : b < sb.size) {x : Block} {v : Bool}
    (hx : ∀ k, getBit x k = if k = b % BPB then v else getBit (d (sb.bblock b)) k) :
    volOf sb (update d (sb.bblock b) x) =
      { volOf sb d with bit := update (volOf sb d).bit b v } := by
  have hlt := sb.bblock_lt hb
  have hge := sb.le_bblock b
  apply Vol.ext'
  · intro c
    simp only [volOf]
    by_cases hcb : c = b
    · subst hcb
      simp [hb, hx]
    · rw [update_of_ne hcb]
      by_cases hc : c < sb.size
      · simp only [hc, if_true]
        by_cases hblk : sb.bblock c = sb.bblock b
        · rw [hblk, update_self, hx, if_neg]
          simp only [Superblock.bblock] at hblk
          intro hmod
          have h1 := Nat.div_add_mod c BPB
          have h2 := Nat.div_add_mod b BPB
          rw [hmod, show c / BPB = b / BPB by omega] at h1
          omega
        · rw [update_of_ne hblk]
      · simp [hc]
  · intro i
    simp only [volOf]
    split
    · rename_i hi
      have := sb.iblock_lt hi
      rw [update_of_ne (by omega)]
    · rfl
  · intro c
    simp only [volOf]
    split
    · rw [update_of_ne (by omega)]
    · rfl

theorem volOf_setBit (hb : b < sb.size) :
    volOf sb (update d (sb.bblock b) (setBit (d (sb.bblock b)) (b % BPB))) =
      { volOf sb d with bit := update (volOf sb d).bit b true } :=
  volOf_bmap hb fun _ => getBit_setBit (Nat.mod_lt _ (by decide))

theorem volOf_clearBit (hb : b < sb.size) :
    volOf sb (update d (sb.bblock b) (clearBit (d (sb.bblock b)) (b % BPB))) =
      { volOf sb d with bit := update (volOf sb d).bit b false } :=
  volOf_bmap hb fun _ => getBit_clearBit (Nat.mod_lt _ (by decide))

theorem volOf_setDinode {i : Nat} (hi : i < sb.ninodes) (x : Dinode) :
    volOf sb (update d (sb.iblock i) (setDinode (d (sb.iblock i)) (i % IPB) x)) =
      { volOf sb d with dino := update (volOf sb d).dino i x } := by
  have hlt := sb.iblock_lt hi
  have hbm := sb.bmapstart_lt
  have hmod : i % IPB < IPB := Nat.mod_lt _ (by decide)
  apply Vol.ext'
  · intro c
    simp only [volOf]
    split
    · have := sb.le_bblock c
      rw [update_of_ne (by omega)]
    · rfl
  · intro j
    simp only [volOf]
    by_cases hji : j = i
    · subst hji
      simp [hi, getDinode_setDinode_same hmod]
    · rw [update_of_ne hji]
      by_cases hj : j < sb.ninodes
      · simp only [hj, if_true]
        by_cases hblk : sb.iblock j = sb.iblock i
        · rw [hblk, update_self, getDinode_setDinode_other hmod]
          simp only [Superblock.iblock] at hblk
          intro hm
          have h1 := Nat.div_add_mod j IPB
          have h2 := Nat.div_add_mod i IPB
          rw [hm, show j / IPB = i / IPB by omega] at h1
          omega
        · rw [update_of_ne hblk]
      · simp [hj]
  · intro c
    simp only [volOf]
    split
    · rw [update_of_ne (by omega)]
    · rfl

theorem volOf_data (hb : sb.dataStart ≤ b) (x : Block) : volOf sb (update d b x) =
      { volOf sb d with blk := update (volOf sb d).blk b x } := by
  have hbm := sb.bmapstart_lt
  apply Vol.ext'
  · intro c
    simp only [volOf]
    split
    · rename_i hc
      have := sb.bblock_lt hc
      rw [update_of_ne (by omega)]
    · rfl
  · intro i
    simp only [volOf]
    split
    · rename_i hi
      have := sb.iblock_lt hi
      rw [update_of_ne (by omega)]
    · rfl
  · intro c
    simp only [volOf]
    by_cases hcb : c = b
    · subst hcb; simp [hb]
    · rw [update_of_ne hcb, update_of_ne hcb]

end Xv6.Fs
