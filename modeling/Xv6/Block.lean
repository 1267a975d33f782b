import Xv6.Lib.Bytes

/-!
# Xv6.Block

The constants of `param.h` and `fs.h`, and disk blocks.

A block is exactly `BSIZE` bytes. It is read through `Block.byte`, a byte store in the sense of
`Xv6.Lib.Bytes`, and changed through `Block.patch` (`memmove` into `bp->data`); `byte_patch` says
the second is `Bytes.patch` on the first, so fields inside a block obey the laws of byte stores.
-/

namespace Xv6

abbrev NPROC : Nat := 64
abbrev NCPU : Nat := 8
abbrev NOFILE : Nat := 16
abbrev NINODE : Nat := 50
abbrev NDEV : Nat := 10
abbrev MAXOPBLOCKS : Nat := 10
abbrev LOGSIZE : Nat := MAXOPBLOCKS * 3
abbrev BSIZE : Nat := 512

instance : NeZero NPROC := ⟨by decide⟩

def Block : Type := Fin BSIZE → UInt8

namespace Block

/-- `bp->data[i]`. -/
def byte (b : Block) (i : Nat) : UInt8 := if h : i < BSIZE then b ⟨i, h⟩ else 0

def patch (b : Block) (off len : Nat) (src : Nat → UInt8) : Block :=
  fun p => Bytes.patch b.byte off len src p.val

/-- The block `bzero` writes. -/
def zero : Block := fun _ => 0

@[ext] theorem ext {a b : Block} (h : ∀ i, i < BSIZE → a.byte i = b.byte i) : a = b := by
  funext p
  have := h p.val p.isLt
  simpa [byte, p.isLt] using this

theorem byte_patch {b : Block} {off len : Nat} {src : Nat → UInt8} (h : off + len ≤ BSIZE) :
    (b.patch off len src).byte = Bytes.patch b.byte off len src := by
  funext i
  by_cases hi : i < BSIZE
  · simp [byte, patch, hi]
  · rw [Bytes.patch_out (by omega)]
    simp [byte, hi]

@[simp] theorem byte_zero (i : Nat) : zero.byte i = 0 := by
  simp [byte, zero]

/-- `((uint*)bp->data)[i]`. -/
def word (b : Block) (i : Nat) : UInt32 := Bytes.rd32 b.byte (4 * i)

def setWord (b : Block) (i : Nat) (v : UInt32) : Block := b.patch (4 * i) 4 (Bytes.byteOf v.toNat)

theorem word_setWord_same {b : Block} {i : Nat} {v : UInt32} (h : 4 * i + 4 ≤ BSIZE) :
    (b.setWord i v).word i = v := by
  rw [word, setWord, byte_patch h]
  exact Bytes.rd32_wr32_same b.byte (4 * i) v

theorem word_setWord_other {b : Block} {i j : Nat} {v : UInt32} (h : 4 * i + 4 ≤ BSIZE)
    (hij : j ≠ i) : (b.setWord i v).word j = b.word j := by
  rw [word, setWord, byte_patch h, Bytes.rd32_patch_other (by omega)]
  rfl

@[simp] theorem word_zero (i : Nat) : zero.word i = 0 := by
  apply Bytes.rd32_of_bytes
  intro k _
  simp [Bytes.byteOf]

end Block
end Xv6
