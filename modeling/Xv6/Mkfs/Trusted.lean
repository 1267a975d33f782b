import Xv6.Mkfs.Main

/-!
# Xv6.Mkfs.Trusted

What the kernel takes for granted about an image, and which images of `mkfs` have it.

`readi` maps each block of the range that it reads, and `bmap` allocates a block that it does not
find. An image is therefore fit to be read only if each file has all the blocks of its size.
`main` rounds the size of the root directory up to the next multiple of the block size, also when
it is a multiple already: the directory then ends with a block that it does not have.
-/

namespace Xv6.Mkfs

open Fs Bytes
open Sys (ROOTINO Dirent SLASH)

/-- An image that the kernel can read: the sizes, the addresses and the free map fit together. -/
structure Trusted (m : Mk) : Prop where
  mapped : ∀ i, (volOf sb m.disk).Live sb i →
    ∀ bn, bn < Vol.blocksOf ((volOf sb m.disk).dino i).size.toNat →
      (volOf sb m.disk).addrOf i bn ≠ 0
  once : ∀ b r r', (volOf sb m.disk).Refers sb r b → (volOf sb m.disk).Refers sb r' b → r = r'
  bits : ∀ b, b < FSSIZE → ((volOf sb m.disk).bit b = true ↔ b < m.freeblock)
  used : ∀ b, b < FSSIZE →
    (b < m.freeblock ↔ b < nmeta ∨ ∃ r, (volOf sb m.disk).Refers sb r b)
  read : ∀ (s : FS) (dev : Devsw) (ip : Fin NINODE) (off n : UInt32), s.disk = m.disk →
    Coherent sb s → Locked s ip → ∃ r, readi sb dev s ip off n = .ok (r, s)

theorem rounded_toNat {size : UInt32} (h : size.toNat + BSIZE < 2 ^ 32) :
    (rounded size).toNat = (size.toNat / BSIZE + 1) * BSIZE := by
  have hblock : (UInt32.ofNat BSIZE).toNat = BSIZE := rfl
  simp only [rounded, UInt32.toNat_mul, UInt32.toNat_add, UInt32.toNat_div, hblock, BSIZE] at h ⊢
  have hone : (1 : UInt32).toNat = 1 := rfl
  rw [hone]
  omega

section Root

variable {b m : Mk} {files : List Input}

theorem Made.live_iff (h : Made b m files) (i : Nat) :
    (volOf sb m.disk).Live sb i ↔ (view b).Live sb i := by
  rw [h.vol, Vol.live_setSize]

theorem Made.refs (h : Made b m files) : (volOf sb m.disk).Refs sb := by
  rw [h.vol]
  exact h.built.sound.wf.refs.setSize

theorem Made.root_blocks (h : Made b m files) (hn : files.length + 1 < NINODES) :
    (volOf sb m.disk).Maps ROOTINO (Vol.blocksOf (Dirent.size * (files.length + 2))) ∧
      Vol.blocksOf ((volOf sb m.disk).dino ROOTINO).size.toNat =
        Dirent.size * (files.length + 2) / BSIZE + 1 := by
  obtain ⟨hl, hsize⟩ := h.built.root
  have hlt : ((view b).dino ROOTINO).size.toNat + BSIZE < 2 ^ 32 := by
    rw [hsize]
    simp only [Dirent.size, BSIZE, NINODES] at hn ⊢
    omega
  constructor
  · have hmaps := h.built.sound.wf.maps ROOTINO hl
    rw [hsize] at hmaps
    rw [h.vol]
    exact Vol.maps_setSize.mpr hmaps
  · rw [h.vol, Vol.setSize_dino_self]
    show Vol.blocksOf (rounded _).toNat = _
    rw [rounded_toNat hlt, hsize]
    simp only [Vol.blocksOf, BSIZE]
    omega

theorem blocksOf_eq_iff (size : Nat) : Vol.blocksOf size = size / BSIZE + 1 ↔ ¬ BSIZE ∣ size := by
  simp only [Vol.blocksOf, BSIZE]
  omega

theorem Made.root_unmapped (h : Made b m files) (hn : files.length + 1 < NINODES)
    (hfull : BSIZE ∣ Dirent.size * (files.length + 2)) : (volOf sb m.disk).Live sb ROOTINO ∧
      Dirent.size * (files.length + 2) / BSIZE <
        Vol.blocksOf ((volOf sb m.disk).dino ROOTINO).size.toNat ∧
      (volOf sb m.disk).addrOf ROOTINO (Dirent.size * (files.length + 2) / BSIZE) = 0 := by
  obtain ⟨hmaps, hblocks⟩ := h.root_blocks hn
  refine ⟨(h.live_iff _).mpr h.built.root.1, by omega, ?_⟩
  by_contra hne
  have hlt := (hmaps _).mp hne
  simp only [Vol.blocksOf, BSIZE] at hlt hfull
  omega

theorem Made.wellFormed (h : Made b m files) (hn : files.length + 1 < NINODES)
    (hpart : ¬ BSIZE ∣ Dirent.size * (files.length + 2)) : (volOf sb m.disk).WellFormed sb := by
  refine ⟨h.refs, fun i hl => ?_⟩
  by_cases hroot : i = ROOTINO
  · subst hroot
    obtain ⟨hmaps, hblocks⟩ := h.root_blocks hn
    rw [hblocks, ← (blocksOf_eq_iff _).mpr hpart]
    exact hmaps
  · rw [h.vol, Vol.setSize_dino_other hroot]
    exact Vol.maps_setSize.mpr (h.built.sound.wf.maps i ((h.live_iff i).mp hl))

theorem Made.bits (h : Made b m files) {x : Nat} (hx : x < FSSIZE) :
    (volOf sb m.disk).bit x = true ↔ x < m.freeblock := by
  rw [h.vol, h.free]
  show (if x < sb.size then decide (x < b.freeblock) else true) = true ↔ _
  rw [if_pos (show x < sb.size from hx), decide_eq_true_eq]

theorem Made.used (h : Made b m files) {x : Nat} (hx : x < FSSIZE) :
    x < m.freeblock ↔ x < nmeta ∨ ∃ r, (volOf sb m.disk).Refers sb r x := by
  rw [← h.bits hx]
  by_cases hmeta : x < nmeta
  · exact iff_of_true (h.refs.meta_used x hmeta) (.inl hmeta)
  · rw [h.refs.bits x (not_lt.mp hmeta) hx]
    constructor
    · rintro ⟨r, hr, -⟩
      exact .inr ⟨r, hr⟩
    · rintro (hlt | ⟨r, hr⟩)
      · exact absurd hlt hmeta
      · exact ⟨r, hr, fun r' hr' => h.refs.once x r' r hr' hr⟩

theorem Made.trusted (h : Made b m files) (hwf : (volOf sb m.disk).WellFormed sb) : Trusted m where
  mapped := fun i hl bn hbn => (hwf.maps i hl bn).mpr hbn
  once := hwf.refs.once
  bits := fun _ hx => h.bits hx
  used := fun _ hx => h.used hx
  read := by
    intro s dev ip off n hdisk hcache hip
    have hok : FsOk sb s := ⟨hdisk ▸ hwf, hcache⟩
    exact readi_same dev hok hip off n

end Root

variable {files : List Input}

/-- For files that fit, `mkfs` makes an image if no argument has a slash, and the kernel can trust
it exactly when the entries of the root directory do not fill its last block. -/
theorem image_trusted_iff (hf : Fits files) :
    ((∃ m, main files = some m) ↔ ∀ f ∈ files, SLASH ∉ f.arg) ∧
      ∀ m, main files = some m →
        (Trusted m ↔ ¬ BSIZE ∣ Dirent.size * (files.length + 2)) := by
  refine ⟨main_some_iff hf, fun m hm => ?_⟩
  obtain ⟨b, hmade⟩ := Made.of_main hf hm
  constructor
  · intro ht hfull
    obtain ⟨hl, hlt, hzero⟩ := hmade.root_unmapped hf.inodes hfull
    exact ht.mapped _ hl _ hlt hzero
  · exact fun hpart => hmade.trusted (hmade.wellFormed hf.inodes hpart)

/-- What the two reads of the sample return. -/
abbrev sampleReads : List (List UInt8) := [[1, 2, 3], [4]]

theorem sample_read_le : ∀ buf ∈ sampleReads, 0 < buf.length ∧ buf.length ≤ BSIZE := by
  simp [BSIZE]

/-- A file `_cat` of four bytes. -/
def sample : Input := ⟨[95, 99, 97, 116], sampleReads, sample_read_le⟩

theorem fits_sample : Fits [sample] := by
  refine ⟨fun f hf => ?_, by decide, by decide⟩
  rw [List.mem_singleton.mp hf]
  decide

theorem image_trusted_sample : Fits [sample] ∧ ∃ m, main [sample] = some m ∧ Trusted m := by
  obtain ⟨hsome, htrusted⟩ := image_trusted_iff fits_sample
  obtain ⟨m, hm⟩ := hsome.mpr (by decide)
  exact ⟨fits_sample, m, hm, (htrusted m hm).mpr (by decide)⟩

/-- `n` files of no bytes, with different names. -/
def emptyFiles (n : Nat) : List Input :=
  (List.range n).map fun k => ⟨[65 + UInt8.ofNat k], [], fun _ h => absurd h List.not_mem_nil⟩

/-- With thirty files the root directory has 32 entries in one block, and the size of two. -/
theorem thirty_files_unmapped : Fits (emptyFiles 30) ∧ ∃ m, main (emptyFiles 30) = some m ∧
    (volOf sb m.disk).Live sb ROOTINO ∧
    1 < Vol.blocksOf ((volOf sb m.disk).dino ROOTINO).size.toNat ∧
    (volOf sb m.disk).addrOf ROOTINO 1 = 0 ∧ ¬ Trusted m := by
  have hf : Fits (emptyFiles 30) := ⟨by simp [emptyFiles, Input.bytes], by decide, by decide⟩
  obtain ⟨b, m, hm, hmade⟩ := main_made hf (by decide)
  obtain ⟨hl, hlt, hzero⟩ := hmade.root_unmapped hf.inodes (by decide)
  exact ⟨hf, m, hm, hl, hlt, hzero, fun ht => ht.mapped _ hl _ hlt hzero⟩

end Xv6.Mkfs
