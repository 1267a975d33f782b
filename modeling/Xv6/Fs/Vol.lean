import Xv6.Fs.Format

/-!
# Xv6.Fs.Vol

Block ownership on a volume.

An inode refers to blocks from 141 places (`Pos`): its direct addresses, its indirect address and
the entries of the indirect block. `WellFormed` says that a volume's free map, addresses and sizes
fit together; its two halves are `Refs` (who owns which block) and `Maps` (which block numbers of a
file are mapped).

Each change the file system makes to references is an instance of one of two facts: `Refs.add`, one
free block gets one new owner, and `Refs.remove`, the blocks of some places are given up. The second
part of the module applies them to the ways `bmap` allocates, and shows that writing a file's data
block is seen by no other file.
-/

namespace Xv6.Fs

open Function Finset

variable {c j : Nat}

/-- The places of an inode that may hold a block number. -/
inductive Pos where
  | direct (k : Fin NDIRECT)
  | indirect
  | entry (j : Fin NINDIRECT)
  deriving DecidableEq

namespace Vol

variable {sb : Superblock} {v v' : Vol} {i : Nat}

/-- `ip->addrs[NDIRECT]`. -/
def ind (v : Vol) (i : Nat) : Nat := ((v.dino i).addrs (Fin.last NDIRECT)).toNat

def refAt (v : Vol) (i : Nat) : Pos → Nat
  | .direct k => ((v.dino i).addrs k.castSucc).toNat
  | .indirect => v.ind i
  | .entry j => if v.ind i = 0 then 0 else ((v.blk (v.ind i)).word j).toNat

theorem refAt_direct (k : Fin NDIRECT) :
    v.refAt i (.direct k) = ((v.dino i).addrs k.castSucc).toNat := rfl

theorem refAt_indirect : v.refAt i .indirect = v.ind i := rfl

theorem refAt_entry (j : Fin NINDIRECT) :
    v.refAt i (.entry j) = if v.ind i = 0 then 0 else ((v.blk (v.ind i)).word j).toNat := rfl

/-- The place of block number `bn` of a file. -/
def posOf (bn : Nat) : Option Pos :=
  if h : bn < NDIRECT then some (.direct ⟨bn, h⟩)
  else if h : bn - NDIRECT < NINDIRECT then some (.entry ⟨bn - NDIRECT, h⟩)
  else none

/-- The address of block number `bn` of file `i`; 0 when there is none. -/
def addrOf (v : Vol) (i bn : Nat) : Nat := ((posOf bn).map (v.refAt i)).getD 0

/-- Inode `i` is allocated. -/
def Live (sb : Superblock) (v : Vol) (i : Nat) : Prop := i < sb.ninodes ∧ (v.dino i).type ≠ 0

/-- Place `r.2` of allocated inode `r.1` refers to block `b`. -/
def Refers (sb : Superblock) (v : Vol) (r : Nat × Pos) (b : Nat) : Prop :=
  v.Live sb r.1 ∧ v.refAt r.1 r.2 = b ∧ b ≠ 0

structure Refs (sb : Superblock) (v : Vol) : Prop where
  bits : ∀ b, sb.dataStart ≤ b → b < sb.size → (v.bit b = true ↔ ∃! r, v.Refers sb r b)
  once : ∀ b r r', v.Refers sb r b → v.Refers sb r' b → r = r'
  data : ∀ b r, v.Refers sb r b → sb.dataStart ≤ b ∧ b < sb.size
  meta_used : ∀ b, b < sb.dataStart → v.bit b = true

/-- File `i` has exactly the block numbers below `c`. -/
def Maps (v : Vol) (i c : Nat) : Prop := ∀ bn, v.addrOf i bn ≠ 0 ↔ bn < c

/-- `ceil(size / BSIZE)`. -/
def blocksOf (size : Nat) : Nat := (size + (BSIZE - 1)) / BSIZE

structure WellFormed (sb : Superblock) (v : Vol) : Prop where
  refs : v.Refs sb
  maps : ∀ i, v.Live sb i → v.Maps i (blocksOf (v.dino i).size.toNat)

theorem posOf_direct {bn : Nat} (h : bn < NDIRECT) : posOf bn = some (.direct ⟨bn, h⟩) := by
  simp only [posOf, dif_pos h]

theorem posOf_entry {bn : Nat} (h1 : ¬ bn < NDIRECT) (h2 : bn - NDIRECT < NINDIRECT) :
    posOf bn = some (.entry ⟨bn - NDIRECT, h2⟩) := by
  simp only [posOf, dif_neg h1, dif_pos h2]

theorem posOf_none {bn : Nat} (h : MAXFILE ≤ bn) : posOf bn = none := by
  simp only [MAXFILE, NDIRECT, NINDIRECT, BSIZE] at h
  simp only [posOf, NDIRECT, NINDIRECT, BSIZE]
  rw [dif_neg (by omega), dif_neg (by omega)]

theorem posOf_inj {bn bn' : Nat} {p : Pos} (h : posOf bn = some p) (h' : posOf bn' = some p) :
    bn = bn' := by
  simp only [posOf] at h h'
  split at h
  · cases h
    split at h'
    · cases h'; rfl
    · split at h' <;> cases h'
  · split at h
    · cases h
      split at h'
      · cases h'
      · split at h'
        · simp only [Option.some.injEq, Pos.entry.injEq, Fin.mk.injEq] at h'
          omega
        · cases h'
    · cases h

theorem posOf_ne_indirect (bn : Nat) : posOf bn ≠ some .indirect := by
  simp only [posOf]
  split
  · simp
  · split <;> simp

theorem addrOf_pos {bn : Nat} {p : Pos} (h : posOf bn = some p) : v.addrOf i bn = v.refAt i p := by
  simp [addrOf, h]

theorem addrOf_none {bn : Nat} (h : MAXFILE ≤ bn) : v.addrOf i bn = 0 := by
  simp [addrOf, posOf_none h]

theorem posOf_of_ne_zero {bn : Nat} (h : v.addrOf i bn ≠ 0) :
    ∃ p, posOf bn = some p ∧ v.refAt i p = v.addrOf i bn := by
  cases hp : posOf bn with
  | none => simp [addrOf, hp] at h
  | some p => exact ⟨p, rfl, (addrOf_pos hp).symm⟩

theorem Maps.le (h : v.Maps i c) : c ≤ MAXFILE := by
  by_contra hc
  have := (h MAXFILE).mpr (by omega)
  exact this (addrOf_none (Nat.le_refl _))

theorem refers_addrOf {bn : Nat} (hl : v.Live sb i) (h : v.addrOf i bn ≠ 0) :
    ∃ p, posOf bn = some p ∧ v.Refers sb (i, p) (v.addrOf i bn) := by
  obtain ⟨p, hp, hr⟩ := posOf_of_ne_zero h
  exact ⟨p, hp, hl, hr, h⟩

theorem refers_ind (hl : v.Live sb i) (h : v.ind i ≠ 0) :
    v.Refers sb (i, .indirect) (v.ind i) := ⟨hl, rfl, h⟩

theorem Refs.used (h : v.Refs sb) {r : Nat × Pos} {b : Nat} (hr : v.Refers sb r b) :
    v.bit b = true := by
  obtain ⟨h1, h2⟩ := h.data b r hr
  exact (h.bits b h1 h2).mpr ⟨r, hr, fun r' hr' => h.once b r' r hr' hr⟩

theorem Refs.free (h : v.Refs sb) {b : Nat} (hb : v.bit b = false) :
    sb.dataStart ≤ b ∧ ∀ r, ¬ v.Refers sb r b := by
  constructor
  · by_contra hlt
    rw [h.meta_used b (by omega)] at hb
    cases hb
  · intro r hr
    rw [h.used hr] at hb
    cases hb

theorem Refs.add (h : v.Refs sb) (r0 : Nat × Pos) {b : Nat} (hb : b < sb.size)
    (hfree : v.bit b = false) (hbit : v'.bit = update v.bit b true)
    (hrefs : ∀ r x, v'.Refers sb r x ↔ v.Refers sb r x ∨ r = r0 ∧ x = b) : v'.Refs sb := by
  obtain ⟨hdata, hnone⟩ := h.free hfree
  refine ⟨?_, ?_, ?_, ?_⟩
  · intro x h1 h2
    by_cases hx : x = b
    · subst hx
      simp only [hbit, update_self, true_iff]
      refine ⟨r0, (hrefs r0 x).mpr (.inr ⟨rfl, rfl⟩), ?_⟩
      intro r hr
      rcases (hrefs r x).mp hr with hr | hr
      · exact absurd hr (hnone r)
      · exact hr.1
    · rw [hbit, update_of_ne hx, h.bits x h1 h2]
      have : ∀ r, v'.Refers sb r x ↔ v.Refers sb r x := by
        intro r
        simp [hrefs, hx]
      simp [this]
  · intro x r r' hr hr'
    rcases (hrefs r x).mp hr with hr | hr <;> rcases (hrefs r' x).mp hr' with hr' | hr'
    · exact h.once x r r' hr hr'
    · exact absurd (hr'.2 ▸ hr) (hnone r)
    · exact absurd (hr.2 ▸ hr') (hnone r')
    · rw [hr.1, hr'.1]
  · intro x r hr
    rcases (hrefs r x).mp hr with hr | hr
    · exact h.data x r hr
    · rw [hr.2]; exact ⟨hdata, hb⟩
  · intro x hx
    rw [hbit, update_of_ne (by omega)]
    exact h.meta_used x hx

theorem Refs.remove (h : v.Refs sb) {S : Nat × Pos → Prop}
    (hbit : ∀ x, v'.bit x = true ↔ v.bit x = true ∧ ¬ ∃ r, S r ∧ v.Refers sb r x)
    (hrefs : ∀ r x, v'.Refers sb r x ↔ v.Refers sb r x ∧ ¬ S r) : v'.Refs sb := by
  refine ⟨?_, ?_, ?_, ?_⟩
  · intro x h1 h2
    rw [hbit, h.bits x h1 h2]
    constructor
    · rintro ⟨⟨r, hr, huniq⟩, hnone⟩
      refine ⟨r, (hrefs r x).mpr ⟨hr, fun hS => hnone ⟨r, hS, hr⟩⟩, ?_⟩
      intro r' hr'
      exact huniq r' ((hrefs r' x).mp hr').1
    · rintro ⟨r, hr, -⟩
      obtain ⟨hr, hS⟩ := (hrefs r x).mp hr
      refine ⟨⟨r, hr, fun r' hr' => h.once x r' r hr' hr⟩, ?_⟩
      rintro ⟨r', hS', hr'⟩
      exact hS (h.once x r' r hr' hr ▸ hS')
  · intro x r r' hr hr'
    exact h.once x r r' ((hrefs r x).mp hr).1 ((hrefs r' x).mp hr').1
  · intro x r hr
    exact h.data x r ((hrefs r x).mp hr).1
  · intro x hx
    rw [hbit]
    refine ⟨h.meta_used x hx, ?_⟩
    rintro ⟨r, -, hr⟩
    have := (h.data x r hr).1
    omega

theorem Refs.same (h : v.Refs sb) (hbit : v'.bit = v.bit)
    (hrefs : ∀ r x, v'.Refers sb r x ↔ v.Refers sb r x) : v'.Refs sb := by
  refine h.remove (S := fun _ => False) ?_ ?_
  · simp [hbit]
  · simp [hrefs]

/-- `balloc` of block `b`: it is marked in use and zeroed. -/
def alloc (v : Vol) (b : Nat) : Vol :=
  { v with bit := update v.bit b true, blk := update v.blk b Block.zero }

def setAddr (v : Vol) (i : Nat) (k : Fin (NDIRECT + 1)) (a : UInt32) : Vol :=
  { v with
    dino := update v.dino i
      { v.dino i with addrs := update (v.dino i).addrs k a } }

def setBlk (v : Vol) (b : Nat) (x : Block) : Vol := { v with blk := update v.blk b x }

@[simp] theorem alloc_dino (v : Vol) (b : Nat) : (v.alloc b).dino = v.dino := rfl
@[simp] theorem setBlk_dino (v : Vol) (b : Nat) (x : Block) : (v.setBlk b x).dino = v.dino := rfl
@[simp] theorem setBlk_bit (v : Vol) (b : Nat) (x : Block) : (v.setBlk b x).bit = v.bit := rfl
@[simp] theorem setAddr_bit (v : Vol) (i : Nat) (k : Fin (NDIRECT + 1)) (a : UInt32) :
    (v.setAddr i k a).bit = v.bit := rfl
@[simp] theorem setAddr_blk (v : Vol) (i : Nat) (k : Fin (NDIRECT + 1)) (a : UInt32) :
    (v.setAddr i k a).blk = v.blk := rfl
@[simp] theorem alloc_bit (v : Vol) (b : Nat) : (v.alloc b).bit = update v.bit b true := rfl
@[simp] theorem alloc_blk (v : Vol) (b : Nat) : (v.alloc b).blk = update v.blk b Block.zero := rfl
@[simp] theorem setBlk_blk (v : Vol) (b : Nat) (x : Block) :
    (v.setBlk b x).blk = update v.blk b x := rfl

theorem setAddr_dino_self (v : Vol) (i : Nat) (k : Fin (NDIRECT + 1)) (a : UInt32) :
    (v.setAddr i k a).dino i = { v.dino i with addrs := update (v.dino i).addrs k a } := by
  simp [setAddr]

theorem setAddr_dino_other (h : j ≠ i) (k : Fin (NDIRECT + 1)) (a : UInt32) :
    (v.setAddr i k a).dino j = v.dino j := by
  simp [setAddr, h]

@[simp] theorem live_setAddr (k : Fin (NDIRECT + 1)) (a : UInt32) :
    (v.setAddr i k a).Live sb j ↔ v.Live sb j := by
  by_cases h : j = i
  · subst h; simp [Live, setAddr]
  · simp [Live, setAddr_dino_other h]

@[simp] theorem live_setBlk {b : Nat} {x : Block} :
    (v.setBlk b x).Live sb j ↔ v.Live sb j := Iff.rfl

theorem refAt_congr {w : Vol} (ha : (w.dino j).addrs = (v.dino j).addrs)
    (hb : w.blk (v.ind j) = v.blk (v.ind j)) (p : Pos) : w.refAt j p = v.refAt j p := by
  have hind : w.ind j = v.ind j := by rw [ind, ha, ind]
  cases p with
  | direct k => rw [refAt, refAt, ha]
  | indirect => exact hind
  | entry e => rw [refAt, refAt, hind, hb]

theorem refAt_setBlk {b : Nat} {x : Block} (h : v.ind j ≠ b) (p : Pos) :
    (v.setBlk b x).refAt j p = v.refAt j p := by
  refine refAt_congr (by rw [setBlk_dino]) ?_ p
  rw [setBlk_blk, update_of_ne h]

theorem refAt_setAddr_direct (k : Fin NDIRECT) (a : UInt32) (j : Nat) (q : Pos) :
    (v.setAddr i k.castSucc a).refAt j q =
      if j = i ∧ q = .direct k then a.toNat else v.refAt j q := by
  by_cases hji : j = i
  · subst hji
    have hlast : Fin.last NDIRECT ≠ k.castSucc := (Fin.castSucc_lt_last k).ne'
    have hind : (v.setAddr j k.castSucc a).ind j = v.ind j := by
      simp only [ind, setAddr_dino_self, update_of_ne hlast]
    cases q with
    | direct k' =>
      rw [refAt_direct, setAddr_dino_self]
      by_cases hk : k' = k
      · simp [hk]
      · simp [hk, refAt_direct]
    | indirect => simpa [refAt_indirect] using hind
    | entry e => simp [refAt_entry, hind]
  · rw [if_neg (fun hc => hji hc.1)]
    refine refAt_congr ?_ (by rw [setAddr_blk]) q
    rw [setAddr_dino_other hji]

theorem Refs.ind_ne_free (h : v.Refs sb) {b : Nat} (hb : v.bit b = false) (hj : v.Live sb j) :
    v.ind j ≠ b := by
  rintro rfl
  obtain ⟨hdata, hnone⟩ := h.free hb
  have := sb.dataStart_pos
  exact hnone (j, .indirect) (refers_ind hj (by omega))

/-- `w` is `v` after free block `b` was zeroed, marked in use and stored in place `p` of
inode `i`. -/
structure Gives (sb : Superblock) (v w : Vol) (i : Nat) (p : Pos) (b : Nat) : Prop where
  lt : b < sb.size
  free : v.bit b = false
  live : v.Live sb i
  bit : w.bit = update v.bit b true
  refAt : ∀ j q, v.Live sb j → w.refAt j q = if j = i ∧ q = p then b else v.refAt j q
  dino : ∀ j, { w.dino j with addrs := (v.dino j).addrs } = v.dino j
  other : ∀ j, j ≠ i → w.dino j = v.dino j
  blk : ∀ x, x ≠ b → x ≠ v.ind i → w.blk x = v.blk x

theorem ofNat_toNat_of_lt {b : Nat} (hb : b < sb.size) : (UInt32.ofNat b).toNat = b := by
  have := sb.size_lt
  rw [UInt32.toNat_ofNat']
  omega

theorem refAt_alloc (h : v.Refs sb) {b : Nat} (hfree : v.bit b = false)
    (hj : v.Live sb j) (p : Pos) : (v.alloc b).refAt j p = v.refAt j p := by
  refine refAt_congr (by rw [alloc_dino]) ?_ p
  rw [alloc_blk, update_of_ne (h.ind_ne_free hfree hj)]

theorem gives_direct (h : v.Refs sb) {b : Nat} (hb : b < sb.size) (hfree : v.bit b = false)
    (hl : v.Live sb i) (k : Fin NDIRECT) :
    Gives sb v ((v.alloc b).setAddr i k.castSucc (UInt32.ofNat b)) i (.direct k) b := by
  refine ⟨hb, hfree, hl, rfl, ?_, ?_, ?_, ?_⟩
  · intro j q hj
    rw [refAt_setAddr_direct, ofNat_toNat_of_lt hb, refAt_alloc h hfree hj]
  · intro j
    by_cases hji : j = i
    · subst hji; simp [setAddr_dino_self]
    · simp [setAddr_dino_other hji]
  · intro j hji
    simp [setAddr_dino_other hji]
  · intro x hx _
    simp [update_of_ne hx]

theorem gives_indirect (h : v.Refs sb) {b : Nat} (hb : b < sb.size) (hfree : v.bit b = false)
    (hl : v.Live sb i) (hempty : v.ind i = 0) :
    Gives sb v ((v.alloc b).setAddr i (Fin.last NDIRECT) (UInt32.ofNat b)) i .indirect b := by
  refine ⟨hb, hfree, hl, rfl, ?_, ?_, ?_, ?_⟩
  · intro j q hj
    by_cases hji : j = i
    · subst hji
      have hind : ((v.alloc b).setAddr j (Fin.last NDIRECT) (UInt32.ofNat b)).ind j = b := by
        simp only [ind, setAddr_dino_self, update_self, ofNat_toNat_of_lt hb]
      cases q with
      | direct k => simp [refAt_direct, setAddr_dino_self, (Fin.castSucc_lt_last k).ne]
      | indirect => simpa [refAt_indirect] using hind
      | entry e =>
        -- the fresh indirect block is zero, as the missing one counted as
        simp [refAt_entry, hind, hempty]
    · rw [if_neg (fun hc => hji hc.1)]
      refine refAt_congr (by simp [setAddr_dino_other hji]) ?_ q
      rw [setAddr_blk, alloc_blk, update_of_ne (h.ind_ne_free hfree hj)]
  · intro j
    by_cases hji : j = i
    · subst hji; simp [setAddr_dino_self]
    · simp [setAddr_dino_other hji]
  · intro j hji
    simp [setAddr_dino_other hji]
  · intro x hx _
    simp [update_of_ne hx]

theorem gives_entry (h : v.Refs sb) {b : Nat} (hb : b < sb.size) (hfree : v.bit b = false)
    (hl : v.Live sb i) (hind : v.ind i ≠ 0) (e : Fin NINDIRECT) :
    Gives sb v ((v.alloc b).setBlk (v.ind i) ((v.blk (v.ind i)).setWord e (UInt32.ofNat b))) i
      (.entry e) b := by
  have he : 4 * e.val + 4 ≤ BSIZE := by
    have := e.isLt
    simp only [NINDIRECT, BSIZE] at this ⊢
    omega
  generalize hw : (v.alloc b).setBlk (v.ind i) ((v.blk (v.ind i)).setWord e (UInt32.ofNat b)) = w
  have hdino : w.dino = v.dino := by subst hw; rfl
  have hself : w.blk (v.ind i) = (v.blk (v.ind i)).setWord e (UInt32.ofNat b) := by
    rw [← hw, setBlk_blk, update_self]
  have hblk : ∀ x, x ≠ b → x ≠ v.ind i → w.blk x = v.blk x := by
    intro x hxb hxi
    rw [← hw, setBlk_blk, update_of_ne hxi, alloc_blk, update_of_ne hxb]
  refine ⟨hb, hfree, hl, by rw [← hw]; rfl, ?_, ?_, fun j _ => by rw [hdino], hblk⟩
  · intro j q hj
    by_cases hji : j = i
    · subst hji
      have hindw : w.ind j = v.ind j := by rw [ind, hdino, ind]
      cases q with
      | direct k => simp [refAt_direct, hdino]
      | indirect => simp [refAt_indirect, hindw]
      | entry e' =>
        rw [refAt_entry, hindw, if_neg hind, hself]
        by_cases hee : e' = e
        · subst hee
          simp [Block.word_setWord_same he, ofNat_toNat_of_lt hb]
        · have hval : e'.val ≠ e.val := fun hv => hee (Fin.ext hv)
          simp [Block.word_setWord_other he hval, hee, refAt_entry, hind]
    · have hne : v.ind j ≠ v.ind i := by
        intro heq
        have := h.once (v.ind i) (j, .indirect) (i, .indirect)
          ⟨hj, heq, hind⟩ (refers_ind hl hind)
        exact hji (Prod.ext_iff.mp this).1
      rw [if_neg (fun hc => hji hc.1)]
      exact refAt_congr (by rw [hdino]) (hblk _ (h.ind_ne_free hfree hj) hne) q
  · intro j
    rw [hdino]

namespace Gives

variable {w : Vol} {p : Pos} {b : Nat}

theorem live_iff (g : Gives sb v w i p b) (j : Nat) : w.Live sb j ↔ v.Live sb j := by
  have : (w.dino j).type = (v.dino j).type := by rw [← g.dino j]
  simp [Live, this]

theorem refs (g : Gives sb v w i p b) (h : v.Refs sb) (hp : v.refAt i p = 0) : w.Refs sb := by
  have hb0 : b ≠ 0 := by
    have := (h.free g.free).1
    have := sb.dataStart_pos
    omega
  refine h.add (i, p) g.lt g.free g.bit ?_
  rintro ⟨j, q⟩ x
  simp only [Refers, g.live_iff, Prod.mk.injEq]
  constructor
  · rintro ⟨hj, hr, hx⟩
    rw [g.refAt j q hj] at hr
    split at hr
    · rename_i hc
      exact .inr ⟨hc, hr.symm⟩
    · exact .inl ⟨hj, hr, hx⟩
  · rintro (⟨hj, hr, hx⟩ | ⟨⟨rfl, rfl⟩, rfl⟩)
    · refine ⟨hj, ?_, hx⟩
      rw [g.refAt j q hj, if_neg, hr]
      rintro ⟨rfl, rfl⟩
      exact hx (hr ▸ hp)
    · refine ⟨g.live, ?_, hb0⟩
      rw [g.refAt _ _ g.live, if_pos ⟨rfl, rfl⟩]

theorem addrOf_other (g : Gives sb v w i p b) {bn : Nat} (hj : v.Live sb j)
    (hne : ¬ (j = i ∧ posOf bn = some p)) : w.addrOf j bn = v.addrOf j bn := by
  cases hq : posOf bn with
  | none => simp [addrOf, hq]
  | some q =>
    rw [addrOf_pos hq, addrOf_pos hq, g.refAt j q hj, if_neg]
    rintro ⟨rfl, rfl⟩
    exact hne ⟨rfl, hq⟩

theorem addrOf_self (g : Gives sb v w i p b) {bn : Nat} (hp : posOf bn = some p) :
    w.addrOf i bn = b := by
  rw [addrOf_pos hp, g.refAt i p g.live, if_pos ⟨rfl, rfl⟩]

theorem maps_other (g : Gives sb v w i p b) (hj : v.Live sb j) (hji : j ≠ i)
    (h : v.Maps j c) : w.Maps j c := by
  intro bn
  rw [g.addrOf_other hj (fun hc => hji hc.1)]
  exact h bn

theorem maps_indirect (g : Gives sb v w i .indirect b) (h : v.Maps i c) : w.Maps i c := by
  intro bn
  rw [g.addrOf_other g.live (fun hc => posOf_ne_indirect bn hc.2)]
  exact h bn

theorem maps_next (g : Gives sb v w i p b) (hr : v.Refs sb) (hp : posOf c = some p)
    (h : v.Maps i c) : w.Maps i (c + 1) := by
  have hb0 : b ≠ 0 := by
    have := (hr.free g.free).1
    have := sb.dataStart_pos
    omega
  intro bn
  by_cases hbn : bn = c
  · subst hbn
    simp [g.addrOf_self hp, hb0]
  · rw [g.addrOf_other g.live (fun hc => hbn (posOf_inj hc.2 hp)), h bn]
    omega

theorem blk_addrOf (g : Gives sb v w i p b) (h : v.Refs sb) {bn : Nat} (hj : v.Live sb j)
    (hbn : v.addrOf j bn ≠ 0) : w.blk (v.addrOf j bn) = v.blk (v.addrOf j bn) := by
  obtain ⟨q, hq, hr⟩ := refers_addrOf hj hbn
  apply g.blk
  · intro heq
    exact (h.free g.free).2 (j, q) (heq ▸ hr)
  · intro heq
    have := h.once _ _ _ hr (heq ▸ refers_ind g.live (heq ▸ hbn))
    rw [Prod.mk.injEq] at this
    exact posOf_ne_indirect bn (this.2 ▸ hq)

end Gives

theorem Refs.ind_ne_addrOf (h : v.Refs sb) {bn : Nat} (hl : v.Live sb i) (hj : v.Live sb j)
    (hbn : v.addrOf i bn ≠ 0) : v.ind j ≠ v.addrOf i bn := by
  intro heq
  obtain ⟨p, hp, hr⟩ := refers_addrOf hl hbn
  have := h.once _ _ _ hr (heq ▸ refers_ind hj (heq ▸ hbn))
  rw [Prod.mk.injEq] at this
  exact posOf_ne_indirect bn (this.2 ▸ hp)

theorem Refs.addrOf_inj (h : v.Refs sb) {bn bn' : Nat} (hl : v.Live sb i) (hj : v.Live sb j)
    (hbn : v.addrOf i bn ≠ 0) (heq : v.addrOf j bn' = v.addrOf i bn) : j = i ∧ bn' = bn := by
  obtain ⟨p, hp, hr⟩ := refers_addrOf hl hbn
  obtain ⟨q, hq, hr'⟩ := refers_addrOf hj (heq ▸ hbn)
  have := h.once _ _ _ hr' (heq ▸ hr)
  rw [Prod.mk.injEq] at this
  exact ⟨this.1, posOf_inj (this.2 ▸ hq) hp⟩

section Data

variable {bn : Nat} {x : Block}

theorem refAt_data (h : v.Refs sb) (hl : v.Live sb i) (hbn : v.addrOf i bn ≠ 0)
    (hj : v.Live sb j) (p : Pos) : (v.setBlk (v.addrOf i bn) x).refAt j p = v.refAt j p :=
  refAt_setBlk (h.ind_ne_addrOf hl hj hbn) p

theorem addrOf_data (h : v.Refs sb) (hl : v.Live sb i) (hbn : v.addrOf i bn ≠ 0)
    (hj : v.Live sb j) (bn' : Nat) :
    (v.setBlk (v.addrOf i bn) x).addrOf j bn' = v.addrOf j bn' := by
  cases hq : posOf bn' with
  | none => simp [addrOf, hq]
  | some q => rw [addrOf_pos hq, addrOf_pos hq, refAt_data h hl hbn hj]

theorem refs_data (h : v.Refs sb) (hl : v.Live sb i) (hbn : v.addrOf i bn ≠ 0) :
    (v.setBlk (v.addrOf i bn) x).Refs sb := by
  refine h.same rfl ?_
  rintro ⟨j, q⟩ y
  simp only [Refers, live_setBlk]
  constructor
  · rintro ⟨hj, hr, hy⟩
    exact ⟨hj, by rwa [refAt_data h hl hbn hj] at hr, hy⟩
  · rintro ⟨hj, hr, hy⟩
    exact ⟨hj, by rwa [refAt_data h hl hbn hj], hy⟩

end Data

def fbyte (v : Vol) (i k : Nat) : UInt8 := (v.blk (v.addrOf i (k / BSIZE))).byte (k % BSIZE)

/-- `w` is `v` with more blocks for file `i`: what was mapped is mapped and stored as before. -/
structure Ext (sb : Superblock) (v w : Vol) (i : Nat) : Prop where
  dino : ∀ j, { w.dino j with addrs := (v.dino j).addrs } = v.dino j
  other : ∀ j, j ≠ i → w.dino j = v.dino j
  addrOf : ∀ j bn, v.Live sb j → v.addrOf j bn ≠ 0 → w.addrOf j bn = v.addrOf j bn
  blk : ∀ j bn, v.Live sb j → v.addrOf j bn ≠ 0 →
    w.blk (v.addrOf j bn) = v.blk (v.addrOf j bn)
  maps : ∀ j c, v.Live sb j → j ≠ i → v.Maps j c → w.Maps j c

namespace Ext

variable {w x : Vol}

theorem refl (v : Vol) (i : Nat) : Ext sb v v i where
  dino := fun _ => rfl
  other := fun _ _ => rfl
  addrOf := fun _ _ _ _ => rfl
  blk := fun _ _ _ _ => rfl
  maps := fun _ _ _ _ h => h

theorem live_iff (e : Ext sb v w i) (j : Nat) : w.Live sb j ↔ v.Live sb j := by
  have : (w.dino j).type = (v.dino j).type := by rw [← e.dino j]
  simp [Live, this]

theorem trans (e : Ext sb v w i) (e' : Ext sb w x i) : Ext sb v x i where
  dino := by
    intro j
    have h := e.dino j
    rw [← e'.dino j] at h
    exact h
  other := fun j hj => (e'.other j hj).trans (e.other j hj)
  addrOf := by
    intro j bn hj hbn
    have h := e.addrOf j bn hj hbn
    rw [e'.addrOf j bn ((e.live_iff j).mpr hj) (h ▸ hbn), h]
  blk := by
    intro j bn hj hbn
    have h := e.addrOf j bn hj hbn
    have h' := e'.blk j bn ((e.live_iff j).mpr hj) (h ▸ hbn)
    rw [h] at h'
    rw [h', e.blk j bn hj hbn]
  maps := fun j c hj hji h => e'.maps j c ((e.live_iff j).mpr hj) hji (e.maps j c hj hji h)

theorem fbyte_eq (e : Ext sb v w i) {k : Nat} (hj : v.Live sb j)
    (hk : v.addrOf j (k / BSIZE) ≠ 0) : w.fbyte j k = v.fbyte j k := by
  rw [fbyte, e.addrOf j _ hj hk, e.blk j _ hj hk, fbyte]

end Ext

theorem Gives.ext {w : Vol} {p : Pos} {b : Nat} (g : Gives sb v w i p b) (h : v.Refs sb)
    (hp : v.refAt i p = 0) : Ext sb v w i where
  dino := g.dino
  other := g.other
  addrOf := by
    intro j bn hj hbn
    apply g.addrOf_other hj
    rintro ⟨rfl, hq⟩
    exact hbn ((addrOf_pos hq).trans hp)
  blk := fun j bn hj hbn => g.blk_addrOf h hj hbn
  maps := fun j c hj hji hm => g.maps_other hj hji hm

def setSize (v : Vol) (i : Nat) (z : UInt32) : Vol :=
  { v with dino := update v.dino i { v.dino i with size := z } }

section Size

variable {z : UInt32}

theorem setSize_dino_self : (v.setSize i z).dino i = { v.dino i with size := z } := by
  simp [setSize]

theorem setSize_dino_other (h : j ≠ i) : (v.setSize i z).dino j = v.dino j := by
  simp [setSize, h]

theorem setSize_self (v : Vol) (i : Nat) : v.setSize i (v.dino i).size = v := by
  simp [setSize]

theorem setSize_addrs (j : Nat) : ((v.setSize i z).dino j).addrs = (v.dino j).addrs := by
  by_cases h : j = i
  · subst h; rw [setSize_dino_self]
  · rw [setSize_dino_other h]

theorem live_setSize : (v.setSize i z).Live sb j ↔ v.Live sb j := by
  by_cases h : j = i
  · subst h; rw [Live, setSize_dino_self, Live]
  · rw [Live, setSize_dino_other h, Live]

theorem refAt_setSize (j : Nat) (p : Pos) : (v.setSize i z).refAt j p = v.refAt j p :=
  refAt_congr (setSize_addrs j) rfl p

theorem addrOf_setSize (j bn : Nat) : (v.setSize i z).addrOf j bn = v.addrOf j bn := by
  cases hq : posOf bn with
  | none => simp [addrOf, hq]
  | some q => rw [addrOf_pos hq, addrOf_pos hq, refAt_setSize]

theorem fbyte_setSize (j k : Nat) : (v.setSize i z).fbyte j k = v.fbyte j k := by
  rw [fbyte, addrOf_setSize, fbyte]
  rfl

theorem Refs.setSize (h : v.Refs sb) : (v.setSize i z).Refs sb := by
  refine h.same rfl ?_
  rintro ⟨j, q⟩ x
  rw [Refers, live_setSize, refAt_setSize, Refers]

theorem maps_setSize : (v.setSize i z).Maps j c ↔ v.Maps j c := by
  simp only [Maps, addrOf_setSize]

end Size

def freeCount (sb : Superblock) (v : Vol) : Nat :=
  ((Finset.range sb.size).filter fun b => v.bit b = false).card

theorem exists_free {n : Nat} (h : n < freeCount sb v) : ∃ b, b < sb.size ∧ v.bit b = false := by
  obtain ⟨b, hb⟩ := card_pos.mp (Nat.lt_of_le_of_lt (Nat.zero_le n) h)
  simp only [mem_filter, mem_range] at hb
  exact ⟨b, hb⟩

theorem freeCount_alloc {w : Vol} {b : Nat} (hb : b < sb.size) (hfree : v.bit b = false)
    (hbit : w.bit = update v.bit b true) : freeCount sb v = freeCount sb w + 1 := by
  have hset : (Finset.range sb.size).filter (fun c => w.bit c = false) =
      ((Finset.range sb.size).filter fun c => v.bit c = false).erase b := by
    ext c
    simp only [hbit, mem_filter, mem_erase, mem_range]
    by_cases hc : c = b
    · simp [hc]
    · simp [hc]
  have hmem : b ∈ (Finset.range sb.size).filter fun c => v.bit c = false := by simp [hb, hfree]
  rw [freeCount, freeCount, hset, card_erase_add_one hmem]

end Vol
end Xv6.Fs
