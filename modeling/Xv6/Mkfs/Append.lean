import Xv6.Fs.Tree

/-!
# Xv6.Mkfs.Append

`mkfs.c`: the image under construction, and `iappend`.

`mkfs` never frees anything: a counter says which inode and which block come next, and the free map
is written from the counter at the end. `view` is the volume that the map would describe now, so
that `iappend` allocates as `bmap` of the kernel does and the lemmas on volumes apply to both.
-/

namespace Xv6.Mkfs

open Fs Function Option

variable {a b n x : Nat} {p : Nat → UInt8}

abbrev NINODES : Nat := 200
abbrev FSSIZE : Nat := 1000

def nbitmap : Nat := FSSIZE / (BSIZE * 8) + 1
def ninodeblocks : Nat := NINODES / IPB + 1
def nlog : Nat := LOGSIZE
def nmeta : Nat := 2 + nlog + ninodeblocks + nbitmap

theorem log_ge : 2 ≤ 2 := le_refl 2

def sb : Superblock where
  size := FSSIZE
  nblocks := FSSIZE - nmeta
  ninodes := NINODES
  nlog := nlog
  logstart := 2
  inodestart := 2 + nlog
  bmapstart := 2 + nlog + ninodeblocks
  log_ge := log_ge
  inode_ge := by decide
  bmap_gt := by decide
  data_gt := by decide
  size_lt := by decide
  ninodes_lt := by decide

/-- The image file and the two counters. -/
structure Mk where
  disk : Nat → Block
  freeinode : Nat
  freeblock : Nat

namespace Mk

def wsect (m : Mk) (sec : Nat) (buf : Block) : Mk :=
  { m with disk := update m.disk sec buf }

/-- A read behind the end of the image fails, and `mkfs` exits. -/
def rsect (m : Mk) (sec : Nat) : Option Block := if sec < FSSIZE then some (m.disk sec) else none

def rinode (m : Mk) (inum : Nat) : Option Dinode := do
  let buf ← m.rsect (sb.iblock inum)
  return getDinode buf (inum % IPB)

def winode (m : Mk) (inum : Nat) (din : Dinode) : Option Mk := do
  let buf ← m.rsect (sb.iblock inum)
  return m.wsect (sb.iblock inum) (setDinode buf (inum % IPB) din)

end Mk

def ialloc (m : Mk) (type : Int16) : Option (Nat × Mk) := do
  let inum := m.freeinode
  let m ← ({ m with freeinode := m.freeinode + 1 }).winode inum ⟨type, 0, 0, 1, 0, fun _ => 0⟩
  return (inum, m)

/-- `if(xint(din.addrs[k]) == 0) din.addrs[k] = xint(freeblock++);` -/
def mapAddr (m : Mk) (din : Dinode) (k : Fin (NDIRECT + 1)) : Mk × Dinode :=
  if din.addrs k = 0 then
    ({ m with freeblock := m.freeblock + 1 },
      { din with addrs := update din.addrs k (UInt32.ofNat m.freeblock) })
  else (m, din)

/-- The same for entry `j` of the indirect block `a`, with what was read of it. -/
def mapEntry (m : Mk) (a : Nat) (indirect : Block) (j : Nat) : Mk × Block :=
  if indirect.word j = 0 then
    let indirect := indirect.setWord j (UInt32.ofNat m.freeblock)
    (({ m with freeblock := m.freeblock + 1 }).wsect a indirect, indirect)
  else (m, indirect)

/-- The block `x` for block number `fbn`. -/
def mapBlock (m : Mk) (din : Dinode) (fbn : Nat) : Option (Nat × Mk × Dinode) :=
  if h : fbn < NDIRECT then
    let (m, din) := mapAddr m din (Fin.castSucc ⟨fbn, h⟩)
    some ((din.addrs (Fin.castSucc ⟨fbn, h⟩)).toNat, m, din)
  else do
    let (m, din) := mapAddr m din (Fin.last NDIRECT)
    let a := (din.addrs (Fin.last NDIRECT)).toNat
    let indirect ← m.rsect a
    let (m, indirect) := mapEntry m a indirect (fbn - NDIRECT)
    return ((indirect.word (fbn - NDIRECT)).toNat, m, din)

/-- The loop of `iappend`; `none` is a failed assertion or read. -/
def appendLoop (p : Nat → UInt8) (n tot off : Nat) (m : Mk) (din : Dinode) :
    Option (Nat × Mk × Dinode) :=
  if tot < n then
    let fbn := off / BSIZE
    if MAXFILE ≤ fbn then none
    else do
      let (x, m, din) ← mapBlock m din fbn
      let n1 := min (n - tot) ((fbn + 1) * BSIZE - off)
      let buf ← m.rsect x
      let m := m.wsect x (buf.patch (off - fbn * BSIZE) n1 fun k => p (tot + k))
      appendLoop p n (tot + n1) (off + n1) m din
  else some (off, m, din)
termination_by n - tot
decreasing_by simp only [BSIZE]; omega

def iappend (m : Mk) (inum : Nat) (p : Nat → UInt8) (n : Nat) : Option Mk := do
  let din ← m.rinode inum
  let (off, m, din) ← appendLoop p n 0 din.size.toNat m din
  m.winode inum { din with size := UInt32.ofNat off }

/-! ## The volume so far -/

/-- The volume on the image, with the map that `balloc(freeblock)` would write. -/
def view (m : Mk) : Vol :=
  { volOf sb m.disk with bit := fun b => if b < sb.size then decide (b < m.freeblock) else true }

/-- The volume when inode `i` is `din` and has not been written yet. -/
abbrev viewWith (m : Mk) (i : Nat) (din : Dinode) : Vol := (view m).setDino i din

/-- The next blocks are data blocks, and still zero. -/
structure Clean (m : Mk) : Prop where
  start : sb.dataStart ≤ m.freeblock
  room : m.freeblock ≤ FSSIZE
  zero : ∀ b, m.freeblock ≤ b → m.disk b = Block.zero

section Map

variable {m m' : Mk} {i c : Nat} {din din' : Dinode}

/-- What a turn of the loop leaves alone: everything that is not a data block. -/
structure Grows (m m' : Mk) : Prop where
  inodes : m'.freeinode = m.freeinode
  meta_eq : ∀ b, b < sb.dataStart → m'.disk b = m.disk b

theorem Grows.refl (m : Mk) : Grows m m := ⟨rfl, fun _ _ => rfl⟩

theorem Grows.trans {m'' : Mk} (h : Grows m m') (h' : Grows m' m'') : Grows m m'' :=
  ⟨h'.inodes.trans h.inodes, fun b hb => (h'.meta_eq b hb).trans (h.meta_eq b hb)⟩

theorem Grows.next (m : Mk) : Grows m { m with freeblock := m.freeblock + 1 } :=
  ⟨rfl, fun _ _ => rfl⟩

theorem Grows.wsect (ha : sb.dataStart ≤ a) (x : Block) : Grows m (m.wsect a x) :=
  ⟨rfl, fun b hb => update_of_ne (by omega) _ _⟩

theorem view_wsect (ha : sb.dataStart ≤ a) (x : Block) :
    viewWith (m.wsect a x) i din = (viewWith m i din).setBlk a x := by
  have hvol : volOf sb (m.wsect a x).disk = _ := volOf_data (d := m.disk) ha x
  simp only [viewWith, view, hvol]
  rfl

theorem view_next (h : Clean m) (hlt : m.freeblock < FSSIZE) :
    viewWith { m with freeblock := m.freeblock + 1 } i din =
      (viewWith m i din).alloc m.freeblock := by
  apply Vol.ext'
  · intro b
    simp only [view, Vol.setDino, Vol.alloc_bit]
    by_cases hb : b = m.freeblock
    · subst hb
      have : sb.size = FSSIZE := rfl
      simp [this, hlt]
    · rw [update_of_ne hb]
      congr 2
      exact propext (by omega)
  · exact fun _ => rfl
  · intro b
    simp only [view, Vol.setDino, Vol.alloc_blk]
    by_cases hb : b = m.freeblock
    · subst hb
      rw [update_self, volOf_blk h.start, h.zero _ (le_refl _)]
    · rw [update_of_ne hb]

theorem view_setAddr {v : Vol} (k : Fin (NDIRECT + 1)) (a : UInt32) :
    (v.setDino i din).setAddr i k a = v.setDino i { din with addrs := update din.addrs k a } := by
  simp [Vol.setAddr, Vol.setDino]

theorem Clean.next (h : Clean m) (hlt : m.freeblock < FSSIZE) :
    Clean { m with freeblock := m.freeblock + 1 } :=
  ⟨h.start.trans (Nat.le_succ _), hlt, fun b hb => h.zero b ((Nat.le_succ _).trans hb)⟩

theorem Clean.toNat (h : Clean m) : (UInt32.ofNat m.freeblock).toNat = m.freeblock :=
  UInt32.toNat_ofNat_of_lt' (h.room.trans_lt (by decide))

theorem Clean.wsect (h : Clean m) (ha : a < m.freeblock) (x : Block) : Clean (m.wsect a x) := by
  refine ⟨h.start, h.room, fun b hb => ?_⟩
  have hne : b ≠ a := fun heq => by
    rw [heq] at hb
    exact absurd ha (not_lt.mpr hb)
  exact (update_of_ne hne _ _).trans (h.zero b hb)

theorem refers_lt {r : Nat × Pos} (hrefs : (viewWith m i din).Refs sb)
    (h : (viewWith m i din).Refers sb r b) : sb.dataStart ≤ b ∧ b < m.freeblock := by
  obtain ⟨h1, h2⟩ := hrefs.data b r h
  have hbit := hrefs.used h
  simp only [view, Vol.setDino, if_pos h2, decide_eq_true_eq] at hbit
  exact ⟨h1, hbit⟩

theorem disk_eq (hb : sb.dataStart ≤ b) : m.disk b = (viewWith m i din).blk b :=
  (volOf_blk hb).symm

theorem free_bit (hlt : m.freeblock < FSSIZE) : (viewWith m i din).bit m.freeblock = false := by
  have : m.freeblock < sb.size := hlt
  simp [view, Vol.setDino, this]

theorem rsect_some {x : Block} (h : m.rsect b = some x) : b < FSSIZE ∧ x = m.disk b := by
  rw [Mk.rsect] at h
  split at h
  · rename_i hlt
    exact ⟨hlt, (Option.some.inj h).symm⟩
  · cases h

/-- A new entry of the indirect block `a`. -/
abbrev withEntry (m : Mk) (a j : Nat) : Mk :=
  ({ m with freeblock := m.freeblock + 1 }).wsect a
    ((m.disk a).setWord j (UInt32.ofNat m.freeblock))

theorem mapEntry_new (i : Nat) (din : Dinode) (j : Nat) (h : Clean m) (hlt : m.freeblock < FSSIZE)
    (ha : sb.dataStart ≤ a ∧ a < m.freeblock) :
    viewWith (withEntry m a j) i din = ((viewWith m i din).alloc m.freeblock).setBlk a
      (((viewWith m i din).blk a).setWord j (UInt32.ofNat m.freeblock)) ∧ Clean (withEntry m a j) ∧
      Grows m (withEntry m a j) := by
  refine ⟨?_, (h.next hlt).wsect (ha.2.trans (Nat.lt_succ_self _)) _, ?_⟩
  · rw [view_wsect ha.1, view_next h hlt, disk_eq ha.1]
  · exact (Grows.next m).trans (.wsect ha.1 _)

/-- What mapping block number `fbn` of a file with `c` blocks leaves; a new block is zero. -/
structure Mapped (v : Vol) (i fbn c : Nat) (m m' : Mk) (x : Nat) (w : Vol) : Prop where
  clean : Clean m'
  grows : Grows m m'
  refs : w.Refs sb
  ext : Vol.Ext sb v w i
  maps : w.Maps i (max c (fbn + 1))
  addr : w.addrOf i fbn = x
  ne : x ≠ 0
  fresh : fbn = c → w.blk x = Block.zero

theorem Mapped.of_gives {v w : Vol} {q : Pos} (hrefs : v.Refs sb)
    (hmaps : v.Maps i c) (hq : Vol.posOf c = some q) (g : Vol.Gives sb v w i q b)
    (hclean : Clean m') (hgrows : Grows m m') (hblk : w.blk b = Block.zero) :
    Mapped v i c c m m' b w := by
  have hb0 : b ≠ 0 := by
    have := (hrefs.free g.free).1
    have := sb.dataStart_pos
    omega
  have h0 : v.refAt i q = 0 := by
    by_contra hne
    refine Nat.lt_irrefl c ((hmaps c).mp ?_)
    rwa [Vol.addrOf_pos hq]
  refine ⟨hclean, hgrows, g.refs hrefs h0, g.ext hrefs h0, ?_, g.addrOf_self hq, hb0, fun _ => hblk⟩
  rw [Nat.max_eq_right (Nat.le_succ c)]
  exact g.maps_next hrefs hq hmaps

section Cases

variable (hclean : Clean m) (hrefs : (viewWith m i din).Refs sb)
  (hl : (viewWith m i din).Live sb i) (hmaps : (viewWith m i din).Maps i c)

theorem view_addrs : ((viewWith m i din).dino i).addrs = din.addrs := by
  rw [Vol.setDino_self]

theorem view_ind : (viewWith m i din).ind i = (din.addrs (Fin.last NDIRECT)).toNat := by
  rw [Vol.ind, Vol.setDino_self]

include hclean hrefs hl hmaps

theorem mapBlock_old {fbn : Nat} (hlt : fbn < c) : ∃ x, mapBlock m din fbn = some (x, m, din) ∧
      Mapped (viewWith m i din) i fbn c m m x (viewWith m i din) := by
  have hne := (hmaps fbn).mpr hlt
  refine ⟨(viewWith m i din).addrOf i fbn, ?_, hclean, .refl m, hrefs, .refl _ _, ?_, rfl, hne,
    fun heq => absurd heq hlt.ne⟩
  · obtain ⟨q, hq, hr⟩ := Vol.posOf_of_ne_zero hne
    rw [mapBlock]
    by_cases hd : fbn < NDIRECT
    · rw [dif_pos hd]
      rw [Vol.posOf_direct hd] at hq
      cases hq
      rw [Vol.refAt_direct, view_addrs] at hr
      have h0 : din.addrs (Fin.castSucc ⟨fbn, hd⟩) ≠ 0 := fun hz => hne (by
        rw [← hr]
        exact congrArg UInt32.toNat hz)
      rw [mapAddr, if_neg h0, ← hr]
    · have hmax := hmaps.le
      simp only [MAXFILE] at hmax
      have he : fbn - NDIRECT < NINDIRECT := by omega
      rw [dif_neg hd]
      rw [Vol.posOf_entry hd he] at hq
      cases hq
      rw [Vol.refAt_entry] at hr
      have hind : (viewWith m i din).ind i ≠ 0 := by
        intro h0
        rw [if_pos h0] at hr
        exact hne hr.symm
      rw [if_neg hind] at hr
      have h0 : din.addrs (Fin.last NDIRECT) ≠ 0 := fun hz => hind (by
        rw [view_ind, hz]
        rfl)
      rw [← disk_eq (refers_lt hrefs (Vol.refers_ind hl hind)).1, view_ind] at hr
      have hw : (m.disk (din.addrs (Fin.last NDIRECT)).toNat).word (fbn - NDIRECT) ≠ 0 := fun hz =>
        hne (by
          rw [← hr, hz]
          rfl)
      have hsize : (din.addrs (Fin.last NDIRECT)).toNat < FSSIZE := by
        rw [← view_ind]
        exact (hrefs.data _ _ (Vol.refers_ind hl hind)).2
      rw [mapAddr, if_neg h0, ← hr]
      dsimp only
      rw [Mk.rsect, if_pos hsize]
      dsimp only [bind_eq_bind, bind_some]
      rw [mapEntry, if_neg hw]
      rfl
  · rwa [Nat.max_eq_left hlt]

theorem mapBlock_direct (hd : c < NDIRECT) (hm : mapBlock m din c = some (x, m', din'))
    (hx : x < FSSIZE) : Mapped (viewWith m i din) i c c m m' x (viewWith m' i din') := by
  have hq := Vol.posOf_direct hd
  have h0 : din.addrs (Fin.castSucc ⟨c, hd⟩) = 0 := by
    by_contra hne
    refine Nat.lt_irrefl c ((hmaps c).mp ?_)
    rw [Vol.addrOf_pos hq, Vol.refAt_direct, view_addrs]
    exact fun hz => hne (UInt32.toNat_inj.mp hz)
  rw [mapBlock, dif_pos hd, mapAddr, if_pos h0] at hm
  dsimp only at hm
  rw [update_self, hclean.toNat] at hm
  cases hm
  have g := Vol.gives_direct hrefs (b := m.freeblock) hx (free_bit hx) hl ⟨c, hd⟩
  have hview : viewWith { m with freeblock := m.freeblock + 1 } i
      { din with
        addrs := update din.addrs (Fin.castSucc ⟨c, hd⟩) (UInt32.ofNat m.freeblock) } =
      ((viewWith m i din).alloc m.freeblock).setAddr i (Fin.castSucc ⟨c, hd⟩)
        (UInt32.ofNat m.freeblock) := by
    rw [← view_next hclean hx, view_setAddr]
  rw [hview]
  refine Mapped.of_gives hrefs hmaps hq g (hclean.next hx) (.next m) ?_
  rw [Vol.setAddr_blk, Vol.alloc_blk, update_self]

theorem mapEntry_next {b : Block} (hd : ¬ c < NDIRECT) (he : c - NDIRECT < NINDIRECT)
    (ha : (viewWith m i din).ind i = a) (ha0 : a ≠ 0)
    (hm : mapEntry m a (m.disk a) (c - NDIRECT) = (m', b)) (hb : (b.word (c - NDIRECT)).toNat = x)
    (hx : x < FSSIZE) : Mapped (viewWith m i din) i c c m m' x (viewWith m' i din) := by
  have hq := Vol.posOf_entry hd he
  have hind : (viewWith m i din).ind i ≠ 0 := ha ▸ ha0
  have hused := refers_lt hrefs (Vol.refers_ind hl hind)
  rw [ha] at hused
  have h0 : (m.disk a).word (c - NDIRECT) = 0 := by
    by_contra hne
    refine Nat.lt_irrefl c ((hmaps c).mp ?_)
    rw [Vol.addrOf_pos hq, Vol.refAt_entry, if_neg hind, ha, ← disk_eq hused.1]
    exact fun hz => hne (UInt32.toNat_inj.mp hz)
  have hj : 4 * (c - NDIRECT) + 4 ≤ BSIZE := by
    simp only [NINDIRECT, BSIZE] at he ⊢
    omega
  rw [mapEntry, if_pos h0] at hm
  cases hm
  rw [Block.word_setWord_same hj, hclean.toNat] at hb
  subst hb
  obtain ⟨hview, hclean', hgrows⟩ := mapEntry_new i din (c - NDIRECT) hclean hx hused
  have g := Vol.gives_entry hrefs (b := m.freeblock) hx (free_bit hx) hl hind ⟨c - NDIRECT, he⟩
  rw [ha, ← hview] at g
  refine Mapped.of_gives hrefs hmaps hq g hclean' hgrows ?_
  rw [hview, Vol.setBlk_blk, update_of_ne (by omega), Vol.alloc_blk, update_self]

theorem mapBlock_entry (hd : ¬ c < NDIRECT) (he : c - NDIRECT < NINDIRECT)
    (hind : (viewWith m i din).ind i ≠ 0) (hm : mapBlock m din c = some (x, m', din'))
    (hx : x < FSSIZE) : Mapped (viewWith m i din) i c c m m' x (viewWith m' i din') := by
  have h0 : din.addrs (Fin.last NDIRECT) ≠ 0 := fun hz => hind (by
    rw [view_ind, hz]
    rfl)
  rw [mapBlock, dif_neg hd, mapAddr, if_neg h0] at hm
  obtain ⟨b, hb, hm⟩ := bind_eq_some_iff.mp hm
  obtain ⟨-, rfl⟩ := rsect_some hb
  obtain ⟨rfl, hrest⟩ := Prod.mk.inj (Option.some.inj hm)
  obtain ⟨rfl, rfl⟩ := Prod.mk.inj hrest
  exact mapEntry_next hclean hrefs hl hmaps hd he view_ind (view_ind ▸ hind) rfl rfl hx

theorem mapBlock_indirect (hd : ¬ c < NDIRECT) (he : c - NDIRECT < NINDIRECT)
    (hind : (viewWith m i din).ind i = 0) (hm : mapBlock m din c = some (x, m', din'))
    (hx : x < FSSIZE) : Mapped (viewWith m i din) i c c m m' x (viewWith m' i din') := by
  have h0 : din.addrs (Fin.last NDIRECT) = 0 := by
    rw [view_ind] at hind
    exact UInt32.toNat_inj.mp hind
  rw [mapBlock, dif_neg hd, mapAddr, if_pos h0] at hm
  obtain ⟨b, hb, hm⟩ := bind_eq_some_iff.mp hm
  obtain ⟨hlt, rfl⟩ := rsect_some hb
  dsimp only at hm hlt
  rw [update_self, hclean.toNat] at hm hlt
  generalize hdin1 : ({ din with
    addrs := update din.addrs (Fin.last NDIRECT) (UInt32.ofNat m.freeblock) } : Dinode) =
    din1 at hm
  generalize hm1 : ({ m with freeblock := m.freeblock + 1 } : Mk) = m1 at hm
  have hdisk : m.disk = m1.disk := by rw [← hm1]
  rw [hdisk] at hm
  generalize hent : mapEntry m1 m.freeblock (m1.disk m.freeblock) (c - NDIRECT) = r at hm
  obtain ⟨m2, b⟩ := r
  obtain ⟨rfl, hrest⟩ := Prod.mk.inj (Option.some.inj hm)
  obtain ⟨rfl, rfl⟩ := Prod.mk.inj hrest
  have hview : viewWith m1 i din1 = ((viewWith m i din).alloc m.freeblock).setAddr i
      (Fin.last NDIRECT) (UInt32.ofNat m.freeblock) := by
    rw [← view_next hclean hlt, view_setAddr, hm1, hdin1]
  have g := Vol.gives_indirect hrefs (b := m.freeblock) hlt (free_bit hlt) hl hind
  rw [← hview] at g
  have hl1 := (g.live_iff i).mpr hl
  have hind1 : (viewWith m1 i din1).ind i = m.freeblock := by
    have := g.refAt i .indirect hl
    rwa [if_pos ⟨rfl, rfl⟩] at this
  have hb0 : m.freeblock ≠ 0 := by
    have := hclean.start
    have := sb.dataStart_pos
    omega
  have hnext := mapEntry_next (hm1 ▸ hclean.next hlt) (g.refs hrefs hind) hl1
    (g.maps_indirect hmaps) hd he hind1 hb0 hent rfl hx
  exact { hnext with
    grows := (hm1 ▸ Grows.next m : Grows m m1).trans hnext.grows
    ext := (g.ext hrefs hind).trans hnext.ext }

theorem mapBlock_maps {fbn : Nat} (hfbn : fbn ≤ c) (hmax : fbn < MAXFILE)
    (hm : mapBlock m din fbn = some (x, m', din')) (hx : x < FSSIZE) :
    Mapped (viewWith m i din) i fbn c m m' x (viewWith m' i din') := by
  rcases Nat.lt_or_eq_of_le hfbn with hlt | rfl
  · obtain ⟨y, hy, hmapped⟩ := mapBlock_old hclean hrefs hl hmaps hlt
    rw [hy] at hm
    cases hm
    exact hmapped
  · by_cases hd : fbn < NDIRECT
    · exact mapBlock_direct hclean hrefs hl hmaps hd hm hx
    · have he : fbn - NDIRECT < NINDIRECT := by
        simp only [MAXFILE] at hmax
        omega
      by_cases hind : (viewWith m i din).ind i = 0
      · exact mapBlock_indirect hclean hrefs hl hmaps hd he hind hm hx
      · exact mapBlock_entry hclean hrefs hl hmaps hd he hind hm hx

end Cases

end Map

/-- The blocks of file `i` hold zeros from byte `off` on. -/
def Tail (v : Vol) (i off : Nat) : Prop :=
  ∀ k, off ≤ k → v.addrOf i (k / BSIZE) ≠ 0 → v.fbyte i k = 0

/-- The head of the loop: file `i` has `off` bytes, and the blocks for them. -/
structure Appending (m : Mk) (i : Nat) (din : Dinode) (off : Nat) : Prop where
  clean : Clean m
  refs : (viewWith m i din).Refs sb
  live : (viewWith m i din).Live sb i
  maps : (viewWith m i din).Maps i (Vol.blocksOf off)
  tail : Tail (viewWith m i din) i off

section Loop

variable {m m' : Mk} {i : Nat} {din din' : Dinode}

theorem append_turn {off : Nat} (n1 : Nat) (src : Nat → UInt8) (h : Appending m i din off)
    (hmax : off / BSIZE < MAXFILE) (h1 : 0 < n1) (h2 : n1 ≤ BSIZE - off % BSIZE)
    (hm : mapBlock m din (off / BSIZE) = some (x, m', din')) (hfit : x < FSSIZE) :
    Appending (m'.wsect x ((m'.disk x).patch (off % BSIZE) n1 src)) i din' (off + n1) ∧
      Grows m (m'.wsect x ((m'.disk x).patch (off % BSIZE) n1 src)) ∧
      Vol.Wrote sb (viewWith m i din)
        (viewWith (m'.wsect x ((m'.disk x).patch (off % BSIZE) n1 src)) i din') i off (off + n1)
        fun k => src (k - off) := by
  have hle : Vol.blocksOf off ≤ off / BSIZE + 1 := by
    simp only [Vol.blocksOf, BSIZE]
    omega
  have hmap := mapBlock_maps h.clean h.refs h.live h.maps (Vol.div_le_blocksOf off) hmax hm hfit
  have hl' := (hmap.ext.live_iff i).mpr h.live
  have hne : (viewWith m' i din').addrOf i (off / BSIZE) ≠ 0 := hmap.addr ▸ hmap.ne
  obtain ⟨q, -, hrefers⟩ := Vol.refers_addrOf hl' hne
  have hx := refers_lt hmap.refs hrefers
  rw [hmap.addr] at hx
  have hblocks : Vol.blocksOf (off + n1) = off / BSIZE + 1 := Vol.blocksOf_add h1 h2
  have hview : viewWith (m'.wsect x ((m'.disk x).patch (off % BSIZE) n1 src)) i din' = _ :=
    view_wsect hx.1 _
  have hwrote : Vol.Wrote _ _ _ _ _ (off + n1) fun k => src (k - off) :=
    hmap.ext.wrote hmap.refs h.live hne h2
  rw [hmap.addr, ← disk_eq hx.1, ← hview] at hwrote
  have hdata : ∀ bn, (viewWith (m'.wsect x ((m'.disk x).patch (off % BSIZE) n1 src)) i din').addrOf
      i bn = (viewWith m' i din').addrOf i bn := fun bn => by
    rw [hview, ← hmap.addr]
    exact Vol.addrOf_data hmap.refs hl' hne hl' bn
  refine ⟨⟨hmap.clean.wsect hx.2 _, ?_, ?_, ?_, ?_⟩, hmap.grows.trans (.wsect hx.1 _), hwrote⟩
  · rw [hview, ← hmap.addr]
    exact Vol.refs_data hmap.refs hl' hne
  · exact (hwrote.live_iff i).mpr h.live
  · intro bn
    rw [hdata, hmap.maps bn, hblocks, Nat.max_eq_right hle]
  · -- past the end there is only the rest of the block just written
    intro k hk hkne
    rw [hdata] at hkne
    have hlast := (hmap.maps (k / BSIZE)).mp hkne
    rw [Nat.max_eq_right hle] at hlast
    have hdiv : k / BSIZE = off / BSIZE := by
      have : off / BSIZE ≤ k / BSIZE := Nat.div_le_div_right (by omega)
      omega
    have hout : off % BSIZE + n1 ≤ k % BSIZE := by
      simp only [BSIZE] at *
      omega
    have hfit' : off % BSIZE + n1 ≤ BSIZE := by
      simp only [BSIZE] at *
      omega
    rw [Vol.fbyte, hdata, hdiv, hmap.addr, hview, Vol.setBlk_blk, update_self,
      Block.byte_patch hfit', Bytes.patch_out (.inr hout), disk_eq hx.1]
    by_cases hc : off / BSIZE = Vol.blocksOf off
    · rw [hmap.fresh hc, Block.byte_zero]
    · have hold : (viewWith m i din).addrOf i (off / BSIZE) ≠ 0 :=
        (h.maps _).mpr (lt_of_le_of_ne (Vol.div_le_blocksOf off) hc)
      have hsame := hmap.ext.fbyte_eq (k := k) h.live (hdiv ▸ hold)
      rw [Vol.fbyte, hdiv, hmap.addr] at hsame
      rw [hsame]
      exact h.tail k (by omega) (hdiv ▸ hold)

theorem appendLoop_some {tot off off' : Nat}
    (h : appendLoop p n tot off m din = some (off', m', din')) :
    (n ≤ tot ∧ off' = off ∧ m' = m ∧ din' = din) ∨
    (tot < n ∧ off / BSIZE < MAXFILE ∧ ∃ x m1 din1 n1,
      mapBlock m din (off / BSIZE) = some (x, m1, din1) ∧ x < FSSIZE ∧
      n1 = min (n - tot) (BSIZE - off % BSIZE) ∧
      appendLoop p n (tot + n1) (off + n1)
        (m1.wsect x ((m1.disk x).patch (off % BSIZE) n1 fun k => p (tot + k))) din1 =
          some (off', m', din')) := by
  rw [appendLoop] at h
  by_cases hlt : tot < n
  · rw [if_pos hlt] at h
    dsimp only at h
    by_cases hmax : MAXFILE ≤ off / BSIZE
    · rw [if_pos hmax] at h
      cases h
    · rw [if_neg hmax] at h
      have hn1 : (off / BSIZE + 1) * BSIZE - off = BSIZE - off % BSIZE := by
        simp only [BSIZE]
        omega
      have hoff : off - off / BSIZE * BSIZE = off % BSIZE := by
        simp only [BSIZE]
        omega
      rw [hn1, hoff] at h
      obtain ⟨⟨x, m1, din1⟩, hmap, h⟩ := bind_eq_some_iff.mp h
      obtain ⟨b, hb, h⟩ := bind_eq_some_iff.mp h
      obtain ⟨hx, rfl⟩ := rsect_some hb
      exact .inr ⟨hlt, not_le.mp hmax, x, m1, din1, _, hmap, hx, rfl, h⟩
  · rw [if_neg hlt] at h
    cases h
    exact .inl ⟨not_lt.mp hlt, rfl, rfl, rfl⟩

theorem appendLoop_appends (tot off : Nat) {off' : Nat} (htot : tot ≤ n)
    (h : appendLoop p n tot off m din = some (off', m', din')) (hs : Appending m i din off) :
    off' = off + (n - tot) ∧ Appending m' i din' off' ∧ Grows m m' ∧
      Vol.Wrote sb (viewWith m i din) (viewWith m' i din') i off off'
        fun k => p (tot + (k - off)) := by
  induction hleft : n - tot using Nat.strong_induction_on generalizing tot off m din with
  | _ left ih =>
    subst hleft
    rcases appendLoop_some h with ⟨hge, rfl, rfl, rfl⟩ | ⟨hlt, hmax, x, m1, din1, n1, hmap, hx, hn1,
      h⟩
    · exact ⟨by omega, hs, .refl _, .refl _ _ _ _⟩
    · have hpos : 0 < BSIZE - off % BSIZE := Nat.sub_pos_of_lt (Nat.mod_lt _ (by decide))
      obtain ⟨hs1, hgrows, hwrote⟩ := append_turn n1 (fun k => p (tot + k)) hs hmax
        (by omega) (by omega) hmap hx
      obtain ⟨hoff, hs', hgrows', hwrote'⟩ := ih _ (by omega) _ _ (by omega) h hs1 rfl
      refine ⟨by omega, hs', hgrows.trans hgrows', ?_⟩
      have hwrote1 : Vol.Wrote sb _ (viewWith m' i din') i (off + n1) off'
          fun k => p (tot + (k - off)) := hwrote'.congr fun k h1 _ => by
        congr 1
        omega
      refine hwrote.trans hwrote1 (Nat.le_add_right _ _) (by omega) fun k h1 h2 => ?_
      exact (hs1.maps _).mpr (Vol.div_lt_blocksOf h2)

end Loop

/-- Between two appends: every inode has the blocks for its bytes, and zeros after them. -/
structure Sound (m : Mk) : Prop where
  clean : Clean m
  wf : (view m).WellFormed sb
  tail : ∀ i, (view m).Live sb i → Tail (view m) i ((view m).dino i).size.toNat
  unused : ∀ i, m.freeinode ≤ i → ¬ (view m).Live sb i

section Iappend

variable {m m' : Mk} {i : Nat}

theorem rsect_inode (hi : i < NINODES) : m.rsect (sb.iblock i) = some (m.disk (sb.iblock i)) := by
  have := sb.iblock_lt (i := i) hi
  exact if_pos (this.trans (by decide))

theorem rinode_eq (hi : i < NINODES) : m.rinode i = some ((view m).dino i) := by
  have : i < sb.ninodes := hi
  simp [Mk.rinode, rsect_inode hi, view, volOf, this]

theorem winode_some {din : Dinode} (hi : i < NINODES) (h : m.winode i din = some m') :
    view m' = viewWith m i din ∧ m'.freeinode = m.freeinode ∧ (Clean m → Clean m') ∧
      ∀ b, b < sb.inodestart → m'.disk b = m.disk b := by
  rw [Mk.winode, rsect_inode hi] at h
  cases h
  refine ⟨?_, rfl, fun hclean => hclean.wsect ?_ _, fun b hb => update_of_ne ?_ _ _⟩
  · have hvol : volOf sb _ = _ := volOf_setDinode (d := m.disk) hi din
    simp only [view, Mk.wsect, hvol]
    rfl
  · have := sb.iblock_lt (i := i) hi
    have := sb.bmapstart_lt
    exact (by omega : sb.iblock i < sb.dataStart).trans_le hclean.start
  · have : sb.inodestart ≤ sb.iblock i := Nat.le_add_left _ _
    omega

theorem setDino_size (m : Mk) (i : Nat) (din : Dinode) (z : UInt32) :
    viewWith m i { din with size := z } = (viewWith m i din).setSize i z := by
  simp [Vol.setDino, Vol.setSize]

theorem Sound.appending (hs : Sound m) (hl : (view m).Live sb i) :
    Appending m i ((view m).dino i) ((view m).dino i).size.toNat := by
  constructor
  · exact hs.clean
  all_goals rw [viewWith, Vol.setDino_eq_self]
  · exact hs.wf.refs
  · exact hl
  · exact hs.wf.maps i hl
  · exact hs.tail i hl

theorem Sound.tail_other {w : Vol} {j lo hi : Nat} {data : Nat → UInt8} (hs : Sound m)
    (hw : Vol.Wrote sb (view m) w i lo hi data) (hj : (view m).Live sb j) (hji : j ≠ i) :
    Tail w j ((view m).dino j).size.toNat := by
  intro k hk hne
  have hold : (view m).addrOf j (k / BSIZE) ≠ 0 := by
    have hmaps := hs.wf.maps j hj
    exact (hmaps _).mpr ((hw.maps j _ hj hji hmaps _).mp hne)
  rw [hw.fbyte j k hj (.inl hold), if_neg fun hc => hji hc.1]
  exact hs.tail j hj k hk hold

theorem iappend_appends (hs : Sound m) (hl : (view m).Live sb i) (h : iappend m i p n = some m') :
    Sound m' ∧ m'.freeinode = m.freeinode ∧ (∀ b, b < sb.inodestart → m'.disk b = m.disk b) ∧
      (view m').tree sb = update ((view m).tree sb) i
        (some { (view m).node i with data := (view m).contents i ++ (List.range n).map p }) := by
  have hi : i < NINODES := hl.1
  have hview : viewWith m i ((view m).dino i) = view m := Vol.setDino_eq_self _ _
  rw [iappend, rinode_eq hi, bind_eq_bind, bind_some] at h
  obtain ⟨⟨off, m1, din1⟩, hloop, h⟩ := bind_eq_some_iff.mp h
  obtain ⟨hv, hfree, hclean, hboot⟩ := winode_some hi h
  obtain ⟨hoff, happ, hgrows, hwrote⟩ :=
    appendLoop_appends 0 _ (Nat.zero_le n) hloop (hs.appending hl)
  rw [setDino_size] at hv
  have hfree' := hfree.trans hgrows.inodes
  rw [hview] at hwrote
  simp only [Nat.zero_add, Nat.sub_zero] at hoff hwrote
  subst hoff
  -- the file has blocks for all its bytes, so the new size fits in its field
  have hlt : ((view m).dino i).size.toNat + n < 2 ^ 32 := by
    have := happ.maps.le
    simp only [Vol.blocksOf, MAXFILE, NDIRECT, NINDIRECT, BSIZE] at this
    omega
  have hz : (UInt32.ofNat (((view m).dino i).size.toNat + n)).toNat =
      ((view m).dino i).size.toNat + n := UInt32.toNat_ofNat_of_lt' hlt
  have hlive : ∀ j z, ((viewWith m1 i din1).setSize i z).Live sb j ↔ (view m).Live sb j :=
    fun j z => by rw [Vol.live_setSize, hwrote.live_iff]
  refine ⟨⟨hclean happ.clean, ?_, ?_, ?_⟩, hfree', fun b hb => ?_, ?_⟩
  · rw [hv]
    exact wellFormed_setSize hs.wf hwrote happ.refs (hz.symm ▸ happ.maps)
  · intro j hj k hk hne
    rw [hv] at hj hk hne ⊢
    rw [Vol.addrOf_setSize] at hne
    rw [Vol.fbyte_setSize]
    by_cases hji : j = i
    · subst hji
      rw [Vol.setSize_dino_self, hz] at hk
      exact happ.tail k hk hne
    · rw [Vol.setSize_dino_other hji, hwrote.other j hji] at hk
      exact hs.tail_other hwrote ((hlive _ _).mp hj) hji k hk hne
  · intro j hj
    rw [hv, hlive]
    exact hs.unused j (hfree' ▸ hj)
  · exact (hboot b hb).trans (hgrows.meta_eq b (hb.trans (by decide)))
  · have htree := hwrote.tree hs.wf hl (le_refl _) hlt
    rw [Nat.max_eq_right (Nat.le_add_right _ _)] at htree
    have hlen : ((view m).contents i).length = ((view m).dino i).size.toNat := by
      simp [Vol.contents]
    rw [hv, htree, splice, ← hlen, List.take_length, List.drop_eq_nil_of_le (Nat.le_add_right _ _),
      List.append_nil]

end Iappend

end Xv6.Mkfs
