import Xv6.Mkfs.Append

/-!
# Xv6.Mkfs.Room

How many blocks `iappend` takes, and that it succeeds where they are there.

A file takes its data blocks and, from the thirteenth on, the indirect block. `mkfs` allocates the
indirect block together with the first block that needs it, so the number of blocks is a function
of the size (`cost`).
-/

namespace Xv6.Mkfs

open Fs Function Option

def cost (size : Nat) : Nat :=
  Vol.blocksOf size + if NDIRECT < Vol.blocksOf size then 1 else 0

/-- The indirect block is there exactly when a file of `off` bytes needs it. -/
def Tight (din : Dinode) (off : Nat) : Prop :=
  din.addrs (Fin.last NDIRECT) = 0 ↔ Vol.blocksOf off ≤ NDIRECT

theorem cost_mono {a b : Nat} (h : a ≤ b) : cost a ≤ cost b := by
  have hblocks : Vol.blocksOf a ≤ Vol.blocksOf b := Nat.div_le_div_right (by omega)
  simp only [cost]
  split <;> split <;> omega

theorem cost_next {off n1 : Nat} (h1 : 0 < n1) (h2 : n1 ≤ BSIZE - off % BSIZE)
    (hc : off / BSIZE = Vol.blocksOf off) :
    cost (off + n1) = cost off + 1 + if Vol.blocksOf off = NDIRECT then 1 else 0 := by
  have hblocks : Vol.blocksOf (off + n1) = Vol.blocksOf off + 1 := by
    rw [Vol.blocksOf_add h1 h2, hc]
  simp only [cost, hblocks]
  split <;> split <;> split <;> omega

theorem cost_same {off n1 : Nat} (h1 : 0 < n1) (h2 : n1 ≤ BSIZE - off % BSIZE)
    (hc : off / BSIZE < Vol.blocksOf off) :
    Vol.blocksOf (off + n1) = Vol.blocksOf off ∧ cost (off + n1) = cost off := by
  have hle : Vol.blocksOf off ≤ off / BSIZE + 1 := by
    simp only [Vol.blocksOf, BSIZE]
    omega
  have hblocks : Vol.blocksOf (off + n1) = Vol.blocksOf off := by
    rw [Vol.blocksOf_add h1 h2]
    omega
  exact ⟨hblocks, by simp only [cost, hblocks]⟩

abbrev withAddr (din : Dinode) (k : Fin (NDIRECT + 1)) (b : Nat) : Dinode :=
  { din with addrs := update din.addrs k (UInt32.ofNat b) }

theorem withAddr_self (din : Dinode) (k : Fin (NDIRECT + 1)) (b : Nat) :
    (withAddr din k b).addrs k = UInt32.ofNat b := update_self _ _ _

theorem withAddr_other {din : Dinode} {k k' : Fin (NDIRECT + 1)} (hne : k' ≠ k) (b : Nat) :
    (withAddr din k b).addrs k' = din.addrs k' := update_of_ne hne _ _

section Block

variable {m : Mk} {i : Nat} {din : Dinode} {off n1 : Nat}

/-- What `mapBlock` gives for the bytes from `off` to `off + n1`. -/
structure Got (m : Mk) (din : Dinode) (off n1 : Nat) (x : Nat) (m' : Mk) (din' : Dinode) :
    Prop where
  result : mapBlock m din (off / BSIZE) = some (x, m', din')
  inside : x < FSSIZE
  taken : m'.freeblock = m.freeblock + (cost (off + n1) - cost off)
  tight : Tight din' (off + n1)

variable (h : Appending m i din off) (ht : Tight din off) (h1 : 0 < n1)
  (h2 : n1 ≤ BSIZE - off % BSIZE) (hroom : m.freeblock + (cost (off + n1) - cost off) ≤ FSSIZE)

include h ht h1 h2

theorem mapBlock_got_old (hc : off / BSIZE < Vol.blocksOf off) :
    ∃ x m' din', Got m din off n1 x m' din' := by
  obtain ⟨x, hmap, hmapped⟩ := mapBlock_old h.clean h.refs h.live h.maps hc
  obtain ⟨hblocks, hcost⟩ := cost_same h1 h2 hc
  have hne : (viewWith m i din).addrOf i (off / BSIZE) ≠ 0 := hmapped.addr ▸ hmapped.ne
  obtain ⟨q, -, hrefers⟩ := Vol.refers_addrOf h.live hne
  have hx := (h.refs.data _ _ hrefers).2
  rw [hmapped.addr] at hx
  refine ⟨x, m, din, hmap, hx, by rw [hcost]; omega, ?_⟩
  rw [Tight, hblocks]
  exact ht

include hroom

theorem mapBlock_got_direct (hc : off / BSIZE = Vol.blocksOf off)
    (hd : Vol.blocksOf off < NDIRECT) : ∃ x m' din', Got m din off n1 x m' din' := by
  have hcost := cost_next h1 h2 hc
  rw [if_neg hd.ne] at hcost
  have hblocks : Vol.blocksOf (off + n1) = Vol.blocksOf off + 1 := by
    rw [Vol.blocksOf_add h1 h2, hc]
  have h0 : din.addrs (Fin.castSucc ⟨off / BSIZE, hc ▸ hd⟩) = 0 := by
    by_contra hne
    refine Nat.lt_irrefl (Vol.blocksOf off) ((h.maps (Vol.blocksOf off)).mp ?_)
    rw [← hc, Vol.addrOf_pos (Vol.posOf_direct (hc ▸ hd)), Vol.refAt_direct, view_addrs]
    exact fun hz => hne (UInt32.toNat_inj.mp hz)
  have hfree : m.freeblock < FSSIZE := by omega
  refine ⟨m.freeblock, { m with freeblock := m.freeblock + 1 },
    withAddr din (Fin.castSucc ⟨off / BSIZE, hc ▸ hd⟩) m.freeblock, ?_, hfree, ?_, ?_⟩
  · rw [mapBlock, dif_pos (hc ▸ hd), mapAddr, if_pos h0]
    dsimp only
    rw [update_self, h.clean.toNat]
  · rw [hcost]
    dsimp only
    omega
  · have hlast : Fin.last NDIRECT ≠ Fin.castSucc ⟨off / BSIZE, hc ▸ hd⟩ :=
      (Fin.castSucc_lt_last _).ne'
    rw [Tight, withAddr_other hlast, hblocks]
    exact iff_of_true (ht.mpr hd.le) hd

theorem mapBlock_got_entry (hc : off / BSIZE = Vol.blocksOf off) (hd : NDIRECT < Vol.blocksOf off)
    (hmax : off / BSIZE < MAXFILE) : ∃ x m' din', Got m din off n1 x m' din' := by
  have hcost := cost_next h1 h2 hc
  rw [if_neg hd.ne'] at hcost
  have hblocks : Vol.blocksOf (off + n1) = Vol.blocksOf off + 1 := by
    rw [Vol.blocksOf_add h1 h2, hc]
  have hlast : din.addrs (Fin.last NDIRECT) ≠ 0 := fun hz => absurd (ht.mp hz) (not_le.mpr hd)
  have hind : (viewWith m i din).ind i ≠ 0 := by
    rw [view_ind]
    exact fun hz => hlast (UInt32.toNat_inj.mp hz)
  have hrefers := Vol.refers_ind h.live hind
  have hused := refers_lt h.refs hrefers
  rw [view_ind] at hused
  have hinside : (din.addrs (Fin.last NDIRECT)).toNat < FSSIZE := by
    rw [← view_ind]
    exact (h.refs.data _ _ hrefers).2
  have hnd : ¬ off / BSIZE < NDIRECT := by omega
  have he : off / BSIZE - NDIRECT < NINDIRECT := by
    simp only [MAXFILE] at hmax
    omega
  have h0 : (m.disk (din.addrs (Fin.last NDIRECT)).toNat).word (off / BSIZE - NDIRECT) = 0 := by
    by_contra hne
    refine Nat.lt_irrefl (Vol.blocksOf off) ((h.maps (Vol.blocksOf off)).mp ?_)
    rw [← hc, Vol.addrOf_pos (Vol.posOf_entry hnd he), Vol.refAt_entry, if_neg hind, view_ind,
      ← disk_eq hused.1]
    exact fun hz => hne (UInt32.toNat_inj.mp hz)
  have hj : 4 * (off / BSIZE - NDIRECT) + 4 ≤ BSIZE := by
    simp only [NINDIRECT, BSIZE] at he ⊢
    omega
  have hfree : m.freeblock < FSSIZE := by omega
  refine ⟨m.freeblock, withEntry m (din.addrs (Fin.last NDIRECT)).toNat (off / BSIZE - NDIRECT),
    din, ?_, hfree, ?_, ?_⟩
  · rw [mapBlock, dif_neg hnd, mapAddr, if_neg hlast]
    dsimp only
    rw [Mk.rsect, if_pos hinside]
    dsimp only [bind_eq_bind, bind_some]
    rw [mapEntry, if_pos h0]
    dsimp only
    rw [Block.word_setWord_same hj, h.clean.toNat]
    rfl
  · rw [hcost]
    show m.freeblock + 1 = _
    omega
  · rw [Tight, hblocks]
    exact iff_of_false hlast (by omega)

theorem mapBlock_got_indirect (hc : off / BSIZE = Vol.blocksOf off)
    (hd : Vol.blocksOf off = NDIRECT) : ∃ x m' din', Got m din off n1 x m' din' := by
  have hcost := cost_next h1 h2 hc
  rw [if_pos hd] at hcost
  have hblocks : Vol.blocksOf (off + n1) = Vol.blocksOf off + 1 := by
    rw [Vol.blocksOf_add h1 h2, hc]
  have hlast : din.addrs (Fin.last NDIRECT) = 0 := ht.mpr hd.le
  have hnd : ¬ off / BSIZE < NDIRECT := by omega
  have hfree : m.freeblock + 1 < FSSIZE := by omega
  have hfree' : m.freeblock < FSSIZE := by omega
  have hword : (m.disk m.freeblock).word (off / BSIZE - NDIRECT) = 0 := by
    rw [h.clean.zero _ le_rfl, Block.word_zero]
  have hnext := h.clean.next hfree'
  have hnum : (UInt32.ofNat (m.freeblock + 1)).toNat = m.freeblock + 1 := hnext.toNat
  have hj : 4 * (off / BSIZE - NDIRECT) + 4 ≤ BSIZE := by
    rw [hc, hd]
    decide
  refine ⟨m.freeblock + 1,
    withEntry { m with freeblock := m.freeblock + 1 } m.freeblock (off / BSIZE - NDIRECT),
    withAddr din (Fin.last NDIRECT) m.freeblock, ?_, hfree, ?_, ?_⟩
  · rw [mapBlock, dif_neg hnd, mapAddr, if_pos hlast]
    dsimp only
    rw [update_self, h.clean.toNat, Mk.rsect, if_pos hfree']
    dsimp only [bind_eq_bind, bind_some]
    rw [mapEntry, if_pos hword]
    dsimp only
    rw [Block.word_setWord_same hj, hnum]
    rfl
  · rw [hcost]
    show m.freeblock + 1 + 1 = _
    omega
  · rw [Tight, hblocks]
    refine iff_of_false (fun hz => ?_) (by omega)
    rw [withAddr_self] at hz
    have hzero := congrArg UInt32.toNat hz
    rw [h.clean.toNat] at hzero
    have := h.clean.start
    have := sb.dataStart_pos
    have : (0 : UInt32).toNat = 0 := rfl
    omega

theorem mapBlock_got (hmax : off / BSIZE < MAXFILE) : ∃ x m' din', Got m din off n1 x m' din' := by
  rcases Nat.lt_or_eq_of_le (Vol.div_le_blocksOf off) with hlt | hc
  · exact mapBlock_got_old h ht h1 h2 hlt
  · rcases Nat.lt_trichotomy (Vol.blocksOf off) NDIRECT with hd | hd | hd
    · exact mapBlock_got_direct h ht h1 h2 hroom hc hd
    · exact mapBlock_got_indirect h ht h1 h2 hroom hc hd
    · exact mapBlock_got_entry h ht h1 h2 hroom hc hd hmax

end Block

section Loop

variable {m : Mk} {i : Nat} {din : Dinode}

theorem appendLoop_turn {p : Nat → UInt8} {n tot off x n1 : Nat} {m1 : Mk} {din1 : Dinode}
    (hlt : tot < n) (hmax : off / BSIZE < MAXFILE) (hn1 : n1 = min (n - tot) (BSIZE - off % BSIZE))
    (hmap : mapBlock m din (off / BSIZE) = some (x, m1, din1)) (hx : x < FSSIZE) :
    appendLoop p n tot off m din = appendLoop p n (tot + n1) (off + n1)
      (m1.wsect x ((m1.disk x).patch (off % BSIZE) n1 fun k => p (tot + k))) din1 := by
  have h1 : (off / BSIZE + 1) * BSIZE - off = BSIZE - off % BSIZE := by
    simp only [BSIZE]
    omega
  have hoff : off - off / BSIZE * BSIZE = off % BSIZE := by
    simp only [BSIZE]
    omega
  rw [appendLoop, if_pos hlt]
  dsimp only
  rw [if_neg (not_le.mpr hmax), hmap, h1, hoff, ← hn1]
  dsimp only [bind_eq_bind, bind_some]
  rw [Mk.rsect, if_pos hx]
  rfl

theorem appendLoop_room {p : Nat → UInt8} {n : Nat} (tot off : Nat) (htot : tot ≤ n)
    (hs : Appending m i din off) (ht : Tight din off) (hmax : off + (n - tot) ≤ MAXFILE * BSIZE)
    (hroom : m.freeblock + (cost (off + (n - tot)) - cost off) ≤ FSSIZE) :
    ∃ m' din', appendLoop p n tot off m din = some (off + (n - tot), m', din') ∧
      m'.freeblock = m.freeblock + (cost (off + (n - tot)) - cost off) ∧
      Tight din' (off + (n - tot)) := by
  induction hleft : n - tot using Nat.strong_induction_on generalizing tot off m din with
  | _ left ih =>
    subst hleft
    by_cases hlt : tot < n
    · generalize hn1 : min (n - tot) (BSIZE - off % BSIZE) = n1
      have hpos : 0 < BSIZE - off % BSIZE := Nat.sub_pos_of_lt (Nat.mod_lt _ (by decide))
      have hblk : off / BSIZE < MAXFILE := by
        simp only [BSIZE] at hmax ⊢
        omega
      have hend : off + n1 + (n - (tot + n1)) = off + (n - tot) := by omega
      have hlo : cost off ≤ cost (off + n1) := cost_mono (Nat.le_add_right _ _)
      have hhi : cost (off + n1) ≤ cost (off + (n - tot)) := cost_mono (by omega)
      have hturn : m.freeblock + (cost (off + n1) - cost off) ≤ FSSIZE := by omega
      obtain ⟨x, m1, din1, hgot⟩ := mapBlock_got hs ht (by omega) (by omega) hturn hblk
      obtain ⟨hs1, -, -⟩ := append_turn n1 (fun k => p (tot + k)) hs hblk (by omega) (by omega)
        hgot.result hgot.inside
      have hfree := hgot.taken
      obtain ⟨m', din', hrun, hfree', htight⟩ := ih (n - (tot + n1)) (by omega) (tot + n1)
        (off + n1)
        (by omega) hs1 hgot.tight (by omega)
        (by
          show m1.freeblock + _ ≤ _
          rw [hend]
          omega) rfl
      rw [hend] at hrun hfree' htight
      refine ⟨m', din', (appendLoop_turn hlt hblk hn1.symm hgot.result hgot.inside).trans hrun, ?_,
        htight⟩
      rw [hfree']
      show m1.freeblock + _ = _
      omega
    · have h0 : n - tot = 0 := by omega
      rw [h0, Nat.add_zero] at *
      refine ⟨m, din, ?_, by omega, ht⟩
      rw [appendLoop, if_neg hlt]

end Loop

section Iappend

variable {m m' : Mk} {i : Nat}

theorem winode_room (din : Dinode) (hi : i < NINODES) :
    ∃ m', m.winode i din = some m' ∧ m'.freeblock = m.freeblock := by
  rw [Mk.winode, rsect_inode hi]
  exact ⟨_, rfl, rfl⟩

/-- The sizes and addresses of the inodes other than `i` are as they were. -/
abbrev SameInodes (i : Nat) (m m' : Mk) : Prop :=
  ∀ j, j ≠ i → (view m').dino j = (view m).dino j

theorem dino_eq_of_meta {m1 : Mk} (h : ∀ b, b < sb.dataStart → m1.disk b = m.disk b) (j : Nat) :
    (view m1).dino j = (view m).dino j := by
  simp only [view, volOf]
  by_cases hj : j < sb.ninodes
  · have hlt := sb.iblock_lt hj
    have := sb.bmapstart_lt
    rw [if_pos hj, if_pos hj, h _ (by omega)]
  · rw [if_neg hj, if_neg hj]

/-- File `i` has got `n` bytes, and the blocks that its size needs. -/
structure Took (m m' : Mk) (i n : Nat) : Prop where
  size : ((view m').dino i).size.toNat = ((view m).dino i).size.toNat + n
  taken : m'.freeblock + cost ((view m).dino i).size.toNat =
    m.freeblock + cost (((view m).dino i).size.toNat + n)
  tight : Tight ((view m').dino i) ((view m').dino i).size.toNat
  others : SameInodes i m m'

theorem Took.trans {m'' : Mk} {n k : Nat} (h : Took m m' i n) (h' : Took m' m'' i k) :
    Took m m'' i (n + k) := by
  have hsize := h.size
  have htaken := h.taken
  have htaken' := h'.taken
  rw [hsize, Nat.add_assoc] at htaken'
  refine ⟨?_, by omega, h'.tight, fun j hj => (h'.others j hj).trans (h.others j hj)⟩
  rw [h'.size, hsize, Nat.add_assoc]

theorem iappend_room (p : Nat → UInt8) (n : Nat) (hs : Sound m) (hl : (view m).Live sb i)
    (ht : Tight ((view m).dino i) ((view m).dino i).size.toNat)
    (hmax : ((view m).dino i).size.toNat + n ≤ MAXFILE * BSIZE)
    (hroom : m.freeblock + cost (((view m).dino i).size.toNat + n) ≤
      FSSIZE + cost ((view m).dino i).size.toNat) :
    ∃ m', iappend m i p n = some m' ∧ Took m m' i n := by
  have hi : i < NINODES := hl.1
  have hmono := cost_mono (Nat.le_add_right ((view m).dino i).size.toNat n)
  obtain ⟨m1, din1, hloop, hfree, htight⟩ := appendLoop_room (p := p) 0
    ((view m).dino i).size.toNat (Nat.zero_le n) (hs.appending hl) ht hmax (by
      rw [Nat.sub_zero]
      omega)
  obtain ⟨-, -, hgrows, -⟩ := appendLoop_appends 0 _ (Nat.zero_le n) hloop (hs.appending hl)
  rw [Nat.sub_zero] at hloop hfree htight
  obtain ⟨m', hw, hfree'⟩ := winode_room (m := m1)
    { din1 with size := UInt32.ofNat (((view m).dino i).size.toNat + n) } hi
  obtain ⟨hv, -, -, -⟩ := winode_some hi hw
  have hsize : (UInt32.ofNat (((view m).dino i).size.toNat + n)).toNat =
      ((view m).dino i).size.toNat + n :=
    UInt32.toNat_ofNat_of_lt' (lt_of_le_of_lt hmax (by decide))
  have hself : (view m').dino i =
      { din1 with size := UInt32.ofNat (((view m).dino i).size.toNat + n) } := by
    rw [hv, Vol.setDino_self]
  refine ⟨m', ?_, ?_, by omega, ?_, fun j hj => ?_⟩
  · rw [iappend, rinode_eq hi, bind_eq_bind, bind_some, hloop]
    exact hw
  · rw [hself, hsize]
  · rw [hself, hsize]
    exact htight
  · rw [hv, Vol.setDino_other _ _ hj]
    exact dino_eq_of_meta hgrows.meta_eq j

theorem ialloc_room (type : Int16) (hlt : m.freeinode < NINODES) :
    ∃ m', ialloc m type = some (m.freeinode, m') ∧ m'.freeblock = m.freeblock ∧
      (view m').dino m.freeinode = ⟨type, 0, 0, 1, 0, fun _ => 0⟩ ∧
      SameInodes m.freeinode m m' := by
  obtain ⟨m', hw, hfree⟩ := winode_room (m := { m with freeinode := m.freeinode + 1 })
    ⟨type, 0, 0, 1, 0, fun _ => 0⟩ hlt
  obtain ⟨hv, -, -, -⟩ := winode_some hlt hw
  refine ⟨m', ?_, hfree, ?_, fun j hj => ?_⟩
  · rw [ialloc, hw]
    rfl
  · rw [hv, Vol.setDino_self]
  · rw [hv, Vol.setDino_other _ _ hj]
    rfl

end Iappend

end Xv6.Mkfs
