import Xv6.Fs.Inode

/-!
# Xv6.Fs.Trunc

`itrunc` and the freeing branch of `iput`.

`itrunc` clears each direct address together with the bit of its block, so the references stay
consistent block by block. The blocks of the indirect block are freed while its entries still name
them; they are given up in one step when the indirect address is cleared.
-/

namespace Xv6.Fs

open Function List

open Log (Room)

/-- The places that depend on the indirect address. -/
def Pos.viaInd : Pos → Prop
  | .direct _ => False
  | _ => True

namespace Vol

variable {sb : Superblock} {v w : Vol} {i : Nat}

def free (v : Vol) (b : Nat) : Vol := { v with bit := update v.bit b false }

theorem refAt_free (b j : Nat) (q : Pos) : (v.free b).refAt j q = v.refAt j q :=
  refAt_congr rfl rfl q

theorem refs_free_direct {k : Fin NDIRECT} {b : Nat} (h : v.Refs sb) (hl : v.Live sb i)
    (hb : v.refAt i (.direct k) = b) (hb0 : b ≠ 0) :
    ((v.free b).setAddr i k.castSucc 0).Refs sb := by
  have hown : v.Refers sb (i, .direct k) b := ⟨hl, hb, hb0⟩
  refine h.remove (S := fun r => r = (i, .direct k)) ?_ ?_
  · intro x
    rw [setAddr_bit]
    by_cases hx : x = b
    · subst hx
      simp [free, hown]
    · have : ¬ v.Refers sb (i, .direct k) x := fun hr => hx (hr.2.1.symm.trans hb)
      simp [free, hx, this]
  · rintro ⟨j, q⟩ x
    rw [Refers, live_setAddr, refAt_setAddr_direct, refAt_free, Prod.mk.injEq]
    by_cases hc : j = i ∧ q = .direct k
    · simp only [hc, and_self, if_true, not_true_eq_false, and_false, iff_false]
      rintro ⟨-, hx, hx0⟩
      exact hx0 hx.symm
    · simp only [hc, if_false, not_false_eq_true, and_true]
      rfl

theorem refAt_setAddr_last (j : Nat) (q : Pos) : (v.setAddr i (Fin.last NDIRECT) 0).refAt j q =
      if j = i then (match q with | .direct k => v.refAt j (.direct k) | _ => 0)
      else v.refAt j q := by
  by_cases hji : j = i
  · subst hji
    have hind : (v.setAddr j (Fin.last NDIRECT) 0).ind j = 0 := by
      simp [ind, setAddr_dino_self]
    cases q with
    | direct k => simp [refAt_direct, setAddr_dino_self, (Fin.castSucc_lt_last k).ne]
    | indirect => simp [refAt_indirect, hind]
    | entry e => simp [refAt_entry, hind]
  · rw [if_neg hji]
    refine refAt_congr ?_ (by rw [setAddr_blk]) q
    rw [setAddr_dino_other hji]

theorem refs_free_indirect (h : v.Refs sb) (hdino : w.dino = v.dino) (hblk : w.blk = v.blk)
    (hbit : ∀ x, w.bit x = true ↔ v.bit x = true ∧ ¬ ∃ q : Pos, q.viaInd ∧ v.Refers sb (i, q) x) :
    (w.setAddr i (Fin.last NDIRECT) 0).Refs sb := by
  have hlive : ∀ j, w.Live sb j ↔ v.Live sb j := fun j => by rw [Live, hdino, Live]
  have href : ∀ j q, w.refAt j q = v.refAt j q := fun j q =>
    refAt_congr (by rw [hdino]) (by rw [hblk]) q
  refine h.remove (S := fun r => r.1 = i ∧ r.2.viaInd) ?_ ?_
  · intro x
    rw [setAddr_bit, hbit]
    refine and_congr_right fun _ => not_congr ⟨?_, ?_⟩
    · rintro ⟨q, hq, hr⟩
      exact ⟨(i, q), ⟨rfl, hq⟩, hr⟩
    · rintro ⟨⟨j, q⟩, ⟨rfl, hq⟩, hr⟩
      exact ⟨q, hq, hr⟩
  · rintro ⟨j, q⟩ x
    simp only [Refers, live_setAddr, refAt_setAddr_last, hlive, href]
    by_cases hji : j = i
    · subst hji
      cases q <;> simp [Pos.viaInd] <;> omega
    · simp [hji]

theorem freed_iff {a : Nat} {A : Nat → Nat} {bit : Nat → Bool} (hl : v.Live sb i)
    (hind : v.ind i = a) (ha0 : a ≠ 0) (hentry : ∀ e : Fin NINDIRECT, v.refAt i (.entry e) = A e)
    (hbits : ∀ x, bit x = true ↔
      v.bit x = true ∧ ¬ ∃ j ∈ range NINDIRECT, A j ≠ 0 ∧ A j = x) (x : Nat) :
    update bit a false x = true ↔
      v.bit x = true ∧ ¬ ∃ q : Pos, q.viaInd ∧ v.Refers sb (i, q) x := by
  by_cases hx : x = a
  · subst hx
    simp only [update_self, Bool.false_eq_true, false_iff, not_and, not_not]
    exact fun _ => ⟨.indirect, trivial, hl, hind, ha0⟩
  · rw [update_of_ne hx, hbits]
    refine and_congr_right fun _ => not_congr ⟨?_, ?_⟩
    · rintro ⟨j, hj, hz, rfl⟩
      exact ⟨.entry ⟨j, mem_range.mp hj⟩, trivial, hl, hentry _, hz⟩
    · rintro ⟨q, hq, -, hr, hx0⟩
      dsimp only at hr
      cases q with
      | direct k => exact hq.elim
      | indirect => exact absurd (hr.symm.trans hind) hx
      | entry e =>
        rw [hentry] at hr
        exact ⟨e, mem_range.mpr e.isLt, hr ▸ hx0, hr⟩

end Vol

variable {sb : Superblock} {F : Prop} {s s' s'' : FS} {ip : Fin NINODE}

/-- `s'` is `s` after addresses of inode `ip` were cleared: the others and the contents are
unchanged. -/
structure Cleared (sb : Superblock) (ip : Fin NINODE) (s s' : FS) : Prop where
  refs : (s'.vol sb ip).Refs sb
  frame : Frame sb ip s s'
  blk : (volOf sb s'.disk).blk = (volOf sb s.disk).blk
  copy : { (s'.icache ip).copy with addrs := (s.icache ip).copy.addrs } = (s.icache ip).copy

theorem Cleared.live (h : Cleared sb ip s s') (hl : (s.vol sb ip).Live sb (s.icache ip).inum) :
    (s'.vol sb ip).Live sb (s'.icache ip).inum := by
  refine ⟨h.frame.inum ▸ hl.1, ?_⟩
  rw [vol_dino_self]
  have := hl.2
  rw [vol_dino_self, ← h.copy] at this
  exact this

theorem Cleared.trans (h : Cleared sb ip s s') (h' : Cleared sb ip s' s'') :
    Cleared sb ip s s'' where
  refs := h'.refs
  frame := h.frame.trans h'.frame
  blk := h'.blk.trans h.blk
  copy := by
    have e := h.copy
    rw [← h'.copy] at e
    exact e

theorem bfree_direct_ends {k : Fin NDIRECT} (hrefs : (s.vol sb ip).Refs sb)
    (hl : (s.vol sb ip).Live sb (s.icache ip).inum) (hk : (s.icache ip).copy.addrs k.castSucc ≠ 0) :
    Ends (bfree sb s ((s.icache ip).copy.addrs k.castSucc).toNat) (Stops False F) fun s1 =>
      Cleared sb ip s (s1.setAddr ip k.castSucc 0) ∧ s1.icache = s.icache := by
  have hk0 : ((s.icache ip).copy.addrs k.castSucc).toNat ≠ 0 :=
    fun h0 => hk (UInt32.toNat_inj.mp h0)
  have href : (s.vol sb ip).refAt (s.icache ip).inum (.direct k) =
      ((s.icache ip).copy.addrs k.castSucc).toNat := by rw [Vol.refAt_direct, vol_dino_self]
  have hown : (s.vol sb ip).Refers sb ((s.icache ip).inum, .direct k) _ := ⟨hl, href, hk0⟩
  refine (bfree_ends (hrefs.data _ _ hown).2 (hrefs.used hown)).imp ?_
  rintro s1 ⟨hd, hic, hlog⟩
  refine ⟨⟨?_, ?_, ?_, ?_⟩, hic⟩
  · have hvol : s1.vol sb ip = (s.vol sb ip).free ((s.icache ip).copy.addrs k.castSucc).toNat := by
      rw [vol_eq hic hd]
      rfl
    rw [vol_setAddr, hvol, hic]
    exact Vol.refs_free_direct hrefs hl href hk0
  · exact Frame.trans (Frame.of_icache hic (by rw [hd]) hlog) (frame_setAddr _ 0)
  · show (volOf sb s1.disk).blk = _
    rw [hd]
  · simp [FS.setAddr, FS.setInode, hic]

theorem itruncDirect_ends (ks : List (Fin NDIRECT)) (hrefs : (s.vol sb ip).Refs sb)
    (hl : (s.vol sb ip).Live sb (s.icache ip).inum) :
    Ends (itruncDirect sb ip ks s) (Stops False F) fun s' => Cleared sb ip s s' ∧
        (s'.icache ip).copy.addrs (Fin.last NDIRECT) = (s.icache ip).copy.addrs (Fin.last NDIRECT) ∧
        ∀ k : Fin NDIRECT, (s'.icache ip).copy.addrs k.castSucc = 0 ∨
          k ∉ ks ∧ (s'.icache ip).copy.addrs k.castSucc = (s.icache ip).copy.addrs k.castSucc := by
  induction ks generalizing s with
  | nil => exact ⟨⟨hrefs, Frame.refl s, rfl, rfl⟩, rfl, fun k => .inr ⟨not_mem_nil, rfl⟩⟩
  | cons k ks ih =>
    rw [itruncDirect]
    by_cases hk : (s.icache ip).copy.addrs k.castSucc ≠ 0
    · rw [if_pos hk]
      refine (bfree_direct_ends hrefs hl hk).bind ?_
      rintro s1 ⟨hc, hic⟩
      refine (ih hc.refs (hc.live hl)).imp ?_
      rintro s' ⟨hc', hlast, hks⟩
      have haddr : ((s1.setAddr ip k.castSucc 0).icache ip).copy.addrs =
          update (s.icache ip).copy.addrs k.castSucc 0 := by
        simp [FS.setAddr, FS.setInode, hic]
      rw [haddr] at hlast hks
      refine ⟨hc.trans hc', ?_, ?_⟩
      · rw [hlast, update_of_ne (Fin.castSucc_lt_last k).ne']
      · intro k'
        rcases hks k' with h0 | ⟨hmem, heq⟩
        · exact .inl h0
        · by_cases hkk : k' = k
          · subst hkk
            rw [update_self] at heq
            exact .inl heq
          · rw [update_of_ne (fun hcs => hkk (Fin.castSucc_injective _ hcs))] at heq
            exact .inr ⟨by simp [hkk, hmem], heq⟩
    · rw [if_neg hk]
      refine (ih hrefs hl).imp ?_
      rintro s' ⟨hc, hlast, hks⟩
      refine ⟨hc, hlast, fun k' => ?_⟩
      rcases hks k' with h0 | ⟨hmem, heq⟩
      · exact .inl h0
      · by_cases hkk : k' = k
        · subst hkk
          exact .inl (heq.trans (not_not.mp hk))
        · exact .inr ⟨by simp [hkk, hmem], heq⟩

theorem itruncEntries_ends {a : Nat} (ha : sb.dataStart ≤ a) (js : List Nat) (hnodup : js.Nodup)
    (huse : ∀ j ∈ js, ((s.disk a).word j).toNat ≠ 0 →
      ((s.disk a).word j).toNat < sb.size ∧ (volOf sb s.disk).bit ((s.disk a).word j).toNat = true)
    (hinj : ∀ j ∈ js, ∀ j' ∈ js, ((s.disk a).word j).toNat ≠ 0 →
      (s.disk a).word j' = (s.disk a).word j → j' = j) :
    Ends (itruncEntries sb a js s) (Stops False F) fun s' =>
      s'.icache = s.icache ∧ s.log.lh.blocks ⊆ s'.log.lh.blocks ∧
        (volOf sb s'.disk).dino = (volOf sb s.disk).dino ∧
        (volOf sb s'.disk).blk = (volOf sb s.disk).blk ∧
        ∀ x, (volOf sb s'.disk).bit x = true ↔ (volOf sb s.disk).bit x = true ∧
          ¬ ∃ j ∈ js, ((s.disk a).word j).toNat ≠ 0 ∧ ((s.disk a).word j).toNat = x := by
  induction js generalizing s with
  | nil => exact ⟨rfl, List.Subset.refl _, rfl, rfl, fun x => by simp⟩
  | cons j js ih =>
    obtain ⟨hj, hnodup⟩ := nodup_cons.mp hnodup
    rw [itruncEntries]
    by_cases h0 : (s.disk a).word j ≠ 0
    · rw [if_pos h0]
      have h0' : ((s.disk a).word j).toNat ≠ 0 := fun hz => h0 (UInt32.toNat_inj.mp hz)
      obtain ⟨hlt, hbit⟩ := huse j mem_cons_self h0'
      refine (bfree_ends hlt hbit).bind ?_
      rintro s1 ⟨hd, hic, hlog⟩
      have hblk : s1.disk a = s.disk a := by
        have : (volOf sb s1.disk).blk a = (volOf sb s.disk).blk a := by rw [hd]
        simpa [volOf, ha] using this
      have hne : ∀ j' ∈ js, ((s.disk a).word j').toNat ≠ ((s.disk a).word j).toNat := by
        intro j' hj' heq
        have := hinj j mem_cons_self j' (mem_cons_of_mem j hj') h0'
          (UInt32.toNat_inj.mp heq)
        exact hj (this ▸ hj')
      refine (ih hnodup ?_ ?_).imp ?_
      · intro j' hj' hz
        rw [hblk] at hz ⊢
        obtain ⟨hlt', hbit'⟩ := huse j' (mem_cons_of_mem j hj') hz
        refine ⟨hlt', ?_⟩
        rw [hd]
        dsimp only
        rw [update_of_ne (hne j' hj')]
        exact hbit'
      · intro j1 h1 j2 h2
        rw [hblk]
        exact hinj j1 (mem_cons_of_mem j h1) j2 (mem_cons_of_mem j h2)
      · rintro s' ⟨hic', hlog', hdino, hblks, hbits⟩
        refine ⟨hic'.trans hic, List.Subset.trans hlog hlog', by rw [hdino, hd],
          by rw [hblks, hd], fun x => ?_⟩
        rw [hbits, hblk, hd]
        by_cases hx : x = ((s.disk a).word j).toNat
        · subst hx
          simp [h0']
        · have hx' : ¬ ((s.disk a).word j).toNat = x := fun he => hx he.symm
          simp [hx, hx']
    · rw [if_neg h0]
      have h0' : ((s.disk a).word j).toNat = 0 := by rw [not_not.mp h0]; rfl
      refine (ih hnodup (fun j' hj' => huse j' (mem_cons_of_mem j hj')) fun j1 h1 j2 h2 =>
          hinj j1 (mem_cons_of_mem j h1) j2 (mem_cons_of_mem j h2)).imp ?_
      rintro s' ⟨hic, hlog, hdino, hblks, hbits⟩
      refine ⟨hic, hlog, hdino, hblks, fun x => ?_⟩
      rw [hbits]
      simp [h0']

theorem vol_refAt_entry {i a : Nat} (hind : (s.vol sb ip).ind i = a) (ha0 : a ≠ 0)
    (hdata : sb.dataStart ≤ a) (e : Fin NINDIRECT) :
    (s.vol sb ip).refAt i (.entry e) = ((s.disk a).word e).toNat := by
  have hblk : (s.vol sb ip).blk a = s.disk a := by simp [volOf, hdata]
  rw [Vol.refAt_entry, hind, if_neg ha0, hblk]

theorem itruncEntries_indirect {i a : Nat} (hrefs : (s.vol sb ip).Refs sb)
    (hl : (s.vol sb ip).Live sb i) (hown : (s.vol sb ip).Refers sb (i, .indirect) a)
    (hind : (s.vol sb ip).ind i = a) (ha0 : a ≠ 0) (hdata : sb.dataStart ≤ a) :
    Ends (itruncEntries sb a (range NINDIRECT) s) (Stops False F) fun s' =>
      s'.icache = s.icache ∧ s.log.lh.blocks ⊆ s'.log.lh.blocks ∧
        (volOf sb s'.disk).dino = (volOf sb s.disk).dino ∧
        (volOf sb s'.disk).blk = (volOf sb s.disk).blk ∧ (volOf sb s'.disk).bit a = true ∧
        ∀ x, (volOf sb s'.disk).bit x = true ↔ (volOf sb s.disk).bit x = true ∧
          ¬ ∃ j ∈ range NINDIRECT,
            ((s.disk a).word j).toNat ≠ 0 ∧ ((s.disk a).word j).toNat = x := by
  have hrefers : ∀ j ∈ range NINDIRECT, ((s.disk a).word j).toNat ≠ 0 → ∃ e : Fin NINDIRECT,
      e = j ∧ (s.vol sb ip).Refers sb (i, .entry e) ((s.disk a).word j).toNat :=
    fun j hj hz => ⟨⟨j, mem_range.mp hj⟩, rfl, hl, vol_refAt_entry hind ha0 hdata _, hz⟩
  refine (itruncEntries_ends hdata _ nodup_range ?_ ?_).imp ?_
  · intro j hj hz
    obtain ⟨e, -, hr⟩ := hrefers j hj hz
    exact ⟨(hrefs.data _ _ hr).2, hrefs.used hr⟩
  · intro j hj j' hj' hz heq
    obtain ⟨e, he, hr⟩ := hrefers j hj hz
    obtain ⟨e', he', hr'⟩ := hrefers j' hj' (by rw [heq]; exact hz)
    rw [heq] at hr'
    have := hrefs.once _ _ _ hr' hr
    simp only [Prod.mk.injEq, Pos.entry.injEq, true_and] at this
    rw [← he, ← he', this]
  · rintro s' ⟨hic, hlog, hdino, hblks, hbits⟩
    refine ⟨hic, hlog, hdino, hblks, ?_, hbits⟩
    rw [hbits]
    refine ⟨hrefs.used hown, ?_⟩
    rintro ⟨j, hj, hz, heq⟩
    obtain ⟨e, -, hr⟩ := hrefers j hj hz
    rw [heq] at hr
    have := hrefs.once _ _ _ hr hown
    simp at this

theorem itruncIndirect_ends (hrefs : (s.vol sb ip).Refs sb)
    (hl : (s.vol sb ip).Live sb (s.icache ip).inum) :
    Ends (itruncIndirect sb s ip) (Stops False F) fun s' =>
      Cleared sb ip s s' ∧ (s'.icache ip).copy.addrs (Fin.last NDIRECT) = 0 ∧
        ∀ k : Fin NDIRECT, (s'.icache ip).copy.addrs k.castSucc =
          (s.icache ip).copy.addrs k.castSucc := by
  rw [itruncIndirect]
  by_cases h0 : (s.icache ip).copy.addrs (Fin.last NDIRECT) ≠ 0
  · rw [if_pos h0]
    generalize hi : (s.icache ip).inum = i at hl
    have hind : (s.vol sb ip).ind i = ((s.icache ip).copy.addrs (Fin.last NDIRECT)).toNat := by
      rw [← hi]; exact vol_ind
    generalize ha : ((s.icache ip).copy.addrs (Fin.last NDIRECT)).toNat = a at hind
    have ha0 : a ≠ 0 := by
      rw [← ha]
      exact fun hz => h0 (UInt32.toNat_inj.mp hz)
    have hown : (s.vol sb ip).Refers sb (i, .indirect) a := hind ▸ Vol.refers_ind hl (hind ▸ ha0)
    obtain ⟨hdata, hlt⟩ := hrefs.data _ _ hown
    refine (itruncEntries_indirect hrefs hl hown hind ha0 hdata).bind ?_
    rintro s1 ⟨hic1, hlog1, hdino1, hblk1, hbit1, hbits1⟩
    refine (bfree_ends hlt hbit1).bind ?_
    rintro s2 ⟨hd2, hic2, hlog2⟩
    have hic : s2.icache = s.icache := hic2.trans hic1
    have hdino2 : (volOf sb s2.disk).dino = (volOf sb s.disk).dino := by rw [hd2]; exact hdino1
    have hblk2 : (volOf sb s2.disk).blk = (volOf sb s.disk).blk := by rw [hd2]; exact hblk1
    refine ⟨⟨?_, ?_, hblk2, ?_⟩, ?_, ?_⟩
    · rw [vol_setAddr, hic, hi]
      refine Vol.refs_free_indirect hrefs ?_ hblk2 fun x => ?_
      · rw [FS.vol, hdino2, hic, FS.vol]
      · rw [vol_bit, hd2]
        exact Vol.freed_iff hl hind ha0 (vol_refAt_entry hind ha0 hdata) hbits1 x
    · exact Frame.trans (Frame.of_icache hic hdino2 (List.Subset.trans hlog1 hlog2))
        (frame_setAddr _ 0)
    · simp [FS.setAddr, FS.setInode, hic]
    · simp [FS.setAddr, FS.setInode]
    · intro k
      simp [FS.setAddr, FS.setInode, hic, (Fin.castSucc_lt_last k).ne]
  · rw [if_neg h0]
    exact ⟨⟨hrefs, Frame.refl s, rfl, rfl⟩, not_not.mp h0, fun _ => rfl⟩

def Dinode.empty (d : Dinode) : Dinode := { d with size := 0, addrs := fun _ => 0 }

theorem Vol.refAt_zero {v : Vol} {i : Nat} (h : ∀ k, (v.dino i).addrs k = 0) (q : Pos) :
    v.refAt i q = 0 := by
  have hind : v.ind i = 0 := by rw [ind, h]; rfl
  cases q with
  | direct k => rw [refAt_direct, h]; rfl
  | indirect => exact hind
  | entry e => rw [refAt_entry, if_pos hind]

theorem Vol.maps_zero {v : Vol} {i : Nat} (h : ∀ k, (v.dino i).addrs k = 0) : v.Maps i 0 := by
  intro bn
  simp only [Nat.not_lt_zero, iff_false, not_not]
  cases hq : posOf bn with
  | none => simp [addrOf, hq]
  | some q => rw [addrOf_pos hq, refAt_zero h]

theorem Vol.addrOf_congr {v w : Vol} {j : Nat} (ha : w.dino j = v.dino j) (hb : w.blk = v.blk)
    (bn : Nat) : w.addrOf j bn = v.addrOf j bn := by
  cases hq : posOf bn with
  | none => simp [addrOf, hq]
  | some q =>
    rw [addrOf_pos hq, addrOf_pos hq]
    exact refAt_congr (by rw [ha]) (by rw [hb]) q

theorem Cleared.wellFormed (h : FsOk sb s) (hc : Cleared sb ip s s')
    (h0 : ∀ k, (s'.icache ip).copy.addrs k = 0) :
    ((s'.vol sb ip).setSize (s.icache ip).inum 0).WellFormed sb := by
  have hother : ∀ j, j ≠ (s.icache ip).inum → (s'.vol sb ip).dino j = (volOf sb s.disk).dino j := by
    intro j hj
    rw [FS.vol, hc.frame.inum, hc.frame.dino]
    exact update_of_ne hj _ _
  refine ⟨hc.refs.setSize, ?_⟩
  intro j hj
  rw [Vol.live_setSize] at hj
  rw [Vol.maps_setSize]
  by_cases hji : j = (s.icache ip).inum
  · subst hji
    have hzero : Vol.blocksOf (0 : UInt32).toNat = 0 := by decide
    rw [Vol.setSize_dino_self]
    dsimp only
    rw [hzero]
    apply Vol.maps_zero
    rw [← hc.frame.inum, vol_dino_self]
    exact h0
  · rw [Vol.setSize_dino_other hji, hother j hji]
    have hl : (volOf sb s.disk).Live sb j := ⟨hj.1, hother j hji ▸ hj.2⟩
    intro bn
    rw [Vol.addrOf_congr (hother j hji) hc.blk]
    exact h.wf.maps j hl bn

/-- What is left of inode `ip` is `d`; the other inodes and the blocks are as before. -/
structure Replaced (sb : Superblock) (ip : Fin NINODE) (d : Dinode) (s s' : FS) : Prop where
  dino : (volOf sb s'.disk).dino = update (volOf sb s.disk).dino (s.icache ip).inum d
  blk : (volOf sb s'.disk).blk = (volOf sb s.disk).blk

theorem itrunc_ends (h : FsOk sb s) (hip : Locked s ip) :
    Ends (itrunc sb s ip) (Stops False F) fun s' =>
      FsOk sb s' ∧ Replaced sb ip (s.icache ip).copy.empty s s' ∧
        s'.icache = update s.icache ip { s.icache ip with copy := (s.icache ip).copy.empty } := by
  have hrefs : (s.vol sb ip).Refs sb := (h.vol hip).symm ▸ h.wf.refs
  have hl : (s.vol sb ip).Live sb (s.icache ip).inum := (h.vol hip).symm ▸ h.live hip
  refine (itruncDirect_ends _ hrefs hl).bind ?_
  rintro s1 ⟨hc1, -, hdirect⟩
  refine (itruncIndirect_ends hc1.refs (hc1.live hl)).bind ?_
  rintro s2 ⟨hc2, hlast, hsame⟩
  have hc := hc1.trans hc2
  have h0 : ∀ k, (s2.icache ip).copy.addrs k = 0 := by
    intro k
    refine Fin.lastCases hlast (fun k => ?_) k
    rw [hsame]
    exact (hdirect k).resolve_right fun hk => hk.1 (mem_finRange k)
  have hcopy : { (s2.icache ip).copy with size := 0 } = (s.icache ip).copy.empty := by
    rw [← hc.copy]
    simp only [Dinode.empty]
    congr 1
    funext k
    exact h0 k
  have hinode : { s2.icache ip with copy := (s.icache ip).copy.empty } =
      { s.icache ip with copy := (s.icache ip).copy.empty } := by
    rw [← hc.frame.inode]
  show Ends (iupdate sb (s2.setInode ip { s2.icache ip with
    copy := { (s2.icache ip).copy with size := 0 } }) ip) _ _
  generalize hs3 : s2.setInode ip { s2.icache ip with
    copy := { (s2.icache ip).copy with size := 0 } } = s3
  have hinum3 : (s3.icache ip).inum = (s.icache ip).inum := by
    rw [← hc.frame.inum, ← hs3]
    simp [FS.setInode]
  refine (iupdate_ends (R := {sb.iblock (s3.icache ip).inum}) (k := 0)
    (hinum3 ▸ h.cache.inum_lt ip hip.1) (by simp) False.elim).imp ?_
  rintro s4 ⟨hd4, hic4, -, -⟩
  rw [← hs3, vol_setSize, hc.frame.inum] at hd4
  have hic : s4.icache = update s.icache ip
      { s.icache ip with copy := (s.icache ip).copy.empty } := by
    rw [hic4, ← hs3, FS.setInode, hcopy, hinode]
    funext jp
    by_cases hjp : jp = ip
    · subst hjp; simp
    · simp [hjp, hc.frame.others jp hjp]
  have hreplaced : Replaced sb ip (s.icache ip).copy.empty s s4 := by
    refine ⟨funext fun j => ?_, ?_⟩
    · by_cases hj : j = (s.icache ip).inum
      · subst hj
        rw [hd4, Vol.setSize_dino_self, ← hc.frame.inum, vol_dino_self, hcopy, update_self]
      · rw [hd4, Vol.setSize_dino_other hj, FS.vol, hc.frame.inum, hc.frame.dino, update_of_ne hj]
        exact update_of_ne hj _ _
    · rw [hd4]
      exact hc.blk
  refine ⟨?_, hreplaced, hic⟩
  refine h.of_locked hip.1 ?_ ?_ ?_ ?_ ?_
  · rw [hd4]
    exact hc.wellFormed h h0
  · intro jp hjp
    rw [hic, update_of_ne hjp]
  · rw [hic, update_self]
  · intro j hj
    rw [hreplaced.dino, update_of_ne hj]
  · intro _ _
    rw [hreplaced.dino, update_self, hic, update_self]
    exact ⟨rfl, (h.cache.valid ip hip.1 hip.2).2⟩

end Xv6.Fs
