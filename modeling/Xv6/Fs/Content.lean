import Xv6.Fs.Owner

/-!
# Xv6.Fs.Content

Files are byte lists: `readi` and `writei` refine reading a piece of a list and overwriting one.

`contents` is the abstract value of a file and `splice` the abstract write. `writei_contents` and
`readi_contents` relate the code to them. A write of more blocks than the log can hold does not
return (`writei_spanned_le`), so the refinement of `writei` speaks of the room in the transaction.
-/

namespace Xv6.Fs

open List Finset

open Log (Room)

/-- `C` with the bytes from `off` on overwritten by `D`, and extended where `D` goes past
its end. -/
def splice (C : List UInt8) (off : Nat) (D : List UInt8) : List UInt8 :=
  C.take off ++ D ++ C.drop (off + D.length)

def Vol.contents (v : Vol) (i : Nat) : List UInt8 :=
  (List.range (v.dino i).size.toNat).map (v.fbyte i)

theorem splice_range (f src : Nat → UInt8) {size off : Nat} (n : Nat) (h : off ≤ size) :
    splice ((List.range size).map f) off ((List.range n).map src) =
      (List.range (max size (off + n))).map
        fun k => if off ≤ k ∧ k < off + n then src (k - off) else f k := by
  apply ext_getElem?
  intro k
  simp only [splice, length_map, length_range, List.getElem?_append, List.getElem?_map,
    length_append, length_take, Nat.min_eq_left h, List.getElem?_drop, List.getElem?_take]
  by_cases h1 : k < off
  · have : k < size := by omega
    simp [h1, this, show k < off + n by omega, show ¬ off ≤ k by omega]
  · by_cases h2 : k < off + n
    · simp [h1, h2, show k - off < n by omega, show off ≤ k by omega]
    · have h3 : off + n + (k - (off + n)) = k := by omega
      by_cases h4 : k < size
      · simp [h2, h3, h4]
      · rw [List.getElem?_eq_none (by simp; omega)]
        simp [h2, h3, show size ≤ k by omega]

section Write

variable {sb : Superblock} {s s' : FS} {ip : Fin NINODE} {lo hi n : Nat} {src : Nat → UInt8}

theorem Vol.WellFormed.mapped {v : Vol} {j k : Nat} (h : v.WellFormed sb) (hj : v.Live sb j)
    (hk : k < (v.dino j).size.toNat) : v.addrOf j (k / BSIZE) ≠ 0 :=
  (h.maps j hj _).mpr (div_lt_blocksOf hk)

namespace Vol.Wrote

variable {v w : Vol} {i : Nat} {data : Nat → UInt8}

theorem contents_other (h : v.WellFormed sb) (hw : Wrote sb v w i lo hi data) {j : Nat}
    (hj : v.Live sb j) (hji : j ≠ i) (z : UInt32) :
    (w.setSize i z).dino j = v.dino j ∧ (w.setSize i z).contents j = v.contents j := by
  have hdino : (w.setSize i z).dino j = v.dino j := by
    rw [setSize_dino_other hji, hw.other j hji]
  refine ⟨hdino, ?_⟩
  simp only [contents, hdino]
  refine map_congr_left fun k hk => ?_
  rw [fbyte_setSize, hw.fbyte j k hj (.inl (h.mapped hj (List.mem_range.mp hk))),
    if_neg (fun hc => hji hc.1)]

theorem contents_self (h : v.WellFormed sb) (hi : v.Live sb i)
    (hw : Wrote sb v w i lo (lo + n) fun k => src (k - lo)) (hlo : lo ≤ (v.dino i).size.toNat)
    (hn : lo + n < 2 ^ 32) :
    (w.setSize i (UInt32.ofNat (max (v.dino i).size.toNat (lo + n)))).contents i =
      splice (v.contents i) lo ((List.range n).map src) := by
  have hsize : (UInt32.ofNat (max (v.dino i).size.toNat (lo + n))).toNat =
      max (v.dino i).size.toNat (lo + n) := by
    rw [UInt32.toNat_ofNat']
    have := (v.dino i).size.toNat_lt
    omega
  rw [contents, contents, splice_range _ _ n hlo, setSize_dino_self]
  dsimp only
  rw [hsize]
  refine map_congr_left fun k hk => ?_
  have hk' := List.mem_range.mp hk
  rw [fbyte_setSize, hw.fbyte _ k hi]
  · simp
  · by_cases hold : k < (v.dino i).size.toNat
    · exact .inl (h.mapped hi hold)
    · exact .inr ⟨rfl, by omega, by omega⟩

end Vol.Wrote

theorem Written.contents_other (h : FsOk sb s) (hw : Written sb ip s s' lo hi src) {j : Nat}
    (hj : (volOf sb s.disk).Live sb j) (hji : j ≠ (s.icache ip).inum) :
    (volOf sb s'.disk).dino j = (volOf sb s.disk).dino j ∧
      (volOf sb s'.disk).contents j = (volOf sb s.disk).contents j := by
  obtain ⟨w, hwrote, hvol⟩ := hw.wrote
  rw [hvol]
  exact hwrote.contents_other h.wf hj hji _

theorem Written.contents_self (h : FsOk sb s) (hip : Locked s ip)
    (hw : Written sb ip s s' lo (lo + n) src) (hlo : lo ≤ (s.icache ip).copy.size.toNat)
    (hn : lo + n < 2 ^ 32) : (volOf sb s'.disk).contents (s.icache ip).inum =
      splice ((volOf sb s.disk).contents (s.icache ip).inum) lo ((List.range n).map src) := by
  obtain ⟨w, hwrote, hvol⟩ := hw.wrote
  have hcopy := (h.cache.valid ip hip.1 hip.2).1
  rw [← hcopy] at hvol hlo
  rw [hvol]
  exact hwrote.contents_self h.wf (h.live hip) hlo hn

theorem Written.spanned_le (h : FsOk sb s) (hip : Locked s ip) (hw : Written sb ip s s' lo hi src)
    (hhi : hi < 2 ^ 32) : Vol.spanned lo hi ≤ LOGSIZE := by
  rw [Vol.spanned]
  split
  · rename_i hlt
    obtain ⟨w, hwrote, hvol⟩ := hw.wrote
    have hl : (volOf sb s'.disk).Live sb (s.icache ip).inum := by
      rw [hvol, Vol.live_setSize, hwrote.live_iff]
      exact h.live hip
    have hsize : hi ≤ ((volOf sb s'.disk).dino (s.icache ip).inum).size.toNat := by
      rw [hvol, Vol.setSize_dino_self]
      dsimp only
      rw [UInt32.toNat_ofNat']
      have := (s.icache ip).copy.size.toNat_lt
      omega
    have hbyte : ∀ bn ∈ Finset.Ico (lo / BSIZE) (Vol.blocksOf hi),
        ∃ k, lo ≤ k ∧ k < hi ∧ k / BSIZE = bn := by
      intro bn hbn
      rw [mem_Ico] at hbn
      refine ⟨max lo (bn * BSIZE), Nat.le_max_left _ _, ?_, ?_⟩ <;>
        simp only [Vol.blocksOf, BSIZE] at hbn ⊢ <;> omega
    have hmap : ∀ bn ∈ Finset.Ico (lo / BSIZE) (Vol.blocksOf hi),
        (volOf sb s'.disk).addrOf (s.icache ip).inum bn ∈ s'.log.lh.blocks.toFinset := by
      intro bn hbn
      obtain ⟨k, hlo, hk, rfl⟩ := hbyte bn hbn
      rw [mem_toFinset]
      exact hw.logged k hlo hk
    have hne : ∀ bn ∈ Finset.Ico (lo / BSIZE) (Vol.blocksOf hi),
        (volOf sb s'.disk).addrOf (s.icache ip).inum bn ≠ 0 := by
      intro bn hbn
      obtain ⟨k, hlo, hk, rfl⟩ := hbyte bn hbn
      exact hw.ok.wf.mapped hl (by omega)
    have hcard := card_le_card_of_injOn _ hmap fun bn hbn bn' hbn' heq =>
      (hw.ok.wf.refs.addrOf_inj hl hl (hne bn' hbn') heq).2
    rw [Nat.card_Ico] at hcard
    exact hcard.trans ((toFinset_card_le _).trans s'.log.lh.len_le)
  · exact Nat.zero_le _

end Write

section Read

variable {sb : Superblock} {s : FS} {ip : Fin NINODE}

/-- What a read of the bytes from `lo` to `hi` of a file rests on. -/
structure Readable (sb : Superblock) (s : FS) (ip : Fin NINODE) (lo hi : Nat) : Prop where
  refs : (volOf sb s.disk).Refs sb
  live : (volOf sb s.disk).Live sb (s.icache ip).inum
  copy : (volOf sb s.disk).dino (s.icache ip).inum = (s.icache ip).copy
  mapped : ∀ k, lo ≤ k → k < hi → (volOf sb s.disk).addrOf (s.icache ip).inum (k / BSIZE) ≠ 0

theorem Readable.mono {lo hi lo' hi' : Nat} (h : Readable sb s ip lo hi) (hlo : lo ≤ lo')
    (hhi : hi' ≤ hi) : Readable sb s ip lo' hi' :=
  ⟨h.refs, h.live, h.copy, fun k h1 h2 => h.mapped k (hlo.trans h1) (h2.trans_le hhi)⟩

theorem FsOk.readable (h : FsOk sb s) (hip : Locked s ip) :
    Readable sb s ip 0 (s.icache ip).copy.size.toNat := by
  have hcopy := (h.cache.valid ip hip.1 hip.2).1
  refine ⟨h.wf.refs, h.live hip, hcopy, fun k _ hk => h.wf.mapped (h.live hip) ?_⟩
  rw [hcopy]
  exact hk

theorem readLoop_eq {n tot off : Nat} (htot : tot ≤ n)
    (h : Readable sb s ip off (off + (n - tot))) : readLoop sb ip n tot off s = .ok
      ((List.range (n - tot)).map fun k => (volOf sb s.disk).fbyte (s.icache ip).inum (off + k),
        s) := by
  have hl := h.live
  have hvol := vol_eq_volOf h.copy
  -- by the number of bytes left
  induction hleft : n - tot using Nat.strong_induction_on generalizing tot off with
  | _ left ih =>
  subst hleft
  rw [readLoop]
  by_cases hlt : tot < n
  · rw [if_pos hlt]
    have hne := h.mapped off le_rfl (by omega)
    have hmap : bmap sb s ip (off / BSIZE) = .ok _ :=
      bmap_mapped (hvol ▸ h.refs) (hvol ▸ hl) (by rw [hvol]; exact hne)
    obtain ⟨p, -, hrefers⟩ := Vol.refers_addrOf hl hne
    have hdisk := volOf_blk (d := s.disk) (h.refs.data _ _ hrefers).1
    generalize hm : min (n - tot) (BSIZE - off % BSIZE) = m
    have hpos : 0 < m := by simp only [BSIZE] at hm; omega
    have hrest : readLoop sb ip n (tot + m) (off + m) s = .ok _ :=
      ih (n - (tot + m)) (by omega) (by omega) (h.mono (by omega) (by omega)) rfl
    -- the bytes of this turn lie in one block
    have hpart : (List.range m).map (fun k => (s.disk ((volOf sb s.disk).addrOf
        (s.icache ip).inum (off / BSIZE))).byte (off % BSIZE + k)) =
        (List.range m).map fun k => (volOf sb s.disk).fbyte (s.icache ip).inum (off + k) := by
      refine map_congr_left fun k hk => ?_
      have hk' := List.mem_range.mp hk
      have hdiv : (off + k) / BSIZE = off / BSIZE := by simp only [BSIZE] at hm ⊢; omega
      have hmod : (off + k) % BSIZE = off % BSIZE + k := by simp only [BSIZE] at hm ⊢; omega
      rw [Vol.fbyte, hdiv, hmod, hdisk]
    rw [hmap, hvol]
    show (readLoop sb ip n (tot + m) (off + m) s >>= fun r => _) = _
    rw [hrest]
    show Except.ok (_ ++ _, s) = _
    rw [hpart, show n - tot = m + (n - (tot + m)) by omega, List.range_add, map_append,
      List.map_map]
    simp only [Function.comp_def, Nat.add_assoc]
  · rw [if_neg hlt, Nat.sub_eq_zero_of_le (by omega)]
    rfl

theorem readi_mapped {dev : Devsw} {off n : UInt32}
    (h : Readable sb s ip off.toNat (min (off.toNat + n.toNat) (s.icache ip).copy.size.toNat))
    (hdev : (s.icache ip).copy.type ≠ T_DEV)
    (h1 : ¬ (off > (s.icache ip).copy.size ∨ off + n < off)) : readi sb dev s ip off n = .ok
      (((min n.toNat ((s.icache ip).copy.size.toNat - off.toNat) : Nat),
        (((volOf sb s.disk).contents (s.icache ip).inum).drop off.toNat).take n.toNat), s) := by
  obtain ⟨hle, hwrap⟩ := not_or.mp h1
  rw [GT.gt, UInt32.lt_iff_toNat_lt] at hle
  have hsum := toNat_add_of_not_wraps hwrap
  generalize hn : (if off + n > (s.icache ip).copy.size then (s.icache ip).copy.size - off else n) =
    n'
  have hn' : n'.toNat = min n.toNat ((s.icache ip).copy.size.toNat - off.toNat) := by
    rw [← hn]
    split
    · rename_i hgt
      rw [GT.gt, UInt32.lt_iff_toNat_lt, hsum] at hgt
      rw [UInt32.toNat_sub_of_le _ _ (UInt32.le_iff_toNat_le.mpr (by omega))]
      omega
    · rename_i hgt
      rw [GT.gt, UInt32.lt_iff_toNat_lt, hsum] at hgt
      omega
  have hloop : readLoop sb ip n'.toNat 0 off.toNat s = .ok _ :=
    readLoop_eq (Nat.zero_le n'.toNat) (h.mono le_rfl (by omega))
  have hbytes : (List.range n'.toNat).map (fun k =>
      (volOf sb s.disk).fbyte (s.icache ip).inum (off.toNat + k)) =
      (((volOf sb s.disk).contents (s.icache ip).inum).drop off.toNat).take n.toNat := by
    rw [Vol.contents, h.copy]
    apply ext_getElem?
    intro k
    simp only [List.getElem?_map, List.getElem?_take, List.getElem?_drop]
    by_cases hk : k < n'.toNat
    · simp [hk, show k < n.toNat by omega,
        show off.toNat + k < (s.icache ip).copy.size.toNat by omega]
    · rw [List.getElem?_eq_none (by simp; omega)]
      split
      · rw [List.getElem?_eq_none (by simp; omega)]
        rfl
      · rfl
  simp only [readi, hdev, if_false, h1, hn, hloop, Nat.sub_zero, hbytes, ← hn']
  rfl

theorem readi_contents {dev : Devsw} {off n : UInt32} (h : FsOk sb s) (hip : Locked s ip)
    (hdev : (s.icache ip).copy.type ≠ T_DEV)
    (h1 : ¬ (off > (s.icache ip).copy.size ∨ off + n < off)) : readi sb dev s ip off n = .ok
      (((min n.toNat ((s.icache ip).copy.size.toNat - off.toNat) : Nat),
        (((volOf sb s.disk).contents (s.icache ip).inum).drop off.toNat).take n.toNat), s) :=
  readi_mapped ((h.readable hip).mono (Nat.zero_le _) (Nat.min_le_right _ _)) hdev h1

theorem readi_same (dev : Devsw) (h : FsOk sb s) (hip : Locked s ip) (off n : UInt32) :
    ∃ r, readi sb dev s ip off n = .ok (r, s) := by
  by_cases hdev : (s.icache ip).copy.type = T_DEV
  · simp only [readi, hdev, if_true]
    split
    · exact ⟨_, rfl⟩
    · split
      · exact ⟨_, rfl⟩
      · exact ⟨_, rfl⟩
  · by_cases h1 : off > (s.icache ip).copy.size ∨ off + n < off
    · simp only [readi, hdev, if_false, h1, if_true]
      exact ⟨_, rfl⟩
    · exact ⟨_, readi_contents h hip hdev h1⟩

end Read

section Refine

variable {sb : Superblock} {s : FS} {ip : Fin NINODE}

def WriteRejected (size off n : Nat) : Prop :=
  size < off ∨ 2 ^ 32 ≤ off + n ∨ MAXFILE * BSIZE < off + n

theorem writeRejected_iff (size off n : UInt32) : WriteRejected size.toNat off.toNat n.toNat ↔
      (off > size ∨ off + n < off) ∨ off + n > UInt32.ofNat (MAXFILE * BSIZE) := by
  have hmaxNat : (UInt32.ofNat (MAXFILE * BSIZE)).toNat = MAXFILE * BSIZE := rfl
  rw [WriteRejected, ← add_wraps_iff, GT.gt, GT.gt, UInt32.lt_iff_toNat_lt, or_assoc]
  refine or_congr_right (or_congr_right' fun hwrap => ?_)
  rw [UInt32.lt_iff_toNat_lt, toNat_add_of_not_wraps hwrap, hmaxNat]

theorem writei_rejected {dev : Devsw} {src : Nat → UInt8} {off n : UInt32}
    (hdev : (s.icache ip).copy.type ≠ T_DEV)
    (hr : WriteRejected (s.icache ip).copy.size.toNat off.toNat n.toNat) :
    writei sb dev s ip src off n = .ok (-1, s) := by
  rw [writeRejected_iff] at hr
  by_cases h1 : off > (s.icache ip).copy.size ∨ off + n < off
  · simp only [writei, hdev, if_false, h1, if_true]
  · simp only [writei, hdev, if_false, h1, hr.resolve_left h1, if_true]

theorem writei_too_large {dev : Devsw} {src : Nat → UInt8} {off n : UInt32} (h : FsOk sb s)
    (hip : Locked s ip) (hdev : (s.icache ip).copy.type ≠ T_DEV)
    (hr : ¬ WriteRejected (s.icache ip).copy.size.toNat off.toNat n.toNat)
    (hfree : EnoughFree sb s ip off.toNat n.toNat)
    (hlarge : LOGSIZE < Vol.spanned off.toNat (off.toNat + n.toNat)) :
    ∃ e, writei sb dev s ip src off n = .error e ∧
      (e = .tooBigTransaction ∨ e = .logWriteOutsideTrans) := by
  have hlt : off.toNat + n.toNat < 2 ^ 32 := by
    simp only [WriteRejected] at hr
    omega
  rw [writeRejected_iff, not_or] at hr
  have hends : Ends (writei sb dev s ip src off n) _ _ := writei_written h hip hdev hr.1 hr.2
  cases hres : writei sb dev s ip src off n with
  | ok r =>
    have := (hends.of_ok hres).2.spanned_le h hip hlt
    omega
  | error e =>
    rcases hends.of_error hres with ⟨-, he⟩ | ⟨hno, -⟩
    · exact ⟨e, rfl, he⟩
    · exact absurd hfree hno

/-- `writei` and `readi` on a file of a well-formed file system are a splice into and a piece of its
contents. -/
theorem contents_refine (dev : Devsw) (h : FsOk sb s) (hip : Locked s ip)
    (hdev : (s.icache ip).copy.type ≠ T_DEV) :
    (∀ src off n, WriteRejected (s.icache ip).copy.size.toNat off.toNat n.toNat →
      writei sb dev s ip src off n = .ok (-1, s)) ∧
    (∀ src off n, ¬ WriteRejected (s.icache ip).copy.size.toNat off.toNat n.toNat →
      Ends (writei sb dev s ip src off n)
        (Stops (LogRoom sb s ip off.toNat n.toNat) (EnoughFree sb s ip off.toNat n.toNat)) fun r =>
        r.1 = n.toNat ∧ FsOk sb r.2 ∧
        (volOf sb r.2.disk).contents (s.icache ip).inum =
          splice ((volOf sb s.disk).contents (s.icache ip).inum) off.toNat
            ((List.range n.toNat).map src) ∧
        ∀ j, j ≠ (s.icache ip).inum → (volOf sb s.disk).Live sb j →
          (volOf sb r.2.disk).dino j = (volOf sb s.disk).dino j ∧
            (volOf sb r.2.disk).contents j = (volOf sb s.disk).contents j) ∧
    (∀ src off n, ¬ WriteRejected (s.icache ip).copy.size.toNat off.toNat n.toNat →
      EnoughFree sb s ip off.toNat n.toNat →
      LOGSIZE < Vol.spanned off.toNat (off.toNat + n.toNat) →
      ∃ e, writei sb dev s ip src off n = .error e ∧
        (e = .tooBigTransaction ∨ e = .logWriteOutsideTrans)) ∧
    (∀ off n : UInt32, (s.icache ip).copy.size.toNat < off.toNat ∨ 2 ^ 32 ≤ off.toNat + n.toNat →
      readi sb dev s ip off n = .ok ((-1, []), s)) ∧
    (∀ off n : UInt32,
      ¬ ((s.icache ip).copy.size.toNat < off.toNat ∨ 2 ^ 32 ≤ off.toNat + n.toNat) →
      readi sb dev s ip off n = .ok
        (((min n.toNat ((s.icache ip).copy.size.toNat - off.toNat) : Nat),
          (((volOf sb s.disk).contents (s.icache ip).inum).drop off.toNat).take n.toNat), s)) := by
  refine ⟨?_, ?_, ?_, ?_, ?_⟩
  · intro src off n hr
    exact writei_rejected hdev hr
  · intro src off n hr
    have hlt : off.toNat + n.toNat < 2 ^ 32 := by
      simp only [WriteRejected] at hr
      omega
    have hoff : off.toNat ≤ (s.icache ip).copy.size.toNat := by
      simp only [WriteRejected] at hr
      omega
    rw [writeRejected_iff, not_or] at hr
    refine (writei_written h hip hdev hr.1 hr.2).imp ?_
    rintro r ⟨hret, hw⟩
    exact ⟨hret, hw.ok, hw.contents_self h hip hoff hlt, fun j hji hj => hw.contents_other h hj hji⟩
  · intro src off n hr hfree hlarge
    exact writei_too_large h hip hdev hr hfree hlarge
  · intro off n hr
    rw [← add_wraps_iff, ← UInt32.lt_iff_toNat_lt] at hr
    have h1 : off > (s.icache ip).copy.size ∨ off + n < off := hr
    simp only [readi, hdev, if_false, h1, if_true]
  · intro off n hr
    rw [← add_wraps_iff, ← UInt32.lt_iff_toNat_lt] at hr
    exact readi_contents h hip hdev hr

end Refine

namespace Sample

theorem lack_eq (bn : Nat) : (volOf sb disk).lack 1 bn = if NDIRECT ≤ bn then 1 else 0 := by
  simp [Vol.lack, ind_one]

theorem enoughFree_of {off n : Nat} (h : Vol.blocksOf (off + n) ≤ 93) :
    EnoughFree sb fs 0 off n := by
  have hsize : Vol.blocksOf (fs.icache 0).copy.size.toNat = 1 := by decide
  have hfree : Vol.freeCount sb (volOf sb fs.disk) = 93 := freeCount_eq
  have hlack : (volOf sb fs.disk).lack (fs.icache 0).inum (Vol.blocksOf (off + n) - 1) ≤ 1 := by
    refine (lack_eq _).le.trans ?_
    split <;> omega
  rw [EnoughFree, hsize, hfree]
  omega

theorem logRoom_of {off n : Nat} (h : Vol.spanned off (off + n) ≤ 25) : LogRoom sb fs 0 off n := by
  have hlack : (volOf sb fs.disk).lack (fs.icache 0).inum (Vol.blocksOf (off + n) - 1) ≤ 1 := by
    refine (lack_eq _).le.trans ?_
    split <;> omega
  have hcard : (logTargets sb fs 0 \ fs.log.lh.blocks.toFinset).card ≤ 2 :=
    (card_le_card sdiff_subset).trans logTargets_card
  have hn : fs.log.lh.n = 0 := rfl
  have hcap : fs.log.cap = 29 := by decide
  refine ⟨by decide, ?_⟩
  rw [hn, hcap]
  omega

end Sample

/-- 31 blocks are more than one transaction takes, with an empty log and free blocks in plenty. -/
theorem large_write_panics :
    FsOk Sample.sb Sample.fs ∧ Locked Sample.fs 0 ∧ (Sample.fs.icache 0).copy.type ≠ T_DEV ∧
    ¬ WriteRejected (Sample.fs.icache 0).copy.size.toNat 0 15872 ∧
    EnoughFree Sample.sb Sample.fs 0 0 15872 ∧
    ∃ e, writei Sample.sb Sample.dev Sample.fs 0 (fun _ => 7) 0 15872 = .error e ∧
      (e = .tooBigTransaction ∨ e = .logWriteOutsideTrans) := by
  have hdev : (Sample.fs.icache 0).copy.type ≠ T_DEV := by decide
  have hr : ¬ WriteRejected (Sample.fs.icache 0).copy.size.toNat 0 15872 := by
    simp only [WriteRejected]
    decide
  have hfree : EnoughFree Sample.sb Sample.fs 0 0 15872 := Sample.enoughFree_of (by decide)
  exact ⟨Sample.ok, Sample.locked, hdev, hr, hfree,
    writei_too_large Sample.ok Sample.locked hdev hr hfree (by decide)⟩

theorem contents_refine_sample :
    LogRoom Sample.sb Sample.fs 0 4 3 ∧ EnoughFree Sample.sb Sample.fs 0 4 3 ∧
    (∃ r, writei Sample.sb Sample.dev Sample.fs 0 (fun _ => 7) 4 3 = .ok r ∧ r.1 = 3 ∧
      (volOf Sample.sb r.2.disk).contents 1 =
        splice ((volOf Sample.sb Sample.fs.disk).contents 1) 4 [7, 7, 7]) ∧
    readi Sample.sb Sample.dev Sample.fs 0 1 100 = .ok
      ((4, (((volOf Sample.sb Sample.fs.disk).contents 1).drop 1).take 100), Sample.fs) := by
  have hdev : (Sample.fs.icache 0).copy.type ≠ T_DEV := by decide
  have hr : ¬ WriteRejected (Sample.fs.icache 0).copy.size.toNat 4 3 := by
    simp only [WriteRejected]
    decide
  have hroom : LogRoom Sample.sb Sample.fs 0 4 3 := Sample.logRoom_of (by decide)
  have hfree : EnoughFree Sample.sb Sample.fs 0 4 3 := Sample.enoughFree_of (by decide)
  obtain ⟨-, hwrite, -, -, hread⟩ := contents_refine Sample.dev Sample.ok Sample.locked hdev
  refine ⟨hroom, hfree, ?_, hread 1 100 (by decide)⟩
  obtain ⟨r, hr, hret, -, hcont, -⟩ := ((hwrite (fun _ => 7) 4 3 hr).mono
    (fun _ he => by rcases he with ⟨hno, -⟩ | ⟨hno, -⟩ <;> exact hno ‹_›) fun _ => id).total
  exact ⟨r, hr, hret, hcont⟩

end Xv6.Fs
