import Xv6.Fs.Content
import Xv6.Fs.Refs

/-!
# Xv6.Fs.Tree

The volume as a map from inode numbers to nodes: what `ialloc`, `iupdate`, `writei` and `iput` do to
a file system when one forgets where the blocks are.

`Vol.tree` has a node for each allocated inode, with its contents as a list of bytes. Each operation
changes one node (`tree_alloc`, `tree_meta`, `tree_write`, `tree_free`).
-/

namespace Xv6.Fs

open Function

variable {d : Dinode}

structure Node where
  type : Int16
  major : Int16
  minor : Int16
  nlink : Int16
  data : List UInt8

/-- The node with the fields of `d` that are not about the contents. -/
def Node.withFields (n : Node) (d : Dinode) : Node := ⟨n.type, d.major, d.minor, d.nlink, n.data⟩

abbrev Tree := Nat → Option Node

namespace Vol

def node (v : Vol) (i : Nat) : Node :=
  ⟨(v.dino i).type, (v.dino i).major, (v.dino i).minor, (v.dino i).nlink, v.contents i⟩

def setDino (v : Vol) (i : Nat) (d : Dinode) : Vol := { v with dino := update v.dino i d }

@[simp] theorem setDino_self (v : Vol) (i : Nat) (d : Dinode) : (v.setDino i d).dino i = d := by
  simp [setDino]

theorem setDino_other (v : Vol) {i j : Nat} (d : Dinode) (h : j ≠ i) :
    (v.setDino i d).dino j = v.dino j := by
  simp [setDino, h]

theorem setDino_idem (v : Vol) (i : Nat) (d d' : Dinode) :
    (v.setDino i d).setDino i d' = v.setDino i d' := by
  simp [setDino]

theorem setDino_eq_self (v : Vol) (i : Nat) : v.setDino i (v.dino i) = v := by
  simp [setDino]

def tree (sb : Superblock) (v : Vol) : Tree := fun i =>
  if i < sb.ninodes ∧ (v.dino i).type ≠ 0 then some (v.node i) else none

section Tree

variable {sb : Superblock} {v w : Vol} {i : Nat}

theorem tree_live (h : v.Live sb i) : v.tree sb i = some (v.node i) := if_pos h

theorem tree_not_live (h : ¬ v.Live sb i) : v.tree sb i = none := if_neg h

theorem tree_eq_some {n : Node} : v.tree sb i = some n ↔ v.Live sb i ∧ v.node i = n := by
  by_cases h : v.Live sb i
  · simp [tree_live h, h]
  · simp [tree_not_live h, h]

theorem contents_congr (hd : w.dino i = v.dino i) (hb : w.blk = v.blk) :
    w.contents i = v.contents i := by
  rw [contents, contents, hd]
  refine List.map_congr_left fun k _ => ?_
  rw [fbyte, fbyte, addrOf_congr hd hb, hb]

theorem tree_congr {j : Nat} (hd : w.dino j = v.dino j)
    (hc : v.Live sb j → w.contents j = v.contents j) : w.tree sb j = v.tree sb j := by
  by_cases hl : v.Live sb j
  · have hl' : w.Live sb j := by rwa [Live, hd]
    rw [tree_live hl, tree_live hl', node, node, hd, hc hl]
  · have hl' : ¬ w.Live sb j := by rwa [Live, hd]
    rw [tree_not_live hl, tree_not_live hl']

theorem tree_replace (hdino : w.dino = update v.dino i d)
    (hblk : w.blk = v.blk) : w.tree sb = update (v.tree sb) i (w.tree sb i) := by
  funext j
  by_cases hj : j = i
  · subst hj
    rw [update_self]
  · have hd : w.dino j = v.dino j := by rw [hdino, update_of_ne hj]
    rw [update_of_ne hj]
    exact tree_congr hd fun _ => contents_congr hd hblk

theorem tree_alloc {type : Int16} (hi : i < sb.ninodes) (ht : type ≠ 0)
    (hdino : w.dino = update v.dino i (.fresh type)) (hblk : w.blk = v.blk) :
    w.tree sb = update (v.tree sb) i (some ⟨type, 0, 0, 0, []⟩) := by
  have hd : w.dino i = .fresh type := by rw [hdino, update_self]
  rw [tree_replace hdino hblk, tree_live ⟨hi, by rw [hd]; exact ht⟩, node, contents, hd]
  rfl

theorem tree_free (hdino : w.dino = update v.dino i d) (hblk : w.blk = v.blk)
    (ht : d.type = 0) : w.tree sb = update (v.tree sb) i none := by
  rw [tree_replace hdino hblk, tree_not_live]
  rintro ⟨-, hne⟩
  rw [hdino, update_self] at hne
  exact hne ht

/-- The fields that do not say where the contents are. -/
structure SameData (d d' : Dinode) : Prop where
  type : d'.type = d.type
  size : d'.size = d.size
  addrs : d'.addrs = d.addrs

theorem addrOf_sameData (hdino : w.dino = update v.dino i d)
    (hblk : w.blk = v.blk) (hs : SameData (v.dino i) d) (j bn : Nat) :
    w.addrOf j bn = v.addrOf j bn := by
  have ha : (w.dino j).addrs = (v.dino j).addrs := by
    by_cases hj : j = i
    · subst hj
      rw [hdino, update_self, hs.addrs]
    · rw [hdino, update_of_ne hj]
  cases hq : posOf bn with
  | none => simp [addrOf, hq]
  | some q =>
    rw [addrOf_pos hq, addrOf_pos hq]
    exact refAt_congr ha (by rw [hblk]) q

theorem contents_sameData (hdino : w.dino = update v.dino i d)
    (hblk : w.blk = v.blk) (hs : SameData (v.dino i) d) (j : Nat) :
    w.contents j = v.contents j := by
  have hsize : (w.dino j).size = (v.dino j).size := by
    by_cases hj : j = i
    · subst hj
      rw [hdino, update_self, hs.size]
    · rw [hdino, update_of_ne hj]
  rw [contents, contents, hsize]
  refine List.map_congr_left fun k _ => ?_
  rw [fbyte, fbyte, addrOf_sameData hdino hblk hs, hblk]

theorem tree_meta (hl : v.Live sb i) (hdino : w.dino = update v.dino i d)
    (hblk : w.blk = v.blk) (hs : SameData (v.dino i) d) :
    w.tree sb = update (v.tree sb) i (some ((v.node i).withFields d)) := by
  have hd : w.dino i = d := by rw [hdino, update_self]
  rw [tree_replace hdino hblk, tree_live ⟨hl.1, by rw [hd, hs.type]; exact hl.2⟩, node, hd,
    contents_sameData hdino hblk hs, hs.type]
  rfl

theorem tree_setDino (hl : v.Live sb i) (hs : SameData (v.dino i) d) : (v.setDino i d).tree sb =
      update (v.tree sb) i (some ((v.node i).withFields d)) :=
  tree_meta (w := v.setDino i d) hl rfl rfl hs

theorem WellFormed.meta (h : v.WellFormed sb)
    (hdino : w.dino = update v.dino i d) (hblk : w.blk = v.blk) (hbit : w.bit = v.bit)
    (hs : SameData (v.dino i) d) : w.WellFormed sb := by
  have hsame : ∀ j, SameData (v.dino j) (w.dino j) := by
    intro j
    by_cases hj : j = i
    · subst hj
      rwa [hdino, update_self]
    · rw [hdino, update_of_ne hj]
      exact ⟨rfl, rfl, rfl⟩
  have hlive : ∀ j, w.Live sb j ↔ v.Live sb j := by
    intro j
    rw [Live, Live, (hsame j).type]
  refine ⟨h.refs.same hbit ?_, ?_⟩
  · rintro ⟨j, q⟩ x
    have hr : w.refAt j q = v.refAt j q := refAt_congr (hsame j).addrs (by rw [hblk]) q
    simp only [Refers, hlive, hr]
  · intro j hj bn
    rw [(hsame j).size, addrOf_sameData hdino hblk hs]
    exact h.maps j ((hlive j).mp hj) bn

end Tree

end Vol

section Effects

variable {sb : Superblock} {s s' : FS} {ip : Fin NINODE}

theorem Vol.Wrote.tree {v w : Vol} {i off n : Nat} {src : Nat → UInt8} (h : v.WellFormed sb)
    (hi : v.Live sb i) (hw : Vol.Wrote sb v w i off (off + n) fun k => src (k - off))
    (hoff : off ≤ (v.dino i).size.toNat) (hn : off + n < 2 ^ 32) :
    (w.setSize i (UInt32.ofNat (max (v.dino i).size.toNat (off + n)))).tree sb =
      update (v.tree sb) i
        (some { v.node i with data := splice (v.contents i) off ((List.range n).map src) }) := by
  have hlive : ∀ j z, (w.setSize i z).Live sb j ↔ v.Live sb j := fun j z => by
    rw [Vol.live_setSize, hw.live_iff]
  funext j
  by_cases hj : j = i
  · subst hj
    rw [update_self, Vol.tree_live ((hlive _ _).mpr hi), Vol.node,
      hw.contents_self h hi hoff hn, Vol.setSize_dino_self, Vol.node, ← hw.dino j]
  · rw [update_of_ne hj]
    by_cases hl : v.Live sb j
    · obtain ⟨hd, hc⟩ := hw.contents_other h hl hj
        (UInt32.ofNat (max (v.dino i).size.toNat (off + n)))
      exact Vol.tree_congr hd fun _ => hc
    · rw [Vol.tree_not_live hl, Vol.tree_not_live (mt (hlive j _).mp hl)]

theorem Written.tree {off n : Nat} {src : Nat → UInt8} (h : FsOk sb s) (hip : Locked s ip)
    (hw : Written sb ip s s' off (off + n) src) (hoff : off ≤ (s.icache ip).copy.size.toNat)
    (hn : off + n < 2 ^ 32) :
    (volOf sb s'.disk).tree sb = update ((volOf sb s.disk).tree sb) (s.icache ip).inum
      (some { (volOf sb s.disk).node (s.icache ip).inum with
        data := splice ((volOf sb s.disk).contents (s.icache ip).inum) off
          ((List.range n).map src) }) := by
  obtain ⟨w, hwrote, hvol⟩ := hw.wrote
  have hcopy := (h.cache.valid ip hip.1 hip.2).1
  rw [← hcopy] at hvol hoff
  rw [hvol]
  exact hwrote.tree h.wf (h.live hip) hoff hn

theorem iget_frame (s : FS) (inum : Nat) : Ends (iget s inum) (fun _ => True) fun r =>
    r.2.disk = s.disk ∧ (r.2.icache r.1).inum = inum ∧ ∀ jp, 0 < (s.icache jp).ref →
      (r.2.icache jp).inum = (s.icache jp).inum ∧ (r.2.icache jp).valid = (s.icache jp).valid := by
  rw [iget]
  cases hfound : (List.finRange NINODE).find? fun ip =>
      0 < (s.icache ip).ref ∧ (s.icache ip).inum = inum with
  | some ip =>
    have hip := List.find?_some hfound
    simp only [decide_eq_true_eq] at hip
    refine ⟨rfl, by simpa [FS.setInode] using hip.2, fun jp _ => ?_⟩
    by_cases hj : jp = ip
    · subst hj
      simp [FS.setInode]
    · simp [FS.setInode, hj]
  | none =>
    cases hempty : (List.finRange NINODE).find? fun ip => (s.icache ip).ref = 0 with
    | none => trivial
    | some ip =>
      have h0 : (s.icache ip).ref = 0 := by simpa using List.find?_some hempty
      refine ⟨rfl, by simp [FS.setInode], fun jp hjp => ?_⟩
      have hj : jp ≠ ip := by
        rintro rfl
        omega
      simp [FS.setInode, hj]

theorem ialloc_effect (h : FsOk sb s) (type : Int16) :
    Ends (ialloc sb s type) (fun _ => True) fun r =>
      FsOk sb r.2 ∧ ∃ i, 1 ≤ i ∧ i < sb.ninodes ∧ ((volOf sb s.disk).dino i).type = 0 ∧
        volOf sb r.2.disk = { volOf sb s.disk with
          dino := update (volOf sb s.disk).dino i (.fresh type) } ∧
        (r.2.icache r.1).inum = i ∧ ∀ jp, 0 < (s.icache jp).ref →
          (r.2.icache jp).inum = (s.icache jp).inum ∧
            (r.2.icache jp).valid = (s.icache jp).valid := by
  suffices hdisk : Ends (ialloc sb s type) (fun _ => True) fun r => ∃ i, 1 ≤ i ∧ i < sb.ninodes ∧
      ((volOf sb s.disk).dino i).type = 0 ∧
      volOf sb r.2.disk = { volOf sb s.disk with
        dino := update (volOf sb s.disk).dino i (.fresh type) } ∧
      (r.2.icache r.1).inum = i ∧ ∀ jp, 0 < (s.icache jp).ref →
        (r.2.icache jp).inum = (s.icache jp).inum ∧
          (r.2.icache jp).valid = (s.icache jp).valid from
    ((ialloc_ends h type).and hdisk).mono (fun _ _ => True.intro) fun _ hr => hr
  rw [ialloc]
  cases hfind : (List.range sb.ninodes).find? fun inum =>
      1 ≤ inum ∧ (getDinode (s.disk (sb.iblock inum)) (inum % IPB)).type = 0 with
  | none => trivial
  | some inum =>
    have hlt : inum < sb.ninodes := List.mem_range.mp (List.mem_of_find?_eq_some hfind)
    have hfree := List.find?_some hfind
    simp only [decide_eq_true_eq] at hfree
    have htype : ((volOf sb s.disk).dino inum).type = 0 := by simpa [volOf, hlt] using hfree.2
    have hno : False → ∃ g, s.log.logWrite (sb.iblock inum) = .ok g ∧ Log.Room g ∅ 0 := False.elim
    refine Ends.bind ((logWrite_ends (F := True) _ hno).mono (fun _ _ => trivial) fun _ => id) ?_
    rintro s1 ⟨g, hs1, -, -⟩
    refine (iget_frame s1 inum).imp fun r hr => ⟨inum, hfree.1, hlt, htype, ?_, hr.2.1, ?_⟩
    · rw [hr.1, hs1]
      exact volOf_setDinode hlt _
    · rw [hs1] at hr
      exact hr.2.2

theorem iput_effect (h : FsOk sb s) (hip : 0 < (s.icache ip).ref) :
    Ends (iput sb s ip) (fun _ => True) fun s' => FsOk sb s' ∧
      (∀ jp, (s'.icache jp).inum = (s.icache jp).inum) ∧
      (∀ jp, jp ≠ ip → s'.icache jp = s.icache jp) ∧
      (((s.icache ip).valid = true ∧ (s.icache ip).copy.nlink = 0 ∧ (s.icache ip).ref = 1 ∧
          Replaced sb ip (s.icache ip).copy.freed s s') ∨
        (¬ ((s.icache ip).valid = true ∧ (s.icache ip).copy.nlink = 0 ∧ (s.icache ip).ref = 1) ∧
          s'.disk = s.disk ∧ (s'.icache ip).valid = (s.icache ip).valid)) := by
  have hput := (iput_ends (F := True) h hip)
  refine (hput.and (F := fun _ => True) (R := fun s' =>
      (∀ jp, (s'.icache jp).inum = (s.icache jp).inum) ∧
      (∀ jp, jp ≠ ip → s'.icache jp = s.icache jp) ∧ _) ?_).mono (fun _ _ => trivial) fun _ => id
  simp only [iput]
  split
  · rename_i hc
    simp only [Bool.and_eq_true, decide_eq_true_eq] at hc
    refine ((ifree_ends (F := True) h ⟨hip, hc.1.1⟩).mono (fun _ _ => trivial) fun _ => id).bind ?_
    rintro s1 ⟨-, hrep, hic⟩
    have hx : ∀ jp, jp ≠ ip → s1.icache jp = s.icache jp := fun jp hj => by
      rw [hic, update_of_ne hj]
    refine ⟨fun jp => ?_, fun jp hj => ?_, .inl ⟨hc.1.1, hc.1.2, hc.2, ⟨hrep.dino, hrep.blk⟩⟩⟩
    · by_cases hj : jp = ip
      · subst hj
        simp [FS.setInode, hic]
      · simp [FS.setInode, hj, hx jp hj]
    · simp [FS.setInode, hj, hx jp hj]
  · rename_i hc
    simp only [Bool.and_eq_true, decide_eq_true_eq] at hc
    refine ⟨fun jp => ?_, fun jp hj => ?_, .inr ⟨fun hn => hc ⟨⟨hn.1, hn.2.1⟩, hn.2.2⟩, rfl, ?_⟩⟩
    · by_cases hj : jp = ip
      · subst hj
        simp [FS.setInode]
      · simp [FS.setInode, hj]
    · simp [FS.setInode, hj]
    · simp [FS.setInode]

theorem iupdate_effect (h : FsOk sb s) (hip : Locked s ip)
    (hs : Vol.SameData (s.icache ip).copy d) :
    Ends (iupdate sb (s.setInode ip { s.icache ip with copy := d }) ip) (fun _ => True) fun s' =>
      FsOk sb s' ∧ volOf sb s'.disk = { volOf sb s.disk with
        dino := update (volOf sb s.disk).dino (s.icache ip).inum d } ∧
      (∀ jp, (s'.icache jp).inum = (s.icache jp).inum ∧
        (s'.icache jp).valid = (s.icache jp).valid) := by
  obtain ⟨hcopy, htype⟩ := h.cache.valid ip hip.1 hip.2
  have hlt := h.cache.inum_lt ip hip.1
  generalize hs1 : s.setInode ip { s.icache ip with copy := d } = s1
  have hx : s1.icache ip = { s.icache ip with copy := d } := by
    rw [← hs1]
    simp [FS.setInode]
  have hother : ∀ jp, jp ≠ ip → s1.icache jp = s.icache jp := fun jp hj => by
    rw [← hs1]
    simp [FS.setInode, hj]
  refine (iupdate_ends (P := False) (F := True) (R := {sb.iblock (s1.icache ip).inum}) (k := 0)
    (by rw [hx]; exact hlt) (by simp) False.elim).mono (fun _ _ => trivial) ?_
  rintro s2 ⟨hvol, hic, -, -⟩
  have hvol' : volOf sb s2.disk = { volOf sb s.disk with
      dino := update (volOf sb s.disk).dino (s.icache ip).inum d } := by
    rw [hvol, FS.vol, hx, ← hs1]
    rfl
  refine ⟨h.of_locked hip.1 ?_ ?_ ?_ ?_ ?_, hvol', fun jp => ?_⟩
  · rw [hvol']
    exact h.wf.meta rfl rfl rfl (hcopy ▸ hs)
  · intro jp hj
    rw [hic, hother jp hj]
  · rw [hic, hx]
  · intro j hj
    rw [hvol']
    exact update_of_ne hj _ _
  · intro _ _
    rw [hvol', hic, hx]
    exact ⟨update_self _ _ _, hs.type ▸ htype⟩
  · by_cases hj : jp = ip
    · subst hj
      rw [hic, hx]
      exact ⟨rfl, rfl⟩
    · rw [hic, hother jp hj]
      exact ⟨rfl, rfl⟩

end Effects

end Xv6.Fs
