import Xv6.Fs.Tree
import Xv6.Sys.Ents
import Xv6.Sys.Held

/-!
# Xv6.Sys.Effect

What the functions behind the system calls do to the volume of a well-formed file system.

`On B op X L V N v` adds to `In B op X L` that the disk holds the volume `v`, that the references
`X` are to the inodes `N`, and that the locked entries `L` and the entries `V` have been read.
Functions that only read keep `v`; each function that writes changes the tree of `v` at one node.
-/

namespace Xv6.Sys

open Fs Function Multiset Finset

/-- The disk holds `v`, the references `X` are to the inodes `N`, the entries `R` have been read. -/
structure Shows (sb : Superblock) (X : Multiset (Fin NINODE)) (R : Finset (Fin NINODE))
    (N : Fin NINODE → Nat) (v : Vol) (fs : FS) : Prop where
  ok : FsOk sb fs
  vol : volOf sb fs.disk = v
  num : ∀ ip ∈ X, (fs.icache ip).inum = N ip
  read : ∀ ip ∈ R, ip ∈ X ∧ (fs.icache ip).valid = true

structure On (sb : Superblock) (B : St) (op : Int) (X : Multiset (Fin NINODE))
    (L V : Finset (Fin NINODE)) (N : Fin NINODE → Nat) (v : Vol) (s : St) : Prop
    extends In B op X L s where
  shows : Shows sb X (L ∪ V) N v s.fs

/-- The references `X` are to the same inodes. -/
def Agree (X : Multiset (Fin NINODE)) (N N' : Fin NINODE → Nat) : Prop := ∀ ip ∈ X, N' ip = N ip

theorem Agree.symm {X : Multiset (Fin NINODE)} {N N' : Fin NINODE → Nat} (h : Agree X N N') :
    Agree X N' N := fun ip hip => (h ip hip).symm

theorem Agree.trans {X : Multiset (Fin NINODE)} {N N' N'' : Fin NINODE → Nat} (h : Agree X N N')
    (h' : Agree X N' N'') : Agree X N N'' := fun ip hip => (h' ip hip).trans (h ip hip)

/-- One of the references `X` is to inode `i`. -/
def HeldBy (X : Multiset (Fin NINODE)) (N : Fin NINODE → Nat) (i : Nat) : Prop := ∃ ip ∈ X, N ip = i

/-- Every stop is allowed but perhaps that of an inode without a type. -/
def Allows (E : Stop → Prop) : Prop := ∀ e, e ≠ .ilockNoType → E e

theorem Allows.hang {E : Stop → Prop} {q : Prop} (h : Allows E) (_ : q) : E .hang :=
  h _ Stop.noConfusion

theorem Allows.fs {E : Stop → Prop} {F : Panic → Prop} (h : Allows E) (p : Panic) (_ : F p) :
    E (.fs p) :=
  h _ Stop.noConfusion

section Cache

variable {sb : Superblock} {op : Int} {X : Multiset (Fin NINODE)} {R : Finset (Fin NINODE)}
  {N : Fin NINODE → Nat} {v : Vol} {fs : FS} {ip : Fin NINODE}

namespace Shows

theorem mono {R' : Finset (Fin NINODE)} (h : Shows sb X R N v fs) (hR : R' ⊆ R) :
    Shows sb X R' N v fs :=
  { h with read := fun ip hip => h.read ip (hR hip) }

theorem congr {fs' : FS} {v' : Vol} (h : Shows sb X R N v fs) (hok : FsOk sb fs')
    (hvol : volOf sb fs'.disk = v') (hic : ∀ ip ∈ X,
      (fs'.icache ip).inum = (fs.icache ip).inum ∧ (fs'.icache ip).valid = (fs.icache ip).valid) :
    Shows sb X R N v' fs' where
  ok := hok
  vol := hvol
  num ip hip := (hic ip hip).1.trans (h.num ip hip)
  read ip hip := ⟨(h.read ip hip).1, (hic ip (h.read ip hip).1).2.trans (h.read ip hip).2⟩

theorem cons {fs' : FS} {v' : Vol} (h : Shows sb X R N v fs) (ip : Fin NINODE) (hok : FsOk sb fs')
    (hvol : volOf sb fs'.disk = v') (hic : ∀ ip ∈ X,
      (fs'.icache ip).inum = (fs.icache ip).inum ∧ (fs'.icache ip).valid = (fs.icache ip).valid) :
    Shows sb (ip ::ₘ X) R (fun ip => (fs'.icache ip).inum) v' fs' ∧
      Agree X N fun ip => (fs'.icache ip).inum := by
  have hX := h.congr hok hvol hic
  refine ⟨⟨hok, hvol, fun _ _ => rfl, fun jp hjp => ?_⟩, hX.num⟩
  exact ⟨Multiset.mem_cons_of_mem (h.read jp hjp).1, (hX.read jp hjp).2⟩

theorem agree {N' : Fin NINODE → Nat} (h : Shows sb X R N v fs) (hN : Agree X N N') :
    Shows sb X R N' v fs :=
  { h with num := fun ip hip => (h.num ip hip).trans (hN ip hip).symm }

theorem locked (h : Shows sb X R N v fs) (hc : Counted fs op X) (hip : ip ∈ R) : Locked fs ip :=
  ⟨hc.ref_pos.mpr (h.read ip hip).1, (h.read ip hip).2⟩

theorem inum_eq (h : Shows sb X R N v fs) (hip : ip ∈ R) : (fs.icache ip).inum = N ip :=
  h.num ip (h.read ip hip).1

theorem copy_eq (h : Shows sb X R N v fs) (hc : Counted fs op X) (hip : ip ∈ R) :
    (fs.icache ip).copy = v.dino (N ip) := by
  have hl := h.locked hc hip
  rw [← h.inum_eq hip, ← h.vol, (h.ok.cache.valid ip hl.1 hl.2).1]

theorem live (h : Shows sb X R N v fs) (hc : Counted fs op X) (hip : ip ∈ R) :
    v.Live sb (N ip) := by
  have := h.ok.live (h.locked hc hip)
  rwa [h.inum_eq hip, h.vol] at this

end Shows

end Cache

section Base

variable {α : Type} {sb : Superblock} {dev : Devsw} {B : St} {op : Int}
  {X : Multiset (Fin NINODE)} {L V : Finset (Fin NINODE)} {N : Fin NINODE → Nat} {v : Vol}
  {E : Stop → Prop} {ip : Fin NINODE} {s : St}

theorem On.num_inj {jp : Fin NINODE} (h : On sb B op X L V N v s) (hi : ip ∈ X) (hj : jp ∈ X)
    (heq : N ip = N jp) : ip = jp := by
  refine h.counted.inj ip jp (h.counted.ref_pos.mpr hi) (h.counted.ref_pos.mpr hj) ?_
  rw [h.shows.num ip hi, h.shows.num jp hj, heq]

theorem On.held_iff (h : On sb B op (ip ::ₘ X) L V N v s) : HeldBy X N (N ip) ↔ ip ∈ X := by
  refine ⟨?_, fun hip => ⟨ip, hip, rfl⟩⟩
  rintro ⟨jp, hjp, heq⟩
  rwa [← h.num_inj (Multiset.mem_cons_of_mem hjp) (Multiset.mem_cons_self ip X) heq]

theorem On.agree {N' : Fin NINODE → Nat} (h : On sb B op X L V N v s) (hN : Agree X N N') :
    On sb B op X L V N' v s :=
  { h with shows := h.shows.agree hN }

theorem On.inum_lt (h : On sb B op X L V N v s) (hip : ip ∈ X) : N ip < sb.ninodes := by
  rw [← h.shows.num ip hip]
  exact h.shows.ok.cache.inum_lt ip (h.counted.ref_pos.mpr hip)

theorem onFs_ends {f : FS → Except Panic (α × FS)} {X' : α → Multiset (Fin NINODE)}
    {F : Panic → Prop} {Q : α × FS → Prop} (hE : ∀ p, F p → E (.fs p)) (hs : In B op X L s)
    (hin : Triple (In B op X L) (onFs f) Fine fun a => In B op (X' a) L) (hf : Ends (f s.fs) F Q) :
    Ends (onFs f s) E fun r => In B op (X' r.1) L r.2 ∧ Q (r.1, r.2.fs) := by
  have h1 := hin s hs
  simp only [onFs] at h1 ⊢
  cases hr : f s.fs with
  | error p =>
    rw [hr] at hf
    exact hE p hf
  | ok r =>
    rw [hr] at h1 hf
    exact ⟨h1, hf⟩

theorem beginOp_sets (hE : Allows E) (s : St) :
    Ends (beginOp s) E fun r => ∃ g, r.2 = s.setLog g := by
  refine Triple.get_bind (P := (· = s)) (Q := fun _ s' => ∃ g, s' = s.setLog g) ?_ s rfl
  rintro s rfl
  cases s.fs.log.beginOp with
  | none => exact hE _ Stop.noConfusion
  | some g => exact ⟨g, rfl⟩

theorem endOp_sets (hE : Allows E) (s : St) : Ends (endOp s) E fun r => ∃ g, r.2 = s.setLog g := by
  refine Triple.get_bind (P := (· = s)) (Q := fun _ s' => ∃ g, s' = s.setLog g) ?_ s rfl
  rintro s rfl
  cases s.fs.log.endOp with
  | error p => exact hE _ Stop.noConfusion
  | ok r => exact ⟨_, rfl⟩

theorem Shows.setLog {R : Finset (Fin NINODE)} (h : Shows sb X R N v s.fs) (g : Log.LogSt) :
    Shows sb X R N v (s.setLog g).fs :=
  h.congr ⟨h.ok.wf, h.ok.cache.inum_lt, h.ok.cache.inj, h.ok.cache.valid⟩ h.vol
    fun _ _ => ⟨rfl, rfl⟩

theorem beginOp_on (hE : Allows E) :
    Triple (On sb B op X L V N v) beginOp E fun _ => On sb B (op + 1) X L V N v := by
  intro s hs
  refine ((beginOp_spec s hs.toIn).and (beginOp_sets hE s)).mono (fun _ h => h.2) fun r hr => ?_
  obtain ⟨hin, g, hg⟩ := hr
  exact { hin with shows := hg ▸ hs.shows.setLog g }

theorem endOp_on (hE : Allows E) :
    Triple (On sb B (op + 1) X L V N v) endOp E fun _ => On sb B op X L V N v := by
  intro s hs
  refine ((endOp_spec s hs.toIn).and (endOp_sets hE s)).mono (fun _ h => h.2) fun r hr => ?_
  obtain ⟨hin, g, hg⟩ := hr
  exact { hin with shows := hg ▸ hs.shows.setLog g }

theorem iget_room {fs : FS} (h : Counted fs op X) (inum : Nat) :
    Ends (Fs.iget fs inum) (fun _ => NINODE ≤ X.toFinset.card) fun _ => True := by
  rw [Fs.iget]
  split
  · trivial
  · split
    · rename_i hnone
      have hall : X.toFinset = Finset.univ := by
        refine eq_univ_of_forall fun ip => mem_toFinset.mpr ?_
        have := List.find?_eq_none.mp hnone ip (List.mem_finRange ip)
        rw [decide_eq_true_eq, h.ref ip, Int.natCast_eq_zero, count_eq_zero] at this
        exact not_not.mp this
      show NINODE ≤ X.toFinset.card
      rw [hall, card_univ, Fintype.card_fin]
    · trivial

theorem iget_on (hE : E (.fs .igetNoInodes) ∨ X.toFinset.card < NINODE) {inum : Nat}
    (hlt : inum < sb.ninodes) : Triple (On sb B op X L V N v) (iget inum) E fun ip s =>
      ∃ N', N' ip = inum ∧ Agree X N N' ∧ On sb B op (ip ::ₘ X) L V N' v s := by
  intro s hs
  have hfs := ((iget_ends hs.shows.ok hlt).and (iget_frame s.fs inum)).and
    (iget_room hs.counted inum)
  refine (onFs_ends ?_ hs.toIn iget_spec hfs).imp fun r hr => ?_
  · rintro p ⟨⟨rfl, -⟩, hfull⟩
    exact hE.resolve_right (Nat.not_lt.mpr hfull)
  obtain ⟨hin, ⟨hok, hdisk, hnum, hframe⟩, -⟩ := hr
  dsimp only at hdisk hok hnum hframe
  obtain ⟨hshows, hagree⟩ := hs.shows.cons _ hok (hdisk ▸ hs.shows.vol) fun jp hjp =>
    hframe jp (hs.counted.ref_pos.mpr hjp)
  exact ⟨_, hnum, hagree, { hin with shows := hshows }⟩

theorem idup_on (hip : ip ∈ X) : Triple (On sb B op X L V N v) (idup ip) E fun r s =>
      r = ip ∧ On sb B op (ip ::ₘ X) L V N v s := by
  intro s hs
  have hin : In B op (ip ::ₘ X) L (s.setInode ip _) := hs.toIn.fs (hs.counted.incRef hip)
  have hic : ∀ jp ∈ X, ((s.fs.setInode ip { s.fs.icache ip with
      ref := (s.fs.icache ip).ref + 1 }).icache jp).inum = (s.fs.icache jp).inum ∧
      ((s.fs.setInode ip { s.fs.icache ip with
        ref := (s.fs.icache ip).ref + 1 }).icache jp).valid = (s.fs.icache jp).valid := by
    intro jp _
    by_cases hj : jp = ip
    · subst hj
      simp [FS.setInode]
    · simp [FS.setInode, hj]
  have hok := hs.shows.ok.setRef (hs.counted.ref_pos.mpr hip) ((s.fs.icache ip).ref + 1)
  obtain ⟨hshows, hagree⟩ := hs.shows.cons ip hok hs.shows.vol hic
  refine ⟨rfl, { hin with shows := hshows.agree fun jp hjp => ?_ }⟩
  rcases Multiset.mem_cons.mp hjp with rfl | h
  · exact (hagree _ hip).symm
  · exact (hagree jp h).symm

theorem ialloc_on (hE : Allows E) {type : Int16} :
    Triple (On sb B op X L V N v) (onFs (ialloc sb · type)) E fun ip s =>
      ∃ N', 1 ≤ N' ip ∧ N' ip < sb.ninodes ∧ (v.dino (N' ip)).type = 0 ∧ Agree X N N' ∧
        On sb B op (ip ::ₘ X) L V N' (v.setDino (N' ip) (.fresh type)) s := by
  intro s hs
  refine (onFs_ends hE.fs hs.toIn ialloc_spec (ialloc_effect hs.shows.ok type)).imp fun r hr => ?_
  obtain ⟨hin, hok, i, h1, hlt, htype, hvol, hnum, hframe⟩ := hr
  dsimp only at hok hvol hnum hframe
  subst hnum
  obtain ⟨hshows, hagree⟩ := hs.shows.cons _ hok (hvol.trans (by rw [hs.shows.vol]))
    fun jp hjp => hframe jp (hs.counted.ref_pos.mpr hjp)
  exact ⟨_, h1, hlt, hs.shows.vol ▸ htype, hagree, { hin with shows := hshows }⟩

theorem acquiresleep_sets (hE : s.locked ip = true → E .hang) :
    Ends (acquiresleep ip s) E fun r => r.2.fs = s.fs := by
  show Ends ((if s.locked ip then throw .hang
    else set { s with locked := update s.locked ip true } : M Unit) s) _ _
  split
  · exact hE ‹_›
  · rfl

theorem On.locked_iff (h : On sb B op X L V N v s) : s.locked ip = true ↔ ip ∈ L := by
  rw [h.locked ip, decide_eq_true_eq]

theorem acquiresleep_on (hE : ip ∈ L → E .hang) :
    Triple (On sb B op X L V N v) (acquiresleep ip) E fun _ s =>
      ip ∉ L ∧ In B op X (insert ip L) s ∧ Shows sb X (L ∪ V) N v s.fs := by
  intro s hs
  refine ((acquiresleep_spec s hs.toIn).and
    (acquiresleep_sets fun h => hE (hs.locked_iff.mp h))).mono (fun _ h => h.2) ?_
  rintro r ⟨⟨hL, hin⟩, hfs⟩
  exact ⟨hL, hin, hfs ▸ hs.shows⟩

theorem ilock_on (hE : ip ∈ L → E .hang) (hip : ip ∈ X)
    (hlive : v.Live sb (N ip) ∨ E .ilockNoType) :
    Triple (On sb B op X L V N v) (ilock sb ip) E fun _ s =>
      ip ∉ L ∧ v.Live sb (N ip) ∧ On sb B op X (insert ip L) V N v s := by
  refine .bind (Q := fun x s => 0 < x.ref ∧ On sb B op X L V N v s) ?_ fun x => ?_
  · exact fun s hs => ⟨hs.counted.ref_pos.mpr hip, hs⟩
  refine .of_imp fun href => .ite (fun h => absurd h (by omega)) fun _ => ?_
  refine .bind (acquiresleep_on hE) fun _ => .of_imp fun hL => ?_
  refine .get_bind fun s hs => ?_
  obtain ⟨hin, hshows⟩ := hs
  have hinum := hshows.num ip hip
  have hpos := hin.counted.ref_pos.mpr hip
  have hlt := hinum ▸ hshows.ok.cache.inum_lt ip hpos
  dsimp only
  by_cases hvalid : (s.fs.icache ip).valid = true
  · rw [if_pos hvalid]
    have hread : Shows sb X (insert ip L ∪ V) N v s.fs := { hshows with
      read := fun jp hjp => by
        rcases mem_insert.mp (insert_union ip L V ▸ hjp) with rfl | h
        · exact ⟨hip, hvalid⟩
        · exact hshows.read jp h }
    exact ⟨hL, hread.live hin.counted (by simp), { hin with shows := hread }⟩
  · rw [if_neg hvalid]
    refine ends_set_bind ?_
    have hdino : getDinode (s.fs.disk (sb.iblock (s.fs.icache ip).inum))
        ((s.fs.icache ip).inum % IPB) = v.dino (N ip) := by
      rw [← hshows.vol, hinum]
      simp [volOf, hlt]
    rw [hdino]
    by_cases htype : (v.dino (N ip)).type = 0
    · rw [if_pos htype]
      exact hlive.resolve_left fun hl => hl.2 htype
    · rw [if_neg htype]
      have hother : ∀ jp, jp ≠ ip → (s.fs.setInode ip { s.fs.icache ip with
          copy := v.dino (N ip), valid := true }).icache jp = s.fs.icache jp := fun jp hj => by
        simp [FS.setInode, hj]
      have hok : FsOk sb (s.fs.setInode ip { s.fs.icache ip with
          copy := v.dino (N ip), valid := true }) := by
        refine hshows.ok.of_locked hpos hshows.ok.wf hother (by simp [FS.setInode])
          (fun _ _ => rfl) fun _ _ => ?_
        simp only [FS.setInode, update_self]
        exact ⟨by rw [← hinum, ← hshows.vol], htype⟩
      refine ⟨hL, ⟨hlt, htype⟩, { hin.fs (hin.counted.keeps (KeepsRefs.setCopy _ _ _ _)) with
        shows := ⟨hok, hshows.vol, fun jp hjp => ?_, fun jp hjp => ?_⟩ }⟩
      · by_cases hj : jp = ip
        · subst hj
          simpa [St.setInode, FS.setInode] using hinum
        · exact (congrArg Inode.inum (hother jp hj)).trans (hshows.num jp hjp)
      · by_cases hj : jp = ip
        · subst hj
          exact ⟨hip, by simp [St.setInode, FS.setInode]⟩
        · rw [insert_union] at hjp
          obtain ⟨hX, hv⟩ := hshows.read jp (mem_of_mem_insert_of_ne hjp hj)
          exact ⟨hX, (congrArg Inode.valid (hother jp hj)).trans hv⟩

theorem iunlock_on (hL : ip ∉ L) :
    Triple (On sb B op X (insert ip L) V N v) (iunlock ip) E fun _ => On sb B op X L V N v := by
  intro s hs
  have hip := (hs.shows.read ip (by simp)).1
  have hfs : Ends (iunlock ip s) E fun r => r.2.fs = s.fs := by
    show Ends ((if s.locked ip = false ∨ (s.fs.icache ip).ref < 1 then throw .iunlock
      else releasesleep ip : M Unit) s) _ _
    have hpos := hs.counted.ref_pos.mpr hip
    rw [if_neg (by rw [hs.locked_iff.mpr (mem_insert_self ip L)]; simp; omega)]
    rfl
  refine ((iunlock_spec hip hL s hs.toIn).and hfs).mono (fun _ h => h.2) ?_
  rintro r ⟨hin, hfs⟩
  refine { hin with shows := hfs ▸ hs.shows.mono ?_ }
  exact union_subset_union_left (subset_insert ip L)

theorem iput_sets (hE : s.locked ip = true → E .hang)
    (hfree : (s.fs.icache ip).valid = true ∧ (s.fs.icache ip).copy.nlink = 0 ∧
      (s.fs.icache ip).ref = 1 → ∀ p, E (.fs p))
    (h : FsOk sb s.fs) (hip : 0 < (s.fs.icache ip).ref) :
    Ends (iput sb ip s) E fun r => FsOk sb r.2.fs ∧
      (∀ jp, (r.2.fs.icache jp).inum = (s.fs.icache jp).inum) ∧
      (∀ jp, jp ≠ ip → r.2.fs.icache jp = s.fs.icache jp) ∧
      (((s.fs.icache ip).valid = true ∧ (s.fs.icache ip).copy.nlink = 0 ∧
          (s.fs.icache ip).ref = 1 ∧ Replaced sb ip (s.fs.icache ip).copy.freed s.fs r.2.fs) ∨
        (¬ ((s.fs.icache ip).valid = true ∧ (s.fs.icache ip).copy.nlink = 0 ∧
            (s.fs.icache ip).ref = 1) ∧
          r.2.fs.disk = s.fs.disk ∧ (r.2.fs.icache ip).valid = (s.fs.icache ip).valid)) := by
  refine (acquiresleep_sets hE).bind ?_
  rintro ⟨_, s1⟩ hs1
  dsimp only at hs1 ⊢
  have hput := @iput_effect sb s1.fs ip (hs1 ▸ h) (hs1 ▸ hip)
  rw [hs1] at hput
  show Ends ((doFs (Fs.iput sb · ip) s1) >>= fun r => releasesleep ip r.2) _ _
  simp only [doFs, hs1]
  cases hr : Fs.iput sb s.fs ip with
  | error p =>
    -- Only `ifree` panics.
    refine hfree (by_contra fun hno => ?_) p
    rw [Fs.iput, if_neg (by simpa [and_assoc] using hno)] at hr
    cases hr
  | ok fs =>
    rw [hr] at hput
    exact hput

theorem iput_ends_on (hE : ip ∈ L → E .hang) (hV : ∀ jp ∈ V, jp ∈ X)
    (hfree : v.Live sb (N ip) → (v.dino (N ip)).nlink = 0 → ip ∉ X → ∀ p, E (.fs p))
    (hs : On sb B op (ip ::ₘ X) L V N v s) : Ends (iput sb ip s) E fun r =>
      (¬ ((s.fs.icache ip).valid = true ∧ (v.dino (N ip)).nlink = 0 ∧ ip ∉ X) ∧
        On sb B op X L V N v r.2) ∨
      (v.Live sb (N ip) ∧ (v.dino (N ip)).nlink = 0 ∧ ip ∉ X ∧ ∃ v', On sb B op X L V N v' r.2 ∧
        v'.tree sb = update (v.tree sb) (N ip) none) := by
  have hmem := Multiset.mem_cons_self ip X
  have hpos := hs.counted.ref_pos.mpr hmem
  have href : (s.fs.icache ip).ref = 1 ↔ ip ∉ X := by
    rw [hs.counted.ref ip, count_cons_self, ← count_eq_zero]
    omega
  have hcopy : (s.fs.icache ip).valid = true →
      (s.fs.icache ip).copy = v.dino (N ip) ∧ (s.fs.icache ip).copy.type ≠ 0 := fun hvalid => by
    have := hs.shows.ok.cache.valid ip hpos hvalid
    rwa [hs.shows.num ip hmem, hs.shows.vol, eq_comm] at this
  have hfree' : (s.fs.icache ip).valid = true ∧ (s.fs.icache ip).copy.nlink = 0 ∧
      (s.fs.icache ip).ref = 1 → ∀ p, E (.fs p) := fun ⟨hvalid, hnlink, hone⟩ => by
    obtain ⟨heq, htype⟩ := hcopy hvalid
    exact hfree ⟨hs.inum_lt hmem, heq ▸ htype⟩ (heq ▸ hnlink) (href.mp hone)
  refine ((iput_spec s hs.toIn).and (iput_sets (fun h => hE (hs.locked_iff.mp h)) hfree'
    hs.shows.ok hpos)).mono (fun _ h => h.2) ?_
  rintro r ⟨⟨hL, hin⟩, hok, hinum, hother, hcase⟩
  -- an entry that stays read is not the one that was put
  have hread : ∀ jp ∈ L ∪ V, jp ∈ X := by
    intro jp hjp
    rcases Finset.mem_union.mp hjp with h | h
    · refine (Multiset.mem_cons.mp (hs.shows.read jp hjp).1).resolve_left ?_
      rintro rfl
      exact hL h
    · exact hV jp h
  have hshows : ∀ v', volOf sb r.2.fs.disk = v' →
      ((r.2.fs.icache ip).valid = (s.fs.icache ip).valid ∨ ip ∉ X) →
      Shows sb X (L ∪ V) N v' r.2.fs := by
    intro v' hvol hip
    refine ⟨hok, hvol, fun jp hjp => ?_, fun jp hjp => ⟨hread jp hjp, ?_⟩⟩
    · exact (hinum jp).trans (hs.shows.num jp (Multiset.mem_cons_of_mem hjp))
    · by_cases hj : jp = ip
      · subst hj
        have := hip.resolve_right (not_not.mpr (hread jp hjp))
        rw [this]
        exact (hs.shows.read jp hjp).2
      · rw [hother jp hj]
        exact (hs.shows.read jp hjp).2
  rcases hcase with ⟨hvalid, hnlink, hone, hrep⟩ | ⟨hno, hdisk, hvalid⟩
  · obtain ⟨heq, htype⟩ := hcopy hvalid
    have hX := href.mp hone
    refine .inr ⟨⟨hs.inum_lt hmem, heq ▸ htype⟩, heq ▸ hnlink, hX, volOf sb r.2.fs.disk,
      { hin with shows := hshows _ rfl (.inr hX) }, ?_⟩
    rw [← hs.shows.num ip hmem, ← hs.shows.vol]
    exact Vol.tree_free hrep.dino hrep.blk rfl
  · refine .inl ⟨fun ⟨h1, h2, h3⟩ => hno ⟨h1, ?_, href.mpr h3⟩, { hin with
      shows := hshows _ (hdisk ▸ hs.shows.vol) (.inl hvalid) }⟩
    rw [(hcopy h1).1, h2]

theorem iput_keep (hE : ip ∈ L → E .hang) (hV : ∀ jp ∈ V, jp ∈ X)
    (hkeep : v.Live sb (N ip) → (v.dino (N ip)).nlink ≠ 0 ∨ HeldBy X N (N ip)) :
    Triple (On sb B op (ip ::ₘ X) L V N v) (iput sb ip) E fun _ => On sb B op X L V N v := by
  intro s hs
  rw [hs.held_iff] at hkeep
  have hno : v.Live sb (N ip) → (v.dino (N ip)).nlink = 0 → ip ∉ X → False :=
    fun hlive hnlink hX => (hkeep hlive).elim (· hnlink) hX
  refine (iput_ends_on hE hV (fun h1 h2 h3 => (hno h1 h2 h3).elim) hs).imp fun r hr => ?_
  rcases hr with ⟨-, hon⟩ | ⟨hlive, hnlink, hX, -⟩
  · exact hon
  · exact (hno hlive hnlink hX).elim

theorem iunlockput_keep (hV : ∀ jp ∈ V, jp ∈ X) (hL : ip ∉ L)
    (hkeep : v.Live sb (N ip) → (v.dino (N ip)).nlink ≠ 0 ∨ HeldBy X N (N ip)) :
    Triple (On sb B op (ip ::ₘ X) (insert ip L) V N v) (iunlockput sb ip) E
      fun _ => On sb B op X L V N v :=
  Triple.bind (iunlock_on hL) fun _ => iput_keep (fun h => absurd h hL) hV hkeep

theorem inode_on (hip : ip ∈ L) : Triple (On sb B op X L V N v) (inode ip) E fun x s =>
    (x.inum = N ip ∧ x.copy = v.dino (N ip)) ∧ On sb B op X L V N v s := by
  intro s hs
  have hR : ip ∈ L ∪ V := mem_union_left V hip
  exact ⟨⟨hs.shows.inum_eq hR, hs.shows.copy_eq hs.counted hR⟩, hs⟩

theorem iupdate_on (hE : Allows E) (hip : ip ∈ L) {f : Dinode → Dinode}
    (hf : Vol.SameData (v.dino (N ip)) (f (v.dino (N ip)))) :
    Triple (On sb B op X L V N v) (iupdate sb ip f) E fun _ =>
      On sb B op X L V N (v.setDino (N ip) (f (v.dino (N ip)))) := by
  intro s hs
  have hR : ip ∈ L ∪ V := mem_union_left V hip
  have hcopy := hs.shows.copy_eq hs.counted hR
  have hfs := iupdate_effect (d := f (v.dino (N ip))) hs.shows.ok
    (hs.shows.locked hs.counted hR) (by rw [hcopy]; exact hf)
  have hset : Ends (iupdate sb ip f s) E fun r => FsOk sb r.2.fs ∧
      volOf sb r.2.fs.disk = { volOf sb s.fs.disk with
        dino := update (volOf sb s.fs.disk).dino (s.fs.icache ip).inum (f (v.dino (N ip))) } ∧
      ∀ jp, (r.2.fs.icache jp).inum = (s.fs.icache jp).inum ∧
        (r.2.fs.icache jp).valid = (s.fs.icache jp).valid := by
    show Ends (doFs (Fs.iupdate sb · ip) (s.setInode ip { s.fs.icache ip with
      copy := f (s.fs.icache ip).copy })) _ _
    simp only [doFs, hcopy]
    cases hr : Fs.iupdate sb (s.setInode ip { s.fs.icache ip with
      copy := f (v.dino (N ip)) }).fs ip with
    | error p => exact hE _ Stop.noConfusion
    | ok fs => exact hfs.of_ok hr
  refine ((iupdate_spec s hs.toIn).and hset).mono (fun _ h => h.2) ?_
  rintro r ⟨hin, hok, hvol, hic⟩
  rw [hs.shows.vol, hs.shows.inum_eq hR] at hvol
  exact { hin with shows := hs.shows.congr hok hvol fun jp _ => hic jp }

theorem contents_length (v : Vol) (i : Nat) : (v.contents i).length = (v.dino i).size.toNat := by
  rw [Vol.contents, List.length_map, List.length_range]

theorem contents_le (hv : v.WellFormed sb) {i : Nat} (hi : v.Live sb i) :
    (v.contents i).length ≤ MAXFILE * BSIZE := by
  have := (hv.maps i hi).le
  rw [contents_length]
  simp only [Vol.blocksOf, MAXFILE, BSIZE] at this ⊢
  omega

theorem toNat_ofNat_of_le {k : Nat} (h : k ≤ MAXFILE * BSIZE) : (UInt32.ofNat k).toNat = k := by
  refine Nat.mod_eq_of_lt (h.trans_lt ?_)
  decide

theorem ent_no_wrap {off : Nat} (h : off ≤ MAXFILE * BSIZE) :
    ¬ UInt32.ofNat off + .ofNat Dirent.size < UInt32.ofNat off := by
  have hmax : MAXFILE * BSIZE = 71680 := rfl
  have hn : (UInt32.ofNat Dirent.size).toNat = 16 := rfl
  rw [add_wraps_iff, toNat_ofNat_of_le h, hn]
  omega

theorem readi_ent (h : FsOk sb s.fs) (hip : Locked s.fs ip)
    (hdev : (s.fs.icache ip).copy.type ≠ T_DEV) {data : List UInt8}
    (hdata : (volOf sb s.fs.disk).contents (s.fs.icache ip).inum = data) {off : Nat}
    (hoff : off < data.length) :
    Triple (· = s) (onFs (readi sb dev · ip (.ofNat off) (.ofNat Dirent.size))) E
      fun r s' => r = (((min Dirent.size (data.length - off) : Nat) : Int),
        (data.drop off).take Dirent.size) ∧ s' = s := by
  rintro _ rfl
  subst hdata
  have hcopy := (h.cache.valid ip hip.1 hip.2).1
  have hle := contents_le h.wf (h.live hip)
  have hoff' := toNat_ofNat_of_le (hoff.le.trans hle)
  have hn : (UInt32.ofNat Dirent.size).toNat = Dirent.size := rfl
  have hread := @readi_contents _ _ _ dev (.ofNat off) (.ofNat Dirent.size) h hip hdev (by
    rw [← hcopy, not_or, GT.gt, UInt32.lt_iff_toNat_lt, hoff', ← contents_length]
    exact ⟨by omega, ent_no_wrap (hoff.le.trans hle)⟩)
  rw [← hcopy, hoff', hn, ← contents_length] at hread
  simp only [onFs, hread]
  exact ⟨rfl, rfl⟩

theorem writei_put {fs : FS} (h : FsOk sb fs) (hip : Locked fs ip)
    (hdev : (fs.icache ip).copy.type ≠ T_DEV) {data : List UInt8}
    (hdata : (volOf sb fs.disk).contents (fs.icache ip).inum = data) {k : Nat}
    (hk : Dirent.size * k ≤ data.length) (de : Dirent) :
    Ends (writei sb dev fs ip de.byte (.ofNat (Dirent.size * k)) (.ofNat Dirent.size))
      (Stops False False) fun r => Keeps fs r.2 ∧
        (Dirent.size * k + Dirent.size ≤ MAXFILE * BSIZE → r.1 = Dirent.size) ∧
        (r.1 = Dirent.size → FsOk sb r.2 ∧ (volOf sb r.2.disk).tree sb =
          update ((volOf sb fs.disk).tree sb) (fs.icache ip).inum
            (some { (volOf sb fs.disk).node (fs.icache ip).inum with
              data := putEnt data k de })) := by
  subst hdata
  have hcopy := (h.cache.valid ip hip.1 hip.2).1
  have hle := contents_le h.wf (h.live hip)
  have hoff := toNat_ofNat_of_le (hk.trans hle)
  have hmax : MAXFILE * BSIZE = 71680 := rfl
  have hn : (UInt32.ofNat Dirent.size).toNat = Dirent.size := rfl
  have h1 : ¬ (UInt32.ofNat (Dirent.size * k) > (fs.icache ip).copy.size ∨
      UInt32.ofNat (Dirent.size * k) + .ofNat Dirent.size < UInt32.ofNat (Dirent.size * k)) := by
    rw [← hcopy, not_or, GT.gt, UInt32.lt_iff_toNat_lt, hoff, ← contents_length]
    exact ⟨by omega, ent_no_wrap (hk.trans hle)⟩
  have hkeeps := @writei_keeps sb fs ip dev de.byte (.ofNat (Dirent.size * k)) (.ofNat Dirent.size)
  by_cases h2 : UInt32.ofNat (Dirent.size * k) + .ofNat Dirent.size >
      UInt32.ofNat (MAXFILE * BSIZE)
  · have hwrite : writei sb dev fs ip de.byte (.ofNat (Dirent.size * k)) (.ofNat Dirent.size) =
        .ok (-1, fs) := by
      simp only [writei, hdev, if_false, h1, h2, if_true]
    rw [hwrite] at hkeeps ⊢
    refine ⟨hkeeps, fun hfit => ?_, fun h => absurd (show (-1 : Int) = 16 from h) (by decide)⟩
    rw [GT.gt, UInt32.lt_iff_toNat_lt, UInt32.toNat_add, hoff, hn, toNat_ofNat_of_le le_rfl] at h2
    omega
  · refine ((writei_written h hip hdev h1 h2).and hkeeps).mono ?_ ?_
    · rintro p ⟨hp, -⟩
      exact hp.imp (fun hp => ⟨id, hp.2⟩) fun hp => ⟨id, hp.2⟩
    · rintro r ⟨⟨hr, hw⟩, hkeeps⟩
      rw [hn] at hr
      rw [hoff, hn] at hw
      refine ⟨hkeeps, fun _ => hr, fun _ => ⟨hw.ok, hw.tree h hip ?_ ?_⟩⟩
      · rw [← hcopy, ← contents_length]
        exact hk
      · simp only [Dirent.size] at hk ⊢
        omega

theorem writei_ent (hE : Allows E) (hip : ip ∈ L) (hdev : (v.dino (N ip)).type ≠ T_DEV) {k : Nat}
    (hk : Dirent.size * k ≤ (v.contents (N ip)).length) (de : Dirent) :
    Triple (On sb B op X L V N v)
      (onFs (writei sb dev · ip de.byte (.ofNat (Dirent.size * k)) (.ofNat Dirent.size))) E
      fun n s => n = Dirent.size → ∃ v', On sb B op X L V N v' s ∧
        v'.tree sb = update (v.tree sb) (N ip)
          (some { v.node (N ip) with data := putEnt (v.contents (N ip)) k de }) := by
  intro s hs
  have hR : ip ∈ L ∪ V := mem_union_left V hip
  have hput := @writei_put sb dev ip s.fs hs.shows.ok (hs.shows.locked hs.counted hR)
    (by rwa [hs.shows.copy_eq hs.counted hR]) _ rfl k
    (by rwa [hs.shows.inum_eq hR, hs.shows.vol]) de
  rw [hs.shows.vol, hs.shows.inum_eq hR] at hput
  refine (onFs_ends hE.fs hs.toIn writei_spec hput).imp ?_
  rintro r ⟨hin, hkeeps, -, hw⟩ hret
  obtain ⟨hok, htree⟩ := hw hret
  exact ⟨_, { hin with shows := hs.shows.congr hok rfl fun jp _ =>
    ⟨hkeeps.inum jp, hkeeps.valid jp⟩ }, htree⟩

end Base

end Xv6.Sys
