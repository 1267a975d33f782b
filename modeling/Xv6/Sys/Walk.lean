import Xv6.Sys.Effect

/-!
# Xv6.Sys.Walk

Directories and paths on a volume.

`walk` follows a path through a tree as `namex` does through the disk. A walk stays within the
inodes that entries name; `Closed` collects what is needed of those, so that `namex` neither frees
an inode on its way nor stops at one without a type.
-/

namespace Xv6.Sys

open Fs Multiset

variable {parent : Bool} {found : Dirent → Bool} {data : List UInt8} {j k : Nat}

section Search

variable {sb : Superblock} {dev : Devsw} {B : St} {op : Int} {X : Multiset (Fin NINODE)}
  {L V : Finset (Fin NINODE)} {N : Fin NINODE → Nat} {v : Vol} {E : Stop → Prop}
  {dp : Fin NINODE} {name : List UInt8} {s : St}

/-- What a loop over the entries of `data` from `start` on ends with. -/
def Scanned (data : List UInt8) (found : Dirent → Bool) (start : Nat) (r : Nat × Option Dirent) :
    Prop :=
  match findEnt data found start with
  | some k => r = (Dirent.size * k, some (entAt data k))
  | none => r.2 = none ∧ (start ≤ nents data → r.1 = Dirent.size * nents data ∧ Whole data)

theorem Scanned.step {start : Nat}
    {r : Nat × Option Dirent} (hlt : start < nents data) (hf : ¬ found (entAt data start) = true)
    (h : Scanned data found (start + 1) r) : Scanned data found start r := by
  rw [Scanned, findEnt_step hlt, if_neg hf]
  rw [Scanned] at h
  cases hfind : findEnt data found (start + 1) with
  | some k => simpa [hfind] using h
  | none =>
    rw [hfind] at h
    exact ⟨h.1, fun _ => h.2 hlt⟩

theorem Scanned.freeSlot {data : List UInt8} {r : Nat × Option Dirent}
    (h : Scanned data (·.inum == 0) 0 r) : r.1 = Dirent.size * freeSlot data := by
  rw [Scanned] at h
  rw [Sys.freeSlot]
  cases hfind : findEnt data (·.inum == 0) 0 with
  | some k =>
    rw [hfind] at h
    exact congrArg Prod.fst h
  | none =>
    rw [hfind] at h
    exact (h.2 (Nat.zero_le _)).1

theorem scan_same {bad : Stop} (h : FsOk sb s.fs) (hdp : Locked s.fs dp)
    (hdev : (s.fs.icache dp).copy.type ≠ T_DEV)
    (hdata : (volOf sb s.fs.disk).contents (s.fs.icache dp).inum = data) (start : Nat) :
    Triple (· = s) (scan sb dev dp bad found data.length (Dirent.size * start))
      (fun e => e = bad ∧ ¬ Whole data) fun r s' => Scanned data found start r ∧ s' = s := by
  induction hleft : data.length - Dirent.size * start using Nat.strong_induction_on
    generalizing start with
  | _ left ih =>
    subst hleft
    rw [scan]
    refine .ite (fun hlt => ?_) fun hlt => .pure fun s hs => ⟨?_, hs⟩
    · refine .bind (readi_ent h hdp hdev hdata hlt) fun r => .of_imp fun hr => ?_
      subst hr
      refine .ite (fun hshort => .throw fun _ _ => ⟨rfl, fun hw => hshort ?_⟩) fun hfit => ?_
      · rw [Whole] at hw
        simp only [Dirent.size] at hlt hw ⊢
        omega
      have hfit : Dirent.size * start + Dirent.size ≤ data.length := by
        simp only [Dirent.size] at hlt hfit ⊢
        omega
      have hstart : start < nents data := by
        simp only [nents, Dirent.size] at hfit ⊢
        omega
      refine .ite (fun hf => .pure fun s hs => ⟨?_, hs⟩) fun hf => ?_
      · rw [Scanned, findEnt_step hstart, if_pos (show found (entAt data start) = true from hf)]
        rfl
      · rw [← Nat.mul_succ]
        refine (ih _ ?_ (start + 1) rfl).post fun r s hr => ⟨hr.1.step hstart hf, hr.2⟩
        simp only [Dirent.size] at hlt ⊢
        omega
    · have hend : nents data ≤ start := by
        simp only [nents, Dirent.size] at hlt ⊢
        omega
      rw [Scanned, findEnt_end hend]
      refine ⟨rfl, fun hle => ?_⟩
      obtain rfl := Nat.le_antisymm hle hend
      refine ⟨rfl, ?_⟩
      simp only [Whole, nents, Dirent.size] at hlt ⊢
      omega

theorem scan_on {bad : Stop} (hbad : Whole (v.contents (N dp)) ∨ E bad)
    (hdp : dp ∈ L) (hdev : (v.dino (N dp)).type ≠ T_DEV) (start : Nat) :
    Triple (On sb B op X L V N v)
      (scan sb dev dp bad found (v.contents (N dp)).length (Dirent.size * start)) E fun r s =>
      Scanned (v.contents (N dp)) found start r ∧ On sb B op X L V N v s := by
  intro s hs
  have hR : dp ∈ L ∪ V := Finset.mem_union_left V hdp
  refine (scan_same hs.shows.ok (hs.shows.locked hs.counted hR)
    (by rwa [hs.shows.copy_eq hs.counted hR]) (by rw [hs.shows.inum_eq hR, hs.shows.vol]) start s
    rfl).mono ?_ fun r hr => ⟨hr.1, hr.2.symm ▸ hs⟩
  rintro e ⟨rfl, hw⟩
  exact hbad.resolve_left hw

theorem dirlookup_none
    (hE : Allows E ∨ (v.dino (N dp)).type = T_DIR ∧ Whole (v.contents (N dp))) (hdp : dp ∈ L)
    (hname : lookup (v.contents (N dp)) name = none) :
    Triple (On sb B op X L V N v) (dirlookup sb dev dp name) E fun r s =>
      (v.dino (N dp)).type = T_DIR ∧ r = none ∧ On sb B op X L V N v s := by
  refine .bind (inode_on hdp) fun x => .of_imp fun hx => ?_
  rw [hx.2]
  refine .ite (fun hne => .throw fun _ _ => hE.elim (· _ Stop.noConfusion) (absurd ·.1 hne))
    fun hdir => ?_
  have hdir := not_not.mp hdir
  rw [← contents_length]
  refine .bind (scan_on (hE.symm.imp (·.2) (· _ Stop.noConfusion)) hdp (by rw [hdir]; decide) 0)
    fun r => .of_imp fun hr => ?_
  rw [Scanned, show findEnt _ _ 0 = none from hname] at hr
  obtain ⟨off, de⟩ := r
  obtain ⟨rfl, -⟩ := hr
  exact .pure fun s hs => ⟨hdir, rfl, hs⟩

theorem dirlookup_some (hE : Allows E ∨ (v.dino (N dp)).type = T_DIR ∧
      Whole (v.contents (N dp)) ∧ X.toFinset.card < NINODE) (hdp : dp ∈ L)
    (hname : lookup (v.contents (N dp)) name = some k)
    (hlt : (entAt (v.contents (N dp)) k).inum.toNat < sb.ninodes) :
    Triple (On sb B op X L V N v) (dirlookup sb dev dp name) E fun r s =>
      (v.dino (N dp)).type = T_DIR ∧ ∃ ip N', r = some (ip, Dirent.size * k) ∧
        N' ip = (entAt (v.contents (N dp)) k).inum.toNat ∧ Agree X N N' ∧
        On sb B op (ip ::ₘ X) L V N' v s := by
  refine .bind (inode_on hdp) fun x => .of_imp fun hx => ?_
  rw [hx.2]
  refine .ite (fun hne => .throw fun _ _ => hE.elim (· _ Stop.noConfusion) (absurd ·.1 hne))
    fun hdir => ?_
  have hdir := not_not.mp hdir
  rw [← contents_length]
  refine .bind (scan_on (hE.symm.imp (·.2.1) (· _ Stop.noConfusion)) hdp (by rw [hdir]; decide) 0)
    fun r => .of_imp fun hr => ?_
  rw [Scanned, show findEnt _ _ 0 = some k from hname] at hr
  subst hr
  refine .bind (iget_on (hE.imp (· _ Stop.noConfusion) (·.2.2)) hlt) fun ip => .pure fun s hs => ?_
  obtain ⟨N', hN, hagree, hon⟩ := hs
  exact ⟨hdir, ip, N', rfl, hN, hagree, hon⟩

theorem dirlink_old (hE : Allows E) (hdp : dp ∈ L) (hV : ∀ jp ∈ V, jp ∈ X) {inum : Nat}
    (hname : lookup (v.contents (N dp)) name = some k)
    (hlt : (entAt (v.contents (N dp)) k).inum.toNat < sb.ninodes)
    (hkeep : v.Live sb (entAt (v.contents (N dp)) k).inum.toNat →
      (v.dino (entAt (v.contents (N dp)) k).inum.toNat).nlink ≠ 0 ∨
        HeldBy X N (entAt (v.contents (N dp)) k).inum.toNat) :
    Triple (On sb B op X L V N v) (dirlink sb dev dp name inum) E fun r s =>
      r = -1 ∧ On sb B op X L V N v s := by
  refine .bind (dirlookup_some (.inl hE) hdp hname hlt) fun r => .of_imp fun _ => ?_
  refine .of_forall fun ip => .of_forall fun N' => .of_imp fun hr => ?_
  refine .of_imp fun hN => .of_imp fun hagree => ?_
  subst hr
  have hheld : v.Live sb (N' ip) → (v.dino (N' ip)).nlink ≠ 0 ∨ HeldBy X N' (N' ip) := by
    rw [hN]
    refine fun hl => (hkeep hl).imp_right ?_
    rintro ⟨jp, hjp, h⟩
    exact ⟨jp, hjp, (hagree jp hjp).trans h⟩
  refine .bind (iput_keep hE.hang hV hheld) fun _ => .pure fun s hs => ⟨rfl, ?_⟩
  exact hs.agree hagree.symm

theorem dirlink_new (hE : Allows E) (hdp : dp ∈ L) {inum : Nat}
    (hname : lookup (v.contents (N dp)) name = none) :
    Triple (On sb B op X L V N v) (dirlink sb dev dp name inum) E fun r s =>
      r = 0 ∧ ∃ v', On sb B op X L V N v' s ∧ v'.tree sb = Function.update (v.tree sb) (N dp)
        (some { v.node (N dp) with data := linked (v.contents (N dp)) name inum }) := by
  refine .bind (dirlookup_none (.inl hE) hdp hname) fun r => .of_imp fun hdir => ?_
  refine .of_imp fun hr => ?_
  subst hr
  have hdev : (v.dino (N dp)).type ≠ T_DEV := by
    rw [hdir]
    decide
  refine .bind (inode_on hdp) fun x => .of_imp fun hx => ?_
  rw [hx.2, ← contents_length]
  refine .bind (scan_on (.inr (hE _ Stop.noConfusion)) hdp hdev 0)
    fun r => .of_imp fun hr => ?_
  obtain ⟨off, de⟩ := r
  obtain rfl := hr.freeSlot
  have hle : Dirent.size * freeSlot (v.contents (N dp)) ≤ (v.contents (N dp)).length := by
    have := freeSlot_le (v.contents (N dp))
    simp only [nents, Dirent.size] at this ⊢
    omega
  refine .bind (writei_ent hE hdp hdev hle (.make name inum)) fun n => ?_
  refine .ite (fun _ => .throw fun _ _ => hE _ Stop.noConfusion) fun hn => ?_
  exact .pure fun s hs => ⟨rfl, hs (not_not.mp hn)⟩

theorem isdirempty_on (hE : Allows E) (hdp : dp ∈ L) (hdev : (v.dino (N dp)).type ≠ T_DEV) :
    Triple (On sb B op X L V N v) (isdirempty sb dev dp) E fun r s =>
      r = (findEnt (v.contents (N dp)) (·.inum != 0) 2).isNone ∧ On sb B op X L V N v s := by
  refine .bind (inode_on hdp) fun x => .of_imp fun hx => ?_
  rw [hx.2, ← contents_length]
  refine .bind (scan_on (.inr (hE _ Stop.noConfusion)) hdp hdev 2)
    fun r => .of_imp fun hr => .pure fun s hs => ⟨?_, hs⟩
  obtain ⟨off, de⟩ := r
  rw [Scanned] at hr
  cases hfind : findEnt (v.contents (N dp)) (·.inum != 0) 2 with
  | some k =>
    rw [hfind] at hr
    obtain rfl : de = some _ := congrArg Prod.snd hr
    rfl
  | none =>
    rw [hfind] at hr
    obtain rfl : de = none := hr.1
    rfl

end Search

/-- The inode a path leads to from `i` and, for a parent, the last name of the path. -/
def walk (t : Tree) (parent : Bool) (path : List UInt8) (i : Nat) : Option (Nat × List UInt8) :=
  match _h : skipelem path with
  | none => if parent then none else some (i, [])
  | some (rest, name) =>
    match t i with
    | none => none
    | some n =>
      if n.type ≠ T_DIR then none
      else if parent ∧ rest = [] then some (i, name)
      else
        match lookup n.data name with
        | none => none
        | some k => walk t parent rest (entAt n.data k).inum.toNat
termination_by path.length
decreasing_by exact skipelem_shorter _h

theorem walk_nil {t : Tree} {path : List UInt8} {i : Nat} (h : skipelem path = none) :
    walk t parent path i = if parent then none else some (i, []) := by
  rw [walk]
  split
  · rfl
  · rename_i hc
    rw [h] at hc
    cases hc

theorem walk_cons {t : Tree} {path rest name : List UInt8} {i : Nat} {n : Node}
    (h : skipelem path = some (rest, name)) (hn : t i = some n) : walk t parent path i =
      if n.type ≠ T_DIR then none
      else if parent ∧ rest = [] then some (i, name)
      else match lookup n.data name with
        | none => none
        | some k => walk t parent rest (entAt n.data k).inum.toNat := by
  rw [walk]
  split
  · rename_i hc
    rw [h] at hc
    cases hc
  · rename_i hc
    rw [h] at hc
    cases hc
    rw [hn]

/-- The inodes `S` that a path can lead to: each has a type (or to stop there is allowed), and links
or the references `H`. -/
structure Closed (sb : Superblock) (E : Stop → Prop) (t : Tree) (H S : Nat → Prop) : Prop where
  lt : ∀ i, S i → i < sb.ninodes
  live : ∀ i, S i → t i ≠ none ∨ E .ilockNoType
  kept : ∀ i n, S i → t i = some n → n.nlink ≠ 0 ∨ H i
  ents : ∀ i n k, S i → t i = some n → n.type = T_DIR → k < nents n.data →
    (entAt n.data k).inum ≠ 0 → S (entAt n.data k).inum.toNat

section Paths

variable {sb : Superblock} {dev : Devsw} {B : St} {op : Int} {X : Multiset (Fin NINODE)}
  {L V : Finset (Fin NINODE)} {N : Fin NINODE → Nat} {v : Vol} {E : Stop → Prop}
  {ip : Fin NINODE} {t : Tree} {H S : Nat → Prop} {i : Nat}

theorem lookup_some {name : List UInt8} (h : lookup data name = some k) :
    k < nents data ∧ (entAt data k).inum ≠ 0 ∧ (entAt data k).hasName name = true := by
  obtain ⟨-, hlt, hf⟩ := findEnt_some h
  refine ⟨hlt, ?_, hf⟩
  simp only [Dirent.hasName, Bool.and_eq_true, bne_iff_ne, ne_eq] at hf
  exact hf.1

/-- What `namex` returns for the outcome `w` of a walk. -/
def Found (sb : Superblock) (B : St) (op : Int) (X : Multiset (Fin NINODE))
    (L V : Finset (Fin NINODE)) (N : Fin NINODE → Nat) (v : Vol) (w : Option (Nat × List UInt8))
    (r : Option (Fin NINODE × List UInt8)) (s : St) : Prop :=
  match w with
  | none => r = none ∧ On sb B op X L V N v s
  | some (j, name) => ∃ jp N', r = some (jp, name) ∧ N' jp = j ∧ Agree X N N' ∧
      On sb B op (jp ::ₘ X) L V N' v s

theorem Closed.keeps (hc : Closed sb E (v.tree sb) (HeldBy X N) S) (hi : S i)
    (hlive : v.Live sb i) : (v.dino i).nlink ≠ 0 ∨ HeldBy X N i :=
  hc.kept i _ hi (Vol.tree_live hlive)

theorem HeldBy.congr {N' : Fin NINODE → Nat} (hN : Agree X N N') : HeldBy X N' = HeldBy X N := by
  funext i
  refine propext (exists_congr fun jp => and_congr_right fun hjp => ?_)
  rw [hN jp hjp]

theorem Found.agree {N' : Fin NINODE → Nat} {w : Option (Nat × List UInt8)}
    {r : Option (Fin NINODE × List UInt8)} {s : St} (hN : Agree X N N')
    (h : Found sb B op X L V N' v w r s) : Found sb B op X L V N v w r s := by
  cases w with
  | none => exact ⟨h.1, h.2.agree hN.symm⟩
  | some w =>
    obtain ⟨jp, N'', hr, hj, hagree, hon⟩ := h
    exact ⟨jp, N'', hr, hj, fun kp hkp => (hagree kp hkp).trans (hN kp hkp), hon⟩

/-- All stops on the way are allowed, or there are none: the inode cache has room, no inode is
locked, and the directories hold whole entries. -/
def Follows (E : Stop → Prop) (X : Multiset (Fin NINODE)) (L : Finset (Fin NINODE)) (t : Tree)
    (S : Nat → Prop) : Prop :=
  Allows E ∨ X.toFinset.card + 1 < NINODE ∧ L = ∅ ∧
    ∀ i n, S i → t i = some n → n.type = T_DIR → Whole n.data

theorem Follows.hang (h : Follows E X L t S) (hip : ip ∈ L) : E .hang := by
  rcases h with hE | ⟨-, rfl, -⟩
  · exact hE.hang hip
  · exact absurd hip (Finset.notMem_empty ip)

theorem Follows.read (h : Follows E X L (v.tree sb) S) (ip : Fin NINODE) (hi : S i)
    (hlive : v.Live sb i) (hdir : (v.dino i).type = T_DIR) : Allows E ∨ (v.dino i).type = T_DIR ∧
      Whole (v.contents i) ∧ (ip ::ₘ X).toFinset.card < NINODE := by
  refine h.imp_right fun ⟨hroom, _, hwhole⟩ => ⟨hdir, hwhole i _ hi (Vol.tree_live hlive) hdir, ?_⟩
  rw [toFinset_cons]
  exact (Finset.card_insert_le _ _).trans_lt hroom

theorem namexLoop_on (hE : Follows E X L (v.tree sb) S) (hV : ∀ jp ∈ V, jp ∈ X) (parent : Bool)
    (path : List UInt8) (ip : Fin NINODE) (hip : S (N ip))
    (hc : Closed sb E (v.tree sb) (HeldBy X N) S) :
    Triple (On sb B op (ip ::ₘ X) L V N v) (namexLoop sb dev parent path ip) E
      (Found sb B op X L V N v (walk (v.tree sb) parent path (N ip))) := by
  induction hlen : path.length using Nat.strong_induction_on generalizing path ip N with
  | _ len ih =>
    subst hlen
    have hmem := mem_cons_self ip X
    rw [namexLoop]
    split
    · rename_i helem
      rw [walk_nil helem]
      refine .ite (fun hp => ?_) fun hp => .pure fun s hs => ?_
      · rw [if_pos hp]
        refine .bind (iput_keep hE.hang hV (hc.keeps hip)) fun _ => .pure fun s hs => ?_
        exact ⟨rfl, hs⟩
      · rw [if_neg hp]
        exact ⟨ip, N, rfl, rfl, fun _ _ => rfl, hs⟩
    · rename_i rest name helem
      refine .bind (ilock_on hE.hang hmem ?_) fun _ => .of_imp fun hL => ?_
      · refine (hc.live _ hip).imp_left fun hne => ?_
        by_contra hl
        exact hne (Vol.tree_not_live hl)
      refine .of_imp fun hlive => ?_
      have hnode := Vol.tree_live hlive
      rw [walk_cons helem hnode]
      have hin := Finset.mem_insert_self ip L
      refine .bind (inode_on hin) fun x => .of_imp fun hx => ?_
      rw [hx.2]
      refine .ite (fun hdir => ?_) fun hdir => .ite (fun hlast => ?_) fun hlast => ?_
      · rw [if_pos (show (v.node (N ip)).type ≠ T_DIR from hdir)]
        refine .bind (iunlockput_keep hV hL (hc.keeps hip)) fun _ => ?_
        exact .pure fun s hs => ⟨rfl, hs⟩
      · rw [if_neg (show ¬ (v.node (N ip)).type ≠ T_DIR from hdir), if_pos hlast]
        refine .bind (iunlock_on hL) fun _ => .pure fun s hs => ?_
        exact ⟨ip, N, rfl, rfl, fun _ _ => rfl, hs⟩
      · rw [if_neg (show ¬ (v.node (N ip)).type ≠ T_DIR from hdir), if_neg hlast]
        cases hk : lookup (v.contents (N ip)) name with
        | none =>
          rw [show lookup (v.node (N ip)).data name = none from hk]
          have hread := hE.read ip hip hlive (not_not.mp hdir)
          refine .bind (dirlookup_none (hread.imp_right fun h => ⟨h.1, h.2.1⟩) hin hk)
            fun r => .of_imp fun _ => ?_
          refine .of_imp fun hr => ?_
          subst hr
          refine .bind (iunlockput_keep hV hL (hc.keeps hip)) fun _ => ?_
          exact .pure fun s hs => ⟨rfl, hs⟩
        | some k =>
          rw [show lookup (v.node (N ip)).data name = some k from hk]
          obtain ⟨hklt, hne, -⟩ := lookup_some hk
          have hS := hc.ents _ _ k hip hnode (not_not.mp hdir) hklt hne
          refine .bind (dirlookup_some (hE.read ip hip hlive (not_not.mp hdir)) hin hk
            (hc.lt _ hS)) fun r => ?_
          refine .of_imp fun _ => .of_forall fun jp => .of_forall fun N' => ?_
          refine .of_imp fun hr => .of_imp fun hj => .of_imp fun hagree => ?_
          subst hr
          have hX : Agree X N N' := fun kp hkp => hagree kp (mem_cons_of_mem hkp)
          have hc' : Closed sb E (v.tree sb) (HeldBy X N') S := HeldBy.congr hX ▸ hc
          have hip' : S (N' ip) := hagree ip hmem ▸ hip
          rw [cons_swap]
          refine .bind (iunlockput_keep (fun kp hkp => mem_cons_of_mem (hV kp hkp))
            hL fun hl => (hc'.keeps hip' hl).imp_right ?_) fun _ => ?_
          · rintro ⟨kp, hkp, h⟩
            exact ⟨kp, mem_cons_of_mem hkp, h⟩
          · have hrec := ih _ (skipelem_shorter helem) rest jp (hj ▸ hS) hc' rfl
            rw [hj] at hrec
            exact hrec.post fun _ _ h => h.agree hX

def origin (path : List UInt8) (cwd : Nat) : Nat := if path.head? = some SLASH then ROOTINO else cwd

variable {p : Fin NPROC} {cwd : Fin NINODE} {path : List UInt8}

theorem start_on (hE : Follows E X L t S) (hroot : ROOTINO < sb.ninodes)
    (hcwd : (B.proc p).cwd = some cwd) (hX : cwd ∈ X) :
    Triple (On sb B op X L V N v) (start p path) E fun ip s => ∃ N',
      N' ip = origin path (N cwd) ∧ Agree X N N' ∧ On sb B op (ip ::ₘ X) L V N' v s := by
  rw [origin]
  refine .ite (fun h => ?_) fun h => ?_
  · rw [if_pos h]
    exact iget_on (hE.imp (· _ Stop.noConfusion) fun h => by omega) hroot
  · rw [if_neg h]
    refine .get_of fun s hs => ?_
    rw [hs.proc, hcwd]
    refine (idup_on hX).post ?_
    rintro _ s ⟨rfl, hon⟩
    exact ⟨N, rfl, fun _ _ => rfl, hon⟩

section Namex

variable (hE : Follows E X L (v.tree sb) S) (hV : ∀ jp ∈ V, jp ∈ X)
  (hc : Closed sb E (v.tree sb) (HeldBy X N) S) (hroot : S ROOTINO)
  (hcwd : (B.proc p).cwd = some cwd) (hX : cwd ∈ X) (hS : S (N cwd))
include hE hV hc hroot hcwd hX hS

theorem namex_on (parent : Bool) : Triple (On sb B op X L V N v) (namex sb dev p path parent) E
      (Found sb B op X L V N v (walk (v.tree sb) parent path (origin path (N cwd)))) := by
  refine .bind (start_on hE (hc.lt _ hroot) hcwd hX) fun ip => ?_
  refine .of_forall fun N' => .of_imp fun hip => .of_imp fun hN => ?_
  have hip' : S (N' ip) := by
    rw [hip, origin]
    split
    · exact hroot
    · exact hS
  have hloop : Triple (On sb B op _ L _ _ _) (namexLoop sb dev parent path ip) _ _ :=
    namexLoop_on hE hV parent path ip hip' (HeldBy.congr hN ▸ hc)
  rw [hip] at hloop
  exact hloop.post fun _ _ h => h.agree hN

theorem nameiparent_on : Triple (On sb B op X L V N v) (nameiparent sb dev p path) E
      (Found sb B op X L V N v (walk (v.tree sb) true path (origin path (N cwd)))) :=
  namex_on hE hV hc hroot hcwd hX hS true

theorem namei_on :
    Triple (On sb B op X L V N v) (namei sb dev p path) E fun r s => ∃ r', r = r'.map Prod.fst ∧
      Found sb B op X L V N v (walk (v.tree sb) false path (origin path (N cwd))) r' s :=
  Triple.bind (namex_on hE hV hc hroot hcwd hX hS false) fun r => .pure fun _ hs =>
    ⟨r, rfl, hs⟩

end Namex

theorem walk_some {name : List UInt8} (h : walk t parent path i = some (j, name)) :
    (skipelem path = none ∧ parent = false ∧ j = i) ∨
    ∃ rest elem n, skipelem path = some (rest, elem) ∧ t i = some n ∧ n.type = T_DIR ∧
      (j = i ∧ name = elem ∨
        ∃ k, lookup n.data elem = some k ∧
          walk t parent rest (entAt n.data k).inum.toNat = some (j, name)) := by
  cases helem : skipelem path with
  | none =>
    rw [walk_nil helem] at h
    split at h
    · cases h
    · rename_i hp
      cases h
      exact .inl ⟨rfl, by simpa using hp, rfl⟩
  | some r =>
    obtain ⟨rest, elem⟩ := r
    refine .inr ⟨rest, elem, ?_⟩
    cases hn : t i with
    | none =>
      rw [walk] at h
      split at h
      · rename_i hc
        rw [helem] at hc
        cases hc
      · rw [hn] at h
        cases h
    | some n =>
      rw [walk_cons helem hn] at h
      split at h
      · cases h
      · rename_i hdir
        refine ⟨n, rfl, rfl, not_not.mp hdir, ?_⟩
        split at h
        · cases h
          exact .inl ⟨rfl, rfl⟩
        · cases hk : lookup n.data elem with
          | none =>
            rw [hk] at h
            cases h
          | some k =>
            rw [hk] at h
            exact .inr ⟨k, rfl, h⟩

theorem walk_mem (hc : Closed sb E t H S) (path : List UInt8) (i : Nat) (hi : S i)
    {name : List UInt8} (h : walk t parent path i = some (j, name)) : S j := by
  induction hlen : path.length using Nat.strong_induction_on generalizing path i with
  | _ len ih =>
    subst hlen
    rcases walk_some h with ⟨-, -, rfl⟩ | ⟨rest, elem, n, helem, hn, hdir, ⟨rfl, -⟩ | ⟨k, hk, h⟩⟩
    · exact hi
    · exact hi
    · obtain ⟨hklt, hne, -⟩ := lookup_some hk
      exact ih _ (skipelem_shorter helem) rest _ (hc.ents i n k hi hn hdir hklt hne) h rfl

theorem walk_parent (path : List UInt8) (i : Nat) {name : List UInt8}
    (h : walk t true path i = some (j, name)) : ∃ n, t j = some n ∧ n.type = T_DIR := by
  induction hlen : path.length using Nat.strong_induction_on generalizing path i with
  | _ len ih =>
    subst hlen
    rcases walk_some h with ⟨-, hp, -⟩ | ⟨rest, elem, n, helem, hn, hdir, ⟨rfl, -⟩ | ⟨k, -, h⟩⟩
    · cases hp
    · exact ⟨n, hn, hdir⟩
    · exact ih _ (skipelem_shorter helem) rest _ h rfl

end Paths

end Xv6.Sys
