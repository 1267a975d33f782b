import Xv6.Sys.Walk

/-!
# Xv6.Sys.Names

The system calls on names, up to the point where they succeed.

Each rule takes a call apart: a failing exit leaves the volume `v` as it was, and what the call does
once all its checks have passed is left to a hypothesis. `Ready` is what a call needs in order to
follow paths.
-/

namespace Xv6.Sys

open Fs Function Multiset Finset

variable {Q : Int → St → Prop} {i : Nat} {t : Tree}

/-- Process `p` can follow paths: they stay within `S`. -/
structure Ready (sb : Superblock) (E : Stop → Prop) (B : St) (X : Multiset (Fin NINODE))
    (V : Finset (Fin NINODE)) (N : Fin NINODE → Nat) (t : Tree) (S : Nat → Prop) (p : Fin NPROC)
    (cwd : Fin NINODE) : Prop where
  stops : Allows E
  read : ∀ jp ∈ V, jp ∈ X
  closed : Closed sb E t (HeldBy X N) S
  root : S ROOTINO
  here : (B.proc p).cwd = some cwd
  mem : cwd ∈ X
  start : S (N cwd)

section Rules

variable {sb : Superblock} {dev : Devsw} {B : St} {op : Int} {X : Multiset (Fin NINODE)}
  {L V : Finset (Fin NINODE)} {N : Fin NINODE → Nat} {v : Vol} {E : Stop → Prop}
  {ip dp cwd : Fin NINODE} {S : Nat → Prop} {p : Fin NPROC} {path name : List UInt8}

theorem Ready.cons {N' : Fin NINODE → Nat} (h : Ready sb E B X V N t S p cwd)
    (ip : Fin NINODE) (hN : Agree X N N') : Ready sb E B (ip ::ₘ X) V N' t S p cwd where
  stops := h.stops
  read jp hjp := Multiset.mem_cons_of_mem (h.read jp hjp)
  closed := { h.closed with
    kept := fun i n hi hn => (h.closed.kept i n hi hn).imp_right fun ⟨jp, hjp, hj⟩ =>
      ⟨jp, Multiset.mem_cons_of_mem hjp, (hN jp hjp).trans hj⟩ }
  root := h.root
  here := h.here
  mem := Multiset.mem_cons_of_mem h.mem
  start := (hN cwd h.mem).symm ▸ h.start

theorem Ready.agree {N' : Fin NINODE → Nat} (h : Ready sb E B X V N t S p cwd)
    (hN : Agree X N N') : Ready sb E B X V N' t S p cwd where
  stops := h.stops
  read := h.read
  closed := HeldBy.congr hN ▸ h.closed
  root := h.root
  here := h.here
  mem := h.mem
  start := (hN cwd h.mem).symm ▸ h.start

theorem Ready.lock (h : Ready sb E B X V N (v.tree sb) S p cwd) (hi : S i) :
    v.Live sb i ∨ E .ilockNoType := by
  refine (h.closed.live i hi).imp_left fun hne => ?_
  by_contra hl
  exact hne (Vol.tree_not_live hl)

theorem Ready.parent_mem (h : Ready sb E B X V N (v.tree sb) S p cwd) {parent : Bool} {d : Nat}
    (hw : walk (v.tree sb) parent path (origin path (N cwd)) = some (d, name)) : S d := by
  refine walk_mem h.closed path _ ?_ hw
  rw [origin]
  split
  · exact h.root
  · exact h.start

theorem Ready.namei {α : Type} {f : Option (Fin NINODE) → M α} {Q : α → St → Prop}
    (h : Ready sb E B X V N (v.tree sb) S p cwd)
    (hnone : Triple (On sb B op X L V N v) (f none) E Q)
    (hsome : ∀ ip N' rest, walk (v.tree sb) false path (origin path (N cwd)) =
      some (N' ip, rest) → S (N' ip) → Agree X N N' →
      Triple (On sb B op (ip ::ₘ X) L V N' v) (f (some ip)) E Q) :
    Triple (On sb B op X L V N v) (namei sb dev p path >>= f) E Q := by
  refine .bind (namei_on (.inl h.stops) h.read h.closed h.root h.here h.mem h.start)
    fun r => .of_forall fun r' => .of_imp fun hr => ?_
  subst hr
  cases hw : walk (v.tree sb) false path (origin path (N cwd)) with
  | none => exact .of_imp fun hr => hr ▸ hnone
  | some w =>
    refine .of_forall fun ip => .of_forall fun N' => .of_imp fun hr => ?_
    refine .of_imp fun hi => .of_imp fun hN => ?_
    subst hr
    exact hsome ip N' w.2 (by rw [hw, hi]) (hi.symm ▸ h.parent_mem hw) hN

theorem Ready.nameiparent {α : Type} {f : Option (Fin NINODE × List UInt8) → M α}
    {Q : α → St → Prop} (h : Ready sb E B X V N (v.tree sb) S p cwd)
    (hnone : walk (v.tree sb) true path (origin path (N cwd)) = none →
      Triple (On sb B op X L V N v) (f none) E Q)
    (hsome : ∀ dp N' name, walk (v.tree sb) true path (origin path (N cwd)) =
      some (N' dp, name) → v.Live sb (N' dp) → (v.dino (N' dp)).type = T_DIR → Agree X N N' →
      Triple (On sb B op (dp ::ₘ X) L V N' v) (f (some (dp, name))) E Q) :
    Triple (On sb B op X L V N v) (nameiparent sb dev p path >>= f) E Q := by
  refine .bind (nameiparent_on (.inl h.stops) h.read h.closed h.root h.here h.mem h.start)
    fun r => ?_
  cases hw : walk (v.tree sb) true path (origin path (N cwd)) with
  | none => exact .of_imp fun hr => hr ▸ hnone hw
  | some w =>
    obtain ⟨d, name⟩ := w
    refine .of_forall fun dp => .of_forall fun N' => .of_imp fun hr => ?_
    refine .of_imp fun hd => .of_imp fun hN => ?_
    subst hr hd
    obtain ⟨n, hn, hdir⟩ := walk_parent path _ hw
    obtain ⟨hlive, rfl⟩ := Vol.tree_eq_some.mp hn
    exact hsome dp N' name hw hlive hdir hN

theorem Ready.ilock {α : Type} {f : Unit → M α} {Q : α → St → Prop} {X' : Multiset (Fin NINODE)}
    {N' : Fin NINODE → Nat} (h : Ready sb E B X V N (v.tree sb) S p cwd) (hip : ip ∈ X')
    (hS : S (N' ip)) (hf : ip ∉ L → v.Live sb (N' ip) →
      Triple (On sb B op X' (insert ip L) V N' v) (f ()) E Q) :
    Triple (On sb B op X' L V N' v) (ilock sb ip >>= f) E Q :=
  .bind (ilock_on h.stops.hang hip (h.lock hS)) fun _ => .of_imp fun hL => .of_imp (hf hL)

theorem endOp_return {r : Int} (hE : Allows E) (hQ : ∀ s, On sb B op X L V N v s → Q r s) :
    Triple (On sb B (op + 1) X L V N v) (do endOp; return r) E Q :=
  Triple.bind (endOp_on hE) fun _ => .pure hQ

/-- The path names nothing in a directory that exists. -/
def Absent (sb : Superblock) (v : Vol) (path : List UInt8) (cwd : Nat) : Prop :=
  ∃ d name, walk (v.tree sb) true path (origin path cwd) = some (d, name) ∧
    lookup (v.contents d) name = none

theorem create_rule {type major minor : Int16} {Q : Option (Fin NINODE) → St → Prop}
    (h : Ready sb E B X V N (v.tree sb) S p cwd)
    (hnone : ∀ s, ¬ Absent sb v path (N cwd) → On sb B op X L V N v s → Q none s)
    (hold : ∀ ip N' s, ¬ Absent sb v path (N cwd) → type = T_FILE → S (N' ip) → ip ∉ L →
      Agree X N N' → On sb B op (ip ::ₘ X) (insert ip L) V N' v s → Q (some ip) s)
    (hnew : ∀ d name dp N', walk (v.tree sb) true path (origin path (N cwd)) = some (d, name) →
      v.Live sb d → lookup (v.contents d) name = none → N' dp = d → dp ∉ L → Agree X N N' →
      Triple (On sb B op (dp ::ₘ X) (insert dp L) V N' v)
        (createNew sb dev dp name type major minor) E fun ip => Q (some ip)) :
    Triple (On sb B op X L V N v) (create sb dev p path type major minor) E Q := by
  refine h.nameiparent (fun hw => .pure fun s hs => hnone s ?_ hs)
    fun dp N' name hw hlive hdir hN => ?_
  · rintro ⟨d, name, h', -⟩
    rw [hw] at h'
    cases h'
  · have hS := h.parent_mem hw
    have hmem := Multiset.mem_cons_self dp X
    have h' := h.agree hN
    refine h.ilock hmem hS fun hdp _ => ?_
    have hin := mem_insert_self dp L
    cases hk : lookup (v.contents (N' dp)) name with
    | none =>
      refine .bind (dirlookup_none (.inl h.stops) hin hk) fun r => ?_
      refine .of_imp fun _ => .of_imp fun hr => ?_
      subst hr
      refine .bind (hnew _ name dp N' hw hlive hk rfl hdp hN) fun ip => ?_
      exact .pure fun _ => id
    | some k =>
      have hthere : ¬ Absent sb v path (N cwd) := by
        rintro ⟨d', name', h', hk'⟩
        rw [hw] at h'
        cases h'
        rw [hk] at hk'
        cases hk'
      obtain ⟨hklt, hne, -⟩ := lookup_some hk
      have hSi := h.closed.ents _ _ k hS (Vol.tree_live hlive) hdir hklt hne
      refine .bind (dirlookup_some (.inl h.stops) hin hk (h.closed.lt _ hSi)) fun r => ?_
      refine .of_imp fun _ => .of_forall fun ip => .of_forall fun N'' => ?_
      refine .of_imp fun hr => .of_imp fun hj => .of_imp fun hN' => ?_
      subst hr
      have hX : Agree X N' N'' := fun jp hjp => hN' jp (Multiset.mem_cons_of_mem hjp)
      have h'' := (h'.agree hX).cons ip fun _ _ => rfl
      rw [Multiset.cons_swap]
      refine .bind (iunlockput_keep h''.read hdp
        (h''.closed.keeps ((hN' dp hmem).symm ▸ hS))) fun _ => ?_
      refine h.ilock (Multiset.mem_cons_self ip X) (hj ▸ hSi) fun hip _ => ?_
      refine .bind (inode_on (mem_insert_self ip L)) fun x => ?_
      refine .of_imp fun hx => ?_
      rw [hx.2]
      have hagree : Agree X N N'' := hN.trans hX
      refine .ite (fun ht => .pure fun s hs => ?_) fun _ => ?_
      · exact hold ip N'' s hthere ht.1 (hj ▸ hSi) hip hagree hs
      · refine .bind (iunlockput_keep h.read hip
          ((h'.agree hX).closed.keeps (hj ▸ hSi))) fun _ => .pure fun s hs => ?_
        exact hnone s hthere (hs.agree hagree.symm)

def addLink (v : Vol) (i : Nat) : Vol :=
  v.setDino i { v.dino i with nlink := (v.dino i).nlink + 1 }

theorem addLink_type (v : Vol) (i j : Nat) : ((addLink v i).dino j).type = (v.dino j).type := by
  by_cases hj : j = i
  · subst hj
    rw [addLink, Vol.setDino_self]
  · rw [addLink, Vol.setDino_other _ _ hj]

theorem live_addLink {j : Nat} : (addLink v i).Live sb j ↔ v.Live sb j := by
  rw [Vol.Live, Vol.Live, addLink_type]

theorem tree_addLink (hi : v.Live sb i) : (addLink v i).tree sb =
    update (v.tree sb) i (some { v.node i with nlink := (v.node i).nlink + 1 }) :=
  Vol.tree_meta (w := addLink v i) hi rfl rfl ⟨rfl, rfl, rfl⟩

theorem contents_addLink (v : Vol) (i j : Nat) : (addLink v i).contents j = v.contents j :=
  Vol.contents_sameData (w := addLink v i) rfl rfl ⟨rfl, rfl, rfl⟩ j

theorem node_addLink {j : Nat} (h : j ≠ i) : (addLink v i).node j = v.node j := by
  rw [Vol.node, Vol.node, contents_addLink, addLink, Vol.setDino_other _ _ h]

theorem addLink_undo (v : Vol) (i : Nat) : (addLink v i).setDino i
    { (addLink v i).dino i with nlink := ((addLink v i).dino i).nlink - 1 } = v := by
  have hd : ({ (addLink v i).dino i with nlink := ((addLink v i).dino i).nlink - 1 } : Dinode) =
      v.dino i := by
    rw [addLink, Vol.setDino_self]
    simp
  rw [hd, addLink, Vol.setDino_idem, Vol.setDino_eq_self]

theorem Ready.addLink (h : Ready sb E B (ip ::ₘ X) V N (v.tree sb) S p cwd)
    (hlive : v.Live sb (N ip)) :
    Ready sb E B (ip ::ₘ X) V N ((addLink v (N ip)).tree sb) S p cwd := by
  have hother : ∀ j, j ≠ N ip → (Sys.addLink v (N ip)).tree sb j = v.tree sb j := fun j hj => by
    rw [tree_addLink hlive, update_of_ne hj]
  have hself : (Sys.addLink v (N ip)).tree sb (N ip) =
      some { v.node (N ip) with nlink := (v.node (N ip)).nlink + 1 } := by
    rw [tree_addLink hlive, update_self]
  refine { h with closed := { h.closed with live := ?_, kept := ?_, ents := ?_ } }
  · intro i hi
    by_cases hj : i = N ip
    · exact .inl (by rw [hj, hself]; exact Option.some_ne_none _)
    · rw [hother i hj]
      exact h.closed.live i hi
  · intro i n hi hn
    by_cases hj : i = N ip
    · exact .inr ⟨ip, Multiset.mem_cons_self ip X, hj.symm⟩
    · rw [hother i hj] at hn
      exact h.closed.kept i n hi hn
  · intro i n k hi hn
    by_cases hj : i = N ip
    · rw [hj, hself] at hn
      cases hn
      exact h.closed.ents i (v.node (N ip)) k hi (by rw [hj]; exact Vol.tree_live hlive)
    · rw [hother i hj] at hn
      exact h.closed.ents i n k hi hn

theorem linkBad_on (hE : Allows E) (hV : ∀ jp ∈ V, jp ∈ X) (hlive : v.Live sb (N ip))
    (hkeep : v.Live sb (N ip) → (v.dino (N ip)).nlink ≠ 0 ∨ HeldBy X N (N ip)) :
    Triple (On sb B (op + 1) (ip ::ₘ X) L V N (addLink v (N ip))) (linkBad sb ip) E fun r s =>
      r = -1 ∧ On sb B op X L V N v s := by
  refine .bind (ilock_on hE.hang (Multiset.mem_cons_self ip X) (.inl (live_addLink.mpr hlive)))
    fun _ => .of_imp fun hip => .of_imp fun _ => ?_
  refine .bind (iupdate_on hE (mem_insert_self ip L) ⟨rfl, rfl, rfl⟩) fun _ => ?_
  rw [addLink_undo]
  refine .bind (iunlockput_keep hV hip hkeep) fun _ => ?_
  exact endOp_return hE fun s hs => ⟨rfl, hs⟩

/-- The inode and the directory that `link` is about. -/
structure Linking (sb : Superblock) (X : Multiset (Fin NINODE)) (N : Fin NINODE → Nat) (v : Vol)
    (cwd : Nat) (old new : List UInt8) (N' : Fin NINODE → Nat) (ip dp : Fin NINODE)
    (name : List UInt8) : Prop where
  agree : Agree X N N'
  old : ∃ rest, walk (v.tree sb) false old (origin old cwd) = some (N' ip, rest)
  file : v.Live sb (N' ip) ∧ (v.dino (N' ip)).type ≠ T_DIR
  new : walk (v.tree sb) true new (origin new cwd) = some (N' dp, name)
  dir : v.Live sb (N' dp) ∧ (v.dino (N' dp)).type = T_DIR
  free : lookup (v.contents (N' dp)) name = none

theorem walk_congr {t' : Tree} (h : ∀ i, (t' i).map (fun n => (n.type, n.data)) =
    (t i).map fun n => (n.type, n.data)) (parent : Bool) (path : List UInt8) (i : Nat) :
    walk t' parent path i = walk t parent path i := by
  induction hlen : path.length using Nat.strong_induction_on generalizing path i with
  | _ len ih =>
    subst hlen
    rw [walk, walk]
    split
    · rfl
    · rename_i rest elem helem
      have hi := h i
      cases hn : t i with
      | none =>
        rw [hn] at hi
        rw [Option.map_eq_none_iff.mp hi]
      | some n =>
        rw [hn] at hi
        obtain ⟨n', hn', heq⟩ := Option.map_eq_some_iff.mp hi
        rw [hn']
        simp only [Prod.mk.injEq] at heq
        dsimp only
        rw [heq.1, heq.2]
        split
        · rfl
        · split
          · rfl
          · split
            · rfl
            · exact ih _ (skipelem_shorter helem) rest _ rfl

theorem walk_addLink (hi : v.Live sb i) (parent : Bool) (path : List UInt8) (j : Nat) :
    walk ((addLink v i).tree sb) parent path j = walk (v.tree sb) parent path j := by
  refine walk_congr (fun j => ?_) parent path j
  rw [tree_addLink hi]
  by_cases hj : j = i
  · subst hj
    rw [update_self, Vol.tree_live hi]
    rfl
  · rw [update_of_ne hj]

theorem linkAt_rule (h : Ready sb E B (ip ::ₘ X) V N ((addLink v (N ip)).tree sb) S p cwd)
    (hfile : (v.dino (N ip)).type ≠ T_DIR) (hdir : (v.dino (N dp)).type = T_DIR) (hS : S (N dp))
    (hbad : Triple (On sb B (op + 1) (ip ::ₘ X) L V N (addLink v (N ip))) (linkBad sb ip) E Q)
    (hok : ∀ v', v.Live sb (N dp) → lookup (v.contents (N dp)) name = none → dp ∉ L →
      v'.tree sb = update ((addLink v (N ip)).tree sb) (N dp)
        (some { v.node (N dp) with data := linked (v.contents (N dp)) name (N ip) }) →
      Triple (On sb B (op + 1) (dp ::ₘ ip ::ₘ X) (insert dp L) V N v')
        (do iunlockput sb dp; iput sb ip; endOp; return 0) E Q) :
    Triple (On sb B (op + 1) (dp ::ₘ ip ::ₘ X) L V N (addLink v (N ip))) (do
        ilock sb dp
        let r ← dirlink sb dev dp name (N ip)
        if r < 0 then
          iunlockput sb dp
          linkBad sb ip
        else
          iunlockput sb dp
          iput sb ip
          endOp
          return 0) E Q := by
  have hdp : dp ∈ insert dp L := mem_insert_self dp L
  refine h.ilock (Multiset.mem_cons_self dp _) hS fun hdpL hlive => ?_
  have hnode := Vol.tree_live hlive
  rw [live_addLink] at hlive
  have hdir' : ((addLink v (N ip)).node (N dp)).type = T_DIR := (addLink_type v _ _).trans hdir
  cases hk : lookup ((addLink v (N ip)).contents (N dp)) name with
  | some k =>
    obtain ⟨hklt, hne, -⟩ := lookup_some hk
    have hSk := h.closed.ents _ _ k hS hnode hdir' hklt hne
    have h' := h.cons dp fun _ _ => rfl
    refine .bind (dirlink_old h.stops hdp h'.read hk (h.closed.lt _ hSk)
      (h'.closed.keeps hSk)) fun r => .of_imp fun hr => ?_
    subst hr
    rw [if_pos (by decide)]
    exact .bind (iunlockput_keep h.read hdpL (h.closed.keeps hS)) fun _ => hbad
  | none =>
    have hne : N dp ≠ N ip := fun heq => hfile (heq ▸ hdir)
    refine .bind (dirlink_new h.stops hdp hk) fun r => .of_imp fun hr => ?_
    subst hr
    rw [if_neg (by decide)]
    rw [contents_addLink] at hk
    refine .of_forall fun v' s hs => hok v' hlive hk hdpL ?_ s hs.1
    rw [hs.2, node_addLink hne, contents_addLink]

theorem sysLink_rule {old new : List UInt8}
    (h : Ready sb E B X V N (v.tree sb) S p cwd) (hfail : ∀ s, On sb B op X L V N v s → Q (-1) s)
    (hok : ∀ N' ip dp name v', Linking sb X N v (N cwd) old new N' ip dp name → dp ∉ L →
      v'.tree sb = update ((addLink v (N' ip)).tree sb) (N' dp)
        (some { v.node (N' dp) with data := linked (v.contents (N' dp)) name (N' ip) }) →
      Triple (On sb B (op + 1) (dp ::ₘ ip ::ₘ X) (insert dp L) V N' v')
        (do iunlockput sb dp; iput sb ip; endOp; return 0) E Q) :
    Triple (On sb B op X L V N v) (sysLink sb dev p (some (old, new))) E Q := by
  refine .bind (beginOp_on h.stops) fun _ => ?_
  refine h.namei (endOp_return h.stops hfail) fun ip N' rest hw hS hN => ?_
  have hmem := Multiset.mem_cons_self ip X
  have h1 := h.agree hN
  -- every failing exit ends with the references and the volume from before
  have hfail' : ∀ s, On sb B op X L V N' v s → Q (-1) s := fun s hs =>
    hfail s (hs.agree hN.symm)
  refine h.ilock hmem hS fun hip hlive => ?_
  refine .bind (inode_on (mem_insert_self ip L)) fun x => .of_imp fun hx => ?_
  rw [hx.2, hx.1]
  refine .ite (fun _ => ?_) fun hdir => ?_
  · refine .bind (iunlockput_keep h.read hip (h1.closed.keeps hS)) fun _ => ?_
    exact endOp_return h.stops hfail'
  · refine .bind (iupdate_on h.stops (mem_insert_self ip L) ⟨rfl, rfl, rfl⟩)
      fun _ => .bind (iunlock_on hip) fun _ => ?_
    have h2 := (h1.cons ip fun _ _ => rfl).addLink hlive
    have hbad : Triple (On sb B (op + 1) (ip ::ₘ X) L V N' (addLink v (N' ip))) (linkBad sb ip)
        E Q := (linkBad_on h.stops h.read hlive (h1.closed.keeps hS)).post
      fun r s hr => hr.1 ▸ hfail' s hr.2
    show Triple (On sb B (op + 1) (ip ::ₘ X) L V N' (addLink v (N' ip))) _ E Q
    refine h2.nameiparent (fun _ => hbad) fun dp N'' name hw' _ _ hN' => ?_
    rw [walk_addLink hlive] at hw'
    obtain ⟨n, hn, hdird⟩ := walk_parent new _ hw'
    obtain ⟨hlived, rfl⟩ := Vol.tree_eq_some.mp hn
    have hip' : N'' ip = N' ip := hN' ip hmem
    have hX : Agree X N N'' := fun jp hjp =>
      (hN' jp (Multiset.mem_cons_of_mem hjp)).trans (hN jp hjp)
    rw [← hip'] at hbad h2 hdir hlive hw ⊢
    refine linkAt_rule (h2.agree hN') hdir hdird (h1.parent_mem hw') ?_ ?_
    · exact hbad.pre fun s hs => hs.agree hN'.symm
    · intro v' _ hfree hdp htree
      refine hok N'' ip dp name v' ⟨hX, ⟨rest, hw⟩, ⟨hlive, hdir⟩, ?_, ⟨hlived, hdird⟩, hfree⟩
        hdp htree
      rw [← hN cwd h.mem, hw']

/-- The entry and the inode that `unlink` removes. -/
structure Unlinking (sb : Superblock) (X : Multiset (Fin NINODE)) (N : Fin NINODE → Nat) (v : Vol)
    (cwd : Nat) (path : List UInt8) (N' : Fin NINODE → Nat) (ip dp : Fin NINODE)
    (name : List UInt8) (k : Nat) : Prop where
  agree : Agree X N N'
  parent : walk (v.tree sb) true path (origin path cwd) = some (N' dp, name)
  dir : v.Live sb (N' dp) ∧ (v.dino (N' dp)).type = T_DIR
  notDots : ¬ (namecmp (chars name) (chars dot) = 0 ∨ namecmp (chars name) (chars dotdot) = 0)
  entry : lookup (v.contents (N' dp)) name = some k
  inum : N' ip = (entAt (v.contents (N' dp)) k).inum.toNat
  live : v.Live sb (N' ip)
  linked : ¬ (v.dino (N' ip)).nlink < 1
  empty : (v.dino (N' ip)).type = T_DIR → findEnt (v.contents (N' ip)) (·.inum != 0) 2 = none

theorem unlinkBad_on (hE : Allows E) (hV : ∀ jp ∈ V, jp ∈ X) (hdp : dp ∉ L)
    (hkeep : v.Live sb (N dp) → (v.dino (N dp)).nlink ≠ 0 ∨ HeldBy X N (N dp))
    (hQ : ∀ s, On sb B op X L V N v s → Q (-1) s) :
    Triple (On sb B (op + 1) (dp ::ₘ X) (insert dp L) V N v) (unlinkBad sb dp) E Q :=
  Triple.bind (iunlockput_keep hV hdp hkeep) fun _ => endOp_return hE hQ

theorem removable_on (hE : Allows E) (hip : ip ∈ L) :
    Triple (On sb B op X L V N v) (removable sb dev ip) E fun r s =>
      (r = true → (v.dino (N ip)).type = T_DIR →
        findEnt (v.contents (N ip)) (·.inum != 0) 2 = none) ∧ On sb B op X L V N v s := by
  refine .bind (inode_on hip) fun x => .of_imp fun hx => ?_
  rw [hx.2]
  refine .ite (fun hdir => ?_) fun hdir => .pure fun s hs => ⟨fun _ h => ?_, hs⟩
  · refine (isdirempty_on hE hip (by rw [hdir]; decide)).post fun r s hs => ⟨fun hr _ => ?_, hs.2⟩
    rw [hs.1, Option.isNone_iff_eq_none] at hr
    exact hr
  · exact absurd h hdir

theorem sysUnlink_rule (h : Ready sb E B X V N (v.tree sb) S p cwd)
    (hfail : ∀ s, On sb B op X L V N v s → Q (-1) s)
    (hok : ∀ N' ip dp name k, Unlinking sb X N v (N cwd) path N' ip dp name k → dp ∉ L →
      ip ∉ insert dp L →
      Triple (On sb B (op + 1) (ip ::ₘ dp ::ₘ X) (insert ip (insert dp L)) V N' v)
        (unlinkEntry sb dev dp ip (Dirent.size * k)) E Q) :
    Triple (On sb B op X L V N v) (sysUnlink sb dev p (some path)) E Q := by
  refine .bind (beginOp_on h.stops) fun _ => ?_
  refine h.nameiparent (fun _ => endOp_return h.stops hfail)
    fun dp N' name hw hlived hdird hN => ?_
  have hS := h.parent_mem hw
  have h1 := h.agree hN
  have hmem := Multiset.mem_cons_self dp X
  have hdp : dp ∈ insert dp L := mem_insert_self dp L
  refine h.ilock hmem hS fun hdpL _ => ?_
  have hbad : ∀ N'', Agree (dp ::ₘ X) N' N'' →
      Triple (On sb B (op + 1) (dp ::ₘ X) (insert dp L) V N'' v) (unlinkBad sb dp) E Q := by
    intro N'' hN'
    refine (unlinkBad_on h.stops h.read hdpL (h1.closed.keeps hS) fun s hs => ?_).pre
      fun s hs => hs.agree hN'.symm
    exact hfail s (hs.agree hN.symm)
  refine .ite (fun _ => hbad N' fun _ _ => rfl) fun hdots => ?_
  cases hk : lookup (v.contents (N' dp)) name with
  | none =>
    refine .bind (dirlookup_none (.inl h.stops) hdp hk) fun r => ?_
    refine .of_imp fun _ => .of_imp fun hr => ?_
    subst hr
    exact hbad N' fun _ _ => rfl
  | some k =>
    obtain ⟨hklt, hne, -⟩ := lookup_some hk
    have hSk := h.closed.ents _ _ k hS (Vol.tree_live hlived) hdird hklt hne
    refine .bind (dirlookup_some (.inl h.stops) hdp hk (h.closed.lt _ hSk)) fun r => ?_
    refine .of_imp fun _ => .of_forall fun ip => .of_forall fun N'' => ?_
    refine .of_imp fun hr => .of_imp fun hj => .of_imp fun hN' => ?_
    subst hr
    have hd' : N'' dp = N' dp := hN' dp hmem
    have h2 := (h1.cons dp fun _ _ => rfl).agree hN'
    have hSi : S (N'' ip) := hj.symm ▸ hSk
    have hip : ip ∈ insert ip (insert dp L) := mem_insert_self ip _
    refine h.ilock (Multiset.mem_cons_self ip _) hSi fun hipL hlive => ?_
    refine .bind (inode_on hip) fun x => .of_imp fun hx => ?_
    rw [hx.2]
    refine .ite (fun _ => .throw fun _ _ => h.stops _ Stop.noConfusion) fun hnl => ?_
    refine .bind (removable_on h.stops hip) fun empty => .of_imp fun hempty => ?_
    refine .ite (fun he => ?_) fun _ => ?_
    · refine hok N'' ip dp name k ⟨?_, ?_, ?_, hdots, ?_, ?_, hlive, hnl, hempty he⟩ hdpL hipL
      · exact fun jp hjp => (hN' jp (Multiset.mem_cons_of_mem hjp)).trans (hN jp hjp)
      · rw [hd', hw]
      · rw [hd']
        exact ⟨hlived, hdird⟩
      · rw [hd', hk]
      · rw [hd', hj]
    · exact .bind (iunlockput_keep h2.read hipL (h2.closed.keeps hSi)) fun _ =>
        hbad N'' hN'

theorem openInode_rule {omode : UInt32} {Q : Option (Fin NINODE) → St → Prop}
    (h : Ready sb E B X V N (v.tree sb) S p cwd)
    (hnone : ∀ s, ¬ (omode &&& O_CREATE ≠ 0 ∧ Absent sb v path (N cwd)) →
      On sb B op X L V N v s → Q none s)
    (hold : ∀ ip N' s, ¬ (omode &&& O_CREATE ≠ 0 ∧ Absent sb v path (N cwd)) → S (N' ip) →
      v.Live sb (N' ip) → ip ∉ L → Agree X N N' →
      On sb B op (ip ::ₘ X) (insert ip L) V N' v s → Q (some ip) s)
    (hnew : ∀ d name dp N', omode &&& O_CREATE ≠ 0 →
      walk (v.tree sb) true path (origin path (N cwd)) = some (d, name) → v.Live sb d →
      lookup (v.contents d) name = none → N' dp = d → dp ∉ L → Agree X N N' →
      Triple (On sb B op (dp ::ₘ X) (insert dp L) V N' v) (createNew sb dev dp name T_FILE 0 0) E
        fun ip => Q (some ip)) :
    Triple (On sb B op X L V N v) (openInode sb dev p path omode) E Q := by
  refine .ite (fun hcreate => ?_) fun hcreate => ?_
  · refine create_rule h (fun s hthere => hnone s fun hc => hthere hc.2) ?_
      fun d name dp N' => hnew d name dp N' hcreate
    intro ip N' s hthere _ hS hip hN hs
    exact hold ip N' s (fun hc => hthere hc.2) hS (hs.shows.live hs.counted (by simp)) hip hN hs
  · refine h.namei (.pure fun s => hnone s fun hc => hcreate hc.1) fun ip N' rest _ hS hN => ?_
    refine h.ilock (Multiset.mem_cons_self ip X) hS fun hip hlive => ?_
    refine .bind (inode_on (mem_insert_self ip L)) fun x => ?_
    refine .of_imp fun _ => .ite (fun _ => ?_) fun _ => .pure fun s hs => ?_
    · refine .bind (iunlockput_keep h.read hip ((h.agree hN).closed.keeps hS))
        fun _ => .pure fun s hs => ?_
      exact hnone s (fun hc => hcreate hc.1) (hs.agree hN.symm)
    · exact hold ip N' s (fun hc => hcreate hc.1) hS hlive hip hN hs

theorem make_rule {type major minor : Int16} (htype : type ≠ T_FILE)
    (h : Ready sb E B X V N (v.tree sb) S p cwd) (hfail : ∀ s, On sb B op X L V N v s → Q (-1) s)
    (hnew : ∀ d name dp N', walk (v.tree sb) true path (origin path (N cwd)) = some (d, name) →
      v.Live sb d → lookup (v.contents d) name = none → N' dp = d → dp ∉ L → Agree X N N' →
      Triple (On sb B (op + 1) (dp ::ₘ X) (insert dp L) V N' v)
        (createNew sb dev dp name type major minor >>= fun ip => do
          iunlockput sb ip
          endOp
          return 0) E Q) :
    Triple (On sb B op X L V N v) (make sb dev p (some path) type major minor) E Q := by
  refine .bind (beginOp_on h.stops) fun _ => ?_
  refine .bind (Q := fun r s => r.elim (On sb B (op + 1) X L V N v s) fun ip =>
    Ends ((do iunlockput sb ip; endOp; return 0 : M Int) s) E fun r => Q r.1 r.2) ?_ fun r => ?_
  · refine create_rule h (fun _ _ => id) ?_ ?_
    · intro ip N' s _ ht
      exact absurd ht htype
    · intro d name dp N' hw hlive hk hd hdp hN
      exact (hnew d name dp N' hw hlive hk hd hdp hN).of_bind
  · cases r with
    | none => exact endOp_return h.stops hfail
    | some ip => exact fun _ => id

theorem sysChdir_rule (h : Ready sb E B X V N (v.tree sb) S p cwd)
    (hfail : ∀ s, On sb B op X L V N v s → Q (-1) s)
    (hok : ∀ ip N', S (N' ip) → v.Live sb (N' ip) → (v.dino (N' ip)).type = T_DIR →
      Agree X N N' →
      Triple (On sb B (op + 1) (ip ::ₘ X) L V N' v) (do
        iput sb cwd
        endOp
        let s ← get
        set (s.setCwd p (some ip))
        return 0) E Q) :
    Triple (On sb B op X L V N v) (sysChdir sb dev p (some path)) E Q := by
  refine .bind (beginOp_on h.stops) fun _ => ?_
  refine h.namei (endOp_return h.stops hfail) fun ip N' rest _ hS hN => ?_
  refine h.ilock (Multiset.mem_cons_self ip X) hS fun hip hlive => ?_
  refine .bind (inode_on (mem_insert_self ip L)) fun x => .of_imp fun hx => ?_
  rw [hx.2]
  refine .ite (fun _ => ?_) fun hdir => ?_
  · refine .bind (iunlockput_keep h.read hip ((h.agree hN).closed.keeps hS))
      fun _ => endOp_return h.stops fun s hs => ?_
    exact hfail s (hs.agree hN.symm)
  · refine .bind (iunlock_on hip) fun _ => .get_of fun s hs => ?_
    rw [hs.proc, h.here]
    exact hok ip N' hS hlive (not_not.mp hdir) hN

end Rules

end Xv6.Sys
