import Xv6.Sys.Names

/-!
# Xv6.Sys.Succeed

What the calls on names do to the tree once all their checks have passed: `create` adds a node and
an entry for it, `link` an entry, `unlink` takes an entry away.
-/

namespace Xv6.Sys

open Fs Function Multiset Finset

/-- The contents of a new directory `i` in directory `d`. -/
def dots (i d : Nat) : List UInt8 := linked (linked [] dot i) dotdot d

theorem lookup_nil (name : List UInt8) : lookup [] name = none := rfl

theorem lookup_dotdot (i : Nat) : lookup (linked [] dot i) dotdot = none := by
  have hwhole : Whole [] := rfl
  have hslot : freeSlot [] = 0 := rfl
  have hn : nents (linked [] dot i) = 1 := by
    rw [linked, hslot, nents_putEnt hwhole (Nat.zero_le _)]
    rfl
  have hent : entAt (linked [] dot i) 0 = .make dot i :=
    entAt_putEnt_self hwhole (Nat.zero_le _) (make_length dot i)
  have hname : Dirent.hasName dotdot (.make dot i) = false := by
    rw [Dirent.hasName, chars_make (by decide) (by decide)]
    have : (namecmp (chars dotdot) (chars dot) == 0) = false := by decide
    rw [this, Bool.and_false]
  rw [lookup, findEnt_step (by omega), hent, hname, if_neg (by decide), findEnt_end (by omega)]

section Effects

variable {sb : Superblock} {dev : Devsw} {B : St} {op : Int} {X : Multiset (Fin NINODE)}
  {L V : Finset (Fin NINODE)} {N : Fin NINODE → Nat} {v : Vol} {E : Stop → Prop}
  {ip dp : Fin NINODE} {name : List UInt8}

theorem contents_of_tree {i : Nat} {n : Node} (h : v.tree sb i = some n) : v.contents i = n.data :=
  congrArg Node.data (Vol.tree_eq_some.mp h).2

theorem createNew_rule {type major minor : Int16} {Q : Fin NINODE → St → Prop} (hE : Allows E)
    (ht : type ≠ 0)
    (hrest : ∀ ip N' v', 1 ≤ N' ip → N' ip < sb.ninodes → v.tree sb (N' ip) = none → Agree X N N' →
      ip ∉ L → v'.tree sb = update (v.tree sb) (N' ip) (some ⟨type, major, minor, 1, []⟩) →
      Triple (On sb B op (ip ::ₘ X) (insert ip L) V N' v') (do
          when (type = T_DIR) (createDots sb dev dp ip)
          let x ← inode ip
          let r ← dirlink sb dev dp name x.inum
          if r < 0 then throw .createDirlink
          else
            iunlockput sb dp
            return ip) E Q) :
    Triple (On sb B op X L V N v) (createNew sb dev dp name type major minor) E Q := by
  refine .bind (ialloc_on hE) fun ip => .of_forall fun N' => ?_
  refine .of_imp fun h1 => .of_imp fun hlt => .of_imp fun hfree => ?_
  refine .of_imp fun hN => ?_
  have hlive : (v.setDino (N' ip) (.fresh type)).Live sb (N' ip) :=
    ⟨hlt, by rw [Vol.setDino_self]; exact ht⟩
  refine .bind (ilock_on hE.hang (Multiset.mem_cons_self ip X) (.inl hlive)) fun _ => ?_
  refine .of_imp fun hip => .of_imp fun _ => ?_
  refine .bind (iupdate_on hE (mem_insert_self ip L) ⟨rfl, rfl, rfl⟩) fun _ => ?_
  refine hrest ip N' _ h1 hlt (Vol.tree_not_live fun h => h.2 hfree) hN hip ?_
  have halloc := Vol.tree_alloc (v := v) (w := v.setDino (N' ip) (.fresh type)) hlt ht rfl rfl
  have hnode := (Vol.tree_eq_some.mp (congrFun halloc (N' ip) |>.trans
    (update_self _ _ _))).2
  refine (Vol.tree_setDino hlive ?_).trans ?_
  · exact ⟨rfl, rfl, rfl⟩
  · rw [halloc, update_idem, hnode]
    rfl

theorem createEntry_on (hE : Allows E) (hV : ∀ jp ∈ V, jp ∈ X) (hdp : dp ∉ L)
    (hip : ip ∉ insert dp L) (hname : lookup (v.contents (N dp)) name = none)
    (hkeep : (v.dino (N dp)).nlink ≠ 0 ∨ HeldBy X N (N dp)) :
    Triple (On sb B op (ip ::ₘ dp ::ₘ X) (insert ip (insert dp L)) V N v) (do
        let x ← inode ip
        let r ← dirlink sb dev dp name x.inum
        if r < 0 then throw .createDirlink
        else
          iunlockput sb dp
          return ip) E fun r s => r = ip ∧ ∃ v', On sb B op (ip ::ₘ X) (insert ip L) V N v' s ∧
        v'.tree sb = update (v.tree sb) (N dp)
          (some { v.node (N dp) with data := linked (v.contents (N dp)) name (N ip) }) := by
  obtain ⟨hne, hL⟩ : ip ≠ dp ∧ ip ∉ L := by simpa using hip
  have hdp' : dp ∉ insert ip L := by simp [hne.symm, hdp]
  refine .bind (inode_on (mem_insert_self ip _)) fun x => .of_imp fun hx => ?_
  rw [hx.1]
  refine .bind (dirlink_new hE (by simp) hname) fun r => .of_imp fun hr => ?_
  subst hr
  rw [if_neg (by decide)]
  refine .of_forall fun v' => .of_imp_right fun htree => ?_
  have hkeep' : v'.Live sb (N dp) → (v'.dino (N dp)).nlink ≠ 0 ∨ HeldBy (ip ::ₘ X) N (N dp) := by
    intro hl
    have hnode := (Vol.tree_eq_some.mp ((congrFun htree (N dp)).trans
      (update_self _ _ _))).2
    have hnl : (v'.dino (N dp)).nlink = (v.dino (N dp)).nlink := congrArg Node.nlink hnode
    rw [hnl]
    exact hkeep.imp_right fun ⟨jp, hjp, h⟩ => ⟨jp, Multiset.mem_cons_of_mem hjp, h⟩
  rw [Multiset.cons_swap, insert_comm]
  refine .bind (iunlockput_keep (fun jp hjp => Multiset.mem_cons_of_mem (hV jp hjp)) hdp'
    hkeep') fun _ => .pure fun s hs => ⟨rfl, v', hs, htree⟩

theorem createDots_on (hE : Allows E) (hip : ip ∈ L) (hdp : dp ∈ L) (hne : N ip ≠ N dp)
    (hempty : v.contents (N ip) = []) :
    Triple (On sb B op X L V N v) (createDots sb dev dp ip) E fun _ s => ∃ v',
      On sb B op X L V N v' s ∧ v'.tree sb = update ((addLink v (N dp)).tree sb) (N ip)
        (some { v.node (N ip) with data := dots (N ip) (N dp) }) := by
  refine .bind (iupdate_on hE hdp ⟨rfl, rfl, rfl⟩) fun _ => ?_
  change Triple (On sb B op X L V N (addLink v (N dp))) _ _ _
  refine .bind (inode_on hip) fun x => .of_imp fun hx => ?_
  refine .bind (inode_on hdp) fun y => .of_imp fun hy => ?_
  rw [hx.1, hy.1]
  have hdata : (addLink v (N dp)).contents (N ip) = [] := (contents_addLink v _ _).trans hempty
  refine .bind (dirlink_new hE hip (by rw [hdata, lookup_nil])) fun r => ?_
  refine .of_imp fun hr => ?_
  subst hr
  rw [if_neg (by decide)]
  refine .of_forall fun v' => .of_imp_right fun htree => ?_
  rw [hdata, node_addLink hne] at htree
  have hnode := (congrFun htree (N ip)).trans (update_self _ _ _)
  have hdata' := contents_of_tree hnode
  refine .bind (dirlink_new hE hip (by rw [hdata']; exact lookup_dotdot _)) fun r => ?_
  refine .of_imp fun hr => ?_
  subst hr
  rw [if_neg (by decide)]
  refine .pure fun s hs => ?_
  obtain ⟨v'', hon, htree'⟩ := hs
  refine ⟨v'', hon, ?_⟩
  rw [htree', htree, update_idem, hdata', (Vol.tree_eq_some.mp hnode).2]
  rfl

/-- What a new inode `i` adds to a tree: its node, and an entry in directory `d`. A directory also
has an entry `..`. -/
def grown (t : Tree) (d i : Nat) (dn : Node) (name : List UInt8) (type major minor : Int16) :
    Tree :=
  if type = T_DIR then
    update (update t i (some ⟨type, major, minor, 1, dots i d⟩)) d
      (some { dn with nlink := dn.nlink + 1, data := linked dn.data name i })
  else
    update (update t i (some ⟨type, major, minor, 1, []⟩)) d
      (some { dn with data := linked dn.data name i })

theorem createNew_on {type major minor : Int16} (hE : Allows E) (hV : ∀ jp ∈ V, jp ∈ X)
    (ht : type ≠ 0) (hdp : dp ∉ L) (hlive : v.Live sb (N dp))
    (hname : lookup (v.contents (N dp)) name = none)
    (hkeep : if type = T_DIR then (v.dino (N dp)).nlink + 1 ≠ 0
      else (v.dino (N dp)).nlink ≠ 0 ∨ HeldBy X N (N dp)) :
    Triple (On sb B op (dp ::ₘ X) (insert dp L) V N v) (createNew sb dev dp name type major minor) E
      fun ip s => ∃ N' v', 1 ≤ N' ip ∧ N' ip < sb.ninodes ∧ v.tree sb (N' ip) = none ∧
        Agree X N N' ∧ ip ∉ L ∧ On sb B op (ip ::ₘ X) (insert ip L) V N' v' s ∧
        v'.tree sb = grown (v.tree sb) (N dp) (N' ip) (v.node (N dp)) name type major minor := by
  refine createNew_rule hE ht fun ip N' v' h1 hlt hfree hN hip htree => ?_
  have hd : N' dp = N dp := hN dp (Multiset.mem_cons_self dp X)
  have hX : Agree X N N' := fun jp hjp => hN jp (Multiset.mem_cons_of_mem hjp)
  have hne : N' ip ≠ N' dp := by
    intro h
    rw [h, hd, Vol.tree_live hlive] at hfree
    cases hfree
  have hL : ip ∉ L := fun h => hip (mem_insert_of_mem h)
  have hnode : v'.tree sb (N dp) = some (v.node (N dp)) := by
    rw [htree, update_of_ne (hd ▸ hne.symm), Vol.tree_live hlive]
  have hnode' := (congrFun htree (N' ip)).trans (update_self _ _ _)
  obtain ⟨hlive', heq⟩ := Vol.tree_eq_some.mp hnode
  by_cases hdir : type = T_DIR
  · rw [if_pos hdir] at hkeep
    rw [when, if_pos hdir]
    refine .bind (createDots_on hE (by simp) (by simp) hne (contents_of_tree hnode')) fun _ => ?_
    refine .of_forall fun v'' => .of_imp_right fun htree' => ?_
    have hnode'' : v''.tree sb (N' dp) =
        some { v.node (N dp) with nlink := (v.node (N dp)).nlink + 1 } := by
      rw [htree', update_of_ne hne.symm, hd, tree_addLink hlive', update_self, heq]
    obtain ⟨-, heq'⟩ := Vol.tree_eq_some.mp hnode''
    refine (createEntry_on hE hV hdp hip (by rw [contents_of_tree hnode'']; exact hname)
      (.inl ?_)).post ?_
    · rw [show (v''.dino (N' dp)).nlink = (v.dino (N dp)).nlink + 1 from congrArg Node.nlink heq']
      exact hkeep
    · rintro jp s ⟨rfl, v3, hon, htree3⟩
      refine ⟨N', v3, h1, hlt, hfree, hX, hL, hon, ?_⟩
      rw [htree3, htree', heq', contents_of_tree hnode'', grown, if_pos hdir, hd,
        (Vol.tree_eq_some.mp hnode').2, tree_addLink hlive', htree]
      funext j
      by_cases hj : j = N dp
      · subst hj
        rw [update_self, update_self]
      · rw [update_of_ne hj, update_of_ne hj]
        by_cases hj' : j = N' jp
        · subst hj'
          rw [update_self, update_self]
        · rw [update_of_ne hj', update_of_ne hj, update_of_ne hj', update_of_ne hj']
  · rw [if_neg hdir] at hkeep
    rw [when, if_neg hdir, pure_bind]
    refine (createEntry_on hE hV hdp hip (by rw [hd, contents_of_tree hnode]; exact hname)
      ?_).post ?_
    · rw [hd, show (v'.dino (N dp)).nlink = (v.dino (N dp)).nlink from congrArg Node.nlink heq,
        HeldBy.congr hX]
      exact hkeep
    · rintro _ s ⟨rfl, v'', hon, htree'⟩
      refine ⟨N', v'', h1, hlt, hfree, hX, hL, hon, ?_⟩
      rw [htree', htree, hd, heq, contents_of_tree hnode, grown, if_neg hdir]

end Effects

end Xv6.Sys
