import Xv6.Sys.Failed

/-!
# Xv6.Sys.Path

Paths as lists of components.

The calls of `skipelem` that `namex` makes yield the components of a path. `namei` is a fold of
`child`, the lookup of one name, over all of them, and `nameiparent` over all but the last.
-/

namespace Xv6.Sys

open Fs List Multiset Finset Option

/-- The runs of bytes between slashes, each cut to `DIRSIZ` bytes. -/
def components (path : List UInt8) : List (List UInt8) :=
  ((path.splitOnP (· == SLASH)).filter (· ≠ [])).map (·.take DIRSIZ)

/-- The calls of `skipelem` before the one that returns 0, each with the element and the rest. -/
def elems (path : List UInt8) : List (List UInt8 × List UInt8) :=
  match _h : skipelem path with
  | none => []
  | some (rest, name) => (name, rest) :: elems rest
termination_by path.length
decreasing_by exact skipelem_shorter _h

section Components

variable {path rest name : List UInt8}

theorem components_dropWhile (path : List UInt8) :
    components (path.dropWhile (· == SLASH)) = components path := by
  induction path with
  | nil => rfl
  | cons c cs ih =>
    rw [dropWhile_cons]
    split
    · rename_i hc
      rw [ih, components, components, splitOnP_cons_eq_if_modifyHead, if_pos hc]
      rfl
    · rfl

theorem components_cons {c : UInt8} {cs : List UInt8} (hc : (c == SLASH) = false) :
    components (c :: cs) = ((c :: cs).takeWhile (· != SLASH)).take DIRSIZ ::
      components ((c :: cs).dropWhile (· != SLASH)) := by
  have hrun : ∀ x ∈ (c :: cs).takeWhile (· != SLASH), (x == SLASH) = false := by
    intro x hx
    simpa using List.all_eq_true.mp all_takeWhile x hx
  have hne : (c :: cs).takeWhile (· != SLASH) ≠ [] := by
    rw [takeWhile_cons_of_pos (by simpa using hc)]
    exact cons_ne_nil _ _
  have happ := takeWhile_append_dropWhile (p := (· != SLASH)) (l := c :: cs)
  generalize (c :: cs).takeWhile (· != SLASH) = run at hrun hne happ ⊢
  cases hrest : (c :: cs).dropWhile (· != SLASH) with
  | nil =>
    rw [hrest, append_nil] at happ
    rw [← happ, components, splitOnP_eq_singleton hrun]
    simp [hne, components]
  | cons d ds =>
    have hd : (d == SLASH) = true := by
      have := head_dropWhile_not (· != SLASH) (l := c :: cs) (by rw [hrest]; simp)
      simpa [hrest] using this
    rw [hrest] at happ
    rw [← happ, components, splitOnP_append_cons_of_forall_mem hrun d hd, components,
      splitOnP_cons_eq_if_modifyHead, if_pos hd]
    simp [hne]

theorem components_of_skipelem_none (h : skipelem path = none) : components path = [] := by
  rw [← components_dropWhile]
  simp only [skipelem] at h
  split at h
  · rename_i hnil
    rw [hnil]
    rfl
  · cases h

theorem components_of_skipelem (h : skipelem path = some (rest, name)) :
    components path = name :: components rest ∧ (rest = [] ↔ components rest = []) := by
  rw [← components_dropWhile path]
  simp only [skipelem] at h
  split at h
  · cases h
  · rename_i hne
    obtain ⟨c, cs, hp⟩ := exists_cons_of_ne_nil hne
    have hc : (c == SLASH) = false := by
      have := head_dropWhile_not (· == SLASH) (l := path) hne
      simpa [hp] using this
    rw [hp] at h ⊢
    cases h
    refine ⟨by rw [components_cons hc, components_dropWhile], fun h => by rw [h]; rfl, ?_⟩
    intro hnil
    by_contra hrest
    obtain ⟨d, ds, hd⟩ := exists_cons_of_ne_nil hrest
    have hslash := head_dropWhile_not _ (l := (c :: cs).dropWhile (· != SLASH)) hrest
    rw [hd, components_cons (by simpa [hd] using hslash)] at hnil
    cases hnil

theorem elems_none (h : skipelem path = none) : elems path = [] := by
  rw [elems]
  split
  · rfl
  · rename_i hc
    rw [h] at hc
    cases hc

theorem elems_some (h : skipelem path = some (rest, name)) :
    elems path = (name, rest) :: elems rest := by
  rw [elems]
  split
  · rename_i hc
    rw [h] at hc
    cases hc
  · rename_i hc
    rw [h] at hc
    cases hc
    rfl

theorem skipelem_induction {P : List UInt8 → Prop} (hnone : ∀ path, skipelem path = none → P path)
    (hsome : ∀ path rest name, skipelem path = some (rest, name) → P rest → P path)
    (path : List UInt8) : P path := by
  induction hlen : path.length using Nat.strong_induction_on generalizing path with
  | _ len ih =>
    subst hlen
    cases h : skipelem path with
    | none => exact hnone path h
    | some r => exact hsome path r.1 r.2 h (ih _ (skipelem_shorter h) r.1 rfl)

theorem elems_map_fst (path : List UInt8) : (elems path).map Prod.fst = components path := by
  induction path using skipelem_induction with
  | hnone path h => rw [elems_none h, components_of_skipelem_none h, map_nil]
  | hsome path rest name h ih => rw [elems_some h, (components_of_skipelem h).1, List.map_cons, ih]

theorem elems_rest (path : List UInt8) {l l' : List (List UInt8 × List UInt8)}
    (h : elems path = l ++ (name, rest) :: l') : rest = [] ↔ l' = [] := by
  induction path using skipelem_induction generalizing l with
  | hnone path hp =>
    rw [elems_none hp] at h
    exact absurd h (by simp)
  | hsome path rest' name' hp ih =>
    rw [elems_some hp] at h
    cases l with
    | nil =>
      cases h
      rw [(components_of_skipelem hp).2, ← elems_map_fst, map_eq_nil_iff]
    | cons x l => exact ih (List.cons.inj h).2

end Components

/-- `dirlookup` of a name in inode `i`, if that is a directory. -/
def child (t : Tree) (i : Nat) (name : List UInt8) : Option Nat :=
  (t i).bind fun n =>
    if n.type ≠ T_DIR then none
    else (lookup n.data name).map fun k => (entAt n.data k).inum.toNat

def resolve (t : Tree) (i : Nat) (names : List (List UInt8)) : Option Nat :=
  names.foldlM (child t) i

/-- The directory that all names but the last lead to, and the last name. -/
def parent (t : Tree) (i : Nat) (names : List (List UInt8)) : Option (Nat × List UInt8) :=
  names.getLast?.bind fun name =>
    (resolve t i names.dropLast).bind fun d =>
      if (t d).any (·.type = T_DIR) then some (d, name) else none

section Folds

variable {t : Tree} {i : Nat} {path : List UInt8}

theorem walk_child {parent : Bool} {rest name : List UInt8}
    (h : skipelem path = some (rest, name)) (hp : ¬ (parent = true ∧ rest = [])) :
    walk t parent path i = (child t i name).bind (walk t parent rest) := by
  cases hn : t i with
  | none =>
    rw [walk, child, hn]
    split
    · rename_i hc
      rw [h] at hc
      cases hc
    · rfl
  | some n =>
    rw [walk_cons h hn, child, hn]
    simp only [if_neg hp, bind_some]
    split
    · rfl
    · cases lookup n.data name <;> rfl

theorem walk_resolve (path : List UInt8) (i : Nat) :
    walk t false path i = (resolve t i (components path)).map (·, []) := by
  induction path using skipelem_induction generalizing i with
  | hnone path h => rw [walk_nil h, components_of_skipelem_none h]; rfl
  | hsome path rest name h ih =>
    rw [walk_child h (by simp), (components_of_skipelem h).1, resolve, foldlM_cons]
    cases child t i name with
    | none => rfl
    | some j => exact ih j

theorem walk_parent_eq (path : List UInt8) (i : Nat) :
    walk t true path i = parent t i (components path) := by
  induction path using skipelem_induction generalizing i with
  | hnone path h => rw [walk_nil h, components_of_skipelem_none h]; rfl
  | hsome path rest name h ih =>
    obtain ⟨hcomp, hlast⟩ := components_of_skipelem h
    rw [hcomp]
    by_cases hrest : rest = []
    · rw [hlast.mp hrest]
      cases hn : t i with
      | none =>
        rw [walk]
        split
        · rename_i hc
          rw [h] at hc
          cases hc
        · rw [hn]
          simp [parent, resolve, hn]
      | some n =>
        rw [walk_cons h hn]
        by_cases hdir : n.type = T_DIR <;> simp [parent, resolve, hn, hdir, hrest]
    · obtain ⟨m, ms, hm⟩ := exists_cons_of_ne_nil fun hnil => hrest (hlast.mpr hnil)
      rw [walk_child h fun hc => hrest hc.2, hm, parent, List.getLast?_cons_cons,
        dropLast_cons_of_ne_nil (by simp), resolve, foldlM_cons]
      cases hchild : child t i name with
      | none =>
        cases (m :: ms).getLast? <;> rfl
      | some j =>
        show walk t true rest j = _
        rw [ih j, hm]
        rfl

theorem resolve_of_parent {names : List (List UInt8)} {d : Nat} {name : List UInt8}
    (h : parent t i names = some (d, name)) : resolve t i names = child t d name := by
  obtain ⟨last, hlast, h⟩ := bind_eq_some_iff.mp h
  obtain ⟨j, hj, h⟩ := bind_eq_some_iff.mp h
  split at h
  · cases h
    obtain ⟨front, rfl⟩ := List.getLast?_eq_some_iff.mp hlast
    rw [dropLast_concat] at hj
    rw [resolve, foldlM_append, show List.foldlM _ _ _ = some d from hj]
    simp
  · cases h

end Folds

/-- Between calls, with a type for every inode that is named or held, whole entries in the
directories, and two entries of the inode cache free. -/
structure Navigable (sb : Superblock) (s : St) : Prop where
  consistent : Consistent sb s
  typed : ∀ i, Named (s.tree sb) i ∨ Cached s i → s.tree sb i ≠ none
  whole : ∀ i n, s.tree sb i = some n → n.type = T_DIR → Whole n.data
  room : (Finset.univ.filter fun ip => 0 < (s.fs.icache ip).ref).card + 1 < NINODE

/-- How `create` and `unlink` look a path up. -/
def lookupAt (sb : Superblock) (dev : Devsw) (p : Fin NPROC) (path : List UInt8) :
    M (Option (Fin NINODE × Nat)) := do
  match ← nameiparent sb dev p path with
  | none => return none
  | some (dp, name) => do
    ilock sb dp
    dirlookup sb dev dp name

section Navigable

variable {sb : Superblock} {s : St} {p : Fin NPROC} {cwd : Fin NINODE} {F : Fin NFILE → FdType}

theorem Navigable.follows (h : Navigable sb s) (hF : Settled s.proc F s) (S : Nat → Prop) :
    Follows (fun _ => False) (refs F s.proc) ∅ (s.tree sb) S := by
  refine .inr ⟨?_, rfl, fun i n _ => h.whole i n⟩
  convert h.room using 3
  ext ip
  rw [Multiset.mem_toFinset, Finset.mem_filter, hF.counted.ref_pos]
  exact (and_iff_right (mem_univ ip)).symm

theorem Navigable.closed (h : Navigable sb s) (hF : Settled s.proc F s)
    (hcwd : (s.proc p).cwd = some cwd) :
    Closed sb (fun _ => False) (s.tree sb) (HeldBy (refs F s.proc) (nums s))
      fun i => Named (s.tree sb) i ∨ Cached s i := by
  have hc := (h.consistent.ready hF hcwd).closed
  exact ⟨hc.lt, fun i hi => .inl (h.typed i hi), hc.kept, hc.ents⟩

theorem Found.inums {B : St} {op : Int} {X : Multiset (Fin NINODE)} {L V : Finset (Fin NINODE)}
    {N : Fin NINODE → Nat} {v : Vol} {w : Option (Nat × List UInt8)}
    {r : Option (Fin NINODE × List UInt8)} (h : Found sb B op X L V N v w r s) :
    (r.map fun q => (nums s q.1, q.2)) = w := by
  cases w with
  | none =>
    obtain rfl : r = none := h.1
    rfl
  | some q =>
    obtain ⟨jp, N', rfl, hj, -, hon⟩ := h
    exact congrArg some (Prod.ext ((hon.shows.num jp (Multiset.mem_cons_self _ _)).trans hj) rfl)

theorem lookupAt_resolve (dev : Devsw) (h : Navigable sb s) (hF : Settled s.proc F s)
    (hcwd : (s.proc p).cwd = some cwd) (path : List UInt8) :
    Triple (On sb s 0 (refs F s.proc) ∅ ∅ (nums s) (volOf sb s.fs.disk)) (lookupAt sb dev p path)
      (fun _ => False) fun r s' =>
      parent (s.tree sb) (origin path (nums s cwd)) (components path) ≠ none →
        (r.map fun q => nums s' q.1) =
          resolve (s.tree sb) (origin path (nums s cwd)) (components path) := by
  have hready := h.consistent.ready hF hcwd
  have hclosed := h.closed hF hcwd
  have hfollows := h.follows hF fun i => Named (s.tree sb) i ∨ Cached s i
  refine .bind (nameiparent_on hfollows hready.read hclosed hready.root hready.here hready.mem
    hready.start) fun r => ?_
  rw [← walk_parent_eq]
  cases hw : walk (s.tree sb) true path (origin path (nums s cwd)) with
  | none =>
    refine .of_imp fun hr => ?_
    subst hr
    exact .pure fun _ _ hne => absurd rfl hne
  | some q =>
    obtain ⟨d, name⟩ := q
    rw [resolve_of_parent ((walk_parent_eq path _).symm.trans hw)]
    refine .of_forall fun dp => .of_forall fun N' => .of_imp fun hr => .of_imp fun hd => ?_
    refine .of_imp fun _ => ?_
    subst hr
    have hS := hready.parent_mem hw
    obtain ⟨n, hn, hdir⟩ := walk_parent path _ hw
    obtain ⟨hlive, rfl⟩ := Vol.tree_eq_some.mp hn
    subst hd
    refine .bind (ilock_on (fun h => absurd h (notMem_empty dp))
      (Multiset.mem_cons_self dp _) (.inl hlive)) fun _ => .of_imp fun _ => .of_imp fun _ => ?_
    have hread := hfollows.read dp hS hlive hdir
    have hin := Finset.mem_insert_self dp ∅
    rw [child, hn, bind_some, if_neg (not_not.mpr hdir)]
    show Triple _ _ _ fun r s' =>
      _ → _ = (lookup ((volOf sb s.fs.disk).contents (N' dp)) name).map _
    cases hk : lookup ((volOf sb s.fs.disk).contents (N' dp)) name with
    | none =>
      refine (dirlookup_none (hread.imp_right fun h => ⟨h.1, h.2.1⟩) hin hk).post ?_
      rintro r s' ⟨-, rfl, -⟩ -
      rfl
    | some k =>
      obtain ⟨hklt, hne, -⟩ := lookup_some hk
      have hSk := hclosed.ents _ _ k hS hn hdir hklt hne
      refine (dirlookup_some hread hin hk (hclosed.lt _ hSk)).post ?_
      rintro r s' ⟨-, ip, N'', rfl, hN, -, hon⟩ -
      exact congrArg some ((hon.shows.num ip (Multiset.mem_cons_self _ _)).trans hN)

/-- The components of a path are what `skipelem` yields, and `namei` and `nameiparent` follow
them. -/
theorem paths_follow_components (dev : Devsw) (h : Navigable sb s)
    (hcwd : (s.proc p).cwd = some cwd) (path : List UInt8) :
    ((elems path).map Prod.fst = components path ∧
      ∀ l name rest l', elems path = l ++ (name, rest) :: l' → (rest = [] ↔ l' = [])) ∧
    Ends (namei sb dev p path s) (fun _ => False) (fun r => r.1.map (nums r.2) =
      resolve (s.tree sb) (origin path (nums s cwd)) (components path)) ∧
    Ends (nameiparent sb dev p path s) (fun _ => False)
      (fun r => (r.1.map fun q => (nums r.2 q.1, q.2)) =
        parent (s.tree sb) (origin path (nums s cwd)) (components path)) ∧
    Ends (lookupAt sb dev p path s) (fun _ => False)
      (fun r => parent (s.tree sb) (origin path (nums s cwd)) (components path) ≠ none →
        (r.1.map fun q => nums r.2 q.1) =
          resolve (s.tree sb) (origin path (nums s cwd)) (components path)) := by
  obtain ⟨F, hF, -⟩ := h.consistent.quiet
  have hready := h.consistent.ready hF hcwd
  have hclosed := h.closed hF hcwd
  have hon := hF.on h.consistent.ok
  have hfollows := h.follows hF fun i => Named (s.tree sb) i ∨ Cached s i
  refine ⟨⟨elems_map_fst path, fun l name rest l' => elems_rest path⟩, ?_, ?_,
    lookupAt_resolve dev h hF hcwd path s hon⟩
  · refine (namei_on hfollows hready.read hclosed hready.root hready.here hready.mem hready.start
      s hon).imp ?_
    rintro ⟨r, s'⟩ ⟨r', hr, hfound⟩
    obtain rfl : r = r'.map Prod.fst := hr
    have hmap := congrArg (Option.map Prod.fst) (hfound.inums.trans (walk_resolve path _))
    rw [Option.map_map, Option.map_map] at hmap
    rw [Option.map_map]
    exact hmap.trans Option.map_id'
  · refine (nameiparent_on hfollows hready.read hclosed hready.root hready.here hready.mem
      hready.start s hon).imp fun r hfound => ?_
    exact hfound.inums.trans (walk_parent_eq path _)

end Navigable

theorem Crowded.navigable : Navigable sb state where
  consistent := consistent
  typed i hi := by
    have hone : i = 1 := by
      rcases hi with hi | ⟨ip, hpos, rfl⟩
      · exact named hi
      · rw [entry_zero hpos]
        rfl
    exact (isSome_iff_ne_none.mp (isSome_iff_exists.mpr ⟨_, Vol.tree_live ((live_iff i).mpr hone)⟩))
  whole i n hn _ := by
    obtain ⟨hl, rfl⟩ := Vol.tree_eq_some.mp hn
    obtain rfl := (live_iff i).mp hl
    show Whole ((volOf sb disk).contents 1)
    rw [Whole, nents, contents_length, dino_one]
    rfl
  room := by decide +kernel

theorem paths_follow_components_dot : Navigable Crowded.sb Crowded.state ∧
    Ends (namei Crowded.sb Fs.Sample.dev 0 [47, 47, 46] Crowded.state) (fun _ => False) (fun r =>
      r.1.map (nums r.2) = resolve (Crowded.state.tree Crowded.sb)
        (origin [47, 47, 46] (nums Crowded.state 0)) (components [47, 47, 46])) :=
  ⟨Crowded.navigable, (paths_follow_components _ Crowded.navigable rfl _).2.1⟩

end Xv6.Sys
