import Xv6.Sys.Failed

/-!
# Xv6.Sys.Directory

A directory as a finite map on names.

`names` is what the entries of a directory say: the inode number under each name, a name being what
`namecmp` compares. An entry that is written changes it at one name, so `dirlink` and the removal of
an entry update the map. `dirlink` gives back the inode of an entry that it has found while the
directory is locked: if that is the directory itself, it waits for the lock that its caller holds.
-/

namespace Xv6.Sys

open Fs Function

/-- Entry `k` is in use, under the name `x`. -/
def Entry (data : List UInt8) (x : List UInt8) (k : Nat) : Prop :=
  k < nents data ∧ (entAt data k).inum ≠ 0 ∧ (entAt data k).key = x

def Distinct (data : List UInt8) : Prop := ∀ x j k, Entry data x j → Entry data x k → j = k

/-- The inode number under the name `x`, or 0. -/
def names (data : List UInt8) (x : List UInt8) : Nat :=
  match findEnt data (fun de => de.inum != 0 && de.key == x) 0 with
  | some k => (entAt data k).inum.toNat
  | none => 0

section Names

variable {data x y name : List UInt8} {j k : Nat} {de : Dirent}

theorem entry_iff : Entry data x k ↔
    k < nents data ∧ ((entAt data k).inum != 0 && (entAt data k).key == x) = true := by
  rw [Entry, Bool.and_eq_true, bne_iff_ne, beq_iff_eq]

theorem names_of_entry (hd : Distinct data) (h : Entry data x k) :
    names data x = (entAt data k).inum.toNat := by
  rw [names]
  split
  · rename_i j hj
    rw [hd x j k (entry_iff.mpr (findEnt_some hj).2) h]
  · rename_i hnone
    rw [findEnt, List.find?_eq_none] at hnone
    exact absurd (entry_iff.mp h).2 (hnone k (List.mem_range'_1.mpr ⟨Nat.zero_le k, by
      have := h.1
      omega⟩))

theorem names_of_not_entry (h : ∀ k, ¬ Entry data x k) : names data x = 0 := by
  rw [names]
  split
  · rename_i j hj
    exact absurd (entry_iff.mpr (findEnt_some hj).2) (h j)
  · rfl

theorem lookup_names (h0 : 0 ∉ name) : names data (name.take DIRSIZ) =
    (lookup data name).elim 0 fun k => (entAt data k).inum.toNat := by
  rw [names, ← show Dirent.hasName name = _ from funext (Dirent.hasName_eq h0), lookup]
  cases findEnt data (Dirent.hasName name) 0 <;> rfl

theorem lookup_entry (h0 : 0 ∉ name) (h : lookup data name = some k) :
    Entry data (name.take DIRSIZ) k := by
  obtain ⟨-, hlt, hfound⟩ := findEnt_some h
  rw [Dirent.hasName_eq h0] at hfound
  exact entry_iff.mpr ⟨hlt, hfound⟩

theorem names_eq_zero_iff (h0 : 0 ∉ name) :
    names data (name.take DIRSIZ) = 0 ↔ lookup data name = none := by
  rw [lookup_names h0]
  cases h : lookup data name with
  | none => simp
  | some k =>
    refine iff_of_false (fun hz => (lookup_entry h0 h).2.1 ?_) (by simp)
    exact UInt16.toNat_inj.mp hz

section Put

variable (hw : Whole data) (hk : k ≤ nents data) (hlen : de.name.length = DIRSIZ)
include hw hk hlen

theorem entry_putEnt : Entry (putEnt data k de) y j ↔
    if j = k then de.inum ≠ 0 ∧ de.key = y else Entry data y j := by
  rw [Entry, nents_putEnt hw hk]
  by_cases h : j = k
  · subst h
    rw [entAt_putEnt_self hw hk hlen, if_pos rfl, and_iff_right (by omega)]
  · rw [entAt_putEnt_other hw hk h, if_neg h, Entry]
    exact and_congr_left fun _ => by omega

theorem distinct_putEnt (hd : Distinct data)
    (hnew : de.inum ≠ 0 → ∀ j, Entry data de.key j → j = k) : Distinct (putEnt data k de) := by
  intro y i j hi hj
  rw [entry_putEnt hw hk hlen] at hi hj
  by_cases hik : i = k <;> by_cases hjk : j = k
  · rw [hik, hjk]
  · rw [if_pos hik] at hi
    rw [if_neg hjk, ← hi.2] at hj
    exact absurd (hnew hi.1 j hj) hjk
  · rw [if_pos hjk] at hj
    rw [if_neg hik, ← hj.2] at hi
    exact absurd (hnew hj.1 i hi) hik
  · rw [if_neg hik] at hi
    rw [if_neg hjk] at hj
    exact hd y i j hi hj

theorem names_putEnt_other (hd : Distinct data) (hd' : Distinct (putEnt data k de))
    (hde : de.inum ≠ 0 → de.key ≠ y) (hold : ¬ Entry data y k) :
    names (putEnt data k de) y = names data y := by
  by_cases h : ∃ j, Entry data y j
  · obtain ⟨j, hj⟩ := h
    have hjk : j ≠ k := fun he => hold (he ▸ hj)
    have hj' : Entry (putEnt data k de) y j := by
      rwa [entry_putEnt hw hk hlen, if_neg hjk]
    rw [names_of_entry hd hj, names_of_entry hd' hj', entAt_putEnt_other hw hk hjk]
  · rw [names_of_not_entry (not_exists.mp h), names_of_not_entry]
    intro j hj
    rw [entry_putEnt hw hk hlen] at hj
    split at hj
    · exact hde hj.1 hj.2
    · exact h ⟨j, hj⟩

theorem names_add (hd : Distinct data) (hde : de.inum ≠ 0) (hfree : ∀ y, ¬ Entry data y k)
    (hnew : ∀ j, ¬ Entry data de.key j) : Distinct (putEnt data k de) ∧
      names (putEnt data k de) = update (names data) de.key de.inum.toNat := by
  have hd' := distinct_putEnt hw hk hlen hd fun _ j hj => absurd hj (hnew j)
  refine ⟨hd', funext fun y => ?_⟩
  by_cases hy : y = de.key
  · subst hy
    have hself : Entry (putEnt data k de) de.key k := by
      rw [entry_putEnt hw hk hlen, if_pos rfl]
      exact ⟨hde, rfl⟩
    rw [update_self, names_of_entry hd' hself, entAt_putEnt_self hw hk hlen]
  · rw [update_of_ne hy]
    exact names_putEnt_other hw hk hlen hd hd' (fun _ he => hy he.symm) (hfree y)

theorem names_clear (hd : Distinct data) (hde : de.inum = 0) (hx : Entry data x k) :
    Distinct (putEnt data k de) ∧ names (putEnt data k de) = update (names data) x 0 := by
  have hd' := distinct_putEnt hw hk hlen hd fun h => absurd hde h
  refine ⟨hd', funext fun y => ?_⟩
  by_cases hy : y = x
  · subst hy
    rw [update_self, names_of_not_entry]
    intro j hj
    rw [entry_putEnt hw hk hlen] at hj
    split at hj
    · exact hj.1 hde
    · exact absurd (hd y j k hj hx) ‹_›
  · rw [update_of_ne hy]
    refine names_putEnt_other hw hk hlen hd hd' (fun h => absurd hde h) fun h => hy ?_
    rw [← h.2.2, hx.2.2]

end Put

theorem freeSlot_free (y : List UInt8) : ¬ Entry data y (freeSlot data) := by
  rintro ⟨hlt, hne, -⟩
  rw [freeSlot] at hlt hne
  cases h : findEnt data (·.inum == 0) 0 with
  | none =>
    rw [h] at hlt
    exact absurd hlt (lt_irrefl _)
  | some k =>
    rw [h] at hne
    exact hne (beq_iff_eq.mp (findEnt_some h).2.2)

theorem names_linked (hw : Whole data) (hd : Distinct data) (h0 : 0 ∉ name) {inum : Nat}
    (hlo : 1 ≤ inum) (hhi : inum ≤ 65535) (hnone : lookup data name = none) :
    Distinct (linked data name inum) ∧
      names (linked data name inum) = update (names data) (name.take DIRSIZ) inum := by
  have hinum : (Dirent.make name inum).inum.toNat = inum := Nat.mod_eq_of_lt (by omega)
  have hne : (Dirent.make name inum).inum ≠ 0 := by
    intro h
    rw [h] at hinum
    exact absurd hinum.symm (Nat.ne_of_gt hlo)
  have h := names_add hw (freeSlot_le data) (make_length name inum) hd hne freeSlot_free
    fun j hj => ?_
  · rwa [Dirent.key_make h0, hinum] at h
  · rw [Dirent.key_make h0] at hj
    have hz := (names_eq_zero_iff h0).mpr hnone
    rw [names_of_entry hd hj] at hz
    exact hj.2.1 (UInt16.toNat_inj.mp hz)

theorem names_removed (hw : Whole data) (hd : Distinct data) (h0 : 0 ∉ name)
    (hsome : lookup data name = some k) : Distinct (putEnt data k .zero) ∧
      names (putEnt data k .zero) = update (names data) (name.take DIRSIZ) 0 :=
  have hx := lookup_entry h0 hsome
  names_clear hw hx.1.le rfl hd rfl hx

end Names

/-- The caller has locked the directory `dp`, which holds `data`. No other inode is locked, and an
entry of the inode cache is free. -/
structure Holds (sb : Superblock) (dp : Fin NINODE) (data : List UInt8) (s : St) : Prop where
  ok : FsOk sb s.fs
  read : Locked s.fs dp
  locked : ∀ jp, s.locked jp = decide (jp = dp)
  dir : (s.fs.icache dp).copy.type = T_DIR
  contents : (volOf sb s.fs.disk).contents (s.fs.icache dp).inum = data
  room : ∃ jp, (s.fs.icache jp).ref = 0

/-- Nothing has changed but entries of the cache that nobody refers to. -/
structure Unchanged (fs fs' : FS) : Prop where
  disk : fs'.disk = fs.disk
  log : fs'.log = fs.log
  ref : ∀ jp, (fs'.icache jp).ref = (fs.icache jp).ref
  icache : ∀ jp, 0 < (fs.icache jp).ref → fs'.icache jp = fs.icache jp

/-- The removal of an entry as `sys_unlink` makes it: the entry that `dirlookup` finds is zeroed. -/
def removeEnt (sb : Superblock) (dev : Devsw) (dp : Fin NINODE) (name : List UInt8) : M Int := do
  match ← dirlookup sb dev dp name with
  | none => return -1
  | some (ip, off) => do
    iput sb ip
    let n ← onFs (writei sb dev · dp Dirent.zero.byte (.ofNat off) (.ofNat Dirent.size))
    if n ≠ Dirent.size then throw .unlinkWritei else return 0

/-- The entries of the directory `dp` are whole, have distinct names and say `m`. -/
def Maps (sb : Superblock) (dp : Fin NINODE) (s : St) (m : List UInt8 → Nat) : Prop :=
  ∃ data, Holds sb dp data s ∧ Whole data ∧ Distinct data ∧ names data = m

/-- The runs of `dirlink`, of removals and of what transactions do to the log, with what the entries
should say: the number that was linked last under each name and not removed since. -/
inductive Run (sb : Superblock) (dev : Devsw) (dp : Fin NINODE) : St → (List UInt8 → Nat) → Prop
  | start {s : St} {m : List UInt8 → Nat} : Maps sb dp s m → Run sb dev dp s m
  | link {s s' : St} {m : List UInt8 → Nat} {name : List UInt8} {inum : Nat} {r : Int} :
      Run sb dev dp s m → 0 ∉ name → 1 ≤ inum → inum ≤ 65535 →
      dirlink sb dev dp name inum s = .ok (r, s') →
      Run sb dev dp s' (if r = 0 then update m (name.take DIRSIZ) inum else m)
  | remove {s s' : St} {m : List UInt8 → Nat} {name : List UInt8} {r : Int} :
      Run sb dev dp s m → 0 ∉ name → removeEnt sb dev dp name s = .ok (r, s') →
      Run sb dev dp s' (update m (name.take DIRSIZ) 0)
  | log {s : St} {m : List UInt8 → Nat} (g : Log.LogSt) :
      Run sb dev dp s m → Run sb dev dp (s.setLog g) m

/-- `dirlink` as the map has it: it fails exactly for a name that is there, and then changes
nothing. It stops only for want of log or disk blocks, or past the largest size of a file. -/
def LinkRight (sb : Superblock) (dev : Devsw) (dp : Fin NINODE) (s : St) (m : List UInt8 → Nat)
    (name : List UInt8) (inum : Nat) : Prop :=
  Ends (dirlink sb dev dp name inum s)
    (fun e => m (name.take DIRSIZ) = 0 ∧ ((∃ p, e = .fs p ∧ Stops False False p) ∨
      e = .dirlink ∧ MAXFILE * BSIZE < (s.fs.icache dp).copy.size.toNat + Dirent.size))
    fun r => m (name.take DIRSIZ) = 0 ∧ r.1 = 0 ∨ m (name.take DIRSIZ) ≠ 0 ∧ r.1 = -1 ∧
      ∃ fs, r.2 = { s with fs } ∧ Unchanged s.fs fs

section Code

variable {sb : Superblock} {dev : Devsw} {dp ip : Fin NINODE} {data name : List UInt8} {s : St}
  {fs : FS} {k inum : Nat}

theorem inode_same {E : Stop → Prop} (ip : Fin NINODE) :
    Triple (· = s) (inode ip) E fun x s' => x = s.fs.icache ip ∧ s' = s := by
  rintro _ rfl
  exact ⟨rfl, rfl⟩

theorem Holds.unchanged (h : Holds sb dp data s) (hu : Unchanged s.fs fs) :
    Holds sb dp data { s with fs } := by
  obtain ⟨hdisk, -, href, hic⟩ := hu
  have hic' : ∀ jp, 0 < (fs.icache jp).ref → fs.icache jp = s.fs.icache jp :=
    fun jp hjp => hic jp (href jp ▸ hjp)
  have hdp := hic dp h.read.1
  refine ⟨⟨hdisk ▸ h.ok.wf, ?_, ?_, ?_⟩, ?_, h.locked, ?_, ?_, ?_⟩
  · intro jp hjp
    rw [hic' jp hjp]
    exact h.ok.cache.inum_lt jp (href jp ▸ hjp)
  · intro jp kp hjp hkp
    rw [hic' jp hjp, hic' kp hkp]
    exact h.ok.cache.inj jp kp (href jp ▸ hjp) (href kp ▸ hkp)
  · intro jp hjp
    rw [hic' jp hjp, hdisk]
    exact h.ok.cache.valid jp (href jp ▸ hjp)
  · rw [Locked, hdp]
    exact h.read
  · rw [hdp]
    exact h.dir
  · rw [hdp, hdisk]
    exact h.contents
  · exact h.room.imp fun jp hjp => (href jp).trans hjp

theorem iget_iput (sb : Superblock) (hroom : ∃ jp, (fs.icache jp).ref = 0) (inum : Nat) :
    ∃ ip fs' fs'', Fs.iget fs inum = .ok (ip, fs') ∧
      (∀ jp, 0 < (fs.icache jp).ref → (fs.icache jp).inum = inum → 0 < (fs.icache ip).ref) ∧
      Fs.iput sb fs' ip = .ok fs'' ∧ Unchanged fs fs'' := by
  rw [Fs.iget]
  cases hfound : (List.finRange NINODE).find? fun ip =>
      0 < (fs.icache ip).ref ∧ (fs.icache ip).inum = inum with
  | some ip =>
    have hip := List.find?_some hfound
    simp only [decide_eq_true_eq] at hip
    refine ⟨ip, _, fs, rfl, fun _ _ _ => hip.1, ?_, rfl, rfl, fun _ => rfl, fun _ _ => rfl⟩
    have hne : (fs.icache ip).ref ≠ 0 := hip.1.ne'
    rw [Fs.iput, if_neg (by simp [FS.setInode, hne])]
    exact congrArg Except.ok (by simp [FS.setInode])
  | none =>
    have hnone : ∀ jp, 0 < (fs.icache jp).ref → (fs.icache jp).inum ≠ inum := by
      simpa using hfound
    cases hfree : (List.finRange NINODE).find? fun ip => (fs.icache ip).ref = 0 with
    | none =>
      obtain ⟨jp, hjp⟩ := hroom
      exact absurd hjp (by simpa using List.find?_eq_none.mp hfree jp (List.mem_finRange jp))
    | some ip =>
      have hip := List.find?_some hfree
      simp only [decide_eq_true_eq] at hip
      refine ⟨ip, _, fs.setInode ip { fs.icache ip with inum, ref := 0, valid := false }, rfl,
        fun jp hjp he => absurd he (hnone jp hjp), ?_, rfl, rfl, fun jp => ?_, fun jp hjp => ?_⟩
      · rw [Fs.iput, if_neg (by simp [FS.setInode])]
        exact congrArg Except.ok (by simp [FS.setInode])
      · simp only [FS.setInode]
        exact update_cases jp hip.symm fun _ _ => rfl
      · have hj : jp ≠ ip := by
          rintro rfl
          omega
        simp [FS.setInode, hj]

theorem iput_same {E : Stop → Prop} (hl : s.locked ip = false) (h : Fs.iput sb s.fs ip = .ok fs) :
    Triple (· = s) (iput sb ip) E fun _ s' => s' = { s with fs } := by
  rintro _ rfl
  rename_i s
  have hacq : acquiresleep ip s = .ok ((), { s with locked := update s.locked ip true }) := by
    show (if s.locked ip then throw .hang else set _ : M Unit) s = _
    rw [hl]
    rfl
  have hput : doFs (Fs.iput sb · ip) { s with locked := update s.locked ip true } =
      .ok ((), { s with fs, locked := update s.locked ip true }) := by
    simp only [doFs, h]
  show Ends (acquiresleep ip s >>= fun r => doFs (Fs.iput sb · ip) r.2 >>= fun r =>
    releasesleep ip r.2) _ _
  rw [hacq]
  show Ends (doFs (Fs.iput sb · ip) _ >>= fun r => releasesleep ip r.2) _ _
  rw [hput]
  show ({ s with fs, locked := update (update s.locked ip true) ip false } : St) = _
  rw [update_idem, ← hl, update_eq_self]

theorem Holds.notDev (h : Holds sb dp data s) : (s.fs.icache dp).copy.type ≠ T_DEV := by
  rw [h.dir]
  decide

theorem Holds.size (h : Holds sb dp data s) : (s.fs.icache dp).copy.size.toNat = data.length := by
  rw [← (h.ok.cache.valid dp h.read.1 h.read.2).1, ← contents_length, h.contents]

theorem Holds.dirlookup (h : Holds sb dp data s) (hw : Whole data) (name : List UInt8) :
    Triple (· = s) (dirlookup sb dev dp name) (fun _ => False) fun r s' =>
      match lookup data name with
      | none => r = none ∧ s' = s
      | some k => ∃ ip fs, Fs.iget s.fs (entAt data k).inum.toNat = .ok (ip, fs) ∧
          r = some (ip, Dirent.size * k) ∧ s' = { s with fs } := by
  refine .bind (inode_same dp) fun x => .of_imp fun hx => ?_
  subst hx
  rw [h.size]
  refine .ite (fun hne => absurd h.dir hne) fun _ => ?_
  refine .bind ((scan_same h.ok h.read h.notDev h.contents 0).stops fun _ he => he.2 hw)
    fun r => .of_imp fun hr => ?_
  rw [Scanned, show findEnt data (Dirent.hasName name) 0 = lookup data name from rfl] at hr
  cases hk : lookup data name with
  | none =>
    rw [hk] at hr
    obtain ⟨off, de⟩ := r
    obtain ⟨rfl, -⟩ := hr
    exact .pure fun s hs => ⟨rfl, hs⟩
  | some k =>
    rw [hk] at hr
    subst hr
    obtain ⟨ip, fs, -, hget, -⟩ := iget_iput sb h.room (entAt data k).inum.toNat
    refine .bind (Q := fun r s' => r = ip ∧ s' = { s with fs }) ?_ fun r => .of_imp fun hr => ?_
    · rintro _ rfl
      simp only [iget, onFs, hget]
      exact ⟨rfl, rfl⟩
    · subst hr
      exact .pure fun s hs => ⟨r, fs, hget, rfl, hs⟩

theorem Holds.iput (h : Holds sb dp data s) (hget : Fs.iget s.fs inum = .ok (ip, fs)) :
    Triple (· = { s with fs }) (iput sb ip) (fun e => e = .hang ∧ inum = (s.fs.icache dp).inum)
      fun _ s' => inum ≠ (s.fs.icache dp).inum ∧ ∃ fs, s' = { s with fs } ∧ Unchanged s.fs fs := by
  obtain ⟨ip', fs', fs'', hget', hcached, hput, hu⟩ := iget_iput sb h.room inum
  rw [hget] at hget'
  cases hget'
  obtain ⟨-, hnum, hframe⟩ := (iget_frame s.fs inum).of_ok hget
  have hown : ip = dp ↔ inum = (s.fs.icache dp).inum := by
    constructor
    · rintro rfl
      exact hnum.symm.trans (hframe ip h.read.1).1
    · intro he
      have hpos := hcached dp h.read.1 he.symm
      exact h.ok.cache.inj ip dp hpos h.read.1 ((hframe ip hpos).1.symm.trans (hnum.trans he))
  by_cases hip : ip = dp
  · rintro _ rfl
    have hl : s.locked ip = true := by rw [h.locked, hip, decide_eq_true rfl]
    show Ends ((if s.locked ip then throw .hang else set _ : M Unit) _ >>= _) _ _
    rw [if_pos hl]
    exact ⟨rfl, hown.mp hip⟩
  · have hl : s.locked ip = false := by rw [h.locked, decide_eq_false hip]
    refine (iput_same (s := { s with fs }) hl hput).post ?_
    rintro _ _ rfl
    exact ⟨fun he => hip (hown.mpr he), fs'', rfl, hu⟩

theorem Holds.dirlink_old (h : Holds sb dp data s) (hw : Whole data)
    (hk : lookup data name = some k) : Triple (· = s) (dirlink sb dev dp name inum)
      (fun e => e = .hang ∧ (entAt data k).inum.toNat = (s.fs.icache dp).inum)
      fun r s' => (entAt data k).inum.toNat ≠ (s.fs.icache dp).inum ∧ r = -1 ∧
        ∃ fs, s' = { s with fs } ∧ Unchanged s.fs fs := by
  refine .bind ((h.dirlookup hw name).stops fun _ => False.elim) fun r => ?_
  rw [hk]
  refine .of_forall fun ip => .of_forall fun fs => .of_imp fun hget => .of_imp fun hr => ?_
  subst hr
  exact .bind (h.iput hget) fun _ => .pure fun s hs => ⟨hs.1, rfl, hs.2⟩

theorem Holds.write (h : Holds sb dp data s) (hk : Dirent.size * k ≤ data.length) (de : Dirent) :
    Triple (· = s)
      (onFs (writei sb dev · dp de.byte (.ofNat (Dirent.size * k)) (.ofNat Dirent.size)))
      (fun e => ∃ p, e = .fs p ∧ Stops False False p) fun n s' =>
      (Dirent.size * k + Dirent.size ≤ MAXFILE * BSIZE → n = Dirent.size) ∧
        (n = Dirent.size → Holds sb dp (putEnt data k de) s') := by
  rintro _ rfl
  rename_i s
  have hput := @writei_put sb dev dp s.fs h.ok h.read h.notDev _ h.contents k hk de
  simp only [onFs]
  cases hr : writei sb dev s.fs dp de.byte (.ofNat (Dirent.size * k)) (.ofNat Dirent.size) with
  | error p =>
    rw [hr] at hput
    exact ⟨p, rfl, hput⟩
  | ok r =>
    obtain ⟨hkeeps, hfit, hok⟩ := hput.of_ok hr
    refine ⟨hfit, fun hn => ?_⟩
    obtain ⟨hfs, htree⟩ := hok hn
    have hread : Locked r.2 dp := by
      rw [Locked, hkeeps.ref, hkeeps.valid]
      exact h.read
    obtain ⟨-, hnode⟩ := Vol.tree_eq_some.mp ((congrFun htree _).trans (update_self _ _ _))
    refine ⟨hfs, hread, h.locked, ?_, ?_, h.room.imp fun jp hjp => (hkeeps.ref jp).trans hjp⟩
    · rw [← (hfs.cache.valid dp hread.1 hread.2).1, hkeeps.inum]
      exact (congrArg Node.type hnode).trans
        ((congrArg Dinode.type (h.ok.cache.valid dp h.read.1 h.read.2).1).trans h.dir)
    · rw [hkeeps.inum]
      exact congrArg Node.data hnode

theorem Holds.dirlink_new (h : Holds sb dp data s) (hw : Whole data)
    (hk : lookup data name = none) : Triple (· = s) (dirlink sb dev dp name inum)
      (fun e => (∃ p, e = .fs p ∧ Stops False False p) ∨
        e = .dirlink ∧ MAXFILE * BSIZE < (s.fs.icache dp).copy.size.toNat + Dirent.size)
      fun r s' => r = 0 ∧ Holds sb dp (linked data name inum) s' := by
  refine .bind ((h.dirlookup hw name).stops fun _ => False.elim) fun r => ?_
  rw [hk]
  refine .of_imp fun hr => ?_
  subst hr
  refine .bind (inode_same dp) fun x => .of_imp fun hx => ?_
  subst hx
  rw [h.size]
  refine .bind ((scan_same h.ok h.read h.notDev h.contents 0).stops fun _ he => absurd hw he.2)
    fun r => .of_imp fun hr => ?_
  obtain ⟨off, de⟩ := r
  obtain rfl := hr.freeSlot
  have hle := Nat.mul_le_mul_left Dirent.size (freeSlot_le data)
  rw [← hw] at hle
  refine .bind ((h.write hle (.make name inum)).stops fun _ => .inl) fun n => ?_
  refine .ite (fun hn => .throw fun s' hs => .inr ⟨rfl, ?_⟩) fun hn =>
    .pure fun s' hs => ⟨rfl, hs.2 (not_not.mp hn)⟩
  have := mt hs.1 hn
  omega

variable {m : List UInt8 → Nat}

theorem Maps.link (h : Maps sb dp s m) (h0 : 0 ∉ name) (hlo : 1 ≤ inum) (hhi : inum ≤ 65535) :
    Triple (· = s) (dirlink sb dev dp name inum) (fun _ => True) fun r s' =>
      Maps sb dp s' (if r = 0 then update m (name.take DIRSIZ) inum else m) := by
  obtain ⟨data, h, hw, hd, rfl⟩ := h
  cases hk : lookup data name with
  | none =>
    refine (h.dirlink_new hw hk).mono (fun _ => id) (fun _ _ => True.intro) ?_
    rintro _ s' ⟨rfl, hs⟩
    obtain ⟨hd', hnames⟩ := names_linked hw hd h0 hlo hhi hk
    exact ⟨_, hs, whole_putEnt hw (freeSlot_le data), hd', hnames⟩
  | some k =>
    refine (h.dirlink_old hw hk).mono (fun _ => id) (fun _ _ => True.intro) ?_
    rintro _ _ ⟨-, rfl, fs, rfl, hu⟩
    exact ⟨data, h.unchanged hu, hw, hd, rfl⟩

theorem Maps.remove (h : Maps sb dp s m) (h0 : 0 ∉ name) :
    Triple (· = s) (removeEnt sb dev dp name) (fun _ => True) fun _ s' =>
      Maps sb dp s' (update m (name.take DIRSIZ) 0) := by
  obtain ⟨data, h, hw, hd, rfl⟩ := h
  refine .bind ((h.dirlookup hw name).stops fun _ => False.elim) fun r => ?_
  cases hk : lookup data name with
  | none =>
    refine .of_imp fun hr => ?_
    subst hr
    refine .pure fun s' hs => ⟨data, hs ▸ h, hw, hd, ?_⟩
    rw [← (names_eq_zero_iff h0).mpr hk, update_eq_self]
  | some k =>
    refine .of_forall fun ip => .of_forall fun fs => .of_imp fun hget => .of_imp fun hr => ?_
    subst hr
    refine .bind ((h.iput hget).stops fun _ _ => True.intro) fun _ => .of_imp fun _ => ?_
    refine .of_forall fun fs' => .of_imp_right fun hu => ?_
    have hlt := (lookup_entry h0 hk).1
    have hle : Dirent.size * k ≤ data.length := by
      rw [hw]
      exact Nat.mul_le_mul_left _ hlt.le
    refine .bind (((h.unchanged hu).write hle .zero).stops fun _ _ => True.intro) fun n => ?_
    refine .ite (fun _ => .throw fun _ _ => True.intro) fun hn => .pure fun s' hs => ?_
    obtain ⟨hd', hnames⟩ := names_removed hw hd h0 hk
    exact ⟨_, hs.2 (not_not.mp hn), whole_putEnt hw hlt.le, hd', hnames⟩

theorem Run.maps (h : Run sb dev dp s m) : Maps sb dp s m := by
  induction h with
  | start h => exact h
  | link _ h0 hlo hhi hr ih => exact (ih.link h0 hlo hhi _ rfl).of_ok hr
  | remove _ h0 hr ih => exact (ih.remove h0 _ rfl).of_ok hr
  | log g _ ih =>
    obtain ⟨data, h, hd⟩ := ih
    exact ⟨data, ⟨⟨h.ok.wf, h.ok.cache.inum_lt, h.ok.cache.inj, h.ok.cache.valid⟩, h.read,
      h.locked, h.dir, h.contents, h.room⟩, hd⟩

/-- A directory is a map on names cut to `DIRSIZ` bytes. `dirlink` uses it as one exactly when the
name is not that of an entry for the directory itself. -/
theorem directory_map_iff (hrun : Run sb dev dp s m) : Maps sb dp s m ∧ ∀ name, 0 ∉ name →
    Ends (dirlookup sb dev dp name s) (fun _ => False) (fun r =>
      (r.1.elim 0 fun q => (r.2.fs.icache q.1).inum) = m (name.take DIRSIZ)) ∧
    ∀ inum, LinkRight sb dev dp s m name inum ↔
      (m (name.take DIRSIZ) = (s.fs.icache dp).inum → m (name.take DIRSIZ) = 0) := by
  refine ⟨hrun.maps, fun name h0 => ?_⟩
  obtain ⟨data, h, hw, hd, rfl⟩ := hrun.maps
  have hlook : Ends (dirlookup sb dev dp name s) _ _ := h.dirlookup hw name s rfl
  cases hk : lookup data name with
  | none =>
    have hz := (names_eq_zero_iff h0).mpr hk
    rw [hk] at hlook
    refine ⟨hlook.imp ?_, fun inum => iff_of_true ?_ fun _ => hz⟩
    · rintro ⟨_, _⟩ ⟨rfl, -⟩
      exact hz.symm
    · exact (h.dirlink_new hw hk s rfl).mono (fun _ he => ⟨hz, he⟩) fun _ hr => .inl ⟨hz, hr.1⟩
  | some k =>
    have hne : names data (name.take DIRSIZ) ≠ 0 := by
      rw [ne_eq, names_eq_zero_iff h0, hk]
      exact Option.some_ne_none k
    have hnum : names data (name.take DIRSIZ) = (entAt data k).inum.toNat := by
      rw [lookup_names h0, hk]
      rfl
    rw [hk] at hlook
    refine ⟨hlook.imp ?_, fun inum => ?_⟩
    · rintro ⟨_, _⟩ ⟨ip, fs, hget, rfl, rfl⟩
      exact ((iget_frame s.fs _).of_ok hget).2.1.trans hnum.symm
    · have hold : Ends (dirlink sb dev dp name inum s) _ _ := h.dirlink_old hw hk s rfl
      rw [← hnum] at hold
      constructor
      · intro hright hown
        rw [LinkRight] at hright
        cases hr : dirlink sb dev dp name inum s with
        | error e =>
          rw [hr] at hright
          exact hright.1
        | ok r =>
          rw [hr] at hold
          exact absurd hown hold.1
      · intro hown
        exact hold.mono (fun _ he => absurd (hown he.2) hne) fun _ hr => .inr ⟨hne, hr.2⟩

end Code

namespace Crowded

/-- The root directory is locked. -/
def held : St := { state with locked := fun ip => ip.val = 0 }

def data : List UInt8 := (volOf sb disk).contents 1

theorem holds : Holds sb 0 data held where
  ok := fsOk
  read := ⟨by decide, rfl⟩
  locked jp := decide_eq_decide.mpr Fin.val_eq_zero_iff
  dir := rfl
  contents := rfl
  room := ⟨1, rfl⟩

theorem nents_data : nents data = 3 := by
  rw [nents, data, contents_length, dino_one]
  rfl

theorem whole : Whole data := by
  rw [Whole, nents_data, data, contents_length, dino_one]
  rfl

theorem maps : Maps sb 0 held (names data) := by
  refine ⟨data, holds, whole, fun x j k hj hk => ?_, rfl⟩
  have hall : ∀ j k : Fin 3, (entAt data j).inum ≠ 0 → (entAt data k).inum ≠ 0 →
      (entAt data j).key = (entAt data k).key → j = k := by decide +kernel
  exact Fin.mk.inj (hall ⟨j, nents_data ▸ hj.1⟩ ⟨k, nents_data ▸ hk.1⟩ hj.2.1 hk.2.1
    (hj.2.2.trans hk.2.2.symm))

end Crowded

/-- The root directory inside a transaction. -/
def Crowded.busy : St := held.setLog ⟨LOGSIZE, 1, false, .empty⟩

/-- After a `dirlink` of `a` the map has `a`, and linking it again fails. -/
theorem directory_map_iff_again : ∃ s m, Run Crowded.sb Fs.Sample.dev 0 s m ∧
    dirlink Crowded.sb Fs.Sample.dev 0 [97] 2 Crowded.busy = .ok (0, s) ∧ m [97] = 2 ∧
    LinkRight Crowded.sb Fs.Sample.dev 0 s m [97] 3 := by
  have hok : ((dirlink Crowded.sb Fs.Sample.dev 0 [97] 2 Crowded.busy).toOption.any fun r =>
      r.1 = 0 ∧ (r.2.fs.icache 0).inum = 1) = true := by
    decide +kernel
  obtain ⟨⟨r, s⟩, hr, h0⟩ := (Option.any_eq_true _ _).mp hok
  obtain ⟨hz, hroot⟩ := of_decide_eq_true h0
  obtain rfl : r = 0 := hz
  cases hrun : dirlink Crowded.sb Fs.Sample.dev 0 [97] 2 Crowded.busy with
  | error e =>
    rw [hrun] at hr
    cases hr
  | ok r =>
    rw [hrun] at hr
    cases hr
    have hlink := Run.link (.log _ (.start Crowded.maps)) (by decide) (by decide) (by decide) hrun
    refine ⟨s, _, hlink, rfl, rfl, ?_⟩
    refine (((directory_map_iff hlink).2 [97] (by decide)).2 3).mpr fun h => ?_
    cases h.trans hroot

theorem dirlink_waits_for_itself :
    Run Crowded.sb Fs.Sample.dev 0 Crowded.held (names Crowded.data) ∧
    Ends (dirlink Crowded.sb Fs.Sample.dev 0 dot 2 Crowded.held) (· = .hang) (fun _ => False) ∧
    ¬ LinkRight Crowded.sb Fs.Sample.dev 0 Crowded.held (names Crowded.data) dot 2 := by
  have hk : lookup Crowded.data dot = some 0 := by decide +kernel
  have hown : (entAt Crowded.data 0).inum.toNat = (Crowded.held.fs.icache 0).inum := by
    decide +kernel
  have hold : Ends (dirlink Crowded.sb Fs.Sample.dev 0 dot 2 Crowded.held) (· = .hang)
      (fun _ => False) :=
    (Crowded.holds.dirlink_old Crowded.whole hk _ rfl).mono (fun _ he => he.1) fun _ hr =>
      hr.1 hown
  refine ⟨.start Crowded.maps, hold, fun h => ?_⟩
  rw [LinkRight] at h
  cases hr : dirlink Crowded.sb Fs.Sample.dev 0 dot 2 Crowded.held with
  | error e =>
    rw [hr] at hold h
    obtain rfl : e = .hang := hold
    obtain ⟨-, ⟨p, hp, -⟩ | ⟨hp, -⟩⟩ := h
    · cases hp
    · cases hp
  | ok r =>
    rw [hr] at hold
    exact hold

end Xv6.Sys
