import Xv6.Kernel.Table
import Xv6.Lib.Run

/-!
# Xv6.Kernel.LevelChange

`level_change` and the processes in the table.

`level_change` means to move a process to the first free slot after it, shifting the ones between
by one place. `Preserves` says what that should keep: the records of the live processes up to the
new level, one slot for each pid, and every process's parent. The loop keeps none of it where it
does anything: the process before the free slot stays where it was as well, and so does the target
when the next slot is free. `Harmless` is the exact condition.
-/

namespace Xv6.Kernel

open Function List Multiset

variable {p s : Slot}

/-- `copy_proc(src, dest)`. The first assignment is `dest->sz = dest->sz`. -/
def copyProc (src dest : Proc) : Proc := { src with sz := dest.sz }

/-- The first loop of `level_change`, which does not stop at the first match: the last slot with
`pid`. -/
def lastWithPid (t : PTable) (pid : Int) : Option Slot :=
  slots.foldl (fun acc p => if (t p).pid = pid then some p else acc) none

def prevSlot (p : Slot) : Slot := ⟨p.val - 1, by omega⟩

/-- The second loop, over the slots from `p` on. -/
def shiftDown (temp : Proc) : List Slot → PTable → PTable
  | [], t => t
  | p :: ps, t =>
    if (t p).state = .unused then update t p (copyProc temp (t p))
    else shiftDown temp ps (update t (prevSlot p) (copyProc (t p) (t (prevSlot p))))

/-- `level_change(pid, level)`; `temp` is its local variable before the copy. -/
def levelChange (temp : Proc) (t : PTable) (pid level : Int) : Int × PTable :=
  match lastWithPid t pid with
  | none => (0, t)
  | some needed =>
    if level ≤ 0 ∧ 4 ≤ level then (0, t)
    else
      let t := update t needed { t needed with level }
      let temp := copyProc (t needed) temp
      (1, shiftDown temp (slots.drop (needed.val + 1)) t)

/-- The records of the live processes, apart from their parents. -/
def records (t : PTable) : Multiset Proc :=
  ((Finset.univ.filter t.Live).val).map fun s => { t s with parent := none }

/-- The record after the level of process `pid` is set. -/
def relevel (pid level : Int) (r : Proc) : Proc := if r.pid = pid then { r with level } else r

def parentPid (t : PTable) (s : Slot) : Option Int := (t s).parent.map fun q => (t q).pid

def DistinctPids (t : PTable) : Prop :=
  ∀ s s', t.Live s → t.Live s' → (t s).pid = (t s').pid → s = s'

structure Preserves (t t' : PTable) (pid level : Int) : Prop where
  records : records t' = (records t).map (relevel pid level)
  once : ∀ s, t.Live s → ∃! s', t'.Live s' ∧ (t' s').pid = (t s).pid
  parent : ∀ s s', t.Live s → t'.Live s' → (t' s').pid = (t s).pid →
    parentPid t' s' = parentPid t s

theorem foldl_last {f : Slot → Prop} [DecidablePred f] :
    ∀ (l : List Slot) (acc : Option Slot), l.Pairwise (· < ·) →
      (l.foldl (fun acc p => if f p then some p else acc) acc = some s ↔
        (s ∈ l ∧ f s ∧ ∀ p ∈ l, s < p → ¬ f p) ∨ (acc = some s ∧ ∀ p ∈ l, ¬ f p)) := by
  intro l
  induction l with
  | nil => intro acc _; simp
  | cons a l ih =>
    intro acc hl
    obtain ⟨ha, hl⟩ := pairwise_cons.mp hl
    rw [List.foldl_cons, ih _ hl]
    have hlt : ∀ p ∈ l, ¬ p < a := fun p hp => not_lt_of_gt (ha p hp)
    by_cases hf : f a
    · simp only [hf, if_true, Option.some.injEq, List.mem_cons, forall_eq_or_imp]
      constructor
      · intro h
        cases h with
        | inl h => exact .inl ⟨.inr h.1, h.2.1, fun hsa => absurd hsa (hlt s h.1), h.2.2⟩
        | inr h =>
          obtain ⟨rfl, hno⟩ := h
          exact .inl ⟨.inl rfl, hf, fun hlt' => absurd hlt' (lt_irrefl _), fun p hp _ => hno p hp⟩
      · intro h
        cases h with
        | inl h =>
          obtain ⟨hs, hfs, -, hno⟩ := h
          cases hs with
          | inl hs => subst hs; exact .inr ⟨rfl, fun p hp => hno p hp (ha p hp)⟩
          | inr hs => exact .inl ⟨hs, hfs, hno⟩
        | inr h => exact absurd trivial h.2.1
    · simp only [hf, if_false, List.mem_cons, forall_eq_or_imp, not_false_eq_true, true_and,
        implies_true]
      constructor
      · intro h
        cases h with
        | inl h => exact .inl ⟨.inr h.1, h.2.1, h.2.2⟩
        | inr h => exact .inr h
      · intro h
        cases h with
        | inl h =>
          obtain ⟨hs, hfs, hno⟩ := h
          cases hs with
          | inl hs => subst hs; exact absurd hfs hf
          | inr hs => exact .inl ⟨hs, hfs, hno⟩
        | inr h => exact .inr h

theorem lastWithPid_eq_some {t : PTable} {pid : Int} :
    lastWithPid t pid = some s ↔ (t s).pid = pid ∧ ∀ p, s < p → (t p).pid ≠ pid := by
  rw [lastWithPid, foldl_last slots none (pairwise_lt_finRange NPROC)]
  simp [mem_slots]

theorem lastWithPid_isSome {t : PTable} {pid : Int} (h : (t s).pid = pid) :
    ∃ p, lastWithPid t pid = some p ∧ s ≤ p := by
  have hne : (Finset.univ.filter fun p => (t p).pid = pid).Nonempty := ⟨s, by simp [h]⟩
  obtain ⟨p, hp, hmax⟩ := Finset.exists_max_image _ id hne
  simp only [Finset.mem_filter, Finset.mem_univ, true_and, id] at hp hmax
  exact ⟨p, lastWithPid_eq_some.mpr ⟨hp, fun q hq heq => absurd (hmax q heq) (not_le_of_gt hq)⟩,
    hmax s h⟩

theorem prevSlot_lt (h : 0 < p.val) : prevSlot p < p := by
  show p.val - 1 < p.val
  omega

/-- Process `q` of `t` is in its slot and in the one before it afterwards. -/
def Doubled (t t' : PTable) (q : Slot) : Prop :=
  t.Live q ∧ prevSlot q ≠ q ∧ t'.Live q ∧ t'.Live (prevSlot q) ∧
    (t' q).pid = (t q).pid ∧ (t' (prevSlot q)).pid = (t q).pid

theorem doubled_of_shift {t t' : PTable} (hpos : 0 < p.val) (hp : t.Live p)
    (h1 : t' p = t p) (h2 : t' (prevSlot p) = copyProc (t p) (t (prevSlot p))) :
    Doubled t t' p := by
  refine ⟨hp, ne_of_lt (prevSlot_lt hpos), ?_, ?_, by rw [h1], by rw [h2]; rfl⟩
  · rw [PTable.Live, h1]; exact hp
  · rw [PTable.Live, h2]; exact hp

theorem shiftDown_doubles (temp : Proc) : ∀ (ps : List Slot) (p : Slot) (t : PTable),
    (p :: ps).Pairwise (· < ·) → 0 < p.val → t.Live p →
      ∃ q, p ≤ q ∧ Doubled t (shiftDown temp (p :: ps) t) q := by
  intro ps
  induction ps with
  | nil =>
    intro p t _ hpos hp
    have hres : shiftDown temp [p] t =
        update t (prevSlot p) (copyProc (t p) (t (prevSlot p))) := by
      rw [shiftDown, if_neg hp, shiftDown]
    rw [hres]
    exact ⟨p, le_refl p, doubled_of_shift hpos hp
      (update_of_ne (ne_of_gt (prevSlot_lt hpos)) _ _) (update_self _ _ _)⟩
  | cons q ps ih =>
    intro p t hsorted hpos hp
    obtain ⟨hfirst, hsorted'⟩ := pairwise_cons.mp hsorted
    have hpq : p < q := hfirst q List.mem_cons_self
    generalize ht1 : update t (prevSlot p) (copyProc (t p) (t (prevSlot p))) = t1
    have hstep : shiftDown temp (p :: q :: ps) t = shiftDown temp (q :: ps) t1 := by
      rw [shiftDown, if_neg hp, ht1]
    have hsame : ∀ r, p ≤ r → t1 r = t r := by
      intro r hr
      rw [← ht1]
      exact update_of_ne (ne_of_gt ((prevSlot_lt hpos).trans_le hr)) _ _
    have hprev : t1 (prevSlot p) = copyProc (t p) (t (prevSlot p)) := by
      rw [← ht1, update_self]
    rw [hstep]
    by_cases hq : t.Live q
    · have hq1 : PTable.Live t1 q := by
        rw [PTable.Live, hsame q (le_of_lt hpq)]
        exact hq
      obtain ⟨r, hqr, hr⟩ := ih q t1 hsorted' (hpos.trans hpq) hq1
      have hpr : p ≤ r := (le_of_lt hpq).trans hqr
      rw [Doubled, PTable.Live, hsame r hpr] at hr
      exact ⟨r, hpr, hr⟩
    · -- the loop ends at the free slot `q`
      have hq1 : (t1 q).state = .unused := by
        rw [hsame q (le_of_lt hpq)]
        exact not_not.mp hq
      have hres : shiftDown temp (q :: ps) t1 = update t1 q (copyProc temp (t1 q)) := by
        rw [shiftDown, if_pos hq1]
      rw [hres]
      refine ⟨p, le_refl p, doubled_of_shift hpos hp ?_ ?_⟩
      · rw [update_of_ne (ne_of_lt hpq), hsame p (le_refl p)]
      · rw [update_of_ne (ne_of_lt ((prevSlot_lt hpos).trans hpq)), hprev]

theorem drop_slots {n : Nat} (h : n < NPROC) : slots.drop n = ⟨n, h⟩ :: slots.drop (n + 1) := by
  have hlen : n < slots.length := by simpa [slots] using h
  rw [drop_eq_getElem_cons hlen]
  congr 1
  simp [slots]

theorem drop_slots_last : slots.drop NPROC = [] := by
  simp [slots]

section Cases

variable {temp : Proc} {t : PTable} {pid level : Int} {n : Slot}

theorem levelChange_found (h : lastWithPid t pid = some n) : (levelChange temp t pid level).2 =
      shiftDown (copyProc { t n with level } temp) (slots.drop (n.val + 1))
        (update t n { t n with level }) := by
  have hguard : ¬ (level ≤ 0 ∧ 4 ≤ level) := by omega
  simp only [levelChange, h, hguard, if_false, update_self]

theorem levelChange_last (h : lastWithPid t pid = some n) (hn : n.val + 1 = NPROC) :
    (levelChange temp t pid level).2 = update t n { t n with level } := by
  rw [levelChange_found h, hn, drop_slots_last, shiftDown]

variable (temp level) in
theorem levelChange_next (h : lastWithPid t pid = some n) (hp : p.val = n.val + 1)
    (hfree : ¬ t.Live p) : (levelChange temp t pid level).2 =
      update (update t n { t n with level }) p { t n with level, sz := (t p).sz } := by
  have hpn : p ≠ n := by
    rintro rfl
    omega
  have hdrop : slots.drop (n.val + 1) = p :: slots.drop (p.val + 1) := by
    rw [← hp]
    exact drop_slots p.isLt
  have hstate : (update t n { t n with level } p).state = .unused := by
    rw [update_of_ne hpn]
    exact not_not.mp hfree
  rw [levelChange_found h, hdrop, shiftDown, if_pos hstate, update_of_ne hpn]
  rfl

variable (temp level) in
theorem levelChange_doubles (h : lastWithPid t pid = some n) (hp : p.val = n.val + 1)
    (hlive : t.Live p) : ∃ q, Doubled t (levelChange temp t pid level).2 q := by
  have hdrop : slots.drop (n.val + 1) = p :: slots.drop (p.val + 1) := by
    rw [← hp]
    exact drop_slots p.isLt
  have hsame : ∀ r, p ≤ r → update t n { t n with level } r = t r := by
    intro r hr
    refine update_of_ne ?_ _ _
    rintro rfl
    have : p.val ≤ r.val := hr
    omega
  have hsorted : (p :: slots.drop (p.val + 1)).Pairwise (· < ·) := by
    rw [← hdrop]
    exact (pairwise_lt_finRange NPROC).drop
  have hlive1 : PTable.Live (update t n { t n with level }) p := by
    rw [PTable.Live, hsame p (le_refl p)]
    exact hlive
  obtain ⟨q, hpq, hq⟩ := shiftDown_doubles (copyProc { t n with level } temp) _ p _ hsorted
    (by omega) hlive1
  rw [Doubled, PTable.Live, hsame q hpq, ← hdrop, ← levelChange_found h] at hq
  exact ⟨q, hq⟩

end Cases

theorem Doubled.not_preserves {t t' : PTable} {pid level : Int} {q : Slot} (h : Doubled t t' q) :
    ¬ Preserves t t' pid level := by
  obtain ⟨hq, hne, h1, h2, h3, h4⟩ := h
  intro hp
  obtain ⟨r, -, huniq⟩ := hp.once q hq
  exact hne ((huniq _ ⟨h2, h4⟩).trans (huniq _ ⟨h1, h3⟩).symm)

section Preserve

variable {t t' : PTable} {pid level : Int}

theorem relevel_pid (r : Proc) : (relevel pid level r).pid = r.pid := by
  rw [relevel]
  split <;> rfl

theorem preserves_of_slots (hd : DistinctPids t) (hlive : ∀ s, t'.Live s ↔ t.Live s)
    (hrec : ∀ s, t.Live s → t' s = relevel pid level (t s))
    (hparent : ∀ s, t.Live s → parentPid t' s = parentPid t s) : Preserves t t' pid level := by
  have hpid : ∀ s, t.Live s → (t' s).pid = (t s).pid := by
    intro s hs
    rw [hrec s hs, relevel_pid]
  refine ⟨?_, ?_, ?_⟩
  · have hfilter : Finset.univ.filter t'.Live = Finset.univ.filter t.Live := by
      ext s
      simp [hlive]
    rw [records, records, hfilter, Multiset.map_map]
    refine map_congr rfl ?_
    intro s hs
    have hs' : t.Live s := by simpa using hs
    rw [hrec s hs']
    simp only [Function.comp_apply, relevel]
    split <;> rfl
  · intro s hs
    refine ⟨s, ⟨(hlive s).mpr hs, hpid s hs⟩, ?_⟩
    intro s' h
    have hs' := (hlive s').mp h.1
    exact hd s' s hs' hs ((hpid s' hs').symm.trans h.2)
  · intro s s' hs hs' heq
    have hs'' := (hlive s').mp hs'
    obtain rfl : s' = s := hd s' s hs'' hs ((hpid s' hs'').symm.trans heq)
    exact hparent s' hs

theorem Preserves.level_eq (h : Preserves t t' pid level) (hd : DistinctPids t)
    (hlive : ∀ s, t'.Live s → t.Live s ∧ t' s = t s) {g : Slot} (hg : t.Live g)
    (hpid : (t g).pid = pid) : (t g).level = level := by
  have hmem : relevel pid level { t g with parent := none } ∈ Kernel.records t' := by
    rw [h.records]
    refine Multiset.mem_map_of_mem _ ?_
    exact Multiset.mem_map_of_mem _ (by simpa using hg)
  obtain ⟨s, hs, heq⟩ := Multiset.mem_map.mp hmem
  obtain ⟨hs, hts⟩ := hlive s (by simpa using hs)
  rw [hts] at heq
  have hpid' : (t s).pid = (t g).pid := by
    have := congrArg Proc.pid heq
    rwa [relevel_pid] at this
  obtain rfl := hd s g hs hg hpid'
  have := congrArg Proc.level heq
  rwa [relevel, if_pos hpid] at this

def HasLevel (t : PTable) (pid level : Int) : Prop :=
  ∀ g, t.Live g → (t g).pid = pid → (t g).level = level

/-- The last slot with `pid` is the last of the table, and it is the live one or there is nothing to
change; or it is a free slot with a free slot after it that is no parent, and there is nothing to
change. -/
def Harmless (t : PTable) (pid level : Int) : Prop :=
  ∃ n, lastWithPid t pid = some n ∧
    (n.val + 1 = NPROC ∧ (t.Live n ∨ HasLevel t pid level) ∨
      ∃ p : Slot, p.val = n.val + 1 ∧ ¬ t.Live n ∧ ¬ t.Live p ∧ HasLevel t pid level ∧
        ∀ s, t.Live s → (t s).parent ≠ some p)

theorem relevel_self {r : Proc} (h : r.pid = pid → r.level = level) : relevel pid level r = r := by
  rw [relevel]
  split
  · rename_i hpid
    rw [← h hpid]
  · rfl

theorem live_set_level {n : Slot} (s : Slot) :
    PTable.Live (update t n { t n with level }) s ↔ t.Live s := by
  simp only [PTable.Live]
  exact update_cases s .rfl fun _ _ => .rfl

theorem preserves_set_level (hd : DistinctPids t) {n : Slot} (hn : t.Live n)
    (hpid : (t n).pid = pid) : Preserves t (update t n { t n with level }) pid level := by
  have hpids : ∀ s, (update t n { t n with level } s).pid = (t s).pid := fun s =>
    update_cases s rfl fun _ _ => rfl
  refine preserves_of_slots hd live_set_level ?_ ?_
  · refine fun s => update_cases s (fun _ => ?_) fun s hsn hs => ?_
    · rw [relevel, if_pos hpid]
    · rw [relevel, if_neg]
      intro hps
      exact hsn (hd s n hs hn (hps.trans hpid.symm))
  · intro s hs
    have : (update t n { t n with level } s).parent = (t s).parent :=
      update_cases s rfl fun _ _ => rfl
    simp only [parentPid, this, hpids]

theorem preserves_of_free (hd : DistinctPids t) (hlevel : HasLevel t pid level)
    (hlive : ∀ s, t'.Live s ↔ t.Live s) (hsame : ∀ s, t.Live s → t' s = t s)
    (hparent : ∀ s q, t.Live s → (t s).parent = some q → (t' q).pid = (t q).pid) :
    Preserves t t' pid level := by
  refine preserves_of_slots hd hlive ?_ ?_
  · intro s hs
    rw [hsame s hs, relevel_self (hlevel s hs)]
  · intro s hs
    rw [parentPid, parentPid, hsame s hs]
    cases hq : (t s).parent with
    | none => rfl
    | some q => rw [Option.map_some, Option.map_some, hparent s q hs hq]

theorem preserves_last_iff (hd : DistinctPids t) {n : Slot} (hpid : (t n).pid = pid) :
    Preserves t (update t n { t n with level }) pid level ↔
      t.Live n ∨ HasLevel t pid level := by
  have hlive : ∀ s, PTable.Live (update t n { t n with level }) s ↔ t.Live s := live_set_level
  by_cases hn : t.Live n
  · simp only [hn, true_or, iff_true]
    exact preserves_set_level hd hn hpid
  · have hsame : ∀ s, t.Live s → update t n { t n with level } s = t s := by
      intro s hs
      refine update_of_ne ?_ _ _
      rintro rfl
      exact hn hs
    simp only [hn, false_or]
    constructor
    · intro h g hg hgp
      exact h.level_eq hd (fun s hs => ⟨(hlive s).mp hs, hsame s ((hlive s).mp hs)⟩) hg hgp
    · intro h
      refine preserves_of_free hd h hlive hsame ?_
      exact fun s q _ _ => update_cases q rfl fun _ _ => rfl

theorem preserves_next_iff (hd : DistinctPids t) {n : Slot} (hpn : p ≠ n) (hpid : (t n).pid = pid)
    (hp : ¬ t.Live p) (hppid : (t p).pid ≠ pid) :
    Preserves t (update (update t n { t n with level }) p
        { t n with level, sz := (t p).sz }) pid level ↔
      ¬ t.Live n ∧ HasLevel t pid level ∧ ∀ s, t.Live s → (t s).parent ≠ some p := by
  generalize ht' : update (update t n { t n with level }) p
    { t n with level, sz := (t p).sz } = t'
  have hatp : t' p = { t n with level, sz := (t p).sz } := by rw [← ht', update_self]
  have hatn : t' n = { t n with level } := by
    rw [← ht', update_of_ne hpn.symm, update_self]
  have hother : ∀ s, s ≠ n → s ≠ p → t' s = t s := by
    intro s h1 h2
    rw [← ht', update_of_ne h2, update_of_ne h1]
  by_cases hn : t.Live n
  · -- the target is in both slots
    simp only [hn, not_true_eq_false, false_and, iff_false]
    intro h
    obtain ⟨r, -, huniq⟩ := h.once n hn
    have h1 := huniq n ⟨by rw [PTable.Live, hatn]; exact hn, by rw [hatn]⟩
    have h2 := huniq p ⟨by rw [PTable.Live, hatp]; exact hn, by rw [hatp]⟩
    exact hpn (h2.trans h1.symm)
  · have hne : ∀ s, t.Live s → s ≠ n ∧ s ≠ p := by
      intro s hs
      constructor
      · rintro rfl; exact hn hs
      · rintro rfl; exact hp hs
    have hlive : ∀ s, PTable.Live t' s ↔ t.Live s := by
      intro s
      by_cases hsp : s = p
      · subst hsp
        refine iff_of_false ?_ hp
        rw [PTable.Live, hatp]
        exact hn
      · by_cases hsn : s = n
        · subst hsn; rw [PTable.Live, hatn, PTable.Live]
        · rw [PTable.Live, hother s hsn hsp, PTable.Live]
    have hsame : ∀ s, t.Live s → t' s = t s := fun s hs => hother s (hne s hs).1 (hne s hs).2
    simp only [hn, not_false_eq_true, true_and]
    constructor
    · intro h
      refine ⟨fun g hg hgp => h.level_eq hd
        (fun s hs => ⟨(hlive s).mp hs, hsame s ((hlive s).mp hs)⟩) hg hgp, ?_⟩
      intro s hs hsp
      have hpp := h.parent s s hs ((hlive s).mpr hs) (by rw [hsame s hs])
      rw [parentPid, parentPid, hsame s hs, hsp, Option.map_some, Option.map_some, hatp,
        Option.some.injEq] at hpp
      exact hppid (hpp.symm.trans hpid)
    · rintro ⟨hlevel, hparent⟩
      refine preserves_of_free hd hlevel hlive hsame ?_
      intro s q hs hsq
      have hqp : q ≠ p := by
        rintro rfl
        exact hparent s hs hsq
      by_cases hqn : q = n
      · subst hqn; rw [hatn]
      · rw [hother q hqn hqp]

end Preserve

/-- `level_change` of a pid in the table keeps the processes exactly where its loop moves none of
them and the slot it writes is the process's own. -/
theorem levelChange_preserves_iff (temp : Proc) {t : PTable} {pid level : Int} {g : Slot}
    (hd : DistinctPids t) (hpid : (t g).pid = pid) :
    Preserves t (levelChange temp t pid level).2 pid level ↔ Harmless t pid level := by
  obtain ⟨n, hn, hgn⟩ := lastWithPid_isSome hpid
  obtain ⟨hnpid, hnlast⟩ := lastWithPid_eq_some.mp hn
  have hharm : Harmless t pid level ↔
      n.val + 1 = NPROC ∧ (t.Live n ∨ HasLevel t pid level) ∨
      ∃ p : Slot, p.val = n.val + 1 ∧ ¬ t.Live n ∧ ¬ t.Live p ∧ HasLevel t pid level ∧
        ∀ s, t.Live s → (t s).parent ≠ some p := by
    simp [Harmless, hn]
  rw [hharm]
  by_cases hlast : n.val + 1 = NPROC
  · have hnone : ¬ ∃ p : Slot, p.val = n.val + 1 ∧ ¬ t.Live n ∧ ¬ t.Live p ∧
        HasLevel t pid level ∧ ∀ s, t.Live s → (t s).parent ≠ some p := by
      rintro ⟨p, hp, -⟩
      have := p.isLt
      omega
    rw [levelChange_last hn hlast, preserves_last_iff hd hnpid, or_iff_left hnone]
    simp only [hlast, true_and]
  · have hlt : n.val + 1 < NPROC := by
      have := n.isLt
      omega
    generalize hp : (⟨n.val + 1, hlt⟩ : Slot) = p
    have hpval : p.val = n.val + 1 := by rw [← hp]
    have hnp : n < p := by
      show n.val < p.val
      omega
    have huniq : ∀ q : Slot, q.val = n.val + 1 → q = p := fun q hq => Fin.ext (hq.trans hpval.symm)
    by_cases hlive : t.Live p
    · obtain ⟨q, hq⟩ := levelChange_doubles temp level hn hpval hlive
      refine iff_of_false hq.not_preserves ?_
      rintro (⟨h, -⟩ | ⟨q, hq, -, hfree, -⟩)
      · exact hlast h
      · exact hfree (huniq q hq ▸ hlive)
    · rw [levelChange_next temp level hn hpval hlive,
        preserves_next_iff hd (ne_of_gt hnp) hnpid hlive (hnlast p hnp)]
      simp only [hlast, false_and, false_or]
      constructor
      · rintro ⟨h1, h2, h3⟩
        exact ⟨p, hpval, h1, hlive, h2, h3⟩
      · rintro ⟨q, hq, h1, -, h2, h3⟩
        exact ⟨h1, h2, huniq q hq ▸ h3⟩

/-- A shell in the first slot, and its child in slot `c`. -/
def twoProcs (c : Slot) : PTable := fun s =>
  if s = 0 then { Proc.zero with state := .running, pid := 1, level := 1, tickets := 10 }
  else if s = c then
    { Proc.zero with state := .runnable, pid := 2, parent := some 0, level := 2, tickets := 1 }
  else Proc.zero

theorem twoProcs_live {c : Slot} (h : (twoProcs c).Live s) : s = 0 ∨ s = c := by
  by_cases h0 : s = 0
  · exact .inl h0
  · by_cases h1 : s = c
    · exact .inr h1
    · simp [PTable.Live, twoProcs, h0, h1, Proc.zero] at h

theorem twoProcs_distinct {c : Slot} (hc : c ≠ 0) : DistinctPids (twoProcs c) := by
  intro s s' hs hs' heq
  rcases twoProcs_live hs with rfl | rfl <;> rcases twoProcs_live hs' with rfl | rfl
  · rfl
  · simp [twoProcs, hc] at heq
  · simp [twoProcs, hc] at heq
  · rfl

/-- Moving the child to level 3 leaves two live slots with its pid. -/
theorem levelChange_doubles_child :
    DistinctPids (twoProcs 1) ∧ (twoProcs 1).Live 1 ∧ (twoProcs 1 1).pid = 2 ∧
    ((levelChange .zero (twoProcs 1) 2 3).2 1).pid = 2 ∧
    ((levelChange .zero (twoProcs 1) 2 3).2 2).pid = 2 ∧
    PTable.Live (levelChange .zero (twoProcs 1) 2 3).2 1 ∧
    PTable.Live (levelChange .zero (twoProcs 1) 2 3).2 2 ∧
    ¬ Preserves (twoProcs 1) (levelChange .zero (twoProcs 1) 2 3).2 2 3 := by
  have hlast : lastWithPid (twoProcs 1) 2 = some 1 := by decide
  have hfree : ¬ (twoProcs 1).Live 2 := by decide
  have hlive : (twoProcs 1).Live 1 := by decide
  have hres := levelChange_next .zero 3 hlast (p := 2) rfl hfree
  rw [hres]
  have hd : DistinctPids (twoProcs 1) := twoProcs_distinct (by decide)
  refine ⟨hd, hlive, rfl, rfl, rfl, hlive, hlive, ?_⟩
  intro h
  have hne : (2 : Slot) ≠ 1 := by decide
  exact ((preserves_next_iff hd hne rfl hfree (by decide)).mp h).1 hlive

/-- The child is in the last slot. -/
theorem levelChange_preserves_lastSlot :
    DistinctPids (twoProcs 63) ∧ (twoProcs 63 63).pid = 2 ∧ Harmless (twoProcs 63) 2 3 ∧
    Preserves (twoProcs 63) (levelChange .zero (twoProcs 63) 2 3).2 2 3 := by
  have hd : DistinctPids (twoProcs 63) := twoProcs_distinct (by decide)
  have hharm : Harmless (twoProcs 63) 2 3 := ⟨63, by decide, .inl ⟨by decide, .inl (by decide)⟩⟩
  exact ⟨hd, rfl, hharm, (levelChange_preserves_iff .zero (g := 63) hd rfl).mpr hharm⟩

end Xv6.Kernel
