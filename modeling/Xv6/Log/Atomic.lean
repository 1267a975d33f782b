import Xv6.Log.Commit

/-!
# Xv6.Log.Atomic

Crash atomicity of the log.

`commit_writes` lists the disk writes of `commit`: the log copies, the header, the home blocks, the
cleared header; `recover_writes` lists those of `recover_from_log`. Between any two of them the disk
is in one of three phases:

* `Before`: the header says `n = 0` and every block outside the log is as before the transaction;
* `During`: the header names the transaction, the log copies are complete, and every block outside
  the log is as before or, when the transaction names it, already new;
* `After`: the header says `n = 0` and every block outside the log has its final contents.

Only the first `write_head` of `commit` leaves `Before`, and recovery leads from `Before` to
`Before` and from `During` or `After` to `After`, wherever it is interrupted.
-/

namespace Xv6.Log

open Crash Function List

/-- `m'` is `m` after the disk writes `ws`. -/
structure Issues (m : Dev) (ws : List (Nat × Block)) (m' : Dev) : Prop where
  writes : m'.writes = m.writes ++ ws
  disk : m'.disk = apply ws m.disk

theorem Issues.refl (m : Dev) : Issues m [] m := ⟨by simp, rfl⟩

theorem Issues.trans {m m1 m2 : Dev} {ws vs : List (Nat × Block)} (h1 : Issues m ws m1)
    (h2 : Issues m1 vs m2) : Issues m (ws ++ vs) m2 :=
  ⟨by rw [h2.writes, h1.writes, append_assoc], by rw [h2.disk, h1.disk, apply_append]⟩

theorem issues_bread (m : Dev) (b : Nat) : Issues m [] (m.bread b).2 := ⟨by simp, by simp⟩

theorem issues_bwrite (m : Dev) (b : Nat) (v : Block) : Issues m [(b, v)] (m.bwrite b v) :=
  ⟨by simp, by simp⟩

/-- The copies `write_log` makes of the contents `v` of the blocks `bs`. -/
def logCopies (l : Area) (v : Nat → Block) : Nat → List Nat → List (Nat × Block)
  | _, [] => []
  | tail, b :: bs => (l.start + tail + 1, v b) :: logCopies l v (tail + 1) bs

/-- The writes `install_trans` makes to bring the blocks `bs` home. -/
def homeCopies (v : Nat → Block) (bs : List Nat) : List (Nat × Block) := bs.map fun b => (b, v b)

theorem mem_logCopies {l : Area} {v : Nat → Block} : ∀ {bs : List Nat} {tail : Nat}
    {w : Nat × Block}, w ∈ logCopies l v tail bs →
      l.start + tail < w.1 ∧ w.1 ≤ l.start + tail + bs.length := by
  intro bs
  induction bs with
  | nil => intro tail w h; cases h
  | cons b bs ih =>
    intro tail w h
    rw [length_cons]
    rcases mem_cons.mp h with rfl | h
    · constructor <;> simp
    · have := ih h
      omega

theorem logCopies_length (l : Area) (v : Nat → Block) : ∀ (bs : List Nat) (tail : Nat),
    (logCopies l v tail bs).length = bs.length := by
  intro bs
  induction bs with
  | nil => intro tail; rfl
  | cons b bs ih => intro tail; simp [logCopies, ih]

theorem logCopies_nodup (l : Area) (v : Nat → Block) : ∀ (bs : List Nat) (tail : Nat),
    ((logCopies l v tail bs).map Prod.fst).Nodup := by
  intro bs
  induction bs with
  | nil => intro tail; exact nodup_nil
  | cons b bs ih =>
    intro tail
    rw [logCopies, map_cons, nodup_cons]
    refine ⟨?_, ih (tail + 1)⟩
    intro h
    obtain ⟨w, hw, he⟩ := mem_map.mp h
    have := mem_logCopies hw
    omega

theorem logCopies_get {l : Area} {v : Nat → Block} : ∀ {bs : List Nat} {tail i b : Nat},
    bs[i]? = some b → (l.start + tail + i + 1, v b) ∈ logCopies l v tail bs := by
  intro bs
  induction bs with
  | nil => intro tail i b h; simp at h
  | cons a bs ih =>
    intro tail i b h
    cases i with
    | zero =>
      simp only [getElem?_cons_zero, Option.some.injEq] at h
      subst h
      exact mem_cons_self
    | succ i =>
      rw [getElem?_cons_succ] at h
      have := @ih (tail + 1) i b h
      rw [show l.start + (tail + 1) + i + 1 = l.start + tail + (i + 1) + 1 by omega] at this
      exact mem_cons_of_mem _ this

variable {l : Area} {v : Nat → Block}

theorem writeLogFrom_spec : ∀ {bs : List Nat} {tail : Nat} {m : Dev},
    tail + bs.length < l.size → (∀ b ∈ bs, b ∉ l.region) → (∀ b ∈ bs, m.view b = v b) →
      Issues m (logCopies l v tail bs) (writeLogFrom l tail bs m) ∧
      (∀ x, x ≤ l.start + tail → (writeLogFrom l tail bs m).view x = m.view x) ∧
      ∀ i b, bs[i]? = some b → (writeLogFrom l tail bs m).view (l.start + tail + i + 1) = v b := by
  intro bs
  induction bs with
  | nil => intro tail m _ _ _; exact ⟨.refl m, fun _ _ => rfl, by simp⟩
  | cons b bs ih =>
    intro tail m hlen hout hv
    rw [length_cons] at hlen
    let m1 := ((m.bread (l.start + tail + 1)).2.bread b).2
    let m2 := m1.bwrite (l.start + tail + 1) (v b)
    have hm2 : writeLogFrom l tail (b :: bs) m = writeLogFrom l (tail + 1) bs m2 := by
      simp only [writeLogFrom, m2, m1]
      rw [Dev.bread_fst, Dev.bread_view, hv b mem_cons_self]
    have hview2 : m2.view = update m.view (l.start + tail + 1) (v b) := by
      simp [m2, m1]
    have hv2 : ∀ c ∈ bs, m2.view c = v c := by
      intro c hc
      have hcout := hout c (mem_cons_of_mem _ hc)
      rw [hview2, update_of_ne, hv c (mem_cons_of_mem _ hc)]
      rintro rfl
      exact hcout ⟨by omega, by omega⟩
    obtain ⟨hi, hlow, hget⟩ := @ih (tail + 1) m2 (by omega)
      (fun c hc => hout c (mem_cons_of_mem _ hc)) hv2
    rw [hm2]
    refine ⟨?_, ?_, ?_⟩
    · have h1 : Issues m [(l.start + tail + 1, v b)] m2 :=
        ((issues_bread m _).trans (issues_bread _ b)).trans (issues_bwrite m1 _ _)
      exact h1.trans hi
    · intro x hx
      rw [hlow x (by omega), hview2, update_of_ne (by omega)]
    · intro i c hic
      cases i with
      | zero =>
        simp only [getElem?_cons_zero, Option.some.injEq] at hic
        subst hic
        rw [hlow _ (by omega), hview2]
        simp
      | succ i =>
        rw [getElem?_cons_succ] at hic
        rw [← hget i c hic]
        congr 1
        omega

theorem installTransFrom_spec : ∀ {bs : List Nat} {tail : Nat} {m : Dev},
    tail + bs.length < l.size → (∀ b ∈ bs, b ∉ l.region) →
      (∀ i b, bs[i]? = some b → m.view (l.start + tail + i + 1) = v b) →
      Issues m (homeCopies v bs) (installTransFrom l tail bs m) ∧
      ∀ x ∈ l.region, (installTransFrom l tail bs m).view x = m.view x := by
  intro bs
  induction bs with
  | nil => intro tail m _ _ _; exact ⟨.refl m, fun _ _ => rfl⟩
  | cons b bs ih =>
    intro tail m hlen hout hv
    rw [length_cons] at hlen
    have hb : b ∉ l.region := hout b mem_cons_self
    let m1 := ((m.bread (l.start + tail + 1)).2.bread b).2
    let m2 := m1.bwrite b (v b)
    have hm2 : installTransFrom l tail (b :: bs) m = installTransFrom l (tail + 1) bs m2 := by
      have h0 : m.view (l.start + tail + 1) = v b := hv 0 b rfl
      simp only [installTransFrom, m2, m1]
      rw [Dev.bread_fst, h0]
    have hview2 : m2.view = update m.view b (v b) := by simp [m2, m1]
    have hreg : ∀ x ∈ l.region, m2.view x = m.view x := by
      intro x hx
      rw [hview2, update_of_ne]
      rintro rfl
      exact hb hx
    have hv2 : ∀ i c, bs[i]? = some c → m2.view (l.start + (tail + 1) + i + 1) = v c := by
      intro i c hic
      have hi : i < bs.length := (List.getElem?_eq_some_iff.mp hic).1
      rw [hreg _ ⟨by omega, by omega⟩, ← hv (i + 1) c (by simpa using hic)]
      congr 1
      omega
    obtain ⟨hi, hlow⟩ := @ih (tail + 1) m2 (by omega)
      (fun c hc => hout c (mem_cons_of_mem _ hc)) hv2
    rw [hm2]
    refine ⟨?_, ?_⟩
    · have h1 : Issues m [(b, v b)] m2 :=
        ((issues_bread m _).trans (issues_bread _ b)).trans (issues_bwrite m1 _ _)
      exact h1.trans hi
    · intro x hx
      rw [hlow x hx, hreg x hx]

theorem writeHead_spec (l : Area) (lh : Header) (m : Dev) :
    Issues m [(l.start, setHead (m.view l.start) lh)] (writeHead l lh m) ∧
      (writeHead l lh m).view = update m.view l.start (setHead (m.view l.start) lh) := by
  constructor
  · have := (issues_bread m l.start).trans
      (issues_bwrite (m.bread l.start).2 l.start (setHead (m.view l.start) lh))
    simpa [writeHead] using this
  · simp [writeHead]

theorem commit_writes {lh : Header} {m : Dev} {new : Nat → Block} (hpos : 0 < lh.n)
    (hn : lh.n < l.size) (hout : ∀ b ∈ lh.blocks, b ∉ l.region)
    (hnew : ∀ b ∈ lh.blocks, m.view b = new b) : ∃ h1, (∃ hb, h1 = setHead hb lh) ∧
      Issues m (logCopies l new 0 lh.blocks ++
        ((l.start, h1) :: (homeCopies new lh.blocks ++ [(l.start, setHead h1 .empty)])))
        (commit l lh m) := by
  have hlen : 0 + lh.blocks.length < l.size := by simpa [Header.n] using hn
  have hstart : l.start ∈ l.region := ⟨Nat.le_refl _, by omega⟩
  obtain ⟨hi1, hlow1, hget1⟩ := writeLogFrom_spec hlen hout hnew
  let m1 := writeLog l lh m
  let h1 := setHead (m1.view l.start) lh
  obtain ⟨hi2, hview2⟩ := writeHead_spec l lh m1
  have hget2 : ∀ i b, lh.blocks[i]? = some b →
      (writeHead l lh m1).view (l.start + 0 + i + 1) = new b := by
    intro i b hib
    rw [hview2, update_of_ne (by omega)]
    exact hget1 i b hib
  obtain ⟨hi3, hreg3⟩ := installTransFrom_spec hlen hout hget2
  have hstart3 : (installTrans l lh (writeHead l lh m1)).view l.start = h1 := by
    rw [installTrans, hreg3 _ hstart, hview2]
    simp [h1]
  obtain ⟨hi4, -⟩ := writeHead_spec l .empty (installTrans l lh (writeHead l lh m1))
  rw [hstart3] at hi4
  refine ⟨h1, ⟨_, rfl⟩, ?_⟩
  rw [commit, if_pos hpos]
  have := ((hi1.trans hi2).trans hi3).trans hi4
  simpa [append_assoc] using this

theorem recover_writes {lh : Header} {d : Nat → Block} (hh : getHead (d l.start) = some lh)
    (hn : lh.n < l.size) (hout : ∀ b ∈ lh.blocks, b ∉ l.region)
    (hv : ∀ i b, lh.blocks[i]? = some b → d (l.start + i + 1) = v b) :
    ∃ m', recoverFromLog l (.boot d) = some m' ∧
      Issues (.boot d) (homeCopies v lh.blocks ++ [(l.start, setHead (d l.start) .empty)]) m' := by
  have hlen : 0 + lh.blocks.length < l.size := by simpa [Header.n] using hn
  have hstart : l.start ∈ l.region := ⟨Nat.le_refl _, by omega⟩
  let m1 := ((Dev.boot d).bread l.start).2
  have hread : readHead l (.boot d) = some (lh, m1) := by
    simp [readHead, hh, m1]
  obtain ⟨hi, hreg⟩ := installTransFrom_spec (m := m1) (v := v) hlen hout
    (fun i b hib => by simpa [m1] using hv i b hib)
  obtain ⟨hi2, -⟩ := writeHead_spec l .empty (installTrans l lh m1)
  have hs : (installTrans l lh m1).view l.start = d l.start := by
    rw [installTrans, hreg _ hstart]
    simp [m1]
  rw [hs] at hi2
  refine ⟨writeHead l .empty (installTrans l lh m1), by simp [recoverFromLog, hread], ?_⟩
  exact ((issues_bread _ l.start).trans hi).trans hi2

/-- The contents the transaction leads to. -/
def post (lh : Header) (old new : Nat → Block) (b : Nat) : Block :=
  if b ∈ lh.blocks then new b else old b

structure Before (l : Area) (old d : Nat → Block) : Prop where
  head : headN (d l.start) = 0
  home : ∀ b, b ∉ l.region → d b = old b

structure During (l : Area) (lh : Header) (old new d : Nat → Block) : Prop where
  head : getHead (d l.start) = some lh
  copies : ∀ i b, lh.blocks[i]? = some b → d (l.start + i + 1) = new b
  home : ∀ b, b ∉ l.region → d b = old b ∨ b ∈ lh.blocks ∧ d b = new b

def After (l : Area) (lh : Header) (old new d : Nat → Block) : Prop := Before l (post lh old new) d

section Phases

variable {lh : Header} {old new d : Nat → Block}

theorem headN_cleared (hb : Block) : headN (setHead hb .empty) = 0 := headN_setHead hb .empty

theorem before_clear (hsize : 0 < l.size) (h : Before l old d) (hb : Block) :
    Before l old (update d l.start (setHead hb .empty)) := by
  refine ⟨by simp [headN_cleared], ?_⟩
  intro b hbr
  rw [update_of_ne, h.home b hbr]
  rintro rfl
  exact hbr ⟨Nat.le_refl _, by omega⟩

theorem during_home (hn : lh.n < l.size) (hout : ∀ b ∈ lh.blocks, b ∉ l.region) {b : Nat}
    (hb : b ∈ lh.blocks) (h : During l lh old new d) :
    During l lh old new (update d b (new b)) := by
  have hbr := hout b hb
  have hne : ∀ x ∈ l.region, x ≠ b := by
    rintro x hx rfl
    exact hbr hx
  refine ⟨?_, ?_, ?_⟩
  · rw [update_of_ne (hne _ ⟨Nat.le_refl _, by omega⟩)]
    exact h.head
  · intro i c hic
    have hi : i < lh.blocks.length := (List.getElem?_eq_some_iff.mp hic).1
    rw [update_of_ne (hne _ ⟨by omega, by simp only [Header.n] at hn; omega⟩)]
    exact h.copies i c hic
  · intro c hc
    by_cases hcb : c = b
    · subst hcb
      exact .inr ⟨hb, by simp⟩
    · rw [update_of_ne hcb]
      exact h.home c hc

theorem during_finish (hn : lh.n < l.size) (hnd : lh.blocks.Nodup) (h : During l lh old new d)
    (hb : Block) : After l lh old new
      (update (apply (homeCopies new lh.blocks) d) l.start (setHead hb .empty)) := by
  refine ⟨by simp [headN_cleared], ?_⟩
  intro b hbr
  have hne : b ≠ l.start := by
    rintro rfl
    exact hbr ⟨Nat.le_refl _, by omega⟩
  rw [update_of_ne hne, post]
  by_cases hb' : b ∈ lh.blocks
  · rw [if_pos hb']
    apply apply_mem
    · simpa [homeCopies, Function.comp_def] using hnd
    · exact mem_map.mpr ⟨b, hb', rfl⟩
  · rw [if_neg hb', apply_untouched]
    · rcases h.home b hbr with h' | h'
      · exact h'
      · exact absurd h'.1 hb'
    · intro w hw hwb
      obtain ⟨c, hc, rfl⟩ := mem_map.mp hw
      exact hb' (hwb ▸ hc)

theorem during_take (hn : lh.n < l.size) (hnd : lh.blocks.Nodup)
    (hout : ∀ b ∈ lh.blocks, b ∉ l.region) (h : During l lh old new d) (hb : Block) (j : Nat) :
    During l lh old new
        (apply ((homeCopies new lh.blocks ++ [(l.start, setHead hb .empty)]).take j) d) ∨
      After l lh old new
        (apply ((homeCopies new lh.blocks ++ [(l.start, setHead hb .empty)]).take j) d) := by
  by_cases hj : j ≤ (homeCopies new lh.blocks).length
  · left
    rw [take_append_of_le_length hj]
    apply apply_take_invariant h
    intro w hw d' hd'
    obtain ⟨b, hb, rfl⟩ := mem_map.mp hw
    exact during_home hn hout hb hd'
  · right
    rw [take_of_length_le (by simp; omega), apply_append]
    exact during_finish hn hnd h hb

theorem before_copies (hn : lh.n < l.size) (h : Before l old d) (j : Nat) :
    Before l old (apply ((logCopies l new 0 lh.blocks).take j) d) := by
  apply apply_take_invariant h
  intro w hw d' hd'
  have hr := mem_logCopies hw
  simp only [Header.n] at hn
  refine ⟨?_, ?_⟩
  · rw [update_of_ne (by omega)]
    exact hd'.head
  · intro b hbr
    rw [update_of_ne]
    · exact hd'.home b hbr
    · rintro rfl
      exact hbr ⟨by omega, by omega⟩

theorem before_commit (hn : lh.n < l.size) (hlt : ∀ b ∈ lh.blocks, b < 2 ^ 32)
    (h : Before l old d) (hb : Block) : During l lh old new
      (update (apply (logCopies l new 0 lh.blocks) d) l.start (setHead hb lh)) := by
  refine ⟨by simp [getHead_setHead hb hlt], ?_, ?_⟩
  · intro i b hib
    rw [update_of_ne (by omega)]
    apply apply_mem (logCopies_nodup ..)
    have := @logCopies_get l new _ 0 i b hib
    simpa using this
  · intro b hbr
    left
    have : Before l old (apply (logCopies l new 0 lh.blocks) d) := by
      rw [← take_length (l := logCopies l new 0 lh.blocks)]
      exact before_copies hn h _
    rw [update_of_ne, this.home b hbr]
    rintro rfl
    exact hbr ⟨Nat.le_refl _, by omega⟩

theorem recover_before (hsize : 0 < l.size) (h : Before l old d) :
    ∃ m', recoverFromLog l (.boot d) = some m' ∧
      Issues (.boot d) [(l.start, setHead (d l.start) .empty)] m' := by
  obtain ⟨m', hm', hi⟩ := recover_writes (v := d) (getHead_of_zero h.head) hsize
    (by simp [Header.empty]) (by simp [Header.empty])
  exact ⟨m', hm', by simpa [Header.empty, homeCopies] using hi⟩

theorem recover_during (hn : lh.n < l.size) (hout : ∀ b ∈ lh.blocks, b ∉ l.region)
    (h : During l lh old new d) : ∃ m', recoverFromLog l (.boot d) = some m' ∧
      Issues (.boot d) (homeCopies new lh.blocks ++ [(l.start, setHead (d l.start) .empty)]) m' :=
  recover_writes h.head hn hout h.copies

theorem recoverWrites_eq {ws : List (Nat × Block)} {m' : Dev}
    (hm : recoverFromLog l (.boot d) = some m') (hi : Issues (.boot d) ws m') :
    recoverWrites l d = some ws := by
  simp [recoverWrites, hm, hi.writes]

theorem crashes_before {d' : Nat → Block} (hsize : 0 < l.size)
    (hc : Crashes (recoverWrites l) d d') (h : Before l old d) : Before l old d' := by
  refine hc.invariant ?_ h
  intro d ws j hd hr
  obtain ⟨m', hm', hi⟩ := recover_before hsize hd
  rw [recoverWrites_eq hm' hi] at hr
  cases hr
  apply apply_take_invariant hd
  intro w hw d' hd'
  rw [mem_singleton.mp hw]
  exact before_clear hsize hd' _

theorem crashes_during {d' : Nat → Block} (hn : lh.n < l.size) (hnd : lh.blocks.Nodup)
    (hout : ∀ b ∈ lh.blocks, b ∉ l.region) (hc : Crashes (recoverWrites l) d d')
    (h : During l lh old new d ∨ After l lh old new d) :
    During l lh old new d' ∨ After l lh old new d' := by
  refine hc.invariant (P := fun d => During l lh old new d ∨ After l lh old new d) ?_ h
  intro d ws j hd hr
  rcases hd with hd | hd
  · obtain ⟨m', hm', hi⟩ := recover_during hn hout hd
    rw [recoverWrites_eq hm' hi] at hr
    cases hr
    exact during_take hn hnd hout hd _ j
  · exact .inr (crashes_before (by omega) (.crash j .refl hr) hd)

theorem recover_before_done (hsize : 0 < l.size) (h : Before l old d) :
    ∃ m', recoverFromLog l (.boot d) = some m' ∧ Before l old m'.disk := by
  obtain ⟨m', hm', hi⟩ := recover_before hsize h
  refine ⟨m', hm', ?_⟩
  rw [hi.disk]
  exact before_clear hsize h _

theorem recover_during_done (hn : lh.n < l.size) (hnd : lh.blocks.Nodup)
    (hout : ∀ b ∈ lh.blocks, b ∉ l.region) (h : During l lh old new d) :
    ∃ m', recoverFromLog l (.boot d) = some m' ∧ After l lh old new m'.disk := by
  obtain ⟨m', hm', hi⟩ := recover_during hn hout h
  refine ⟨m', hm', ?_⟩
  rw [hi.disk, apply_append]
  exact during_finish hn hnd h _

end Phases

/-- Some write of the header block is among `ws`. -/
def HeadReached (l : Area) (ws : List (Nat × Block)) : Prop := ∃ w ∈ ws, w.1 = l.start

instance (l : Area) (ws : List (Nat × Block)) : Decidable (HeadReached l ws) :=
  inferInstanceAs (Decidable (∃ w ∈ ws, w.1 = l.start))

theorem commit_take {lh : Header} {m : Dev} {new : Nat → Block} (hn : lh.n < l.size)
    (hnd : lh.blocks.Nodup) (hout : ∀ b ∈ lh.blocks, b ∉ l.region)
    (hlt : ∀ b ∈ lh.blocks, b < 2 ^ 32) (hw : m.writes = []) (hhead : headN (m.disk l.start) = 0)
    (hnew : ∀ b ∈ lh.blocks, m.cache b = some (new b)) (j : Nat) :
    (¬ HeadReached l ((commit l lh m).writes.take j) ∧
      Before l m.disk (apply ((commit l lh m).writes.take j) m.disk)) ∨
    (HeadReached l ((commit l lh m).writes.take j) ∧
      (During l lh m.disk new (apply ((commit l lh m).writes.take j) m.disk) ∨
        After l lh m.disk new (apply ((commit l lh m).writes.take j) m.disk))) := by
  have h0 : Before l m.disk m.disk := ⟨hhead, fun _ _ => rfl⟩
  by_cases hpos : 0 < lh.n
  · have hview : ∀ b ∈ lh.blocks, m.view b = new b := by
      intro b hb
      simp [Dev.view, hnew b hb]
    obtain ⟨h1, ⟨hb, rfl⟩, hi⟩ := commit_writes hpos hn hout hview
    rw [hi.writes, hw, nil_append]
    have hlen := logCopies_length l new lh.blocks 0
    by_cases hj : j ≤ lh.blocks.length
    · -- cut while the copies are written
      left
      rw [take_append_of_le_length (by omega)]
      refine ⟨?_, before_copies hn h0 j⟩
      rintro ⟨w, hwm, hws⟩
      have := mem_logCopies (mem_of_mem_take hwm)
      omega
    · -- the header is on disk
      right
      rw [take_append, take_of_length_le (by omega),
        show j - (logCopies l new 0 lh.blocks).length = (j - lh.blocks.length - 1) + 1 by omega,
        take_succ_cons]
      refine ⟨⟨_, mem_append_right _ mem_cons_self, rfl⟩, ?_⟩
      rw [apply_append, apply_cons]
      exact during_take hn hnd hout (before_commit hn hlt h0 hb) _ _
  · -- nothing was logged, and `commit` returns at once
    left
    rw [commit, if_neg hpos, hw, take_nil]
    exact ⟨by simp [HeadReached], h0⟩

/-- Cut `commit` after any number `j` of disk writes, let recovery crash any number of times at any
of its own writes, and then run it once to the end: it does end, and outside the log every block has
its new contents if the first header write of `commit` reached the disk, and its old contents if
not. -/
theorem commit_crash_atomic {l : Area} {lh : Header} {m : Dev} {new : Nat → Block}
    (hn : lh.n < l.size) (hnd : lh.blocks.Nodup) (hout : ∀ b ∈ lh.blocks, b ∉ l.region)
    (hlt : ∀ b ∈ lh.blocks, b < 2 ^ 32) (hw : m.writes = []) (hhead : headN (m.disk l.start) = 0)
    (hnew : ∀ b ∈ lh.blocks, m.cache b = some (new b)) (j : Nat) {d : Nat → Block}
    (hc : Crashes (recoverWrites l) (apply ((commit l lh m).writes.take j) m.disk) d) :
    ∃ m', recoverFromLog l (.boot d) = some m' ∧
      (HeadReached l ((commit l lh m).writes.take j) →
        ∀ b, b ∉ l.region → m'.disk b = if b ∈ lh.blocks then new b else m.disk b) ∧
      (¬ HeadReached l ((commit l lh m).writes.take j) →
        ∀ b, b ∉ l.region → m'.disk b = m.disk b) := by
  rcases commit_take hn hnd hout hlt hw hhead hnew j with ⟨hr, hd⟩ | ⟨hr, hd⟩
  · obtain ⟨m', hm', hb⟩ := recover_before_done (by omega) (crashes_before (by omega) hc hd)
    exact ⟨m', hm', fun h => absurd h hr, fun _ => hb.home⟩
  · have : ∃ m', recoverFromLog l (.boot d) = some m' ∧ After l lh m.disk new m'.disk := by
      rcases crashes_during hn hnd hout hc hd with hd | hd
      · exact recover_during_done hn hnd hout hd
      · exact recover_before_done (by omega) hd
    obtain ⟨m', hm', ha⟩ := this
    exact ⟨m', hm', fun _ => ha.home, fun h => absurd hr h⟩

/-- A transaction of blocks 50 and 60 on an mkfs log, cut after the header and one home write. -/
theorem commit_crash_atomic_two : let l : Area := ⟨2, 30, by decide⟩
    let lh : Header := ⟨[50, 60], by decide⟩
    let m : Dev := ⟨fun _ => Block.zero, fun _ => some fun _ => 1, []⟩
    ∃ m', recoverFromLog l (.boot (apply ((commit l lh m).writes.take 4) m.disk)) = some m' ∧
      m'.disk 60 = (fun _ => 1) ∧ m'.disk 70 = Block.zero := by
  intro l lh m
  obtain ⟨m', hm', hnew, -⟩ := @commit_crash_atomic l lh m (fun _ _ => 1) (by decide) (by decide)
    (by simp [lh, l, Area.region]) (by simp [lh]) rfl (by simp [m, headN, Bytes.int32])
    (fun _ _ => rfl) 4 _ .refl
  have hr : HeadReached l ((commit l lh m).writes.take 4) := by decide
  refine ⟨m', hm', ?_, ?_⟩
  · simpa [lh] using hnew hr 60 (by simp [l, Area.region])
  · simpa [lh, m] using hnew hr 70 (by simp [l, Area.region])

end Xv6.Log
