import Xv6.Ipc.Pipe

/-!
# Xv6.Ipc.PipeSleep

Who sleeps on a pipe.

A process that sleeps on `&p->nread` should find the pipe empty and its write end open, one that
sleeps on `&p->nwrite` should find it full and its read end open: `Rested`. Every way out of the
calls keeps this but one. `pipewrite` calls `wakeup(&p->nread)` before it sleeps and before it
returns `n`, but not before it returns -1; a writer that fills the pipe and only then sees that it
was killed, or that the read end is closed, leaves the readers asleep next to a full buffer
(`killed_writer_strands_reader`). `pipe_rested`: in runs without such a step nobody is left asleep.
-/

namespace Xv6.Ipc

def Pc.chan : Pc → Option Chan
  | .sleepRead _ => some .nread
  | .sleepWrite _ _ => some .nwrite
  | _ => none

theorem Pc.chan_wakeup (pc : Pc) (c c' : Chan) :
    (pc.wakeup c).chan = some c' ↔ pc.chan = some c' ∧ c' ≠ c := by
  cases pc <;> cases c <;> cases c' <;> simp [Pc.wakeup, Pc.chan]

namespace PipeSys

def SleepsOn (s : PipeSys) (t : Nat) (c : Chan) : Prop := (s.pc t).chan = some c

/-- Nobody sleeps without a reason. -/
structure Rested (s : PipeSys) : Prop where
  nread : ∀ t, s.SleepsOn t .nread → s.pipe.isEmpty = true ∧ s.pipe.writeopen = true
  nwrite : ∀ t, s.SleepsOn t .nwrite → s.pipe.isFull = true ∧ s.pipe.readopen = true

/-- Process `t` is about to fill the pipe and to give its call up, while a reader sleeps. -/
def GivesUpFull (s : PipeSys) (t : Nat) : Prop :=
  ∃ n rest, s.pc t = .write n rest ∧ s.pipe.isFull = false ∧
    PIPESIZE < s.pipe.contents.length + rest.length ∧
    (s.killed t = true ∨ s.pipe.readopen = false) ∧ ∃ q, s.SleepsOn q .nread

def CarefulStep (s : PipeSys) (e : PipeEvent) (s' : PipeSys) : Prop :=
  Step s e s' ∧ ∀ t done ret, e = .write t done ret → ¬ s.GivesUpFull t

variable {s s' : PipeSys} {t q : Nat} {c c' : Chan} {pc : Pc} {n : Int} {rest : List UInt8}

theorem sleepsOn_wakeup : (s.wakeup c).SleepsOn q c' ↔ s.SleepsOn q c' ∧ c' ≠ c :=
  Pc.chan_wakeup _ _ _

theorem goto_same : (s.goto t pc).pc t = pc := Function.update_self _ _ _

theorem goto_other (h : q ≠ t) : (s.goto t pc).pc q = s.pc q := Function.update_of_ne h _ _

theorem SleepsOn.of_goto (hpc : pc.chan = none) (h : (s.goto t pc).SleepsOn q c) :
    s.SleepsOn q c := by
  by_cases hq : q = t
  · subst hq
    rw [SleepsOn, goto_same, hpc] at h
    cases h
  · rwa [SleepsOn, goto_other hq] at h

theorem SleepsOn.of_goto_sleep (hpc : pc.chan = some c') (h : (s.goto t pc).SleepsOn q c) :
    s.SleepsOn q c ∨ c = c' := by
  by_cases hq : q = t
  · subst hq
    rw [SleepsOn, goto_same, hpc] at h
    exact .inr (Option.some.inj h).symm
  · rw [SleepsOn, goto_other hq] at h
    exact .inl h

theorem Rested.goto (h : Rested s) (hpc : pc.chan = none) : Rested (s.goto t pc) :=
  ⟨fun q hq => h.nread q (hq.of_goto hpc), fun q hq => h.nwrite q (hq.of_goto hpc)⟩

theorem Rested.kill (h : Rested s) (t : Nat) : Rested (s.kill t) := by
  have hchan : ∀ q c, (s.kill t).SleepsOn q c → s.SleepsOn q c := by
    intro q c hq
    have hawake : (((s.pc t).wakeup .nread).wakeup .nwrite).chan = none := by cases s.pc t <;> rfl
    exact SleepsOn.of_goto (s := s) (t := t) hawake hq
  exact ⟨fun q hq => h.nread q (hchan q _ hq), fun q hq => h.nwrite q (hchan q _ hq)⟩

theorem Rested.pipeclose (h : Rested s) (writable : Bool) : Rested (s.pipeclose writable) := by
  have hfree : ∀ s : PipeSys, Rested s →
      Rested (if !s.pipe.readopen && !s.pipe.writeopen then { s with freed := true } else s) := by
    intro s hs
    split
    · exact ⟨hs.nread, hs.nwrite⟩
    · exact hs
  rw [PipeSys.pipeclose]
  apply hfree
  cases writable with
  | true =>
    refine ⟨fun q hq => absurd rfl (sleepsOn_wakeup.mp hq).2, fun q hq => ?_⟩
    exact h.nwrite q (sleepsOn_wakeup.mp hq).1
  | false =>
    refine ⟨fun q hq => ?_, fun q hq => absurd rfl (sleepsOn_wakeup.mp hq).2⟩
    exact h.nread q (sleepsOn_wakeup.mp hq).1

theorem Rested.piperead (h : Rested s) (t : Nat) (n : Int) : Rested (s.piperead t n).1 := by
  simp only [PipeSys.piperead]
  split
  · rename_i hempty
    rw [Bool.and_eq_true] at hempty
    split
    · exact h.goto rfl
    · refine ⟨fun q _ => hempty, fun q hq => h.nwrite q ?_⟩
      rcases hq.of_goto_sleep rfl with hq | hq
      · exact hq
      · cases hq
  · rename_i hopen
    rw [Bool.and_eq_true] at hopen
    -- a sleeping reader would have found the pipe empty and open, as this one has not
    refine Rested.goto ⟨fun q hq => ?_, fun q hq => absurd rfl (sleepsOn_wakeup.mp hq).2⟩ rfl
    exact absurd (h.nread q (sleepsOn_wakeup.mp hq).1) hopen

theorem store_of_full {p : Pipe} (hf : p.isFull = true) (bs : List UInt8) :
    p.store bs = ([], bs, p) := by
  cases bs with
  | nil => rfl
  | cons b bs => rw [Pipe.store, if_pos hf]

theorem Rested.pipewrite {xs : List UInt8} (h : Rested s) (hq : s.pipe.Holds xs)
    (hp : s.pc t = .write n rest) (hcare : ¬ s.GivesUpFull t) :
    Rested (s.pipewrite t n rest).1 := by
  obtain ⟨hholds, hsplit, hend, hropen, hwopen⟩ := Pipe.store_holds rest hq
  -- a writer asleep: the pipe was full, and still is
  have hwriter : ∀ q, s.SleepsOn q .nwrite →
      (s.pipe.store rest).2.2.isFull = true ∧ (s.pipe.store rest).2.2.readopen = true := by
    intro q hs
    have hfull := h.nwrite q hs
    rw [store_of_full hfull.1]
    exact hfull
  simp only [PipeSys.pipewrite]
  split
  · refine Rested.goto ⟨fun q hs => absurd rfl (sleepsOn_wakeup.mp hs).2, fun q hs => ?_⟩ rfl
    exact hwriter q (sleepsOn_wakeup.mp hs).1
  · rename_i b bs hrest
    have hfull : (s.pipe.store rest).2.2.isFull = true := by
      rcases hend with hend | hend
      · rw [hrest] at hend; cases hend
      · exact hend
    split
    · rename_i hgive
      refine Rested.goto ⟨fun q hs => ?_, hwriter⟩ rfl
      -- nobody sleeps on `nread`, or the pipe was full before and nothing was stored
      cases hf : s.pipe.isFull with
      | true =>
        rw [store_of_full hf]
        exact h.nread q hs
      | false =>
        refine absurd ⟨n, rest, hp, hf, ?_, ?_, q, hs⟩ hcare
        · have hlen := (hholds.isFull_iff Pipe.lt_range).mp hfull
          rw [hq.contents_eq Pipe.lt_range]
          rw [hsplit, hrest, List.length_append, List.length_cons]
          rw [List.length_append] at hlen
          omega
        · rw [Bool.or_eq_true, hropen, Bool.not_eq_true'] at hgive
          exact hgive.symm
    · rename_i hgo
      have hopen : (s.pipe.store rest).2.2.readopen = true := by
        rw [Bool.or_eq_true, not_or, Bool.not_eq_true, Bool.not_eq_false'] at hgo
        exact hgo.1
      refine ⟨fun q hs => ?_, fun q _ => ⟨hfull, hopen⟩⟩
      rcases hs.of_goto_sleep rfl with hs | hs
      · exact absurd rfl (sleepsOn_wakeup.mp hs).2
      · cases hs

theorem CarefulStep.rested {e : PipeEvent} {xs : List UInt8} (hs : CarefulStep s e s')
    (hq : s.pipe.Holds xs) (h : Rested s) : Rested s' := by
  obtain ⟨hst, hcare⟩ := hs
  cases hst with
  | callWrite n addr hp => exact h.goto rfl
  | callRead n hp => exact h.goto rfl
  | write hf hp => exact h.pipewrite hq hp (hcare _ _ _ rfl)
  | read hf hp => exact h.piperead _ _
  | close writable hf => exact h.pipeclose writable
  | kill t => exact h.kill t

/-- In every run in which no writer, killed or without a reader, fills the pipe while a process
sleeps on `&p->nread`: whenever `p->lock` is free, nobody sleeps without a reason. -/
theorem pipe_rested (h : Reach Init CarefulStep s) : Rested s := by
  have hinv : (∃ xs, s.pipe.Holds xs) ∧ Rested s := by
    refine Reach.invariant (P := fun s => (∃ xs, s.pipe.Holds xs) ∧ Rested s)
      (fun s h0 => ?_) (fun s e s' hs hst => ?_) h
    · refine ⟨⟨[], .nil (by rw [h0.nwrite, h0.nread])⟩, fun q hq => ?_, fun q hq => ?_⟩
      · rw [SleepsOn, h0.out q] at hq; cases hq
      · rw [SleepsOn, h0.out q] at hq; cases hq
    · obtain ⟨⟨xs, hq⟩, hr⟩ := hs
      obtain ⟨xs', hq', -⟩ := hst.1.queue hq
      exact ⟨⟨xs', hq'⟩, hst.rested hq hr⟩
  exact hinv.2

/-- A reader falls asleep on an empty pipe. -/
theorem pipe_rested_reader :
    ∃ s, Reach Init CarefulStep s ∧ s.SleepsOn 1 .nread ∧ s.pipe.isEmpty = true := by
  have h0 : Reach Init CarefulStep freshPipe := .start freshPipe_init
  have h1 := h0.step ⟨.callRead (t := 1) 1 rfl, nofun⟩
  have h2 := h1.step ⟨.read (t := 1) (n := 1) rfl rfl, nofun⟩
  exact ⟨_, h2, rfl, ((pipe_rested h2).nread 1 rfl).1⟩

theorem pipewrite_killed {xs : List UInt8} (hq : s.pipe.Holds xs) (hk : s.killed t = true)
    (hlen : PIPESIZE < xs.length + rest.length) : (s.pipewrite t n rest).1.pc = (s.goto t .out).pc ∧
      (s.pipewrite t n rest).1.pipe.isFull = true := by
  obtain ⟨hholds, hsplit, hend, -, -⟩ := Pipe.store_holds rest hq
  rw [(pipewrite_pipe s t n rest).1]
  have hle := hholds.length_le
  rw [List.length_append] at hle
  have hrest : (s.pipe.store rest).2.1 ≠ [] := by
    intro hnil
    rw [hnil, List.append_nil] at hsplit
    rw [← hsplit] at hle
    omega
  refine ⟨?_, hend.resolve_left hrest⟩
  simp only [PipeSys.pipewrite]
  split
  · rename_i hnil
    exact absurd hnil hrest
  · rw [if_pos (by rw [Bool.or_eq_true]; exact .inr hk)]
    rfl

theorem pipewrite_strands {xs : List UInt8} (hq : s.pipe.Holds xs) (hk : s.killed t = true)
    (hlen : PIPESIZE < xs.length + rest.length) (hp : s.pc t = .write n rest)
    (hsleep : s.SleepsOn q .nread) :
    (s.pipewrite t n rest).1.SleepsOn q .nread ∧ (s.pipewrite t n rest).1.pipe.isFull = true ∧
      ¬ (s.pipewrite t n rest).1.Rested := by
  obtain ⟨hpc, hfull⟩ := pipewrite_killed (n := n) hq hk hlen
  have hne : q ≠ t := by
    rintro rfl
    rw [SleepsOn, hp] at hsleep
    cases hsleep
  have hsleep' : (s.pipewrite t n rest).1.SleepsOn q .nread := by
    rw [SleepsOn, hpc, goto_other hne]
    exact hsleep
  refine ⟨hsleep', hfull, fun hr => ?_⟩
  have hempty := (hr.nread q hsleep').1
  rw [Fifo.isEmpty, beq_iff_eq] at hempty
  rw [Fifo.isFull, beq_iff_eq, ← hempty, UInt32.left_eq_add] at hfull
  cases hfull

/-- Process 1 sleeps in `piperead`. Process 0 has called `pipewrite` with 513 bytes and is killed
before it has the lock: it stores 512 bytes and returns -1, and process 1 sleeps on. -/
theorem killed_writer_strands_reader :
    ∃ s, Reach Init Step s ∧ s.SleepsOn 1 .nread ∧ s.pipe.isFull = true ∧ ¬ s.Rested := by
  have h0 : Reach Init Step freshPipe := .start freshPipe_init
  have h1 := h0.step (.callRead (t := 1) 1 rfl)
  have h2 := h1.step (.read (t := 1) (n := 1) rfl rfl)
  have h3 := h2.step (.callWrite (t := 0) 513 (fun _ => 7) rfl)
  have h4 := h3.step (.kill 0)
  have h5 := h4.step (.write (t := 0) (n := 513) rfl rfl)
  refine ⟨_, h5, pipewrite_strands (.nil rfl) rfl ?_ rfl rfl⟩
  rw [List.length_map, List.length_range]
  decide

end PipeSys
end Xv6.Ipc
