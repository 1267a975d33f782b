import Xv6.Lib.Fifo
import Xv6.Lib.Run

/-!
# Xv6.Ipc.Pipe

One pipe of `pipe.c` and any number of processes that write to it, read from it, close it and are
killed.

A step is what a process does between two points where `p->lock` is free: from `acquire` (or from
the end of a `sleep`) to `release` (or to the next `sleep`). `kill` and `wakeup` take `ptable.lock`
only; a call looks at `killed` once between two such points, so a `kill` in the middle of a step is
the same as one before or after it. `kfree` of the pipe ends the run.

`pipe_fifo`: what `piperead` returns is what `pipewrite` stored, in order, without the bytes still
in the buffer.
-/

namespace Xv6.Ipc

open List

abbrev PIPESIZE : Nat := 512

/-- `struct pipe`, its lock apart. -/
structure Pipe extends Fifo UInt8 PIPESIZE where
  readopen : Bool
  writeopen : Bool

namespace Pipe

/-- The loop of `pipewrite` up to its end or to a full buffer: the bytes stored, those left, and the
pipe. -/
def store : List UInt8 → Pipe → List UInt8 × List UInt8 × Pipe
  | [], p => ([], [], p)
  | b :: bs, p =>
    if p.isFull then ([], b :: bs, p)
    else
      let (done, rest, p) := store bs { p with toFifo := p.put b }
      (b :: done, rest, p)

/-- The loop of `piperead` over at most `n` bytes. -/
def fetch : Nat → Pipe → List UInt8 × Pipe
  | 0, p => ([], p)
  | n + 1, p =>
    if p.isEmpty then ([], p)
    else
      let (b, q) := p.get
      let (bs, p) := fetch n { p with toFifo := q }
      (b :: bs, p)

end Pipe

/-- The two channels of a pipe: `&p->nread` and `&p->nwrite`. -/
inductive Chan where
  | nread
  | nwrite
  deriving DecidableEq

/-- Where a process stands. In `write` and `read` it waits for `p->lock`, at the start of its call
or after a `sleep`; in the other two it is SLEEPING. -/
inductive Pc where
  | out
  | write (n : Int) (rest : List UInt8)
  | sleepWrite (n : Int) (rest : List UInt8)
  | read (n : Int)
  | sleepRead (n : Int)

def Pc.wakeup : Chan → Pc → Pc
  | .nwrite, .sleepWrite n rest => .write n rest
  | .nread, .sleepRead n => .read n
  | _, pc => pc

structure PipeSys where
  pipe : Pipe
  freed : Bool
  pc : Nat → Pc
  killed : Nat → Bool

namespace PipeSys

def goto (s : PipeSys) (t : Nat) (pc : Pc) : PipeSys := { s with pc := Function.update s.pc t pc }

def wakeup (s : PipeSys) (c : Chan) : PipeSys := { s with pc := fun t => (s.pc t).wakeup c }

/-- `pipewrite` with `bytes` still to store, until it returns or sleeps: the bytes it stores, and
its return value. -/
def pipewrite (s : PipeSys) (t : Nat) (n : Int) (bytes : List UInt8) :
    PipeSys × List UInt8 × Option Int :=
  let (done, rest, p) := s.pipe.store bytes
  let s := { s with pipe := p }
  match rest with
  | [] => ((s.wakeup .nread).goto t .out, done, some n)
  | _ :: _ =>
    if !p.readopen || s.killed t then (s.goto t .out, done, some (-1))
    else ((s.wakeup .nread).goto t (.sleepWrite n rest), done, none)

/-- `piperead` until it returns or sleeps: the bytes it reads, and its return value. -/
def piperead (s : PipeSys) (t : Nat) (n : Int) : PipeSys × List UInt8 × Option Int :=
  if s.pipe.isEmpty && s.pipe.writeopen then
    if s.killed t then (s.goto t .out, [], some (-1)) else (s.goto t (.sleepRead n), [], none)
  else
    let (bytes, p) := s.pipe.fetch n.toNat
    (({ s with pipe := p }.wakeup .nwrite).goto t .out, bytes, some bytes.length)

def pipeclose (s : PipeSys) (writable : Bool) : PipeSys :=
  let s :=
    if writable then { s with pipe := { s.pipe with writeopen := false } }.wakeup .nread
    else { s with pipe := { s.pipe with readopen := false } }.wakeup .nwrite
  if !s.pipe.readopen && !s.pipe.writeopen then { s with freed := true } else s

/-- `kill` wakes a process whatever it sleeps on. -/
def kill (s : PipeSys) (t : Nat) : PipeSys :=
  { s with
    pc := Function.update s.pc t (((s.pc t).wakeup .nread).wakeup .nwrite)
    killed := Function.update s.killed t true }

end PipeSys

inductive PipeEvent where
  | callWrite (t : Nat) (n : Int) (addr : Nat → UInt8)
  | callRead (t : Nat) (n : Int)
  | write (t : Nat) (done : List UInt8) (ret : Option Int)
  | read (t : Nat) (n : Int) (bytes : List UInt8) (ret : Option Int)
  | close (writable : Bool)
  | kill (t : Nat)

namespace PipeSys

inductive Step : PipeSys → PipeEvent → PipeSys → Prop where
  | callWrite {s : PipeSys} {t : Nat} (n : Int) (addr : Nat → UInt8) : s.pc t = .out →
      Step s (.callWrite t n addr) (s.goto t (.write n ((range n.toNat).map addr)))
  | callRead {s : PipeSys} {t : Nat} (n : Int) : s.pc t = .out →
      Step s (.callRead t n) (s.goto t (.read n))
  | write {s : PipeSys} {t : Nat} {n : Int} {rest : List UInt8} : s.freed = false →
      s.pc t = .write n rest →
      Step s (.write t (s.pipewrite t n rest).2.1 (s.pipewrite t n rest).2.2)
        (s.pipewrite t n rest).1
  | read {s : PipeSys} {t : Nat} {n : Int} : s.freed = false → s.pc t = .read n →
      Step s (.read t n (s.piperead t n).2.1 (s.piperead t n).2.2) (s.piperead t n).1
  | close {s : PipeSys} (writable : Bool) : s.freed = false →
      Step s (.close writable) (s.pipeclose writable)
  | kill {s : PipeSys} (t : Nat) : Step s (.kill t) (s.kill t)

/-- After `pipealloc`, before any call. -/
structure Init (s : PipeSys) : Prop where
  nread : s.pipe.nread = 0
  nwrite : s.pipe.nwrite = 0
  readopen : s.pipe.readopen = true
  writeopen : s.pipe.writeopen = true
  live : s.freed = false
  out : ∀ t, s.pc t = .out

end PipeSys

/-- The bytes stored by the `pipewrite` calls of a run, in order. -/
def stored (es : List PipeEvent) : List UInt8 :=
  es.flatMap fun
    | .write _ done _ => done
    | _ => []

/-- The bytes returned by the `piperead` calls of a run, in order. -/
def returned (es : List PipeEvent) : List UInt8 :=
  es.flatMap fun
    | .read _ _ bytes _ => bytes
    | _ => []

namespace Pipe

variable {p : Pipe} {xs : List UInt8}

theorem dvd_range : PIPESIZE ∣ 2 ^ 32 := by decide

theorem lt_range : PIPESIZE < 2 ^ 32 := by decide

theorem store_holds : ∀ (bs : List UInt8) {p : Pipe} {xs : List UInt8}, p.Holds xs →
    (p.store bs).2.2.Holds (xs ++ (p.store bs).1) ∧
      bs = (p.store bs).1 ++ (p.store bs).2.1 ∧
      ((p.store bs).2.1 = [] ∨ (p.store bs).2.2.isFull = true) ∧
      (p.store bs).2.2.readopen = p.readopen ∧ (p.store bs).2.2.writeopen = p.writeopen := by
  intro bs
  induction bs with
  | nil =>
    intro p xs h
    rw [store, append_nil]
    exact ⟨h, rfl, .inl rfl, rfl, rfl⟩
  | cons b bs ih =>
    intro p xs h
    rw [store]
    by_cases hf : p.isFull = true
    · rw [if_pos hf, append_nil]
      exact ⟨h, rfl, .inr hf, rfl, rfl⟩
    · rw [if_neg hf]
      have hroom : xs.length < PIPESIZE := by
        have hle := h.length_le
        have hne : xs.length ≠ PIPESIZE := fun heq => hf ((h.isFull_iff lt_range).mpr heq)
        omega
      obtain ⟨hq, heq, hend, hr, hw⟩ :=
        ih (p := { p with toFifo := p.put b }) (h.put dvd_range hroom b)
      rw [append_assoc, singleton_append] at hq
      exact ⟨hq, by rw [cons_append, ← heq], hend, hr, hw⟩

theorem fetch_holds : ∀ {n : Nat} {p : Pipe} {xs : List UInt8}, p.Holds xs →
    (p.fetch n).1 = xs.take n ∧ (p.fetch n).2.Holds (xs.drop n) ∧
      (p.fetch n).2.readopen = p.readopen ∧ (p.fetch n).2.writeopen = p.writeopen := by
  intro n
  induction n with
  | zero =>
    intro p xs h
    exact ⟨rfl, h, rfl, rfl⟩
  | succ n ih =>
    intro p xs h
    rw [fetch]
    by_cases he : p.isEmpty = true
    · cases (h.isEmpty_iff lt_range).mp he
      rw [if_pos he]
      exact ⟨rfl, h, rfl, rfl⟩
    · rw [if_neg he]
      cases xs with
      | nil => exact absurd ((h.isEmpty_iff lt_range).mpr rfl) he
      | cons x xs =>
        obtain ⟨hx, hq⟩ := h.get dvd_range
        obtain ⟨hb, hq', hr, hw⟩ := ih (p := { p with toFifo := p.get.2 }) hq
        refine ⟨?_, hq', hr, hw⟩
        rw [take_succ_cons, ← hx, ← hb]

end Pipe

namespace PipeSys

variable {s s' : PipeSys} {e : PipeEvent} {t : Nat} {n : Int} {rest : List UInt8}

theorem pipewrite_pipe (s : PipeSys) (t : Nat) (n : Int) (bytes : List UInt8) :
    (s.pipewrite t n bytes).1.pipe = (s.pipe.store bytes).2.2 ∧
      (s.pipewrite t n bytes).2.1 = (s.pipe.store bytes).1 := by
  simp only [pipewrite]
  split
  · exact ⟨rfl, rfl⟩
  · split
    · exact ⟨rfl, rfl⟩
    · exact ⟨rfl, rfl⟩

theorem pipeclose_fifo (s : PipeSys) (writable : Bool) :
    (s.pipeclose writable).pipe.toFifo = s.pipe.toFifo := by
  cases writable with
  | true =>
    simp only [pipeclose, if_true]
    split <;> rfl
  | false =>
    simp only [pipeclose, Bool.false_eq_true, if_false]
    split <;> rfl

theorem Step.queue {xs : List UInt8} (hs : Step s e s') (h : s.pipe.Holds xs) :
    ∃ xs', s'.pipe.Holds xs' ∧ xs ++ stored [e] = returned [e] ++ xs' := by
  cases hs with
  | callWrite n addr hp => exact ⟨xs, h, by simp [stored, returned]⟩
  | callRead n hp => exact ⟨xs, h, by simp [stored, returned]⟩
  | @write t n rest hf hp =>
    obtain ⟨hpipe, hdone⟩ := pipewrite_pipe s t n rest
    rw [hpipe, hdone]
    exact ⟨_, (Pipe.store_holds _ h).1, by simp [stored, returned]⟩
  | @read t n hf hp =>
    simp only [piperead]
    split
    · split
      · exact ⟨xs, h, by simp [stored, returned]⟩
      · exact ⟨xs, h, by simp [stored, returned]⟩
    · obtain ⟨hbytes, hq, -, -⟩ := Pipe.fetch_holds (n := n.toNat) h
      refine ⟨xs.drop n.toNat, hq, ?_⟩
      simp [stored, returned, hbytes]
  | close writable hf => exact ⟨xs, by rw [pipeclose_fifo]; exact h, by simp [stored, returned]⟩
  | kill t => exact ⟨xs, h, by simp [stored, returned]⟩

theorem Step.stores {xs done : List UInt8} {ret : Option Int}
    (hs : Step s (.write t done ret) s') (hp : s.pc t = .write n rest) (h : s.pipe.Holds xs) :
    ∃ left, rest = done ++ left ∧ (s'.pc t = .out ∨ s'.pc t = .sleepWrite n left) := by
  cases hs with
  | @write _ n' rest' _ hp' =>
    cases hp.symm.trans hp'
    refine ⟨(s.pipe.store rest).2.1, ?_, ?_⟩
    · rw [(pipewrite_pipe s t n rest).2]
      exact (Pipe.store_holds rest h).2.1
    · simp only [pipewrite]
      split
      · exact .inl (Function.update_self ..)
      · rename_i hrest
        split
        · exact .inl (Function.update_self ..)
        · rw [hrest]
          exact .inr (Function.update_self ..)

theorem run_queue {s0 : PipeSys} {es : List PipeEvent} (h0 : Init s0) (h : Run Step s0 es s) :
    ∃ xs, s.pipe.Holds xs ∧ stored es = returned es ++ xs := by
  induction h with
  | nil => exact ⟨[], .nil (by rw [h0.nwrite, h0.nread]), rfl⟩
  | @snoc s1 s2 es e _ hst ih =>
    obtain ⟨xs, hq, heq⟩ := ih
    obtain ⟨xs', hq', heq'⟩ := hst.queue hq
    refine ⟨xs', hq', ?_⟩
    calc stored (es ++ [e]) = stored es ++ stored [e] := by simp [stored]
      _ = returned es ++ (xs ++ stored [e]) := by rw [heq, append_assoc]
      _ = returned (es ++ [e]) ++ xs' := by
        rw [heq', ← append_assoc]
        simp [returned]

theorem Step.read_zero {xs bytes : List UInt8} (hs : Step s (.read t n bytes (some 0)) s')
    (hn : 0 < n) (h : s.pipe.Holds xs) : xs = [] ∧ s.pipe.writeopen = false := by
  generalize hret : some (0 : Int) = ret at hs
  cases hs with
  | read hf hp =>
    simp only [piperead] at hret
    split at hret
    · split at hret
      · simp at hret
      · simp at hret
    · rename_i hopen
      obtain ⟨hbytes, -⟩ := Pipe.fetch_holds (n := n.toNat) h
      simp only [hbytes, length_take, Option.some.injEq] at hret
      have hxs : xs = [] := length_eq_zero_iff.mp (by omega)
      refine ⟨hxs, ?_⟩
      rw [(h.isEmpty_iff Pipe.lt_range).mpr hxs, Bool.true_and] at hopen
      exact Bool.not_eq_true _ ▸ hopen

end PipeSys

/-- In every run: the counters differ by at most `PIPESIZE`; the bytes read are the bytes stored up
to those in the buffer; what a writer stores is the beginning of what it has left to write; and a
`piperead` returns 0 only at the end of the stream. -/
theorem pipe_fifo {s0 s : PipeSys} {es : List PipeEvent} (h0 : s0.Init)
    (h : Run PipeSys.Step s0 es s) : (s.pipe.nwrite - s.pipe.nread).toNat ≤ PIPESIZE ∧
      stored es = returned es ++ s.pipe.contents ∧
      (∀ t n rest done ret s', s.pc t = .write n rest → s.Step (.write t done ret) s' →
        ∃ left, rest = done ++ left ∧ (s'.pc t = .out ∨ s'.pc t = .sleepWrite n left)) ∧
      ∀ t n bytes s', s.Step (.read t n bytes (some 0)) s' → 0 < n →
        stored es = returned es ∧ s.pipe.writeopen = false := by
  obtain ⟨xs, hq, heq⟩ := PipeSys.run_queue h0 h
  refine ⟨?_, ?_, fun t n rest done ret s' hp hs => hs.stores hp hq, ?_⟩
  · rw [hq.count_sub Pipe.lt_range]
    exact hq.length_le
  · rw [hq.contents_eq Pipe.lt_range]
    exact heq
  · intro t n bytes s' hs hn
    obtain ⟨rfl, hw⟩ := hs.read_zero hn hq
    rw [heq, append_nil]
    exact ⟨rfl, hw⟩

def freshPipe : PipeSys :=
  ⟨⟨⟨fun _ => 0, 0, 0⟩, true, true⟩, false, fun _ => .out, fun _ => false⟩

theorem freshPipe_init : freshPipe.Init := ⟨rfl, rfl, rfl, rfl, rfl, fun _ => rfl⟩

/-- Three bytes are written, two are read. -/
theorem pipe_fifo_three : ∃ (s : PipeSys) (es : List PipeEvent), Run PipeSys.Step freshPipe es s ∧
      stored es = [1, 2, 3] ∧ returned es = [1, 2] ∧ stored es =
        returned es ++ s.pipe.contents := by
  have h1 := Run.single
    (PipeSys.Step.callWrite (s := freshPipe) (t := 0) 3 (fun i => UInt8.ofNat (i + 1)) rfl)
  have h2 := h1.snoc (.write (t := 0) (n := 3) rfl rfl)
  have h3 := h2.snoc (.callRead (t := 1) 2 rfl)
  have h4 := h3.snoc (.read (t := 1) (n := 2) rfl rfl)
  exact ⟨_, _, h4, rfl, rfl, (pipe_fifo freshPipe_init h4).2.1⟩

end Xv6.Ipc
