import Xv6.Kernel.LevelChange
import Xv6.Kernel.Sched
import Xv6.Kernel.Sem

/-!
# Xv6.Kernel.Life

The life of a process: `fork`, `exit`, `wait`, `kill`, `sleep`, `wakeup` and `yield`, with the
semaphores and `level_change`, on any number of processors.

A step is what one processor does while it holds `ptable.lock`, or one of the parts of `fork` that
run without it. `Pc` is where the kernel thread of a process goes on. Everything else a process does
between such steps does not touch the process table.
-/

namespace Xv6.Kernel

open Function

instance : NeZero NCPU := ⟨by decide⟩

abbrev Cpu : Type := Fin NCPU

/-- Where the kernel thread of a process is: outside these functions; after `sched` in `sleep`; in
`fork`, before the allocation of the stack, before `copyuvm`, or before the last assignment; after
`sched` in `exit`. -/
inductive Pc where
  | idle
  | asleep
  | forkStack (np : Slot)
  | forkCopy (np : Slot)
  | forkRun (np : Slot)
  | exited
  deriving DecidableEq, Repr

/-- `system_priority_ratio`, `system_arrival_time_ratio`, `system_executed_cycle_ratio`. -/
structure Ratios where
  priority : Int
  arrivalTime : Int
  executedCycle : Int

/-- The state: the semaphores and the process table, `initproc`, `nextpid`, the process on each
processor, the kernel threads, and the page directories that are in use. -/
structure Kern extends SemSys where
  initproc : Slot
  nextpid : Int
  ratios : Ratios
  cpu : Cpu → Option Slot
  pc : Slot → Pc
  pgdirs : Finset Nat

def wakeup1 (t : PTable) (chan : Chan) : PTable := fun p =>
  if (t p).state = .sleeping ∧ (t p).chan = chan then { t p with state := .runnable } else t p

/-- A pointer to a process, as a channel. -/
def Chan.ofProc : Option Slot → Chan
  | none => .null
  | some p => .proc p

/-- `safestrcpy(s, t, 16)`: the bytes up to the first zero, or 15 of them, and one more zero. -/
def safestrcpy (s t : Fin 16 → UInt8) : Fin 16 → UInt8 :=
  let last : Fin 16 := (((List.finRange 16).take 15).find? fun i => t i = 0).getD 14
  fun i => if i ≤ last then t i else if i.val = last.val + 1 then 0 else s i

/-- The fields that `fork` and `allocproc` both set. -/
def Proc.custom (p : Proc) (tickets level : Int) (clock : RtcDate) (r : Ratios) : Proc :=
  { p with
    tickets
    arrivalTime := wrap clock.time.toNat
    executedCycle := 0
    priorityRatio := r.priority
    arrivalTimeRatio := r.arrivalTime
    executedCycleRatio := r.executedCycle
    level
    waited := 0 }

/-- `allocproc` from `found` on, until it releases the lock. -/
def Proc.embryo (p : Proc) (pid : Int) (clock : RtcDate) (r : Ratios) : Proc :=
  { p with state := .embryo, pid }.custom 10 1 clock r

/-- The rest of `allocproc`, with a stack: a trap frame of 76 bytes at its top, the return address
below it, and a context of 20 bytes. -/
def Proc.withStack (p : Proc) (kstack : Nat) : Proc :=
  { p with kstack, tf := kstack + 4096 - 76, context := kstack + 4096 - 76 - 4 - 20 }

/-- What `fork` copies from `curproc` to the child. -/
def Proc.copyFrom (np : Proc) (s : Slot) (curproc : Proc) (pgdir : Nat) (clock : RtcDate)
    (r : Ratios) : Proc :=
  { { np with
      pgdir
      sz := curproc.sz
      parent := some s
      ofile := fun i => if curproc.ofile i ≠ 0 then curproc.ofile i else np.ofile i
      cwd := curproc.cwd }.custom 1 2 clock r with
    name := safestrcpy np.name curproc.name }

/-- A slot whose allocation failed. -/
def Proc.abandoned (p : Proc) : Proc := { p with kstack := 0, state := .unused }

/-- The loop of `exit` that passes the children of `s` to `initproc`. -/
def reparent (init s : Slot) : List Slot → PTable → PTable
  | [], t => t
  | p :: ps, t =>
    if (t p).parent = some s then
      let t := update t p { t p with parent := some init }
      reparent init s ps (if (t p).state = .zombie then wakeup1 t (.proc init) else t)
    else reparent init s ps t

/-- A child that `wait` has found. -/
def Proc.reaped (p : Proc) : Proc :=
  { p with
    kstack := 0
    pid := 0
    parent := none
    name := update p.name 0 0
    killed := 0
    state := .unused }

namespace Kern

/-- The process of processor `c` enters the scheduler, to go on at `pc`. -/
def sched (k : Kern) (c : Cpu) (s : Slot) (pc : Pc) (t : PTable) : Kern :=
  { k with ptable := t, cpu := update k.cpu c none, pc := update k.pc s pc }

/-- The child is in slot `np` from now on, and `fork` goes on at `pc`. -/
def forking (k : Kern) (s np : Slot) (p : Proc) (pc : Pc) : Kern :=
  { k with ptable := update k.ptable np p, pc := update k.pc s pc }

/-- The thread of `p` goes on. One that comes back in `sleep` clears its channel. -/
def resume (k : Kern) (p : Slot) : Except Fault Kern :=
  match k.pc p with
  | .exited => .error .zombieExit
  | .asleep => .ok { k with
      ptable := update k.ptable p { k.ptable p with chan := .null }
      pc := update k.pc p .idle }
  | _ => .ok k

/-- The scheduler of processor `c` switches to `p`. -/
def dispatch (k : Kern) (c : Cpu) (p : Slot) : Except Fault Kern := do
  switchuvm (k.ptable p)
  resume { k with
    ptable := update k.ptable p (k.ptable p).chosen
    cpu := update k.cpu c (some p) } p

def yield (k : Kern) (c : Cpu) (s : Slot) : Kern :=
  k.sched c s (k.pc s) (update k.ptable s { k.ptable s with state := .runnable })

/-- `sleep(chan, lk)`, up to `sched`. -/
def sleep (k : Kern) (c : Cpu) (s : Slot) (chan : Chan) : Kern :=
  k.sched c s .asleep (update k.ptable s { k.ptable s with chan, state := .sleeping })

def wakeup (k : Kern) (chan : Chan) : Kern := { k with ptable := wakeup1 k.ptable chan }

def kill (k : Kern) (pid : Int) : Int × Kern :=
  match findWithPid k.ptable pid with
  | none => (-1, k)
  | some p =>
    let r := { k.ptable p with killed := 1 }
    let r := if r.state = .sleeping then { r with state := .runnable } else r
    (0, { k with ptable := update k.ptable p r })

/-- `exit()`, from the closing of the files on. -/
def exit (k : Kern) (c : Cpu) (s : Slot) : Except Fault Kern :=
  if s = k.initproc then .error .initExiting
  else
    let t := update k.ptable s { k.ptable s with ofile := fun _ => 0, cwd := 0 }
    let t := wakeup1 t (.ofProc (t s).parent)
    let t := reparent k.initproc s slots t
    .ok (k.sched c s .exited (update t s { t s with state := .zombie }))

/-- The scan of `wait`: whether there are children, and the first that has exited. -/
def findZombie (t : PTable) (s : Slot) : Option Slot :=
  slots.find? fun p => (t p).parent = some s ∧ (t p).state = .zombie

/-- One round of the loop of `wait()`: the pid of a child, -1, or nothing yet. -/
def wait (k : Kern) (c : Cpu) (s : Slot) : Except Fault (Option Int × Kern) :=
  match findZombie k.ptable s with
  | some p =>
    if (k.ptable p).kstack = 0 then .error .kfree
    else if (k.ptable p).pgdir = 0 then .error .freevm
    else .ok (some (k.ptable p).pid, { k with
      ptable := update k.ptable p (k.ptable p).reaped
      pc := update k.pc p .idle
      pgdirs := k.pgdirs.erase (k.ptable p).pgdir })
  | none =>
    if (∀ p, (k.ptable p).parent ≠ some s) ∨ (k.ptable s).killed ≠ 0 then .ok (some (-1), k)
    else .ok (none, k.sleep c s (.proc s))

/-- `fork()` up to the release of the lock in `allocproc`. -/
def forkStart (k : Kern) (s : Slot) (clock : RtcDate) : Kern :=
  match slots.find? fun p => (k.ptable p).state = .unused with
  | none => k
  | some np =>
    { k.forking s np ((k.ptable np).embryo k.nextpid clock k.ratios) (.forkStack np) with
      nextpid := wrap (k.nextpid + 1) }

/-- The rest of `allocproc()`; `kalloc` returns `kstack`. -/
def forkStack (k : Kern) (s np : Slot) (kstack : Nat) : Kern :=
  if kstack = 0 then k.forking s np (k.ptable np).abandoned .idle
  else k.forking s np ((k.ptable np).withStack kstack) (.forkCopy np)

/-- `fork()` from `copyuvm`, which returns `pgdir`, to its last lock. -/
def forkCopy (k : Kern) (s np : Slot) (pgdir : Nat) (clock : RtcDate) : Kern :=
  if pgdir = 0 then k.forking s np { k.ptable np with pgdir := 0 }.abandoned .idle
  else
    { k.forking s np ((k.ptable np).copyFrom s (k.ptable s) pgdir clock k.ratios) (.forkRun np) with
      pgdirs := insert pgdir k.pgdirs }

/-- The last assignment of `fork()`. -/
def forkRun (k : Kern) (s np : Slot) : Kern :=
  k.forking s np { k.ptable np with state := .runnable } .idle

end Kern

/-- What the process on a processor does next. The results of `kalloc`, `copyuvm` and `cmostime`,
and the local variable of `level_change`, come from outside. -/
inductive Op where
  | yield
  | sleep (chan : Chan)
  | kill (pid : Int)
  | exit
  | wait
  | forkStart (clock : RtcDate)
  | forkStack (kstack : Nat)
  | forkCopy (pgdir : Nat) (clock : RtcDate)
  | forkRun
  | sem (c : SemCall)
  | levelChange (temp : Proc) (pid level : Int)

inductive Event where
  | dispatch (c : Cpu) (p : Slot)
  | wakeup (chan : Chan)
  | op (c : Cpu) (o : Op)

namespace Kern

/-- The process `s` on processor `c` does `o`; `none` where its thread is somewhere else. -/
def exec (k : Kern) (c : Cpu) (s : Slot) : Op → Pc → Option (Except Fault Kern)
  | .yield, _ => some (.ok (k.yield c s))
  | .sleep chan, .idle => some (.ok (k.sleep c s chan))
  | .kill pid, .idle => some (.ok (k.kill pid).2)
  | .exit, .idle => some (k.exit c s)
  | .wait, .idle => some ((k.wait c s).map Prod.snd)
  | .forkStart clock, .idle => some (.ok (k.forkStart s clock))
  | .forkStack kstack, .forkStack np => some (.ok (k.forkStack s np kstack))
  | .forkCopy pgdir clock, .forkCopy np =>
    if pgdir ∈ k.pgdirs then none else some (.ok (k.forkCopy s np pgdir clock))
  | .forkRun, .forkRun np => some (.ok (k.forkRun s np))
  | .sem call, .idle =>
    some ((k.toSemSys.call s call).map fun r => { k with toSemSys := r.2 })
  | .levelChange temp pid level, .idle =>
    some (.ok { k with ptable := (levelChange temp k.ptable pid level).2 })
  | _, _ => none

/-- One step; `none` where the event cannot happen. -/
def step (k : Kern) : Event → Option (Except Fault Kern)
  | .dispatch c p =>
    if k.cpu c = none ∧ (k.ptable p).state = .runnable then some (k.dispatch c p) else none
  | .wakeup chan => some (.ok (k.wakeup chan))
  | .op c o =>
    match k.cpu c with
    | none => none
    | some s => k.exec c s o (k.pc s)

/-- The state after `userinit`, on a machine whose processors are all in the scheduler. -/
def userinit (kstack pgdir cwd : Nat) (clock : RtcDate) : Kern where
  sems := fun _ => .zero
  ptable := update (fun _ => .zero) 0
    { (Proc.zero.embryo 1 clock ⟨1, 1, 1⟩).withStack kstack with
      pgdir
      sz := 4096
      name := safestrcpy Proc.zero.name
        ![105, 110, 105, 116, 99, 111, 100, 101, 0, 0, 0, 0, 0, 0, 0, 0]
      cwd
      state := .runnable }
  initproc := 0
  nextpid := 2
  ratios := ⟨1, 1, 1⟩
  cpu := fun _ => none
  pc := fun _ => .idle
  pgdirs := {pgdir}

def Init (k : Kern) : Prop :=
  ∃ kstack pgdir cwd clock, kstack ≠ 0 ∧ pgdir ≠ 0 ∧ k = userinit kstack pgdir cwd clock

end Kern

/-- The slot holds a process that `fork` has finished. -/
def ProcState.Settled (st : ProcState) : Prop := st ≠ .unused ∧ st ≠ .embryo

instance (st : ProcState) : Decidable st.Settled := inferInstanceAs (Decidable (_ ∧ _))

/-- The child that a process in `fork` is making. -/
def Pc.child : Pc → Option Slot
  | .forkStack np => some np
  | .forkCopy np => some np
  | .forkRun np => some np
  | _ => none

namespace Kern

def HasStack (k : Kern) (s : Slot) : Prop :=
  (k.ptable s).state.Settled ∨ ∃ q, k.pc q = .forkCopy s ∨ k.pc q = .forkRun s

def HasSpace (k : Kern) (s : Slot) : Prop :=
  (k.ptable s).state.Settled ∨ ∃ q, k.pc q = .forkRun s

/-- Stacks and page directories are there for those that need them, and no page directory is
shared. -/
structure Owning (k : Kern) : Prop where
  stack : ∀ s, k.HasStack s → (k.ptable s).kstack ≠ 0
  space : ∀ s, k.HasSpace s → (k.ptable s).pgdir ≠ 0 ∧ (k.ptable s).pgdir ∈ k.pgdirs
  alone : ∀ s s', k.HasSpace s → k.HasSpace s' →
    (k.ptable s).pgdir = (k.ptable s').pgdir → s = s'

structure Safe (k : Kern) : Prop where
  owning : k.Owning
  /-- A process on a processor is running, and on no other. -/
  running : ∀ c s, k.cpu c = some s → (k.ptable s).state = .running
  alone : ∀ c c' s, k.cpu c = some s → k.cpu c' = some s → c = c'
  /-- A process in `fork` is not stopped, and its child is its own. -/
  forking : ∀ s np, (k.pc s).child = some np → (k.ptable np).state = .embryo ∧
    ((k.ptable s).state = .runnable ∨ (k.ptable s).state = .running)
  forkAlone : ∀ s s' np, (k.pc s).child = some np → (k.pc s').child = some np → s = s'
  exited : ∀ s, k.pc s = .exited → (k.ptable s).state = .zombie
  /-- No process waits at a semaphore. -/
  sems : ∀ j, (k.sems j).Ok ∧ 0 ≤ (k.sems j).value

end Kern

end Xv6.Kernel
