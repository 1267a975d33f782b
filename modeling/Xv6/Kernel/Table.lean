import Xv6.Block

/-!
# Xv6.Kernel.Table

`struct proc` and the process table.

Pointers into the table are slots; other pointers (page tables, stacks, files, inodes) are
addresses, with 0 for the null pointer. The kernel's C floats are modelled by rationals.
-/

namespace Xv6.Kernel

inductive ProcState where
  | unused
  | embryo
  | sleeping
  | runnable
  | running
  | zombie
  deriving DecidableEq, Repr

/-- How the kernel goes wrong in this part of it: a `panic`, a division that traps, or an access
outside an array or through a null pointer, after which nothing is known. -/
inductive Fault where
  | noKstack
  | noPgdir
  | initExiting
  | zombieExit
  | kfree
  | freevm
  | divide
  | outside
  deriving DecidableEq, Repr

/-- The `int` with the low 32 bits of `i`. -/
def wrap (i : Int) : Int := i.bmod (2 ^ 32)

/-- A `struct proc *` that is not null. -/
abbrev Slot : Type := Fin NPROC

/-- The values of `p->chan`: null, a process (as `wait` uses it), or another kernel address. -/
inductive Chan where
  | null
  | proc (s : Slot)
  | addr (a : Nat)
  deriving DecidableEq, Repr

structure Proc where
  sz : UInt32
  pgdir : Nat
  kstack : Nat
  state : ProcState
  pid : Int
  parent : Option Slot
  tf : Nat
  context : Nat
  chan : Chan
  killed : Int
  ofile : Fin NOFILE → Nat
  cwd : Nat
  name : Fin 16 → UInt8
  tickets : Int
  arrivalTime : Int
  executedCycle : ℚ
  priorityRatio : Int
  arrivalTimeRatio : Int
  executedCycleRatio : Int
  level : Int
  waited : Int
  deriving DecidableEq

/-- The contents of a slot that was never used. -/
def Proc.zero : Proc where
  sz := 0
  pgdir := 0
  kstack := 0
  state := .unused
  pid := 0
  parent := none
  tf := 0
  context := 0
  chan := .null
  killed := 0
  ofile := fun _ => 0
  cwd := 0
  name := fun _ => 0
  tickets := 0
  arrivalTime := 0
  executedCycle := 0
  priorityRatio := 0
  arrivalTimeRatio := 0
  executedCycleRatio := 0
  level := 0
  waited := 0

abbrev PTable : Type := Slot → Proc

/-- `for(p = ptable.proc; p < &ptable.proc[NPROC]; p++)`. -/
def slots : List Slot := List.finRange NPROC

theorem mem_slots (s : Slot) : s ∈ slots := List.mem_finRange s

namespace PTable

/-- The slot is not `UNUSED`. -/
def Live (t : PTable) (s : Slot) : Prop := (t s).state ≠ .unused

instance (t : PTable) (s : Slot) : Decidable (t.Live s) := inferInstanceAs (Decidable (_ ≠ _))

end PTable

end Xv6.Kernel
