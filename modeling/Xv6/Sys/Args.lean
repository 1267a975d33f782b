import Xv6.Kernel.Children
import Xv6.Kernel.Trace
import Xv6.Sys.Fetch
import Xv6.Sys.Refs

/-!
# Xv6.Sys.Args

What the handlers of `sysfile.c`, `sysproc.c` and `proc.c` do with an argument word that cannot be
fetched.

The handlers of the standard calls give up when `argint`, `argptr` or `argstr` does. Those added
later take their arguments as parameters, which nobody passes, and call `argint` only to overwrite
them: where `argint` fails, the parameter keeps what the kernel stack had in its place. `KStack` is
that part of the kernel stack. What a standard call does once it has its arguments is the
parameter `Rest` where no other module has it.
-/

namespace Xv6.Sys
namespace Args

open Kernel Bytes

variable {r sid : Int} {stack : KStack} {g : Log.LogSt} {n : Nat} {s : St} {c : SysCall}

namespace User

/-! What the fetches of `Xv6.Sys.Fetch` find. -/

def argint (u : User) (n : Nat) : Option Int := (Fetch.argint u n).out

def argptr (u : User) (n : Nat) (size : Int) : Option UInt32 := (Fetch.argptr u n size).out

/-- The string whose length `argstr` returns. -/
def argstr (u : User) (n : Nat) : Option (List UInt8) :=
  let r := Fetch.argstr u n
  if r.ret < 0 then none
  else r.out.map fun p => (List.range r.ret.toNat).map fun k => u.mem (p.toNat + k)

theorem argint_eq_none {u : User} (h : ¬ u.Within (u.argAddr n)) : u.argint n = none := by
  obtain ⟨hin, -⟩ | ⟨-, heq⟩ := Fetch.argint_cases u n
  · exact absurd hin h
  · rw [argint, heq]

theorem argptr_eq_none {u : User} (size : Int) (h : u.argint n = none) :
    u.argptr n size = none := by
  rw [argint] at h
  rw [argptr, Fetch.argptr, h]

theorem argstr_eq_none {u : User} (h : u.argint n = none) : u.argstr n = none := by
  rw [argint] at h
  simp only [argstr, Fetch.argstr, h]
  rfl

end User

/-! ## The handlers -/

/-- The kernel as the calls change it: files and file system, the scheduling side of the process
table with the semaphores, the system ratios, the trace. -/
structure Kst where
  files : St
  sem : SemSys
  ratios : Ratios
  trace : TraceSt

/-- A call that does not return: a panic or an endless sleep, or an access that goes wrong. -/
inductive Halt where
  | stop (s : Stop)
  | fault (f : Fault)

abbrev Result := Except Halt (Int × Kst)

/-- What lies on the kernel stack: in the place of parameter `n`, and in `level_change`'s local
variable. -/
structure KStack where
  word : Nat → Int
  temp : Kernel.Proc

/-- The standard calls beyond the fetching of their arguments. -/
structure Rest where
  kill (pid : Int) (k : Kst) : Result
  sbrk (n : Int) (k : Kst) : Result
  sleep (n : Int) (k : Kst) : Result
  fileread (f : Fin NFILE) (p : UInt32) (n : Int) (k : Kst) : Result
  filewrite (f : Fin NFILE) (p : UInt32) (n : Int) (k : Kst) : Result
  filestat (f : Fin NFILE) (st : UInt32) (k : Kst) : Result
  exec (path : List UInt8) (uargv : Int) (k : Kst) : Result
  page : Option Nat

/-- The system calls that have argument words. -/
inductive SysCall where
  | pipe | read | kill | exec | fstat | chdir | dup | sbrk | sleep | open | write | mknod | unlink
  | link | mkdir | close
  | traceSyscalls | getChildren | levelChange | setTickets | changeRatiosPl | changeRatiosSl
  | semaphoreInitialize | semaphoreAquire | semaphoreRelease
  deriving DecidableEq, Repr

/-- How many argument words the handler fetches. -/
def SysCall.words : SysCall → Nat
  | .pipe | .kill | .chdir | .dup | .sbrk | .sleep | .unlink | .mkdir | .close => 1
  | .exec | .fstat | .open | .link => 2
  | .read | .write | .mknod => 3
  | .traceSyscalls | .getChildren | .semaphoreAquire | .semaphoreRelease => 1
  | .levelChange | .setTickets => 2
  | .semaphoreInitialize => 3
  | .changeRatiosPl | .changeRatiosSl => 4

/-- `return -1`. -/
def refuse (k : Kst) : Result := .ok (-1, k)

def onFiles (m : M Int) (k : Kst) : Result :=
  match m k.files with
  | .ok (r, files) => .ok (r, { k with files })
  | .error s => .error (.stop s)

def onSem (m : Except Fault (Int × SemSys)) (k : Kst) : Result :=
  match m with
  | .ok (r, sem) => .ok (r, { k with sem })
  | .error f => .error (.fault f)

def onValue (m : Except Fault Int) (k : Kst) : Result :=
  match m with
  | .ok r => .ok (r, k)
  | .error f => .error (.fault f)

def onTable (r : Int × PTable) (k : Kst) : Result :=
  .ok (r.1, { k with sem := { k.sem with ptable := r.2 } })

def ofile (k : Kst) (p : Slot) (fd : Int) : Option (Fin NFILE) :=
  if fd < 0 ∨ (NOFILE : Int) ≤ fd then none
  else (k.files.proc p).ofile (Fin.ofNat NOFILE fd.toNat)

def argfd (u : User) (k : Kst) (p : Slot) (n : Nat) : Option (Fin NFILE) := do
  let fd ← u.argint n
  ofile k p fd

/-- Two fetches that both have to succeed. -/
def both {α β : Type} (a : Option α) (b : Option β) : Option (α × β) := do
  let a ← a
  let b ← b
  return (a, b)

/-- The arguments of `sys_read` and `sys_write`. -/
def bufferArgs (u : User) (k : Kst) (p : Slot) : Option (Fin NFILE × UInt32 × Int) := do
  let f ← argfd u k p 0
  let n ← u.argint 2
  let buf ← u.argptr 1 n
  return (f, buf, n)

/-- `get_children` comes to every slot. For a null `p->parent` it reads the word at 16 in the first
page of the user's memory, if there is one. -/
def getChildren (t : PTable) (u : User) (pid : Int) : Except Fault Int :=
  if 0 < u.sz ∨ ∀ s, (t s).parent ≠ none then
    .ok (Kernel.getChildren (int32 (rd32 u.mem 16)) t pid)
  else .error .outside

section Handlers

variable (sb : Fs.Superblock) (dev : Fs.Devsw) (L : Layout) (rest : Rest)

/-- The call that process `p` makes with `u` on the user side, up to the return to `syscall`. -/
def run (p : Slot) (u : User) (stack : KStack) (k : Kst) : SysCall → Result
  | .pipe => onFiles (sysPipe sb p (u.argptr 0 8).isSome rest.page) k
  | .read =>
    match bufferArgs u k p with
    | none => refuse k
    | some (f, buf, n) => rest.fileread f buf n k
  | .write =>
    match bufferArgs u k p with
    | none => refuse k
    | some (f, buf, n) => rest.filewrite f buf n k
  | .kill =>
    match u.argint 0 with
    | none => refuse k
    | some pid => rest.kill pid k
  | .exec =>
    match both (u.argstr 0) (u.argint 1) with
    | none => refuse k
    | some (path, uargv) => rest.exec path uargv k
  | .fstat =>
    match both (argfd u k p 0) (u.argptr 1 20) with
    | none => refuse k
    | some (f, st) => rest.filestat f st k
  | .chdir => onFiles (sysChdir sb dev p (u.argstr 0)) k
  | .dup =>
    match u.argint 0 with
    | none => refuse k
    | some fd => onFiles (sysDup p fd) k
  | .close =>
    match u.argint 0 with
    | none => refuse k
    | some fd => onFiles (sysClose sb p fd) k
  | .sbrk =>
    match u.argint 0 with
    | none => refuse k
    | some n => rest.sbrk n k
  | .sleep =>
    match u.argint 0 with
    | none => refuse k
    | some n => rest.sleep n k
  | .open =>
    onFiles (sysOpen sb dev p ((both (u.argstr 0) (u.argint 1)).map (.map id .ofInt))) k
  | .mknod =>
    match both (u.argstr 0) (both (u.argint 1) (u.argint 2)) with
    | none => onFiles (sysMknod sb dev p none 0 0) k
    | some (path, major, minor) =>
      onFiles (sysMknod sb dev p (some path) (.ofInt major) (.ofInt minor)) k
  | .unlink => onFiles (sysUnlink sb dev p (u.argstr 0)) k
  | .link => onFiles (sysLink sb dev p (both (u.argstr 0) (u.argstr 1))) k
  | .mkdir => onFiles (sysMkdir sb dev p (u.argstr 0)) k
  | .traceSyscalls =>
    let state := arg 0
    .ok (0, { k with trace :=
      { mem := if state = 0 then L.resetTrace k.trace.mem else k.trace.mem, state } })
  | .getChildren => onValue (getChildren k.sem.ptable u (arg 0)) k
  | .levelChange => onTable (levelChange stack.temp k.sem.ptable (arg 0) (arg 1)) k
  | .setTickets => onTable (setTickets k.sem.ptable (arg 0) (arg 1)) k
  | .changeRatiosPl => onTable (changeRatiosPl k.sem.ptable (arg 0) (arg 1) (arg 2) (arg 3)) k
  | .changeRatiosSl => .ok (1, { k with ratios := ⟨arg 1, arg 2, arg 3⟩ })
  | .semaphoreInitialize => onSem (.ok (semaphoreInitialize k.sem (arg 0) (arg 1) (arg 2))) k
  | .semaphoreAquire => onSem (semaphoreAquire k.sem p (arg 0)) k
  | .semaphoreRelease => onSem (semaphoreRelease k.sem (arg 0)) k
where
  /-- Parameter `n` after `argint(n, &n)`, whose result is not looked at. -/
  arg (n : Nat) : Int := (u.argint n).getD (stack.word n)

/-! ## Rejection -/

/-- An argument word of the call lies outside `[0, sz)`. -/
def Outside (u : User) (c : SysCall) : Prop := ∃ n < c.words, ¬ u.Within (u.argAddr n)

/-- The values that report an error. The calls that set something return 1 when they did. -/
def SysCall.IsError : SysCall → Int → Prop
  | .levelChange, r | .setTickets, r | .changeRatiosPl, r | .changeRatiosSl, r
  | .semaphoreInitialize, r | .semaphoreAquire, r | .semaphoreRelease, r => r = -1 ∨ r = 0
  | _, r => r = -1

/-- Nothing changed, unless `end_op` has installed what earlier operations left in the log. -/
def Untouched (k k' : Kst) : Prop :=
  ∃ lh, k' = { k with files := k.files.setLog { k.files.fs.log with lh } } ∧
    (k.files.fs.log.outstanding ≠ 0 ∨ k.files.fs.log.lh.n = 0 → lh = k.files.fs.log.lh)

/-- The calls that enter `begin_op` before they fetch their arguments sleep there while the log has
no room. -/
def Asleep (k : Kst) (c : SysCall) : Prop :=
  (c = .mkdir ∨ c = .mknod ∨ c = .chdir) ∧ k.files.fs.log.beginOp = none

/-- The call reports an error and changes nothing, whatever lies on the kernel stack. -/
def Rejects (p : Slot) (u : User) (k : Kst) (c : SysCall) : Prop :=
  ∃ r, c.IsError r ∧ ∀ stack,
    (Asleep k c ∧ run sb dev L rest p u stack k c = .error (.stop .hang)) ∨
    ∃ k', run sb dev L rest p u stack k c = .ok (r, k') ∧ Untouched k k'

end Handlers

/-- What makes a call reject unfetchable arguments: the standard handlers always do; the others
have to be stopped by a word that they did fetch, or find nothing to do whatever they read. -/
def Guarded (u : User) (k : Kst) : SysCall → Prop
  | .traceSyscalls | .changeRatiosSl | .semaphoreAquire | .semaphoreRelease => False
  | .levelChange | .setTickets | .changeRatiosPl =>
    ∃ pid, u.argint 0 = some pid ∧ ∀ s, (k.sem.ptable s).pid ≠ pid
  | .semaphoreInitialize =>
    (∃ sid, u.argint 0 = some sid ∧ (sid < 0 ∨ 4 < sid)) ∨ (∃ v, u.argint 1 = some v ∧ v < 0) ∨
      ∃ m, u.argint 2 = some m ∧ m < 0
  | .getChildren =>
    (0 < u.sz ∨ ∀ s, (k.sem.ptable s).parent ≠ none) ∧
      ∀ pid < 10, taken (int32 (rd32 u.mem 16)) k.sem.ptable pid = [] ∨
        wrap (takenCode (int32 (rd32 u.mem 16)) k.sem.ptable pid) = -1
  | _ => True

section Proofs

variable {sb : Fs.Superblock} {dev : Fs.Devsw} {L : Layout} {rest : Rest} {p : Slot} {u : User}
  {k : Kst}

/-! ### The standard handlers -/

theorem Untouched.refl (k : Kst) : Untouched k k := ⟨_, rfl, fun _ => rfl⟩

theorem beginOp_none (h : s.fs.log.beginOp = none) : beginOp s = .error .hang := by
  simp only [beginOp, bind, StateT.bind, get, getThe, MonadStateOf.get, StateT.get, Except.bind,
    pure, Except.pure, h]
  rfl

theorem beginOp_some (h : s.fs.log.beginOp = some g) : beginOp s = .ok ((), s.setLog g) := by
  simp only [beginOp, bind, StateT.bind, get, getThe, MonadStateOf.get, StateT.get, Except.bind,
    pure, Except.pure, h]
  rfl

theorem endOp_ok {b : Bool} (h : s.fs.log.endOp = .ok (b, g)) :
    endOp s = .ok ((), s.setLog (if b then g.commit.endCommit else g)) := by
  simp only [endOp, bind, StateT.bind, get, getThe, MonadStateOf.get, StateT.get, Except.bind,
    pure, Except.pure, h]
  rfl

theorem emptyOp_log {g' : Log.LogSt} (h : g.beginOp = some g') :
    ∃ b h', g'.endOp = .ok (b, h') ∧ ∃ lh, (if b then h'.commit.endCommit else h') = { g with lh } ∧
      (g.outstanding ≠ 0 ∨ g.lh.n = 0 → lh = g.lh) := by
  obtain ⟨hidle, _, rfl⟩ := Log.LogSt.beginOp_some h
  obtain ⟨size, outstanding, committing, lh⟩ := g
  obtain rfl : committing = false := hidle
  have hback : outstanding + 1 - 1 = outstanding := by omega
  by_cases hlast : outstanding = 0
  · refine ⟨true, ⟨size, outstanding, true, lh⟩, ?_, ?_⟩
    · simp only [Log.LogSt.endOp, hlast]; rfl
    · by_cases hn : 0 < lh.n
      · refine ⟨.empty, ?_, fun h => ?_⟩
        · simp only [Log.LogSt.commit, hn, Log.LogSt.endCommit]; rfl
        · rcases h with h | h
          · exact absurd hlast h
          · exact absurd h (Nat.pos_iff_ne_zero.mp hn)
      · refine ⟨lh, ?_, fun _ => rfl⟩
        simp only [Log.LogSt.commit, hn, Log.LogSt.endCommit]; rfl
  · refine ⟨false, ⟨size, outstanding, false, lh⟩, ?_, lh, rfl, fun _ => rfl⟩
    simp only [Log.LogSt.endOp, hback, hlast]
    rfl

theorem emptyOp_refuses (k : Kst) {m : M Int} (hm : m = do beginOp; endOp; return -1) :
    (k.files.fs.log.beginOp = none ∧ onFiles m k = .error (.stop .hang)) ∨
    ∃ k', onFiles m k = .ok (-1, k') ∧ Untouched k k' := by
  subst hm
  cases hb : k.files.fs.log.beginOp with
  | none =>
    refine .inl ⟨rfl, ?_⟩
    simp only [onFiles, bind, StateT.bind, Except.bind, beginOp_none hb]
  | some g =>
    obtain ⟨b, g', hend, lh, hlog, hlh⟩ := emptyOp_log hb
    have hend' : (k.files.setLog g).fs.log.endOp = .ok (b, g') := hend
    refine .inr ⟨_, ?_, lh, rfl, hlh⟩
    simp only [onFiles, bind, StateT.bind, Except.bind, beginOp_some hb, endOp_ok hend', hlog]
    rfl

theorem Rejects.refuse (he : c.IsError (-1))
    (h : ∀ stack, run sb dev L rest p u stack k c = refuse k) : Rejects sb dev L rest p u k c :=
  ⟨-1, he, fun stack => .inr ⟨k, h stack, .refl k⟩⟩

theorem Rejects.emptyOp {m : M Int} (he : c.IsError (-1))
    (hc : c = .mkdir ∨ c = .mknod ∨ c = .chdir) (hm : m = do beginOp; endOp; return -1)
    (h : ∀ stack, run sb dev L rest p u stack k c = onFiles m k) :
    Rejects sb dev L rest p u k c := by
  refine ⟨-1, he, fun stack => ?_⟩
  rw [h stack]
  exact (emptyOp_refuses k hm).imp (fun h => ⟨⟨hc, h.1⟩, h.2⟩) id

theorem argint_none (c : SysCall) (h : Outside u c) : ∃ n < c.words, u.argint n = none := by
  obtain ⟨n, hn, hout⟩ := h
  exact ⟨n, hn, User.argint_eq_none hout⟩

theorem argfd_eq_none (h : u.argint 0 = none) : argfd u k p 0 = none := by
  rw [argfd, h]; rfl

theorem lt_two (h : n < 2) : n = 0 ∨ n = 1 := by omega

theorem lt_three (h : n < 3) : n = 0 ∨ n = 1 ∨ n = 2 := by omega

theorem bufferArgs_eq_none (hn : n < 3) (h : u.argint n = none) : bufferArgs u k p = none := by
  rw [bufferArgs]
  obtain rfl | rfl | rfl := lt_three hn
  · rw [argfd_eq_none h]; rfl
  · cases argfd u k p 0 with
    | none => rfl
    | some f =>
      cases u.argint 2 with
      | none => rfl
      | some size => simp only [Option.bind_eq_bind, Option.bind_some, User.argptr_eq_none _ h]; rfl
  · cases argfd u k p 0 with
    | none => rfl
    | some f => rw [h]; rfl

theorem both_eq_none {α β : Type} {a : Option α} {b : Option β} (h : a = none ∨ b = none) :
    both a b = none := by
  rcases h with rfl | rfl
  · rfl
  · cases a <;> rfl

/-- The handlers that look at what `argint` returns. -/
def SysCall.Checks : SysCall → Prop
  | .traceSyscalls | .getChildren | .levelChange | .setTickets | .changeRatiosPl | .changeRatiosSl
  | .semaphoreInitialize | .semaphoreAquire | .semaphoreRelease => False
  | _ => True

theorem checks_rejects (hc : c.Checks) (h : Outside u c) : Rejects sb dev L rest p u k c := by
  obtain ⟨n, hn, harg⟩ := argint_none c h
  cases c with
  | pipe | kill | dup | sbrk | sleep | unlink | close =>
    obtain rfl : n = 0 := Nat.lt_one_iff.mp hn
    refine .refuse rfl fun stack => ?_
    simp only [run, harg, User.argptr_eq_none _ harg, User.argstr_eq_none harg]
    try rfl
  | mkdir | chdir =>
    obtain rfl : n = 0 := Nat.lt_one_iff.mp hn
    refine .emptyOp rfl (by simp) rfl fun stack => ?_
    simp only [run, User.argstr_eq_none harg]
    rfl
  | exec | «open» =>
    have hnone : both (u.argstr 0) (u.argint 1) = none := by
      refine both_eq_none ?_
      obtain rfl | rfl := lt_two hn
      · exact .inl (User.argstr_eq_none harg)
      · exact .inr harg
    refine .refuse rfl fun stack => ?_
    simp only [run, hnone]
    try rfl
  | fstat =>
    have hnone : both (argfd u k p 0) (u.argptr 1 20) = none := by
      refine both_eq_none ?_
      obtain rfl | rfl := lt_two hn
      · exact .inl (argfd_eq_none harg)
      · exact .inr (User.argptr_eq_none _ harg)
    refine .refuse rfl fun stack => ?_
    simp only [run, hnone]
  | link =>
    have hnone : both (u.argstr 0) (u.argstr 1) = none := by
      refine both_eq_none ?_
      obtain rfl | rfl := lt_two hn
      · exact .inl (User.argstr_eq_none harg)
      · exact .inr (User.argstr_eq_none harg)
    refine .refuse rfl fun stack => ?_
    simp only [run, hnone]
    rfl
  | read | write =>
    refine .refuse rfl fun stack => ?_
    simp only [run, bufferArgs_eq_none hn harg]
  | mknod =>
    have hnone : both (u.argstr 0) (both (u.argint 1) (u.argint 2)) = none := by
      refine both_eq_none ?_
      obtain rfl | rfl | rfl := lt_three hn
      · exact .inl (User.argstr_eq_none harg)
      · exact .inr (both_eq_none (.inl harg))
      · exact .inr (both_eq_none (.inr harg))
    refine .emptyOp rfl (by simp) rfl fun stack => ?_
    simp only [run, hnone]
    rfl
  | _ => exact hc.elim

/-! ### The handlers that do not look -/

def KStack.of (word : Nat → Int) : KStack := ⟨word, .zero⟩

theorem Rejects.returns (h : Rejects sb dev L rest p u k c) (stack : KStack)
    (hc : ¬ (c = .mkdir ∨ c = .mknod ∨ c = .chdir)) :
    ∃ r k', c.IsError r ∧ run sb dev L rest p u stack k c = .ok (r, k') := by
  obtain ⟨r, he, hall⟩ := h
  rcases hall stack with ⟨hasleep, _⟩ | ⟨k', hrun, _⟩
  · exact absurd hasleep.1 hc
  · exact ⟨r, k', he, hrun⟩

theorem run_arg {i : Int} (h : u.argint n = some i) : run.arg u stack n = i := by
  rw [run.arg, h]; rfl

theorem run_arg_none (h : u.argint n = none) : run.arg u stack n = stack.word n := by
  rw [run.arg, h]; rfl

theorem lastWithPid_eq_none {t : PTable} {pid : Int} :
    lastWithPid t pid = none ↔ ∀ s, (t s).pid ≠ pid := by
  constructor
  · intro h s hs
    obtain ⟨q, hq, _⟩ := lastWithPid_isSome hs
    rw [h] at hq
    cases hq
  · intro h
    cases hl : lastWithPid t pid with
    | none => rfl
    | some q => exact absurd (lastWithPid_eq_some.mp hl).1 (h q)

theorem onPid_rejects_iff {f : KStack → Int × PTable}
    (hc : ¬ (c = .mkdir ∨ c = .mknod ∨ c = .chdir)) (he : ∀ r, c.IsError r ↔ r = -1 ∨ r = 0)
    (hrun : ∀ stack, run sb dev L rest p u stack k c = onTable (f stack) k)
    (hf : ∀ stack, (lastWithPid k.sem.ptable (run.arg u stack 0) = none ∧
        f stack = (0, k.sem.ptable)) ∨
      (lastWithPid k.sem.ptable (run.arg u stack 0) ≠ none ∧ (f stack).1 = 1)) :
    Rejects sb dev L rest p u k c ↔
      ∃ pid, u.argint 0 = some pid ∧ ∀ s, (k.sem.ptable s).pid ≠ pid := by
  constructor
  · intro h
    -- A stack whose first word is the pid of slot 0 finds a process.
    have hnone : ∀ stack, lastWithPid k.sem.ptable (run.arg u stack 0) = none := by
      intro stack
      obtain ⟨r, k', hr, hres⟩ := h.returns stack hc
      rcases hf stack with ⟨hl, _⟩ | ⟨_, hone⟩
      · exact hl
      · rw [hrun stack, onTable, hone] at hres
        have hr1 : (1 : Int) = r := congrArg Prod.fst (Except.ok.inj hres)
        rcases (he r).mp hr with rfl | rfl <;> omega
    cases harg : u.argint 0 with
    | none =>
      have := hnone (.of fun _ => (k.sem.ptable 0).pid)
      rw [run_arg_none harg] at this
      exact absurd rfl (lastWithPid_eq_none.mp this 0)
    | some pid =>
      have := hnone (.of fun _ => 0)
      rw [run_arg harg] at this
      exact ⟨pid, rfl, lastWithPid_eq_none.mp this⟩
  · rintro ⟨pid, harg, hno⟩
    refine ⟨0, (he 0).mpr (.inr rfl), fun stack => .inr ⟨k, ?_, .refl k⟩⟩
    rcases hf stack with ⟨_, hsame⟩ | ⟨hl, _⟩
    · rw [hrun stack, hsame]; rfl
    · rw [run_arg harg] at hl
      exact absurd (lastWithPid_eq_none.mpr hno) hl

theorem levelChange_cases (temp : Kernel.Proc) (t : PTable) (pid level : Int) :
    (lastWithPid t pid = none ∧ levelChange temp t pid level = (0, t)) ∨
    (lastWithPid t pid ≠ none ∧ (levelChange temp t pid level).1 = 1) := by
  rw [levelChange]
  cases h : lastWithPid t pid with
  | none => exact .inl ⟨rfl, rfl⟩
  | some n =>
    have hlevel : ¬ (level ≤ 0 ∧ 4 ≤ level) := by omega
    exact .inr ⟨Option.some_ne_none n, by simp only [hlevel, if_false]⟩

theorem setTickets_cases (t : PTable) (pid tickets : Int) :
    (lastWithPid t pid = none ∧ setTickets t pid tickets = (0, t)) ∨
    (lastWithPid t pid ≠ none ∧ (setTickets t pid tickets).1 = 1) := by
  rw [setTickets]
  cases h : lastWithPid t pid with
  | none => exact .inl ⟨rfl, rfl⟩
  | some n => exact .inr ⟨Option.some_ne_none n, rfl⟩

theorem changeRatiosPl_cases (t : PTable) (pid pr ar ec : Int) :
    (lastWithPid t pid = none ∧ changeRatiosPl t pid pr ar ec = (0, t)) ∨
    (lastWithPid t pid ≠ none ∧ (changeRatiosPl t pid pr ar ec).1 = 1) := by
  rw [changeRatiosPl]
  cases h : lastWithPid t pid with
  | none => exact .inl ⟨rfl, rfl⟩
  | some n => exact .inr ⟨Option.some_ne_none n, rfl⟩

theorem semaphoreInitialize_of_bad {s : SemSys} {v m : Int}
    (h : sid < 0 ∨ sid > 4 ∨ v < 0 ∨ m < 0) : semaphoreInitialize s sid v m = (0, s) := by
  rw [semaphoreInitialize, dif_pos h]

theorem semaphoreInitialize_of_good (s : SemSys) {v m : Int}
    (h : ¬ (sid < 0 ∨ sid > 4 ∨ v < 0 ∨ m < 0)) : (semaphoreInitialize s sid v m).1 = 1 := by
  rw [semaphoreInitialize, dif_neg h]

theorem run_arg_of {P : Int → Prop} (hu : ∀ i, u.argint n = some i → P i)
    (hs : P (stack.word n)) : P (run.arg u stack n) := by
  cases h : u.argint n with
  | none => rw [run_arg_none h]; exact hs
  | some i => rw [run_arg h]; exact hu i h

theorem semaphoreInitialize_rejects_iff :
    Rejects sb dev L rest p u k .semaphoreInitialize ↔ Guarded u k .semaphoreInitialize := by
  constructor
  · intro h
    -- With zeros on the stack only a fetched word can be refused.
    obtain ⟨r, k', hr, hres⟩ := h.returns (.of fun _ => 0) (by simp)
    by_contra hok
    simp only [Guarded, not_or, not_exists, not_and, not_lt] at hok
    obtain ⟨hsid, hv, hm⟩ := hok
    have hsid' : 0 ≤ run.arg u (.of fun _ => 0) 0 ∧ run.arg u (.of fun _ => 0) 0 ≤ 4 :=
      run_arg_of (P := fun i => 0 ≤ i ∧ i ≤ 4) hsid ⟨le_rfl, by decide⟩
    have hv' : 0 ≤ run.arg u (.of fun _ => 0) 1 := run_arg_of (P := (0 ≤ ·)) hv le_rfl
    have hm' : 0 ≤ run.arg u (.of fun _ => 0) 2 := run_arg_of (P := (0 ≤ ·)) hm le_rfl
    have hr1 : (semaphoreInitialize k.sem (run.arg u (.of fun _ => 0) 0)
        (run.arg u (.of fun _ => 0) 1) (run.arg u (.of fun _ => 0) 2)).1 = r :=
      congrArg Prod.fst (Except.ok.inj hres)
    rw [semaphoreInitialize_of_good k.sem (by omega)] at hr1
    rcases hr with rfl | rfl <;> omega
  · intro h
    refine ⟨0, .inr rfl, fun stack => .inr ⟨k, ?_, .refl k⟩⟩
    have hbad : run.arg u stack 0 < 0 ∨ run.arg u stack 0 > 4 ∨ run.arg u stack 1 < 0 ∨
        run.arg u stack 2 < 0 := by
      rcases h with ⟨sid, harg, hsid⟩ | ⟨v, harg, hv⟩ | ⟨m, harg, hm⟩
      · rw [run_arg harg]; omega
      · rw [run_arg (n := 1) harg]; omega
      · rw [run_arg (n := 2) harg]; omega
    simp only [run, semaphoreInitialize_of_bad hbad, onSem]

theorem semaphoreAquire_returns {s s' : SemSys}
    (h : semaphoreAquire s p sid = .ok (r, s')) : r = 1 := by
  simp only [semaphoreAquire, bind, Except.bind, pure, Except.pure] at h
  repeat' split at h
  all_goals first | cases h; rfl | cases h

theorem semaphoreRelease_returns {s s' : SemSys}
    (h : semaphoreRelease s sid = .ok (r, s')) : r = 1 := by
  simp only [semaphoreRelease, bind, Except.bind, pure, Except.pure] at h
  repeat' split at h
  all_goals first | cases h; rfl | cases h

theorem onSem_returns {m : Except Fault (Int × SemSys)} {k k' : Kst}
    (h : onSem m k = .ok (r, k')) : ∃ s, m = .ok (r, s) := by
  simp only [onSem] at h
  split at h
  · cases h; exact ⟨_, rfl⟩
  · cases h

/-! ### `get_children` -/

theorem getChildren_rejects_iff (h0 : u.argint 0 = none) :
    Rejects sb dev L rest p u k .getChildren ↔ Guarded u k .getChildren := by
  have hrun : ∀ stack, run sb dev L rest p u stack k .getChildren =
      onValue (getChildren k.sem.ptable u (stack.word 0)) k := by
    intro stack
    rw [run, run_arg_none h0]
  constructor
  · intro h
    have hval : ∀ g, getChildren k.sem.ptable u g = .ok (-1) := by
      intro g
      obtain ⟨r, k', hr, hres⟩ := h.returns (.of fun _ => g) (by simp)
      obtain rfl : r = -1 := hr
      rw [hrun] at hres
      cases hg : getChildren k.sem.ptable u g with
      | error f => simp only [onValue, KStack.of, hg] at hres; cases hres
      | ok r =>
        simp only [onValue, KStack.of, hg] at hres
        have hr1 : r = -1 := congrArg Prod.fst (Except.ok.inj hres)
        rw [hr1]
    have hread : 0 < u.sz ∨ ∀ s, (k.sem.ptable s).parent ≠ none := by
      by_contra hno
      have h0 := hval 0
      rw [getChildren, if_neg hno] at h0
      cases h0
    refine ⟨hread, fun g hg => ?_⟩
    have hg' := hval g
    rw [getChildren, if_pos hread, getChildren_one_digit _ hg] at hg'
    by_cases hnil : taken (int32 (rd32 u.mem 16)) k.sem.ptable g = []
    · exact .inl hnil
    · rw [if_neg hnil] at hg'
      exact .inr (Except.ok.inj hg')
  · rintro ⟨hread, hall⟩
    refine ⟨-1, rfl, fun stack => .inr ⟨k, ?_, .refl k⟩⟩
    rw [hrun, getChildren, if_pos hread]
    by_cases hbig : 10 ≤ stack.word 0
    · rw [getChildren_two_digits _ hbig]
      rfl
    · rw [getChildren_one_digit _ (not_le.mp hbig)]
      rcases hall _ (not_le.mp hbig) with hnil | hjoin
      · rw [if_pos hnil]
        rfl
      · rw [hjoin, ite_self]
        rfl

/-- A call with an argument word outside the process's memory reports an error and changes nothing
exactly when it is a standard one, or some other word that it did fetch stops it. -/
theorem unfetchable_rejected_iff (sb : Fs.Superblock) (dev : Fs.Devsw) (L : Layout) (rest : Rest)
    (p : Slot) (u : User) (k : Kst) (c : SysCall) (h : Outside u c) :
    Rejects sb dev L rest p u k c ↔ Guarded u k c := by
  cases c with
  | traceSyscalls =>
    refine iff_of_false (fun hr => ?_) id
    obtain ⟨r, k', he, hres⟩ := hr.returns (.of fun _ => 0) (by simp)
    have : (0 : Int) = r := congrArg Prod.fst (Except.ok.inj hres)
    obtain rfl : r = -1 := he
    omega
  | changeRatiosSl =>
    refine iff_of_false (fun hr => ?_) id
    obtain ⟨r, k', he, hres⟩ := hr.returns (.of fun _ => 0) (by simp)
    have : (1 : Int) = r := congrArg Prod.fst (Except.ok.inj hres)
    rcases he with rfl | rfl <;> omega
  | semaphoreAquire =>
    refine iff_of_false (fun hr => ?_) id
    obtain ⟨r, k', he, hres⟩ := hr.returns (.of fun _ => 0) (by simp)
    obtain ⟨s, hs⟩ := onSem_returns hres
    have := semaphoreAquire_returns hs
    rcases he with rfl | rfl <;> omega
  | semaphoreRelease =>
    refine iff_of_false (fun hr => ?_) id
    obtain ⟨r, k', he, hres⟩ := hr.returns (.of fun _ => 0) (by simp)
    obtain ⟨s, hs⟩ := onSem_returns hres
    have := semaphoreRelease_returns hs
    rcases he with rfl | rfl <;> omega
  | getChildren =>
    obtain ⟨n, hn, harg⟩ := argint_none _ h
    obtain rfl : n = 0 := Nat.lt_one_iff.mp hn
    exact getChildren_rejects_iff harg
  | levelChange =>
    exact onPid_rejects_iff (by simp) (fun _ => Iff.rfl) (fun _ => rfl)
      fun stack => levelChange_cases stack.temp _ _ _
  | setTickets =>
    exact onPid_rejects_iff (by simp) (fun _ => Iff.rfl) (fun _ => rfl)
      fun stack => setTickets_cases _ _ _
  | changeRatiosPl =>
    exact onPid_rejects_iff (by simp) (fun _ => Iff.rfl) (fun _ => rfl)
      fun stack => changeRatiosPl_cases _ _ _ _ _
  | semaphoreInitialize => exact semaphoreInitialize_rejects_iff
  | _ => exact iff_of_true (checks_rejects trivial h) trivial

end Proofs

namespace Sample

/-- A process whose stack pointer is at the very end of its memory. -/
def user : User := ⟨4092, 4096, fun _ => 0, by decide⟩

def kernel : Kst where
  files := Sys.Sample.boot
  sem := ⟨fun _ => .zero, twoProcs 1⟩
  ratios := ⟨1, 1, 1⟩
  trace := ⟨fun _ => 0, 0⟩

def layout : Layout := ⟨0, rfl, by decide⟩

def rest : Rest where
  kill _ k := refuse k
  sbrk _ k := refuse k
  sleep _ k := refuse k
  fileread _ _ _ k := refuse k
  filewrite _ _ _ k := refuse k
  filestat _ _ k := refuse k
  exec _ _ k := refuse k
  page := none

end Sample

/-- `trace_syscalls` switches tracing on because a 1 lay on the kernel stack, and says that it
succeeded; `set_tickets` gives the shell the tickets that it found there. -/
theorem stack_word_obeyed : Outside Sample.user .traceSyscalls ∧ Outside Sample.user .setTickets ∧
    (run Fs.Sample.sb Fs.Sample.dev Sample.layout Sample.rest 0 Sample.user (.of fun _ => 1)
      Sample.kernel .traceSyscalls).toOption.map (fun r => (r.1, r.2.trace.state)) = some (0, 1) ∧
    (run Fs.Sample.sb Fs.Sample.dev Sample.layout Sample.rest 0 Sample.user (.of fun _ => 1)
      Sample.kernel .setTickets).toOption.map (fun r => (r.1, (r.2.sem.ptable 0).tickets)) =
        some (1, 1) ∧
    ¬ Rejects Fs.Sample.sb Fs.Sample.dev Sample.layout Sample.rest 0 Sample.user Sample.kernel
      .traceSyscalls := by
  refine ⟨⟨0, by decide, by decide⟩, ⟨0, by decide, by decide⟩, rfl, by decide, fun hr => ?_⟩
  obtain ⟨r, k', he, hres⟩ := hr.returns (.of fun _ => 1) (by simp)
  have : (0 : Int) = r := congrArg Prod.fst (Except.ok.inj hres)
  obtain rfl : r = -1 := he
  omega

theorem unfetchable_rejected_write :
    Outside Sample.user .write ∧ Guarded Sample.user Sample.kernel .write ∧
    Rejects Fs.Sample.sb Fs.Sample.dev Sample.layout Sample.rest 0 Sample.user Sample.kernel
      .write :=
  have hout : Outside Sample.user .write := ⟨2, by decide, by decide⟩
  ⟨hout, trivial, (unfetchable_rejected_iff _ _ _ _ _ _ _ _ hout).mpr trivial⟩

end Args
end Xv6.Sys
