import Xv6.Kernel.Table
import Xv6.Str
import Xv6.Lib.Run

/-!
# Xv6.Kernel.Trace

The system call tracer.

`add_syscall` counts a call before `syscall` checks its number, so the number indexes the counters
as the user gave it. Memory is the flat store of bytes it is on the machine: an index past the 27
counters of an entry reaches its `valid` flag, the next entry, and what lies behind the table.
-/

namespace Xv6.Kernel

open Bytes List

abbrev SYS_trace_syscalls : UInt32 := 23

/-- Where the linker puts `tracer`: 100 entries of 216 bytes, `name` at 0, `pid` at 100, `syscalls`
at 104 and `valid` at 212. -/
structure Layout where
  tracer : Nat
  aligned : tracer % 4 = 0
  fits : tracer + 21600 ≤ 2 ^ 32

/-- `p->name`, which `safestrcpy` has ended with a zero. -/
structure Name where
  bytes : List UInt8
  nonzero : ∀ b ∈ bytes, b ≠ 0
  short : bytes.length ≤ 15

/-- The characters, with the zeros behind them. -/
def Name.chars (n : Name) (k : Nat) : UInt8 := n.bytes.getD k 0

namespace Layout

/-- `tracer[i].name`. -/
def nameAt (L : Layout) (i : Fin 100) : Nat := L.tracer + 216 * i

/-- `&tracer[i].syscalls[num]`, in 32 bits. -/
def counterAt (L : Layout) (i : Fin 100) (num : UInt32) : Nat :=
  (L.tracer + 216 * i + 104 + 4 * num.toNat) % 2 ^ 32

/-- `&tracer[i].valid`. -/
def validAt (L : Layout) (i : Fin 100) : Nat := L.tracer + 216 * i + 212

def valid (L : Layout) (m : Store) (i : Fin 100) : UInt32 := rd32 m (L.validAt i)

def entryName (L : Layout) (m : Store) (i : Fin 100) : Nat → UInt8 := fun k => m (L.nameAt i + k)

/-- `write_to_trace(i, proc)`: the name with one zero. -/
def writeToTrace (L : Layout) (i : Fin 100) (name : Name) (m : Store) : Store :=
  patch m (L.nameAt i) (name.bytes.length + 1) name.chars

/-- `tracer[i].syscalls[num] += 1`. -/
def count (L : Layout) (i : Fin 100) (num : UInt32) (m : Store) : Store :=
  wr32 m (L.counterAt i num) (rd32 m (L.counterAt i num) + 1)

/-- The loop of `add_syscall`, with the entry it counted in. -/
def addLoop (L : Layout) (name : Name) (num : UInt32) :
    List (Fin 100) → Store → Option (Fin 100) × Store
  | [], m => (none, m)
  | i :: is, m =>
    if L.valid m i = 1 then
      if namecmp (L.entryName m i) name.chars = 0 then
        (some i, L.count i num (wr32 m (L.validAt i) 1))
      else L.addLoop name num is m
    else (some i, L.count i num (wr32 (L.writeToTrace i name m) (L.validAt i) 1))

def addSyscall (L : Layout) (traceState : Int) (name : Name) (num : UInt32) (m : Store) :
    Option (Fin 100) × Store :=
  if traceState = 1 then L.addLoop name num (finRange 100) m else (none, m)

def resetTrace (L : Layout) (m : Store) : Store :=
  (finRange 100).foldl (fun m i =>
    (range 27).foldl (fun m j => wr32 m (L.counterAt i (.ofNat j)) 0)
      (wr32 m (L.validAt i) 0)) m

end Layout

structure TraceSt where
  mem : Store
  state : Int

/-- What `syscall` does here for a call of `num` with the first argument `arg`. -/
def TraceSt.syscall (L : Layout) (s : TraceSt) (name : Name) (num : UInt32) (arg : Int) : TraceSt :=
  let m := (L.addSyscall s.state name num s.mem).2
  if num = SYS_trace_syscalls then
    { mem := if wrap arg = 0 then L.resetTrace m else m, state := wrap arg }
  else { s with mem := m }

/-- A system call, or a change of memory outside the table. -/
inductive TraceEvent where
  | call (name : Name) (num : UInt32) (arg : Int)
  | other (m : Store)

def TraceSt.Boot (L : Layout) (s : TraceSt) : Prop :=
  s.state = 0 ∧ ∃ m, s.mem = L.resetTrace m

inductive TraceSt.Step (L : Layout) : TraceSt → TraceEvent → TraceSt → Prop where
  | call {s : TraceSt} (name : Name) (num : UInt32) (arg : Int) :
      Step L s (.call name num arg) (s.syscall L name num arg)
  | other {s : TraceSt} {m : Store}
      (h : ∀ p, L.tracer ≤ p → p < L.tracer + 21600 → m p = s.mem p) :
      Step L s (.other m) { s with mem := m }

theorem Name.chars_length (n : Name) : n.chars n.bytes.length = 0 := by
  simp [Name.chars]

namespace Layout

variable {L : Layout} {m : Store} {i i' : Fin 100} {num : UInt32} {name : Name}

theorem counterAt_eq (h : num.toNat < 27) :
    L.counterAt i num = L.tracer + 216 * i + 104 + 4 * num.toNat := by
  have hi := i.isLt
  have hf := L.fits
  unfold counterAt
  exact Nat.mod_eq_of_lt (by omega)

theorem valid_count (h : num.toNat < 27) : L.valid (L.count i num m) i' = L.valid m i' := by
  unfold valid count
  refine rd32_patch_other ?_
  rw [counterAt_eq h, validAt]
  omega

theorem valid_mark : L.valid (wr32 m (L.validAt i) 1) i = 1 := by
  unfold valid
  exact rd32_wr32_same m (L.validAt i) 1

theorem valid_mark_other (v : UInt32) (h : i' ≠ i) :
    L.valid (wr32 m (L.validAt i) v) i' = L.valid m i' := by
  have hne : i'.val ≠ i.val := fun heq => h (Fin.ext heq)
  unfold valid
  refine rd32_patch_other ?_
  rw [validAt, validAt]
  omega

theorem valid_write : L.valid (L.writeToTrace i name m) i' = L.valid m i' := by
  have hs := name.short
  unfold valid writeToTrace
  refine rd32_patch_other ?_
  rw [validAt, nameAt]
  omega

/-- What a counted call leaves: one counter went up, the entry has the name and is valid, and
nothing else in memory changed. -/
structure Traced (L : Layout) (m : Store) (name : Name) (num : UInt32) (i : Fin 100)
    (m' : Store) : Prop where
  index : num.toNat < 27
  counter : rd32 m' (L.counterAt i num) = rd32 m (L.counterAt i num) + 1
  entry : namecmp (L.entryName m' i) name.chars = 0
  marked : L.valid m' i = 1
  others : ∀ i', i' ≠ i → L.valid m' i' = L.valid m i'
  frame : ∀ p, ¬ (L.nameAt i ≤ p ∧ p < L.nameAt i + 100) →
    ¬ (L.validAt i ≤ p ∧ p < L.validAt i + 4) →
    ¬ (L.counterAt i num ≤ p ∧ p < L.counterAt i num + 4) → m' p = m p

theorem traced_count {m1 : Store} (h : num.toNat < 27)
    (hname : namecmp (L.entryName m1 i) name.chars = 0)
    (hframe : ∀ p, ¬ (L.nameAt i ≤ p ∧ p < L.nameAt i + 100) → m1 p = m p)
    (hvalid : ∀ i', L.valid m1 i' = L.valid m i') :
    L.Traced m name num i (L.count i num (wr32 m1 (L.validAt i) 1)) := by
  have hi := i.isLt
  have hc := counterAt_eq (L := L) (i := i) h
  have hcounter : rd32 m1 (L.counterAt i num) = rd32 m (L.counterAt i num) := by
    unfold rd32
    rw [value_congr fun k hk => hframe (L.counterAt i num + k) (by rw [hc, nameAt]; omega)]
  have hmark :
      rd32 (wr32 m1 (L.validAt i) 1) (L.counterAt i num) = rd32 m1 (L.counterAt i num) := by
    refine rd32_patch_other ?_
    rw [hc, validAt]
    omega
  constructor
  · exact h
  · unfold count
    rw [rd32_wr32_same, hmark, hcounter]
  · rw [← hname]
    refine strncmp_congr DIRSIZ 0 ?_
    intro j _ hj
    have hj : j < 14 := by simpa using hj
    unfold entryName count wr32
    rw [patch_out (by rw [hc, nameAt]; omega), patch_out (by rw [validAt, nameAt]; omega)]
  · rw [valid_count h, valid_mark]
  · intro i' hne
    rw [valid_count h, valid_mark_other 1 hne, hvalid]
  · intro p h1 h2 h3
    unfold count wr32
    rw [patch_out (by omega), patch_out (by omega)]
    exact hframe p h1

theorem namecmp_write : namecmp (L.entryName (L.writeToTrace i name m) i) name.chars = 0 := by
  refine strncmp_eq_zero name.chars_length DIRSIZ 0 (Nat.zero_le _) ?_
  intro j hj
  unfold entryName writeToTrace
  rw [patch_in (by omega) (by omega), Nat.add_sub_cancel_left]

theorem addLoop_cases (l : List (Fin 100)) : (L.addLoop name num l m = (none, m) ∧
      ∀ i ∈ l, L.valid m i = 1 ∧ namecmp (L.entryName m i) name.chars ≠ 0) ∨
    ∃ i ∈ l, ∃ m1, L.addLoop name num l m = (some i, L.count i num (wr32 m1 (L.validAt i) 1)) ∧
      (m1 = m ∧ namecmp (L.entryName m i) name.chars = 0 ∨
        m1 = L.writeToTrace i name m ∧ L.valid m i ≠ 1) := by
  induction l with
  | nil => exact .inl ⟨rfl, fun i hi => absurd hi not_mem_nil⟩
  | cons i l ih =>
    by_cases hv : L.valid m i = 1
    · by_cases hn : namecmp (L.entryName m i) name.chars = 0
      · refine .inr ⟨i, mem_cons_self, m, ?_, .inl ⟨rfl, hn⟩⟩
        rw [addLoop, if_pos hv, if_pos hn]
      · have hstep : L.addLoop name num (i :: l) m = L.addLoop name num l m := by
          rw [addLoop, if_pos hv, if_neg hn]
        rw [hstep]
        cases ih with
        | inl h =>
          refine .inl ⟨h.1, ?_⟩
          intro i' hi'
          cases mem_cons.mp hi' with
          | inl heq => rw [heq]; exact ⟨hv, hn⟩
          | inr hmem => exact h.2 i' hmem
        | inr h =>
          obtain ⟨i', hi', m1, hrun, hm1⟩ := h
          exact .inr ⟨i', mem_cons_of_mem i hi', m1, hrun, hm1⟩
    · refine .inr ⟨i, mem_cons_self, _, ?_, .inr ⟨rfl, hv⟩⟩
      rw [addLoop, if_neg hv]

end Layout

/-- The number is in range when `add_syscall` uses it: tracing is off, the number is that of a
counter, or the table is full of other names. -/
def TraceSt.InRange (L : Layout) (s : TraceSt) (name : Name) (num : UInt32) : Prop :=
  s.state ≠ 1 ∨ num.toNat < 27 ∨
    ∀ i, L.valid s.mem i = 1 ∧ namecmp (L.entryName s.mem i) name.chars ≠ 0

theorem addSyscall_traced {L : Layout} {s : TraceSt} {name : Name} {num : UInt32}
    (h : s.InRange L name num) : L.addSyscall s.state name num s.mem = (none, s.mem) ∨
    ∃ i m', L.addSyscall s.state name num s.mem = (some i, m') ∧ L.Traced s.mem name num i m' := by
  unfold Layout.addSyscall
  by_cases hon : s.state = 1
  · rw [if_pos hon]
    cases Layout.addLoop_cases (finRange 100) with
    | inl hnone => exact .inl hnone.1
    | inr hsome =>
      obtain ⟨i, -, m1, hrun, hm1⟩ := hsome
      refine .inr ⟨i, _, hrun, ?_⟩
      have hnum : num.toNat < 27 := by
        rcases h with hoff | hlt | hfull
        · exact absurd hon hoff
        · exact hlt
        · cases hm1 with
          | inl hit => exact absurd hit.2 (hfull i).2
          | inr new => exact absurd (hfull i).1 new.2
      cases hm1 with
      | inl hit =>
        obtain ⟨rfl, hname⟩ := hit
        exact Layout.traced_count hnum hname (fun _ _ => rfl) fun _ => rfl
      | inr new =>
        obtain ⟨rfl, -⟩ := new
        refine Layout.traced_count hnum Layout.namecmp_write ?_ fun _ => Layout.valid_write
        intro p hp
        have hshort := name.short
        exact patch_out (by omega)
  · rw [if_neg hon]
    exact .inl rfl

/-- Every `valid` flag is 0 or 1. -/
def Flags (L : Layout) (m : Store) : Prop := ∀ i, L.valid m i = 0 ∨ L.valid m i = 1

theorem Layout.Traced.flags {L : Layout} {m m' : Store} {name : Name} {num : UInt32} {i : Fin 100}
    (h : L.Traced m name num i m') (hm : Flags L m) : Flags L m' := by
  intro i'
  by_cases hi : i' = i
  · subst hi; exact .inr h.marked
  · rw [h.others i' hi]; exact hm i'

theorem valid_clear {L : Layout} {i i' : Fin 100} (l : List Nat) : ∀ m : Store, (∀ j ∈ l, j < 27) →
      L.valid (l.foldl (fun m j => wr32 m (L.counterAt i (.ofNat j)) 0) m) i' = L.valid m i' := by
  induction l with
  | nil => intro m _; rfl
  | cons j l ih =>
    intro m hl
    have hj : j < 27 := hl j mem_cons_self
    have hnum : (UInt32.ofNat j).toNat = j := by
      rw [UInt32.toNat_ofNat']
      omega
    rw [foldl_cons, ih _ fun j' hj' => hl j' (mem_cons_of_mem j hj')]
    unfold Layout.valid
    refine rd32_patch_other ?_
    rw [Layout.counterAt_eq (by omega), Layout.validAt, hnum]
    omega

theorem valid_resetTrace {L : Layout} {i : Fin 100} (l : List (Fin 100)) :
    ∀ m : Store, i ∈ l ∨ L.valid m i = 0 →
      L.valid (l.foldl (fun m i => (range 27).foldl (fun m j => wr32 m (L.counterAt i (.ofNat j)) 0)
          (wr32 m (L.validAt i) 0)) m) i = 0 := by
  induction l with
  | nil =>
    intro m h
    exact h.resolve_left not_mem_nil
  | cons a l ih =>
    intro m h
    rw [foldl_cons]
    refine ih _ ?_
    rw [valid_clear (range 27) _ fun j hj => mem_range.mp hj]
    by_cases hia : i = a
    · subst hia
      exact .inr (rd32_wr32_same m (L.validAt i) 0)
    · rw [Layout.valid_mark_other 0 hia]
      exact h.imp_left fun hmem => (mem_cons.mp hmem).resolve_left hia

theorem flags_resetTrace (L : Layout) (m : Store) : Flags L (L.resetTrace m) := fun i =>
  .inl (valid_resetTrace (finRange 100) m (.inl (mem_finRange i)))

/-- A step whose number is in range where it is used. -/
def TraceSt.RangedStep (L : Layout) (s : TraceSt) (e : TraceEvent) (s' : TraceSt) : Prop :=
  TraceSt.Step L s e s' ∧ ∀ name num arg, e = .call name num arg → s.InRange L name num

theorem flags_addSyscall {L : Layout} {s : TraceSt} {name : Name} {num : UInt32}
    (h : s.InRange L name num) (hs : Flags L s.mem) :
    Flags L (L.addSyscall s.state name num s.mem).2 := by
  cases addSyscall_traced h with
  | inl hnone => rw [hnone]; exact hs
  | inr hsome =>
    obtain ⟨i, m', hrun, htr⟩ := hsome
    rw [hrun]
    exact htr.flags hs

theorem flags_step {L : Layout} {s s' : TraceSt} {e : TraceEvent} (hs : Flags L s.mem)
    (h : TraceSt.RangedStep L s e s') : Flags L s'.mem := by
  obtain ⟨hstep, hin⟩ := h
  cases hstep with
  | call name num arg =>
    have hadd := flags_addSyscall (hin name num arg rfl) hs
    unfold TraceSt.syscall
    simp only
    split
    · simp only
      split
      · exact flags_resetTrace L _
      · exact hadd
    · exact hadd
  | other hm =>
    intro i
    have hi := i.isLt
    have heq : ∀ m : Store, (∀ p, L.tracer ≤ p → p < L.tracer + 21600 → m p = s.mem p) →
        L.valid m i = L.valid s.mem i := by
      intro m hm
      unfold Layout.valid rd32
      rw [value_congr fun k hk => hm (L.validAt i + k) (by rw [Layout.validAt]; omega)
        (by rw [Layout.validAt]; omega)]
    rw [heq _ hm]
    exact hs i

/-- In every run whose numbers are in range where they are used, the flags are 0 or 1, and a further
such call changes nothing or one entry, as it should. -/
theorem trace_contained (L : Layout) {s : TraceSt}
    (h : Reach (TraceSt.Boot L) (TraceSt.RangedStep L) s) :
    Flags L s.mem ∧ ∀ name num, s.InRange L name num →
      L.addSyscall s.state name num s.mem = (none, s.mem) ∨
      ∃ i m', L.addSyscall s.state name num s.mem = (some i, m') ∧
        L.Traced s.mem name num i m' := by
  refine ⟨?_, fun name num hin => addSyscall_traced hin⟩
  have hboot : ∀ s, TraceSt.Boot L s → Flags L s.mem := by
    intro s hs
    obtain ⟨-, m, hm⟩ := hs
    rw [hm]
    exact flags_resetTrace L m
  exact h.invariant (P := fun s => Flags L s.mem) hboot fun _ _ _ => flags_step

def lowLayout : Layout := ⟨4096, by decide, by decide⟩

def shellName : Name := ⟨[115, 104], by simp, by simp⟩

def bootTrace : TraceSt := ⟨lowLayout.resetTrace fun _ => 0, 0⟩

theorem bootTrace_boot : bootTrace.Boot lowLayout := by
  refine ⟨rfl, fun _ => 0, ?_⟩
  rw [bootTrace]

theorem syscall_on (L : Layout) (m : Store) (name : Name) :
    TraceSt.syscall L ⟨m, 0⟩ name SYS_trace_syscalls 1 = ⟨m, 1⟩ := rfl

theorem addSyscall_first {L : Layout} {m : Store} {name : Name} {num : UInt32}
    (hv : L.valid m 0 ≠ 1) : L.addSyscall 1 name num m =
      (some 0, L.count 0 num (wr32 (L.writeToTrace 0 name m) (L.validAt 0) 1)) := by
  rw [Layout.addSyscall, if_pos rfl, finRange_succ, Layout.addLoop, if_neg hv]

theorem boot_empty : ∃ m, (⟨m, 0⟩ : TraceSt).Boot lowLayout ∧ lowLayout.valid m 0 = 0 := by
  generalize hm : lowLayout.resetTrace (fun _ => 0) = m
  refine ⟨m, ⟨rfl, fun _ => 0, hm.symm⟩, ?_⟩
  rw [← hm]
  exact valid_resetTrace (finRange 100) _ (.inl (mem_finRange 0))

/-- The shell turns tracing on and calls `getpid`, which is counted in the first entry. -/
theorem trace_contained_getpid : ∃ s : TraceSt,
    Reach (TraceSt.Boot lowLayout) (TraceSt.RangedStep lowLayout) s ∧ s.state = 1 ∧
      (∃ m', lowLayout.addSyscall s.state shellName 11 s.mem = (some 0, m') ∧
        lowLayout.Traced s.mem shellName 11 0 m') ∧
      Flags lowLayout (s.syscall lowLayout shellName 11 0).mem := by
  obtain ⟨m, hboot, h0⟩ := boot_empty
  have hon : TraceSt.RangedStep lowLayout ⟨m, 0⟩ (.call shellName SYS_trace_syscalls 1) ⟨m, 1⟩ :=
    ⟨syscall_on lowLayout m shellName ▸ .call shellName SYS_trace_syscalls 1,
      fun _ _ _ _ => .inl Int.zero_ne_one⟩
  have h1 := (Reach.start hboot).step hon
  have hin : TraceSt.InRange lowLayout ⟨m, 1⟩ shellName 11 := .inr (.inl (by decide))
  have h2 := h1.step ⟨.call shellName 11 0, fun _ _ _ he => by cases he; exact hin⟩
  refine ⟨_, h1, rfl, ?_, (trace_contained lowLayout h2).1⟩
  have hadd := @addSyscall_first lowLayout m shellName 11 (by rw [h0]; decide)
  rcases (trace_contained lowLayout h1).2 shellName 11 hin with hnone | ⟨i, m', hsome, htraced⟩
  · rw [hadd] at hnone
    cases hnone
  · rw [hadd] at hsome
    cases hsome
    exact ⟨_, hadd, htraced⟩

theorem counterAt_set_tickets (L : Layout) (i : Fin 100) : L.counterAt i 27 = L.validAt i := by
  have hi := i.isLt
  have hf := L.fits
  unfold Layout.counterAt Layout.validAt
  rw [show (27 : UInt32).toNat = 27 from rfl]
  omega

/-- The shell turns tracing on and calls `set_tickets`: the flag of its entry is 2. -/
theorem set_tickets_breaks_flag : ∃ s, Reach (TraceSt.Boot lowLayout) (TraceSt.Step lowLayout) s ∧
      lowLayout.valid s.mem 0 = 2 := by
  obtain ⟨m, hboot, h0⟩ := boot_empty
  have hon : TraceSt.Step lowLayout ⟨m, 0⟩ (.call shellName SYS_trace_syscalls 1) ⟨m, 1⟩ :=
    syscall_on lowLayout m shellName ▸ .call shellName SYS_trace_syscalls 1
  refine ⟨_, .step (.step (.start hboot) hon) (.call shellName 27 0), ?_⟩
  rw [TraceSt.syscall, if_neg (by decide), addSyscall_first (by rw [h0]; decide)]
  unfold Layout.valid Layout.count
  rw [counterAt_set_tickets, rd32_wr32_same, rd32_wr32_same]
  rfl

end Xv6.Kernel
