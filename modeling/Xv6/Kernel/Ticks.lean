import Xv6.Block
import Xv6.Lib.Run

/-!
# Xv6.Kernel.Ticks

`sys_sleep` and the clock of `trap`.

A step is what is done while `tickslock` is held, but that a process keeps it from its test until it
is asleep; a `kill` comes at any time, also in between. `now` counts the clock's interrupts, and
`ticks` is what a `uint` has of it. The `int` `n` is compared as a `uint`.
-/

namespace Xv6.Kernel

open Function

/-- Where a process is, with `n` and the time of its call; a call whose `argint` has failed has
neither. -/
inductive SleepPc where
  | out
  | dozing (n : UInt32) (start : Nat)
  | asleep (n : UInt32) (start : Nat)
  | woken (n : UInt32) (start : Nat)
  | back (call : Option (UInt32 × Nat)) (ret : Int)

/-- `wakeup(&ticks)` or `kill`, for one process. -/
def SleepPc.wake : SleepPc → SleepPc
  | .asleep n start => .woken n start
  | pc => pc

structure Clock where
  now : Nat
  lock : Option (Fin NPROC)
  killed : Fin NPROC → Bool
  pc : Fin NPROC → SleepPc

namespace Clock

def ticks (s : Clock) : UInt32 := .ofNat s.now

/-- The loop of `sys_sleep`, up to its next `sleep`. -/
def turn (s : Clock) (p : Fin NPROC) (n : UInt32) (start : Nat) : Clock :=
  if s.ticks - .ofNat start < n then
    if s.killed p then { s with pc := update s.pc p (.back (some (n, start)) (-1)) }
    else { s with lock := some p, pc := update s.pc p (.dozing n start) }
  else { s with pc := update s.pc p (.back (some (n, start)) 0) }

inductive Step (s : Clock) (p : Fin NPROC) : Clock → Prop where
  /-- `argint(0, &n) < 0`. -/
  | refuse : s.pc p = .out → Step s p { s with pc := update s.pc p (.back none (-1)) }
  | call (n : Int) : s.lock = none → s.pc p = .out → Step s p (s.turn p (.ofInt n) s.now)
  | doze {n : UInt32} {start : Nat} : s.pc p = .dozing n start →
      Step s p { s with lock := none, pc := update s.pc p (.asleep n start) }
  | resume {n : UInt32} {start : Nat} : s.lock = none → s.pc p = .woken n start →
      Step s p (s.turn p n start)
  | leave {c : Option (UInt32 × Nat)} {r : Int} : s.pc p = .back c r →
      Step s p { s with pc := update s.pc p .out }
  | tick : s.lock = none → Step s p { s with now := s.now + 1, pc := fun q => (s.pc q).wake }
  | kill : Step s p { s with
      killed := update s.killed p true, pc := update s.pc p (s.pc p).wake }

def Init (s : Clock) : Prop := s.lock = none ∧ ∀ p, s.pc p = .out

/-- What a call has returned, `0` or `-1`, and why. -/
def Answered (s : Clock) (p : Fin NPROC) (c : Option (UInt32 × Nat)) (r : Int) : Prop :=
  (∃ n start, c = some (n, start) ∧ r = 0 ∧ n.toNat ≤ s.now - start) ∨
    r = -1 ∧ (c = none ∨ s.killed p = true)

/-- A process that sleeps has to, and one that is back has its answer. -/
def Fine (s : Clock) (p : Fin NPROC) : SleepPc → Prop
  | .out => True
  | .dozing n start => s.lock = some p ∧ start ≤ s.now ∧ (s.now - start) % 2 ^ 32 < n.toNat
  | .asleep n start => start ≤ s.now ∧ (s.now - start) % 2 ^ 32 < n.toNat
  | .woken _ start => start ≤ s.now
  | .back c r => s.Answered p c r

variable {s s' : Clock} {p q : Fin NPROC} {x : SleepPc}

theorem elapsed {start : Nat} (h : start ≤ s.now) :
    (s.ticks - .ofNat start).toNat = (s.now - start) % 2 ^ 32 := by
  rw [ticks, UInt32.toNat_sub, UInt32.toNat_ofNat', UInt32.toNat_ofNat']
  omega

/-- Only a process that has the lock looks at it. -/
theorem Fine.relock (h : s.Fine q x) (hq : s.lock ≠ some q) (l : Option (Fin NPROC))
    (pc : Fin NPROC → SleepPc) : Fine { s with lock := l, pc } q x := by
  cases x with
  | dozing n start => exact absurd h.1 hq
  | out | asleep n start | woken n start | back c r => exact h

theorem Fine.tick (h : s.Fine q x) (hl : s.lock = none) (pc : Fin NPROC → SleepPc) :
    Fine { s with now := s.now + 1, pc } q x.wake := by
  cases x with
  | out => exact h
  | dozing n start => exact absurd (hl.symm.trans h.1) nofun
  | asleep n start => exact Nat.le_succ_of_le h.1
  | woken n start => exact Nat.le_succ_of_le h
  | back c r =>
    refine h.imp_left fun ⟨n, start, hc, hr, hn⟩ => ⟨n, start, hc, hr, ?_⟩
    exact hn.trans (Nat.sub_le_sub_right (Nat.le_succ _) _)

theorem Fine.kill (h : s.Fine q x) (p : Fin NPROC) (pc : Fin NPROC → SleepPc) :
    Fine { s with killed := update s.killed p true, pc } q x := by
  cases x with
  | out | dozing n start | asleep n start | woken n start => exact h
  | back c r =>
    refine h.imp_right fun ⟨hr, hwhy⟩ => ⟨hr, hwhy.imp_right fun hk => ?_⟩
    show update s.killed p true q = true
    rw [update_apply, hk, ite_self]

theorem Fine.wake (h : s.Fine q x) : s.Fine q x.wake := by
  cases x with
  | asleep n start => exact h.1
  | out | dozing n start | woken n start | back c r => exact h

theorem fine_update {f : Fin NPROC → SleepPc} (hp : s.Fine p x)
    (hother : ∀ q, q ≠ p → s.Fine q (f q)) (q : Fin NPROC) : s.Fine q (update f p x q) :=
  update_cases q hp hother

theorem fine_turn (h : ∀ q, s.Fine q (s.pc q)) (hl : s.lock = none) {n : UInt32} {start : Nat}
    (hs : start ≤ s.now) (q : Fin NPROC) : (s.turn p n start).Fine q ((s.turn p n start).pc q) := by
  have hfree : ∀ q, s.lock ≠ some q := fun q hq => nomatch hl.symm.trans hq
  have hlt := UInt32.lt_iff_toNat_lt (a := s.ticks - .ofNat start) (b := n)
  rw [elapsed hs] at hlt
  unfold turn
  split
  · next hless =>
    split
    · next hk =>
      refine fine_update ?_ (fun q _ => (h q).relock (hfree q) ..) q
      exact Or.inr ⟨rfl, .inr hk⟩
    · refine fine_update ?_ (fun q _ => (h q).relock (hfree q) ..) q
      exact ⟨rfl, hs, hlt.mp hless⟩
  · next hge =>
    have hn : n.toNat ≤ s.now - start :=
      (Nat.le_of_not_lt (mt hlt.mpr hge)).trans (Nat.mod_le ..)
    refine fine_update ?_ (fun q _ => (h q).relock (hfree q) ..) q
    exact Or.inl ⟨n, start, rfl, rfl, hn⟩

theorem Step.fine (h : ∀ q, s.Fine q (s.pc q)) (hst : Step s p s') (q : Fin NPROC) :
    s'.Fine q (s'.pc q) := by
  have hp := h p
  cases hst with
  | refuse hpc =>
    refine fine_update ?_ (fun q _ => h q) q
    exact Or.inr ⟨rfl, .inl rfl⟩
  | call n hl hpc => exact fine_turn h hl le_rfl q
  | resume hl hpc =>
    rw [hpc] at hp
    exact fine_turn h hl hp q
  | doze hpc =>
    rw [hpc] at hp
    refine fine_update ?_ (fun q hq => (h q).relock (fun hlock => hq ?_) ..) q
    · exact hp.2
    · exact Option.some.inj (hlock.symm.trans hp.1)
  | leave hpc =>
    refine fine_update ?_ (fun q _ => h q) q
    trivial
  | tick hl => exact (h q).tick hl _
  | kill => exact fine_update (hp.wake.kill p _) (fun q _ => (h q).kill p _) q

theorem reach_fine (h : Reach Init Step s) : ∀ p, s.Fine p (s.pc p) := by
  refine h.invariant (P := fun s => ∀ p, s.Fine p (s.pc p)) (fun s hs p => ?_)
    fun s _ s' hs hst => hst.fine hs
  rw [hs.2 p]
  trivial

/-- In whatever order calls, interrupts and kills come: a process that sleeps in `sys_sleep` has not
had its `n` ticks, and one that returns `0` has had them; it returns `-1` only where its argument
could not be fetched or it was killed. -/
theorem sleep_on_time (h : Reach Init Step s) (p : Fin NPROC) :
    (∀ n start, s.pc p = .asleep n start → (s.now - start) % 2 ^ 32 < n.toNat) ∧
      ∀ c r, s.pc p = .back c r →
        (∃ n start, c = some (n, start) ∧ r = 0 ∧ n.toNat ≤ s.now - start) ∨
          r = -1 ∧ (c = none ∨ s.killed p = true) := by
  have hp := reach_fine h p
  refine ⟨fun n start hpc => ?_, fun c r hpc => ?_⟩ <;> rw [hpc] at hp
  · exact hp.2
  · exact hp

/-- `sleep(-1)` waits for `2 ^ 32 - 1` ticks; beside it a `sleep(1)` returns after the first. -/
theorem sleep_on_time_two : ∃ s, Reach Init Step s ∧ s.now = 1 ∧
    s.pc 0 = .asleep 4294967295 0 ∧ (s.now - 0) % 2 ^ 32 < 4294967295 ∧
    s.pc 1 = .back (some (1, 0)) 0 ∧ 1 ≤ s.now - 0 := by
  have h0 : Reach Init Step ⟨0, none, fun _ => false, fun _ => .out⟩ := .start ⟨rfl, fun _ => rfl⟩
  have h1 := h0.step (.call (p := 0) (-1) rfl rfl)
  have h2 := h1.step (.doze (p := 0) (n := 4294967295) (by rfl))
  have h3 := h2.step (.call (p := 1) 1 (by rfl) (by rfl))
  have h4 := h3.step (.doze (p := 1) (n := 1) (by rfl))
  have h5 := h4.step (.tick (p := 0) (by rfl))
  have h6 := h5.step (.resume (p := 1) (n := 1) (by rfl) (by rfl))
  have h7 := h6.step (.resume (p := 0) (n := 4294967295) (by rfl) (by rfl))
  have h8 := h7.step (.doze (p := 0) (n := 4294967295) (by rfl))
  have hback := (sleep_on_time h8 1).2 (some (1, 0)) 0 (by rfl)
  refine ⟨_, h8, by rfl, by rfl, (sleep_on_time h8 0).1 4294967295 0 (by rfl), by rfl, ?_⟩
  obtain ⟨n, start, hc, -, hn⟩ | ⟨hr, -⟩ := hback
  · cases hc
    exact hn
  · cases hr

end Clock

end Xv6.Kernel
