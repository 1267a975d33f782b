import Xv6.Block
import Xv6.Lib.Run
import Xv6.Vm.Exec
import Xv6.Vm.Fork

/-!
# Xv6.Vm.Owners

Who owns the physical pages of a machine that runs.

A slot of the process table in use owns its kernel stack and its address space, `K` is what the
kernel keeps for itself, and the free list has the rest. The processes make their calls in any
order, each call running to its end, and memory may run out in any of them.

`Inv` says that each page has one owner, `Kept` that a call keeps that and what the others have.
-/

namespace Xv6.Vm

open Multiset Function

/-- A slot of the process table in use: `p->kstack` beside `p->sz` and `p->pgdir`. -/
structure Owner extends Proc where
  kstack : Nat
  zombie : Bool

structure Machine where
  mem : Mem
  proc : Fin NPROC → Option Owner

/-- A process of a size below `KERNBASE`, with no page above it. There may be holes below. -/
structure Proc.Bounded (P : Proc) : Prop where
  wf : P.pgdir.Wf
  lt : P.sz.toNat < KERNBASE
  above : ∀ w, npages P.sz ≤ w → w < UPAGES → P.pgdir.pte w = Pte.zero

def Owner.pages (o : Owner) : Multiset Nat := o.kstack ::ₘ o.pgdir.owned

variable {l : Layout} {T R K : Multiset Nat} {m m' : Mem} {d : Pgdir} {P : Proc}

theorem kalloc_total {f : Nat} (htot : ↑m.free + R = T) (hk : kalloc m = some (f, m')) :
    ↑m'.free + f ::ₘ R = T := by
  rw [← htot, (kalloc_some hk).1, ← cons_coe, add_cons, cons_add]

theorem kfree_ends {f : Nat} {E : Fault → Prop} (hpool : Pool l T) (htot : ↑m.free + f ::ₘ R = T) :
    Ends (kfree l m f) E fun m' => ↑m'.free + R = T ∧ ∀ g ∈ R, m'.ram g = m.ram g := by
  have hf : f ∈ T := htot ▸ mem_add.mpr (.inr (mem_cons_self ..))
  have hnd : (f ::ₘ R).Nodup := (nodup_add.mp (htot ▸ hpool.nodup)).2.1
  rw [kfree_ok (hpool.managed f hf)]
  refine ⟨?_, fun g hg => Mem.memset_ram_other m 1 ?_⟩
  · rw [← htot, ← cons_coe, add_cons, cons_add]
  · rintro rfl
    exact (nodup_cons.mp hnd).1 hg

/-- What `growproc` gets back. It takes the size `0` for a failure, and keeps the old one. -/
def Fitted (T R : Multiset Nat) (m : Mem) (P : Proc) (r : UInt32 × Mem × Pgdir) : Prop :=
  Account T R r.2.1 r.2.2 ∧ (Proc.mk (if r.1 = 0 then P.sz else r.1) r.2.2).Bounded ∧
    ∀ f ∈ R, r.2.1.ram f = m.ram f

section Grow

variable {newsz : UInt32} (hpool : Pool l T) (hP : P.Bounded) (hacc : Account T R m P.pgdir)

include hpool hP hacc

theorem allocuvm_fitted :
    Ends (allocuvm l m P.pgdir P.sz newsz) (fun _ => False) (Fitted T R m P) := by
  have hlt := hP.lt
  refine (allocuvm_grown hpool hlt.le hP.above hacc).imp fun r hr => ?_
  obtain ⟨sz, m1, d1⟩ := r
  obtain ⟨hacc1, ⟨rfl, hg, -⟩ | ⟨-, hr⟩ | ⟨hnew, hle, rfl, hg⟩⟩ := hr
  · refine ⟨hacc1, ⟨hacc1.wf, hlt, fun w h1 h2 => ?_⟩, fun f hf =>
      hg.ram f (hacc.not_free_other hpool hf)⟩
    rw [← hP.above w h1 h2]
    exact hg.old w (by omega)
  · obtain ⟨rfl, rfl, rfl⟩ : sz = P.sz ∧ m1 = m ∧ d1 = P.pgdir := by simpa using hr
    refine ⟨hacc, ?_, fun _ _ => rfl⟩
    rwa [ite_self]
  · refine ⟨hacc1, ?_, fun f hf => hg.ram f (hacc.not_free_other hpool hf)⟩
    have hsz : P.sz.toNat ≤ sz.toNat := UInt32.le_iff_toNat_le.mp hle
    have hkeep : sz = 0 → P.sz = sz := by
      rintro rfl
      exact UInt32.toNat_inj.mp (Nat.le_zero.mp hsz)
    dsimp only
    rw [ite_eq_right_iff.mpr hkeep]
    refine ⟨hacc1.wf, hnew, fun w h1 h2 => ?_⟩
    rw [hg.old w (.inr h1)]
    exact hP.above w (le_trans (Nat.div_le_div_right (Nat.add_le_add_right hsz _)) h1) h2

theorem deallocuvm_fitted :
    Ends (deallocuvm l m P.pgdir P.sz newsz) (fun _ => False) (Fitted T R m P) := by
  have hlt := hP.lt
  refine (deallocuvm_freed hpool hlt.le hacc).imp fun r hr => ?_
  obtain ⟨sz, m1, d1⟩ := r
  obtain ⟨hacc1, hf, hr⟩ := hr
  have habove : ∀ w, npages P.sz ≤ w ∨ npages newsz ≤ w → w < UPAGES → d1.pte w = Pte.zero := by
    intro w h1 h2
    rw [hf.pte w]
    split
    · rfl
    · exact hP.above w (by omega) h2
  have hkept : (Proc.mk P.sz d1).Bounded := ⟨hacc1.wf, hlt, fun w h1 => habove w (.inl h1)⟩
  refine ⟨hacc1, ?_, fun f hin => hf.ram f (hacc1.not_free_other hpool hin)⟩
  dsimp only at hr ⊢
  split
  · exact hkept
  · split at hr
    · rwa [hr]
    · next hge =>
      rw [UInt32.not_le, UInt32.lt_iff_toNat_lt] at hge
      rw [hr]
      exact ⟨hacc1.wf, hge.trans hlt, fun w h1 => habove w (.inr h1)⟩

theorem growproc_ends (n : Int) : Ends (growproc l m P n) (fun _ => False) fun r =>
    Account T R r.2.1 r.2.2.pgdir ∧ r.2.2.Bounded ∧ ∀ f ∈ R, r.2.1.ram f = m.ram f := by
  unfold growproc
  split
  · refine (allocuvm_fitted hpool hP hacc).bind fun r ⟨hacc1, hb, hram⟩ => ?_
    dsimp only
    split_ifs at hb ⊢ <;> exact ⟨hacc1, hb, hram⟩
  · split
    · refine (deallocuvm_fitted hpool hP hacc).bind fun r ⟨hacc1, hb, hram⟩ => ?_
      dsimp only
      split_ifs at hb ⊢ <;> exact ⟨hacc1, hb, hram⟩
    · exact ⟨hacc, hP, fun _ _ => rfl⟩

end Grow

namespace Machine

variable {s s' : Machine} {p q : Fin NPROC} {x : Option Owner} {o z : Owner}

def put (s : Machine) (m : Mem) (p : Fin NPROC) (x : Option Owner) : Machine :=
  { s with mem := m, proc := update s.proc p x }

/-- The part of `allocproc` and `fork` that takes memory. -/
def fork (l : Layout) (s : Machine) (o : Owner) : Except Fault Machine :=
  match (List.finRange NPROC).find? fun q => (s.proc q).isNone, kalloc s.mem with
  | some q, some (kstack, m) => do
    let (d, m) ← copyuvm l m o.pgdir o.sz
    match d with
    | none => return s.put (← kfree l m kstack) q none
    | some d => return s.put m q (some ⟨⟨o.sz, d⟩, kstack, false⟩)
  | _, _ => .ok s

/-- What `wait` does with a zombie. -/
def wait (l : Layout) (s : Machine) (q : Fin NPROC) (z : Owner) : Except Fault Machine := do
  let m ← kfree l s.mem z.kstack
  return s.put (← freevm l m z.pgdir) q none

/-- A process that has not called `exit`. -/
def Runs (s : Machine) (p : Fin NPROC) (o : Owner) : Prop := s.proc p = some o ∧ o.zombie = false

/-- A call of the process in slot `p`, and how it ends. -/
inductive Call (l : Layout) (s : Machine) (p : Fin NPROC) (o : Owner) :
    Except Fault Machine → Prop where
  | fork : Call l s p o (s.fork l o)
  /-- `copyout` fails on an absent table here, which `vm.c` does not test for. -/
  | exec {t : Sys} {files : Files} {argv : List (List UInt8)} (path : List UInt8) :
      t.mem = s.mem → t.task.toProc = o.toProc →
      (∀ ip, (files.data ip).length < 4294967296) → (∀ a ∈ argv, a.length < KERNBASE) →
      Call l s p o (do
        let (_, t) ← exec l files t path argv
        return s.put t.mem p (some { o with toProc := t.task.toProc }))
  | sbrk (n : Int) : Call l s p o (do
      let (_, m, P) ← growproc l s.mem o.toProc n
      return s.put m p (some { o with toProc := P }))
  | exit : Call l s p o (.ok (s.put s.mem p (some { o with zombie := true })))
  | wait {q : Fin NPROC} {z : Owner} : s.proc q = some z → z.zombie = true →
      Call l s p o (s.wait l q z)

/-- The pages that the slots `A` own. -/
def owned (s : Machine) (A : Finset (Fin NPROC)) : Multiset Nat :=
  ∑ p ∈ A, (s.proc p).elim 0 Owner.pages

/-- Every page of `T` is free, the kernel's own (`K`), or has one owner. -/
structure Inv (T K : Multiset Nat) (s : Machine) : Prop where
  total : ↑s.mem.free + (s.owned .univ + K) = T
  bounded : ∀ p o, s.proc p = some o → o.toProc.Bounded

/-- The running processes other than `p` have what they had, with the same bytes in it. -/
def Apart (s : Machine) (p : Fin NPROC) (s' : Machine) : Prop :=
  ∀ q o, q ≠ p → s.Runs q o → s'.proc q = some o ∧ ∀ f ∈ o.pages, s'.mem.ram f = s.mem.ram f

def Kept (T K : Multiset Nat) (s : Machine) (p : Fin NPROC) (s' : Machine) : Prop :=
  Inv T K s' ∧ Apart s p s'

/-- The pages in use that are not the slot's. -/
abbrev others (s : Machine) (p : Fin NPROC) : Multiset Nat := s.owned (.erase .univ p)

theorem owned_univ (s : Machine) (p : Fin NPROC) :
    s.owned .univ = (s.proc p).elim 0 Owner.pages + s.others p :=
  (Finset.add_sum_erase _ _ (Finset.mem_univ p)).symm

theorem owned_put : (s.put m p x).owned .univ = x.elim 0 Owner.pages + s.others p := by
  rw [owned_univ _ p]
  dsimp only [put, others, owned]
  rw [update_self]
  rw [Finset.sum_congr rfl fun q hq => by rw [update_of_ne (Finset.ne_of_mem_erase hq)]]

theorem mem_owned {A : Finset (Fin NPROC)} (hq : s.proc q = some o) (hA : q ∈ A) {f : Nat}
    (hf : f ∈ o.pages) : f ∈ s.owned A :=
  mem_sum.mpr ⟨q, hA, by rwa [hq]⟩

variable (h : Inv T K s)

include h

theorem Inv.refl : Kept T K s p s := ⟨h, fun _ _ _ hr => ⟨hr.1, fun _ _ => rfl⟩⟩

theorem Inv.split (q : Fin NPROC) :
    ↑s.mem.free + ((s.proc q).elim 0 Owner.pages + (s.others q + K)) = T := by
  rw [← h.total, owned_univ s q, add_assoc]

/-- The slot's address space, its kernel stack among the pages of others. -/
theorem Inv.account (hp : s.proc p = some o) :
    Account T (o.kstack ::ₘ (s.others p + K)) s.mem o.pgdir := by
  refine ⟨(h.bounded p o hp).wf, ?_⟩
  rw [← h.split p, hp]
  simp only [Option.elim, Owner.pages, cons_add, add_cons, add_assoc]

/-- A call that changes one slot, the caller's or one that does not run. -/
theorem Inv.put (hq : q = p ∨ ∀ o, ¬ s.Runs q o) (hx : ∀ o, x = some o → o.toProc.Bounded)
    (htot : ↑m.free + (x.elim 0 Owner.pages + (s.others q + K)) = T)
    (hram : ∀ f ∈ s.others q + K, m.ram f = s.mem.ram f) : Kept T K s p (s.put m q x) := by
  refine ⟨⟨?_, fun r => ?_⟩, fun r o hne hr => ?_⟩
  · rwa [owned_put, add_assoc]
  · dsimp only [Machine.put]
    exact update_cases r hx fun r _ => h.bounded r
  · have hrq : r ≠ q := by
      rintro rfl
      exact hq.elim hne fun hq => hq o hr
    exact ⟨(update_of_ne hrq ..).trans hr.1, fun f hf => hram f (mem_add.mpr (.inl
      (mem_owned hr.1 (Finset.mem_erase.mpr ⟨hrq, Finset.mem_univ r⟩) hf)))⟩

theorem Inv.putSpace (hq : q = p ∨ ∀ o, ¬ s.Runs q o) (ho : o.toProc.Bounded)
    (hacc : Account T (o.kstack ::ₘ (s.others q + K)) m o.pgdir)
    (hram : ∀ f ∈ o.kstack ::ₘ (s.others q + K), m.ram f = s.mem.ram f) :
    Kept T K s p (s.put m q (some o)) := by
  refine h.put hq (fun _ e => Option.some.inj e ▸ ho) ?_ fun f hf => hram f (mem_cons_of_mem hf)
  rw [← hacc.total]
  simp only [Option.elim, Owner.pages, cons_add, add_cons, add_assoc]

theorem Inv.fork (hpool : Pool l T) (hp : s.Runs p o) :
    Ends (s.fork l o) (fun _ => Gap o.pgdir o.sz) (Kept T K s p) := by
  have hP := h.bounded p o hp.1
  unfold Machine.fork
  split
  · next q kstack m1 hfind hk =>
    have hq : s.proc q = none := by simpa using List.find?_some hfind
    have hidle : ∀ o, ¬ s.Runs q o := fun o ho => nomatch hq.symm.trans ho.1
    have hne : p ≠ q := fun e => hidle o (e ▸ hp)
    have htot := h.split q
    rw [hq, Option.elim, zero_add] at htot
    refine ((copyuvm_newSpace hpool hP.lt.le hP.wf (fun w hw hpw => ?_)
      (kalloc_total htot hk)).mono (fun _ he => he.2) fun _ => id).bind fun r hr => ?_
    · have hu := npages_le hP.lt.le
      exact mem_cons_of_mem (mem_add.mpr (.inl (mem_owned hp.1
        (Finset.mem_erase.mpr ⟨hne, Finset.mem_univ p⟩)
        (mem_cons_of_mem (Pgdir.mem_owned_page (by omega) hpw)))))
    · obtain ⟨d, m2⟩ := r
      obtain ⟨⟨hram, hnew⟩, -⟩ := hr
      rw [(kalloc_some hk).2] at hram
      cases d with
      | none =>
        refine (kfree_ends hpool hnew).bind fun m3 hm3 => ?_
        exact h.put (.inr hidle) nofun (by simpa using hm3.1) fun g hg =>
          (hm3.2 g hg).trans (hram g (mem_cons_of_mem hg))
      | some d => exact h.putSpace (.inr hidle) ⟨hnew.1.wf, hP.lt, hnew.2.rest⟩ hnew.1 hram
  · exact h.refl

theorem Inv.wait (hpool : Pool l T) (hq : s.proc q = some z) (hz : z.zombie = true) :
    Ends (s.wait l q z) (fun _ => False) (Kept T K s p) := by
  have hacc := h.account hq
  have htot : ↑s.mem.free + z.kstack ::ₘ (z.pgdir.owned + (s.others q + K)) = T := by
    rw [← hacc.total]
    simp only [add_cons, add_assoc]
  refine (kfree_ends hpool htot).bind fun m1 hm1 => ?_
  refine (freevm_ends hpool ⟨hacc.wf, by rw [add_assoc]; exact hm1.1⟩).bind fun m2 hm2 => ?_
  refine h.put (.inr fun o ho => ?_) nofun (by simpa using hm2.1) fun f hf => ?_
  · obtain rfl : z = o := Option.some.inj (hq.symm.trans ho.1)
    exact absurd ho.2 (by simp [hz])
  · rw [hm2.2 f (not_free_rest hpool hm2.1 hf)]
    exact hm1.2 f (mem_add.mpr (.inr hf))

theorem Inv.call {r : Except Fault Machine} (hpool : Pool l T) (hp : s.Runs p o)
    (hc : Call l s p o r) : Ends r (fun _ => Gap o.pgdir o.sz) (Kept T K s p) := by
  have hP := h.bounded p o hp.1
  have hacc := h.account hp.1
  cases hc with
  | fork => exact h.fork hpool hp
  | @exec t files argv path hmem htask hfiles hargv =>
    rw [← hmem, ← htask] at hacc
    refine ((exec_apart hpool hacc hfiles path hargv 0).mono (fun _ => False.elim) fun _ =>
      id).bind fun r hr => ?_
    obtain ⟨⟨-, hfail⟩ | ⟨-, hlt, hacc', ⟨_, _, -, -, himage⟩, -⟩, hram, -⟩ := hr
    · have hsame : r.2.task.toProc = o.toProc := by rw [hfail.task, htask]
      refine h.putSpace (.inl rfl) (hsame ▸ hP) ⟨?_, ?_⟩ (hmem ▸ hram)
      · exact hsame ▸ hP.wf
      · rw [hfail.task, hfail.free]
        exact hacc.total
    · refine h.putSpace (.inl rfl) ⟨hacc'.wf, hlt, fun w h1 h2 => hacc'.wf.clear w ?_⟩ hacc'
        (hmem ▸ hram)
      rw [Bool.eq_false_iff, Ne, himage.maps w h2, ← lt_npages]
      exact not_lt.mpr h1
  | sbrk n =>
    refine ((growproc_ends hpool hP hacc n).mono (fun _ => False.elim) fun _ => id).bind
      fun r hr => ?_
    exact h.putSpace (.inl rfl) hr.2.1 hr.1 hr.2.2
  | exit => exact h.putSpace (.inl rfl) hP hacc fun _ _ => rfl
  | wait hq hz => exact (h.wait hpool hq hz).mono (fun _ => False.elim) fun _ => id

omit h

/-- After `userinit`: one process. -/
structure Booted (T K : Multiset Nat) (s : Machine) : Prop where
  proc : ∃ o, s.proc = update (fun _ => none) 0 (some o) ∧ o.toProc.Bounded
  total : ↑s.mem.free + (s.owned .univ + K) = T

def Step (l : Layout) (s : Machine) (p : Fin NPROC) (s' : Machine) : Prop :=
  ∃ o, s.Runs p o ∧ Call l s p o (.ok s')

theorem reach_inv (hpool : Pool l T) (h : Reach (Booted T K) (Step l) s) : Inv T K s := by
  refine h.invariant (fun s hs => ⟨hs.total, fun p => ?_⟩) fun s p s' hs hst => ?_
  · obtain ⟨o, hproc, ho⟩ := hs.proc
    rw [hproc]
    exact update_cases p (fun _ e => Option.some.inj e ▸ ho) fun _ _ => nofun
  · obtain ⟨o, hp, hc⟩ := hst
    exact (hs.call hpool hp hc).1

/-- The first process, with a kernel stack, where memory does not run out. -/
def first : Machine := put ⟨plenty, fun _ => none⟩ plenty 0 (some ⟨onePage, 1023, false⟩)

/-- The memory `copyuvm` gets when `kalloc` has given the child its kernel stack. -/
def stacked : Mem := ⟨plenty.ram, List.range' 1028 1999⟩

end Machine

end Xv6.Vm
