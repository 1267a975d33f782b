import Xv6.Vm.Args

/-!
# Xv6.Vm.Exec

`exec` as a whole: the image, the stack with the arguments, the switch, and the ways out.

The file system is seen from outside: what `namei` finds for a path, the bytes of a file, and the
two accounts `exec` has to settle, the references to inodes and the operations outstanding in the
log. `copyout` is the one that fails where a table is missing.

`exec_apart` says that no panic is in reach, that a failure leaves the caller, the accounts and the
free pages as they were, that success leaves the image (`exec_intact`) and the arguments
(`exec_passes`), and that a program that can be loaded is (`Starts`).
-/

namespace Xv6.Vm

/-- What `exec` sees of the file system. -/
structure Files where
  /-- The inode `namei` finds. -/
  find : List UInt8 → Option Nat
  /-- The bytes of a regular file. -/
  data : Nat → List UInt8

structure Task extends Proc where
  name : List UInt8
  eip : UInt32
  esp : UInt32

structure Sys where
  mem : Mem
  task : Task
  /-- `ip->ref`, by inode. -/
  ref : Nat → Nat
  /-- `log.outstanding`. -/
  outstanding : Nat

namespace Sys

def beginOp (s : Sys) : Sys := { s with outstanding := s.outstanding + 1 }

def endOp (s : Sys) : Sys := { s with outstanding := s.outstanding - 1 }

/-- The reference `namei` returns. -/
def hold (s : Sys) (ip : Nat) : Sys := { s with ref := Function.update s.ref ip (s.ref ip + 1) }

def iunlockput (s : Sys) (ip : Nat) : Sys :=
  { s with ref := Function.update s.ref ip (s.ref ip - 1) }

end Sys

/-- `readi` of the header and the test of its magic. -/
def header (c : List UInt8) : Option Elfhdr :=
  match readi c 0 Elfhdr.size with
  | none => none
  | some b =>
    if b.length ≠ Elfhdr.size.toNat then none
    else
      let elf := Elfhdr.parse fun i => b.getD i 0
      if elf.magic ≠ ELF_MAGIC then none else some elf

def lastElement (path : List UInt8) : List UInt8 := (path.reverse.takeWhile (· ≠ 47)).reverse

/-- `bad`: the new address space is freed, and the inode put if it is still held. -/
def bad (l : Layout) (s : Sys) (pgdir : Option Pgdir) (ip : Option Nat) :
    Except Fault (Int × Sys) := do
  let m ← match pgdir with
    | none => pure s.mem
    | some d => freevm l s.mem d
  match ip with
  | none => return (-1, { s with mem := m })
  | some ip => return (-1, ({ s with mem := m }.iunlockput ip).endOp)

/-- `exec` from where the inode has been put. -/
def execStack (l : Layout) (s : Sys) (path : List UInt8) (argv : List (List UInt8)) (elf : Elfhdr)
    (d : Pgdir) (sz : UInt32) : Except Fault (Int × Sys) := do
  let (sz, m, d) ← allocuvm l s.mem d (pgroundup sz) (pgroundup sz + 8192)
  if sz = 0 then bad l { s with mem := m } (some d) none
  else
    let d ← clearpteu d m (sz - 8192)
    let (r, m) ← pushArgs d argv 0 sz [] m
    match r with
    | none => bad l { s with mem := m } (some d) none
    | some (sp, us) =>
      let sp' := sp - UInt32.ofNat ((3 + us.length + 1) * 4)
      let (ok, m) ← copyoutTested m d sp' (words (ustack sp us))
      if ok then
        let m ← freevm l m s.task.pgdir
        return (0, { s with mem := m, task := {
          sz := sz, pgdir := d, name := (lastElement path).take 15, eip := elf.entry,
          esp := sp' } })
      else bad l { s with mem := m } (some d) none

def exec (l : Layout) (files : Files) (s : Sys) (path : List UInt8) (argv : List (List UInt8)) :
    Except Fault (Int × Sys) :=
  let s := s.beginOp
  match files.find path with
  | none => .ok (-1, s.endOp)
  | some ip =>
    let s := s.hold ip
    match header (files.data ip) with
    | none => bad l s none (some ip)
    | some elf => do
      let (pgdir, m) ← setupkvm l s.mem
      match pgdir with
      | none => bad l { s with mem := m } none (some ip)
      | some d =>
        let (sz, m, d) ← segments l (files.data ip) elf.phnum.toNat elf.phoff m d 0
        match sz with
        | none => bad l { s with mem := m } (some d) (some ip)
        | some sz => execStack l (({ s with mem := m }.iunlockput ip).endOp) path argv elf d sz

variable {l : Layout} {T R : Multiset Nat} {m m' m0 : Mem} {d : Pgdir} {c : List UInt8}
  {phs : List Proghdr} {n : Nat}

/-- All pages of the new address space are free again, and the others hold what they held. -/
def Back (T R : Multiset Nat) (m0 m : Mem) : Prop :=
  ↑m.free + R = T ∧ ∀ f ∈ R, m.ram f = m0.ram f

theorem bad_back (hpool : Pool l T) (hacc : Account T R m d)
    (hothers : ∀ f ∈ R, m.ram f = m0.ram f) (s : Sys) (ip : Option Nat) :
    Ends (bad l { s with mem := m } (some d) ip) (fun _ => False) fun r =>
      ∃ m', Back T R m0 m' ∧ r = (-1, ip.elim { s with mem := m' } fun ip =>
        ({ s with mem := m' }.iunlockput ip).endOp) := by
  unfold bad
  refine (freevm_ends hpool hacc).bind fun m1 hm1 => ?_
  have hback : Back T R m0 m1 :=
    ⟨hm1.1, fun f hf => (hm1.2 f (not_free_rest hpool hm1.1 hf)).trans (hothers f hf)⟩
  cases ip with
  | none => exact ⟨m1, hback, rfl⟩
  | some ip => exact ⟨m1, hback, rfl⟩

/-- The image is in place: the pages below `sz` and no others are mapped, all of them open to the
user but the one below the stack, and a segment's bytes of the file are at its address unless a
later segment has bytes there. -/
structure Placed (c : List UInt8) (phs : List Proghdr) (m : Mem) (sz : UInt32) (d : Pgdir) :
    Prop where
  maps : ∀ w, w < UPAGES → ((d.pte w).p = true ↔ 4096 * w < sz.toNat)
  guard : ∀ w, 4096 * w < sz.toNat → ((d.pte w).u = false ↔ 4096 * w = sz.toNat - 2 * PGSIZE)
  bytes : ∀ before ph after, phs = before ++ ph :: after → ph.type = ELF_PROG_LOAD →
    ∀ k, k < ph.filesz.toNat → (∀ q ∈ after, ¬ q.Covers (ph.vaddr.toNat + k)) →
      load m d (ph.vaddr.toNat + k) = c.getD (ph.off.toNat + k) 0

theorem Stacked.placed (h : Stacked T R m0 c phs n m d)
    (hram : ∀ f ∈ d.owned, m'.ram f = m.ram f) : Placed c phs m' (addr (n + 2)) d := by
  have hlt := h.lt
  simp only [UPAGES, KERNBASE, PGSIZE] at hlt
  have hsz : (addr (n + 2)).toNat = 4096 * (n + 2) := toNat_addr (by omega)
  refine ⟨fun w hw => ?_, fun w hw => ?_, ?_⟩
  · rw [h.maps w hw, hsz]
    omega
  · rw [hsz] at hw ⊢
    have hu := h.user w (by omega)
    have hfalse : (d.pte w).u = false ↔ ¬ (d.pte w).u = true := by simp
    rw [hfalse, hu]
    simp only [PGSIZE]
    omega
  · intro before ph after hphs hload k hk hlast
    have hcov : ph.Covers (ph.vaddr.toNat + k) := ⟨hload, by omega, by omega⟩
    have himage := imageByte_last c before hcov hlast
    rw [← hphs, Nat.add_sub_cancel_left] at himage
    have hin := h.inside _ _ himage
    have hown := Pgdir.mem_owned_page (show (ph.vaddr.toNat + k) / PGSIZE < UPAGES by
      have := h.lt
      omega) ((h.maps _ (by have := h.lt; omega)).mpr (by omega))
    have hbytes := h.bytes _ hin
    rw [himage, Option.getD_some] at hbytes
    rw [load, hram _ hown]
    exact hbytes

section Exec

variable {R0 : Multiset Nat}

/-- The arguments on the stack of a task that `exec` has just set up. -/
def Task.Started (argv : List (List UInt8)) (m : Mem) (t : Task) : Prop :=
  Fits argv ∧ ∃ av ptrs, Passed argv m t.pgdir t.sz t.esp av ptrs

theorem execStack_ends (hpool : Pool l T) {s : Sys} {sz : UInt32} {elf : Elfhdr}
    {path : List UInt8} {argv : List (List UInt8)} (hargv : ∀ a ∈ argv, a.length < KERNBASE)
    (hold : s.task.pgdir.Wf) (h : Image T (s.task.pgdir.owned + R0) m0 c phs sz s.mem d) :
    Ends (execStack l s path argv elf d sz) (fun _ => False) fun r =>
      ((∃ m', Back T (s.task.pgdir.owned + R0) m0 m' ∧ r = (-1, { s with mem := m' })) ∨
        (r.1 = 0 ∧ r.2.task.sz.toNat < KERNBASE ∧ Account T R0 r.2.mem r.2.task.pgdir ∧
          Placed c phs r.2.mem r.2.task.sz r.2.task.pgdir ∧
          ((∀ a ∈ argv, 0 ∉ a) → r.2.task.Started argv r.2.mem) ∧
          ∀ f ∈ R0, r.2.mem.ram f = m0.ram f)) ∧
      (Ample T (s.task.pgdir.owned + R0) (npages sz + 2) → npages sz + 2 < UPAGES →
        argv.length ≤ MAXARG → Fits argv → r.1 = 0) := by
  have hn : npages sz ≤ UPAGES := npages_le h.le
  have hn' := hn
  simp only [UPAGES, KERNBASE, PGSIZE] at hn'
  -- The two sizes `allocuvm` gets, the end of the image and two pages more.
  obtain ⟨base, hbase⟩ : ∃ base, base = addr (npages sz) := ⟨addr (npages sz), rfl⟩
  obtain ⟨top, htop⟩ : ∃ top, top = addr (npages sz + 2) :=
    ⟨addr (npages sz + 2), rfl⟩
  have hpages : npages base = npages sz := by rw [hbase, npages_addr (by omega)]
  have hpages' : npages top = npages sz + 2 := by rw [htop, npages_addr (by omega)]
  have haddr : base.toNat = 4096 * npages sz := by rw [hbase, toNat_addr (by omega)]
  have haddr' : top.toNat = 4096 * (npages sz + 2) := by rw [htop, toNat_addr (by omega)]
  have hle : base.toNat ≤ KERNBASE := by
    simp only [KERNBASE]
    omega
  unfold execStack
  rw [pgroundup_eq h.le, addr_add_two, ← htop, ← hbase]
  refine (allocuvm_grown hpool hle (by rw [hpages]; exact h.above) h.account).bind fun r hr => ?_
  obtain ⟨sz1, m1, d1⟩ := r
  rw [hpages, hpages'] at hr
  obtain ⟨hacc1, ⟨hz, hg, hno⟩ | ⟨hlt, -⟩ | ⟨hlt, -, hsz, hg⟩⟩ := hr
  · obtain rfl : sz1 = 0 := hz
    refine (bad_back hpool hacc1 (fun f hf => ?_) s none).imp fun r hr =>
      ⟨.inl hr, fun ha htop => absurd ha (hno ?_)⟩
    · exact (hg.ram f (h.account.not_free_other hpool hf)).trans (h.others f hf)
    · simp only [UPAGES, KERNBASE, PGSIZE] at htop ⊢
      omega
  · rw [UInt32.lt_iff_toNat_lt] at hlt
    omega
  · obtain rfl : sz1 = top := hsz
    have hne : sz1 ≠ 0 := by
      intro h0
      rw [h0, UInt32.toNat_zero] at haddr'
      omega
    have hroom : npages sz + 2 < UPAGES := by
      simp only [UPAGES, KERNBASE, PGSIZE] at hlt ⊢
      omega
    have hsub : sz1 - 8192 = addr (npages sz) := by
      rw [htop, ← addr_add_two, UInt32.add_sub_cancel]
    simp only [if_neg hne, hsub]
    refine (h.stacked hpool hroom hacc1 hg).bind fun d2 hst => ?_
    refine (pushArgs_stacked hpool argv 0 sz1 [] m1 hargv (by decide) (by omega) (by omega)
      (by omega) hst).bind fun r hr => ?_
    obtain ⟨x, m2⟩ := r
    obtain ⟨hacc2, hothers2, hst2, hsome⟩ := hr
    cases x with
    | none =>
      refine (bad_back hpool hacc2 hothers2 s none).imp fun r hr =>
        ⟨.inl hr, fun _ _ hargc hfits => absurd rfl (hsome (by omega) ?_)⟩
      simp only [Fits, stackBytes, PGSIZE] at hfits
      omega
    | some x =>
      obtain ⟨sp, us⟩ := x
      obtain ⟨hst2, hargc, hlo, ⟨ps, hps, hlaid⟩, -⟩ := hst2 _ rfl
      obtain rfl : us = ps := hps
      rw [Nat.zero_add] at hargc
      rw [htop] at hlaid
      refine (hst2.copyWords hpool hlaid hlo hargc).bind fun r hr => ?_
      obtain ⟨ok, m3⟩ := r
      obtain ⟨hacc3, hothers3, hst3, hfit⟩ := hr
      cases ok with
      | false =>
        exact (bad_back hpool hacc3 hothers3 s none).imp fun r hr =>
          ⟨.inl hr, fun _ _ _ hfits => absurd (hfit hfits) Bool.false_ne_true⟩
      | true =>
        obtain ⟨hst3, hpassed⟩ := hst3 rfl
        -- The old address space is freed; the new one is now among the others.
        have hnew : Account T (d2.owned + R0) m3 s.task.pgdir := by
          refine ⟨hold, ?_⟩
          rw [← hst3.account.total]
          simp only [add_assoc, add_comm, add_left_comm]
        refine (freevm_ends hpool hnew).bind fun m4 hm4 =>
          ⟨.inr ⟨rfl, ?_⟩, fun _ _ _ _ => rfl⟩
        have hkept : ∀ f ∈ d2.owned + R0, m4.ram f = m3.ram f := fun f hf =>
          hm4.2 f (not_free_rest hpool hm4.1 hf)
        have hram : ∀ f ∈ d2.owned, m4.ram f = m3.ram f := fun f hf =>
          hkept f (Multiset.mem_add.mpr (.inl hf))
        rw [Task.Started, htop]
        refine ⟨htop ▸ hlt, ⟨hst3.account.wf, ?_⟩, hst3.placed hram, hpassed m4 hram, ?_⟩
        · rw [add_assoc]
          exact hm4.1
        · intro f hf
          rw [hkept f (Multiset.mem_add.mpr (.inr hf)), hothers3 f (Multiset.mem_add.mpr (.inr hf))]

end Exec

/-- The caller of `exec` and what it shares with others are as they were. -/
structure Intact (s s' : Sys) : Prop where
  task : s'.task = s.task
  ref : s'.ref = s.ref
  outstanding : s'.outstanding = s.outstanding
  free : (↑s'.mem.free : Multiset Nat) = ↑s.mem.free
  ram : ∀ f ∈ s.task.pgdir.owned, s'.mem.ram f = s.mem.ram f

theorem Back.intact {R0 : Multiset Nat} {s s' : Sys}
    (h : Back T (s.task.pgdir.owned + R0) s.mem s'.mem) (hacc : Account T R0 s.mem s.task.pgdir)
    (htask : s'.task = s.task) (href : s'.ref = s.ref) (hout : s'.outstanding = s.outstanding) :
    Intact s s' where
  task := htask
  ref := href
  outstanding := hout
  free := by
    have htotal := hacc.total
    rw [add_assoc, ← h.1] at htotal
    exact (add_right_cancel htotal).symm
  ram f hf := h.2 f (Multiset.mem_add.mpr (.inl hf))

theorem Sys.settled (s : Sys) (ip : Nat) (m : Mem) :
    ({ s.beginOp.hold ip with mem := m }.iunlockput ip).endOp = { s with mem := m } := by
  simp [Sys.beginOp, Sys.hold, Sys.iunlockput, Sys.endOp]

section Exec

variable {files : Files} {s : Sys} {R0 : Multiset Nat} {argv : List (List UInt8)}

/-- How `exec` ends: with a failure that leaves everything as it was, or in the new image with the
arguments on its stack and the old one free. -/
def Ended (T R0 : Multiset Nat) (files : Files) (s : Sys) (path : List UInt8)
    (argv : List (List UInt8)) (r : Int × Sys) : Prop :=
  (r.1 = -1 ∧ Intact s r.2) ∨
    (r.1 = 0 ∧ r.2.task.sz.toNat < KERNBASE ∧ Account T R0 r.2.mem r.2.task.pgdir ∧
      (∃ ip elf, files.find path = some ip ∧ header (files.data ip) = some elf ∧
        Placed (files.data ip) (proghdrs (files.data ip) elf.phnum.toNat elf.phoff) r.2.mem
          r.2.task.sz r.2.task.pgdir) ∧
      ((∀ a ∈ argv, 0 ∉ a) → r.2.task.Started argv r.2.mem))

/-- The file is a program whose segments can be loaded below page `top`, there is memory for them
and for the stack, and the arguments fit there. -/
def Starts (T R : Multiset Nat) (files : Files) (path : List UInt8) (argv : List (List UInt8))
    (top : Nat) : Prop :=
  ∃ ip elf, files.find path = some ip ∧ header (files.data ip) = some elf ∧
    elf.phoff.toNat + 32 * elf.phnum.toNat ≤ (files.data ip).length ∧
    Loads T R (files.data ip) top 0 (proghdrs (files.data ip) elf.phnum.toNat elf.phoff) ∧
    Ample T R (top + 2) ∧ top + 2 < UPAGES ∧ argv.length ≤ MAXARG ∧ Fits argv

variable (hpool : Pool l T) (hacc : Account T R0 s.mem s.task.pgdir)
  (hfiles : ∀ ip, (files.data ip).length < 4294967296) (path : List UInt8)
  (hargv : ∀ a ∈ argv, a.length < KERNBASE)

include hpool hacc hfiles hargv

theorem exec_apart (top : Nat) : Ends (exec l files s path argv) (fun _ => False) fun r =>
    Ended T R0 files s path argv r ∧ (∀ f ∈ R0, r.2.mem.ram f = s.mem.ram f) ∧
      (Starts T (s.task.pgdir.owned + R0) files path argv top → r.1 = 0) := by
  have htot : ↑s.mem.free + (s.task.pgdir.owned + R0) = T := by rw [← add_assoc]; exact hacc.total
  have hself : Back T (s.task.pgdir.owned + R0) s.mem s.mem := ⟨htot, fun _ _ => rfl⟩
  unfold exec
  cases hfind : files.find path with
  | none =>
    refine ⟨.inl ⟨rfl, hself.intact hacc rfl rfl rfl⟩, fun _ _ => rfl, ?_⟩
    rintro ⟨ip, elf, hip, -⟩
    cases hfind.symm.trans hip
  | some ip =>
    have hout : ∀ m' : Mem, Back T (s.task.pgdir.owned + R0) s.mem m' →
        ¬ Starts T (s.task.pgdir.owned + R0) files path argv top →
        Ended T R0 files s path argv
            (-1, ({ s.beginOp.hold ip with mem := m' }.iunlockput ip).endOp) ∧
          (∀ f ∈ R0, m'.ram f = s.mem.ram f) ∧
          (Starts T (s.task.pgdir.owned + R0) files path argv top → (-1 : Int) = 0) := by
      intro m' hm' hno
      rw [Sys.settled]
      exact ⟨.inl ⟨rfl, hm'.intact hacc rfl rfl rfl⟩,
        fun f hf => hm'.2 f (Multiset.mem_add.mpr (.inr hf)), fun h => absurd h hno⟩
    dsimp only
    cases helf : header (files.data ip) with
    | none =>
      refine hout s.mem hself ?_
      rintro ⟨ip', elf, hip, hhead, -⟩
      cases hfind.symm.trans hip
      cases helf.symm.trans hhead
    | some elf =>
      have hstarts : Starts T (s.task.pgdir.owned + R0) files path argv top →
          elf.phoff.toNat + 32 * elf.phnum.toNat ≤ (files.data ip).length ∧
          Loads T (s.task.pgdir.owned + R0) (files.data ip) top 0
            (proghdrs (files.data ip) elf.phnum.toNat elf.phoff) ∧
          Ample T (s.task.pgdir.owned + R0) (top + 2) ∧ top + 2 < UPAGES ∧
          argv.length ≤ MAXARG ∧ Fits argv := by
        rintro ⟨ip', elf', hip, hhead, hrest⟩
        cases hfind.symm.trans hip
        cases helf.symm.trans hhead
        exact hrest
      dsimp only
      refine (setupkvm_newSpace hpool htot).bind fun r hr => ?_
      obtain ⟨pgdir, m1⟩ := r
      obtain ⟨⟨hothers1, hnew⟩, hsome⟩ := hr
      cases pgdir with
      | none =>
        refine hout m1 ⟨hnew, hothers1⟩ fun h => hsome ?_ rfl
        exact (hstarts h).2.1.ample.mono (Nat.zero_le _)
      | some d1 =>
        obtain ⟨hacc1, lo, hk⟩ := hnew
        have himg : Image T (s.task.pgdir.owned + R0) s.mem (files.data ip) [] 0 m1 d1 := by
          refine ⟨hacc1, hothers1, fun w _ => hk.noU w, Nat.zero_le _, fun w hw => ?_,
            fun w _ hw => hk.user w hw, nofun, fun a ha => ?_⟩
          · exact absurd hw (Nat.not_lt_zero w)
          · exact absurd ha (Nat.not_lt_zero _)
        refine (segments_image hpool (hfiles ip) top elf.phnum.toNat elf.phoff [] m1 d1 0
          himg).bind fun r hr => ?_
        obtain ⟨sz, m2, d2⟩ := r
        obtain ⟨hacc2, hothers2, himg2, hloads⟩ := hr
        cases sz with
        | none =>
          refine (bad_back hpool hacc2 hothers2 (s.beginOp.hold ip) (some ip)).imp fun r hr => ?_
          obtain ⟨m', hback, rfl⟩ := hr
          exact hout m' hback fun h => hloads ⟨(hstarts h).2.1, (hstarts h).1⟩ rfl
        | some sz =>
          obtain ⟨himg2, hsz⟩ := himg2 sz rfl
          simp only [Sys.settled]
          refine (execStack_ends (s := { s with mem := m2 }) hpool hargv hacc.wf himg2).imp
            fun r hr => ?_
          have hzero : Starts T (s.task.pgdir.owned + R0) files path argv top → r.1 = 0 := by
            intro h
            obtain ⟨hhdrs, hl, hample, htop, hargc, hfits⟩ := hstarts h
            have hpages : npages sz ≤ top := by
              have := hsz ⟨hl, hhdrs⟩
              simp only [npages]
              omega
            exact hr.2 (hample.mono (by omega)) (by omega) hargc hfits
          rcases hr.1 with ⟨m', hback, rfl⟩ | ⟨h0, hsz, hacc', hplaced, hstarted, hram⟩
          · have := hout m' hback fun h => absurd (hzero h) (by simp)
            rwa [Sys.settled] at this
          · exact ⟨.inr ⟨h0, hsz, hacc', ⟨ip, elf, hfind, helf, hplaced⟩, hstarted⟩, hram, hzero⟩

theorem exec_ends : ∃ r s', exec l files s path argv = .ok (r, s') ∧
    Ended T R0 files s path argv (r, s') := by
  obtain ⟨⟨r, s'⟩, hrun, hended, -⟩ := (exec_apart hpool hacc hfiles path hargv 0).total
  exact ⟨r, s', hrun, hended⟩

theorem exec_starts {top : Nat} (h : Starts T (s.task.pgdir.owned + R0) files path argv top)
    {r : Int × Sys} (hrun : exec l files s path argv = .ok r) : r.1 = 0 :=
  ((exec_apart hpool hacc hfiles path hargv top).of_ok hrun).2.2 h

end Exec

/-- `exec` never panics: it fails and leaves the caller, the inodes' references, the log and the
free pages as they were, or it succeeds and the image of the file's headers is in place. -/
theorem exec_intact {files : Files} {s : Sys}
    (hpages : ∃ T R, Pool l T ∧ Account T R s.mem s.task.pgdir)
    (hfiles : ∀ ip, (files.data ip).length < 4294967296) (path : List UInt8)
    {argv : List (List UInt8)} (hargv : ∀ a ∈ argv, a.length < KERNBASE) :
    ∃ r s', exec l files s path argv = .ok (r, s') ∧
      ((r = -1 ∧ Intact s s') ∨
        (r = 0 ∧ ∃ ip elf, files.find path = some ip ∧ header (files.data ip) = some elf ∧
          Placed (files.data ip) (proghdrs (files.data ip) elf.phnum.toNat elf.phoff) s'.mem
            s'.task.sz s'.task.pgdir)) := by
  obtain ⟨T, R0, hpool, hacc⟩ := hpages
  obtain ⟨r, s', hrun, hended⟩ := exec_ends hpool hacc hfiles path hargv
  refine ⟨r, s', hrun, ?_⟩
  rcases hended with hfail | ⟨h0, -, -, himage, -⟩
  · exact .inl hfail
  · exact .inr ⟨h0, himage⟩

/-! The first process calls `exec` on a file with one segment: `abc`, in two pages. -/

def segmentFile : Files :=
  ⟨fun _ => some 7, fun _ =>
    [0x7F, 0x45, 0x4C, 0x46] ++ List.replicate 24 0 ++ [52, 0, 0, 0] ++ List.replicate 12 0 ++
      [1, 0] ++ List.replicate 6 0 ++
    [1, 0, 0, 0, 84, 0, 0, 0] ++ List.replicate 8 0 ++ [3, 0, 0, 0, 0x88, 0x13, 0, 0] ++
      List.replicate 8 0 ++
    [97, 98, 99]⟩

def firstSys : Sys :=
  ⟨plenty, { onePage with name := [105], eip := 0, esp := 4096 }, fun _ => 0, 0⟩

theorem firstSys_pages : ∃ T R, Pool smallKernel T ∧ Account T R firstSys.mem firstSys.task.pgdir :=
  ⟨_, _, plenty_pool, onePage_account plenty⟩

theorem segmentFile_length (ip : Nat) : (segmentFile.data ip).length < 4294967296 := by
  simp [segmentFile]

theorem short_hi : ∀ a ∈ [[104, 105], ([] : List UInt8)], a.length < KERNBASE := by
  intro a ha
  simp only [List.mem_cons, List.not_mem_nil, or_false] at ha
  rcases ha with rfl | rfl <;> decide

theorem segmentFile_header : header (segmentFile.data 7) = some ⟨ELF_MAGIC, 0, 52, 1⟩ ∧
      proghdrs (segmentFile.data 7) 1 52 = [⟨1, 84, 0, 3, 5000⟩] := by
  decide +kernel

theorem segmentFile_starts : Starts (↑plenty.free + {1026, 1025, 1024}) (onePage.pgdir.owned + 0)
    segmentFile [47, 97] [[104, 105], []] 2 := by
  have hample : ∀ n, n ≤ 900 →
      Ample (↑plenty.free + {1026, 1025, 1024}) (onePage.pgdir.owned + 0) n := by
    intro n hn
    rw [Ample, plenty_card, onePage_owned]
    simp only [NPDENTRIES, add_zero, Multiset.insert_eq_cons, Multiset.card_cons,
      Multiset.card_singleton]
    omega
  refine ⟨7, ⟨ELF_MAGIC, 0, 52, 1⟩, rfl, segmentFile_header.1, by decide,
    ⟨by decide, hample 2 (by decide), by decide, fun ph hph _ => ?_⟩, hample 4 (by decide),
    by decide, by decide, by decide⟩
  have hone : ph ∈ proghdrs (segmentFile.data 7) 1 52 := hph
  rw [segmentFile_header.2, List.mem_singleton] at hone
  subst hone
  exact ⟨by decide, by decide, by decide, by decide, by decide⟩

/-- The second byte of the segment is at its address. -/
theorem exec_intact_segment : ∃ s',
    exec smallKernel segmentFile firstSys [47, 97] [[104, 105], []] = .ok (0, s') ∧
      Placed (segmentFile.data 7) [⟨1, 84, 0, 3, 5000⟩] s'.mem s'.task.sz s'.task.pgdir ∧
      load s'.mem s'.task.pgdir 1 = 98 := by
  obtain ⟨r, s', hrun, hcases⟩ := exec_intact firstSys_pages segmentFile_length [47, 97] short_hi
  have h0 : r = 0 := exec_starts plenty_pool (onePage_account plenty) segmentFile_length [47, 97]
    short_hi segmentFile_starts hrun
  rcases hcases with ⟨hminus, -⟩ | ⟨-, ip, elf, hfind, helf, hplaced⟩
  · rw [h0] at hminus
    exact absurd hminus (by decide)
  · obtain rfl : 7 = ip := Option.some.inj hfind
    obtain rfl := Option.some.inj (segmentFile_header.1.symm.trans helf)
    have hone : Placed (segmentFile.data 7) (proghdrs (segmentFile.data 7) 1 52) s'.mem s'.task.sz
      s'.task.pgdir := hplaced
    rw [segmentFile_header.2] at hone
    refine ⟨s', h0 ▸ hrun, hone, ?_⟩
    exact hone.bytes [] ⟨1, 84, 0, 3, 5000⟩ [] rfl rfl 1 (by decide) nofun

/-- `exec` passes its arguments: where it returns `0` the stack of the new image has them, and where
they do not fit in the stack page it fails and leaves the caller as it was. -/
theorem exec_passes {files : Files} {s : Sys}
    (hpages : ∃ T R, Pool l T ∧ Account T R s.mem s.task.pgdir)
    (hfiles : ∀ ip, (files.data ip).length < 4294967296) (path : List UInt8)
    {argv : List (List UInt8)} (hargv : ∀ a ∈ argv, a.length < KERNBASE)
    (hnul : ∀ a ∈ argv, 0 ∉ a) : ∃ r s', exec l files s path argv = .ok (r, s') ∧
      (r = -1 ∧ Intact s s' ∨ r = 0 ∧ s'.task.Started argv s'.mem) ∧
      (¬ Fits argv → r = -1 ∧ Intact s s') := by
  obtain ⟨T, R0, hpool, hacc⟩ := hpages
  obtain ⟨r, s', hrun, hended⟩ := exec_ends hpool hacc hfiles path hargv
  refine ⟨r, s', hrun, ?_⟩
  rcases hended with hfail | ⟨h0, -, -, -, hstarted⟩
  · exact ⟨.inl hfail, fun _ => hfail⟩
  · exact ⟨.inr ⟨h0, hstarted hnul⟩, fun hno => absurd (hstarted hnul).1 hno⟩

theorem exec_passes_hi : ∃ s',
    exec smallKernel segmentFile firstSys [47, 97] [[104, 105], []] = .ok (0, s') ∧
      s'.task.Started [[104, 105], []] s'.mem := by
  obtain ⟨r, s', hrun, hcases, -⟩ := exec_passes firstSys_pages segmentFile_length [47, 97] short_hi
    (by decide)
  have h0 : r = 0 := exec_starts plenty_pool (onePage_account plenty) segmentFile_length [47, 97]
    short_hi segmentFile_starts hrun
  rcases hcases with ⟨hminus, -⟩ | ⟨-, hstarted⟩
  · rw [h0] at hminus
    exact absurd hminus (by decide)
  · exact ⟨s', h0 ▸ hrun, hstarted⟩

end Xv6.Vm
