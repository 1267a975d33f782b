import Xv6.Vm.Page

/-!
# Xv6.Vm.Table

Page directories and the functions of `vm.c` that build, change and free them.

A `Pgdir` is a page directory with the page tables it points to: `tab i` is the physical page of the
table that entry `i` of the directory names, `none` where the entry is not present, and `pte v` is
the page-table entry of virtual page `v`. `walkpgdir` returns a pointer to an entry; here it returns
the memory and the directory afterwards, or `none` for the null pointer, and the caller reads or
sets `pte (page va)`.

A function that can run out of memory returns what the source returns beside the memory and the
directory it leaves; a panic is an error. The loops take a bound on the number of turns, which the
lemmas about them show is never used up.
-/

namespace Xv6.Vm

structure Pte where
  frame : Nat
  p : Bool
  w : Bool
  u : Bool
deriving DecidableEq, Repr

namespace Pte

def zero : Pte := ⟨0, false, false, false⟩

/-- `pa | perm | PTE_P`. -/
def make (frame : Nat) (w u : Bool) : Pte := ⟨frame, true, w, u⟩

end Pte

structure Pgdir where
  frame : Nat
  tab : Nat → Option Nat
  pte : Nat → Pte

namespace Pgdir

/-- A directory page after `memset(pgdir, 0, PGSIZE)`. -/
def empty (frame : Nat) : Pgdir := ⟨frame, fun _ => none, fun _ => Pte.zero⟩

def addTable (d : Pgdir) (i frame : Nat) : Pgdir :=
  { d with
    tab := Function.update d.tab i (some frame)
    pte := fun v => if v / NPTENTRIES = i then Pte.zero else d.pte v }

def set (d : Pgdir) (v : Nat) (e : Pte) : Pgdir := { d with pte := Function.update d.pte v e }

end Pgdir

def walkpgdir (m : Mem) (d : Pgdir) (va : UInt32) (alloc : Bool) : Option (Mem × Pgdir) :=
  match d.tab (PDX va) with
  | some _ => some (m, d)
  | none =>
    if alloc then
      match kalloc m with
      | none => none
      | some (f, m) => some (m.memset f 0, d.addTable (PDX va) f)
    else none

def mapLoop (last : UInt32) (w u : Bool) :
    Nat → Mem → Pgdir → UInt32 → Nat → Except Fault (Bool × Mem × Pgdir)
  | 0, _, _, _, _ => .error .hang
  | k + 1, m, d, a, pf =>
    match walkpgdir m d a true with
    | none => .ok (false, m, d)
    | some (m, d) =>
      if (d.pte (page a)).p then .error .remap
      else if a = last then .ok (true, m, d.set (page a) (Pte.make pf w u))
      else mapLoop last w u k m (d.set (page a) (Pte.make pf w u)) (a + 4096) ((pf + 1) % 1048576)

/-- `mappages`; the physical address is given by its page `pf`. -/
def mappages (m : Mem) (d : Pgdir) (va size : UInt32) (pf : Nat) (w u : Bool) :
    Except Fault (Bool × Mem × Pgdir) :=
  let a := pgrounddown va
  let last := pgrounddown (va + size - 1)
  mapLoop last w u ((last - a).toNat / PGSIZE + 1) m d a pf

def deallocLoop (l : Layout) (oldsz : UInt32) :
    Nat → Mem → Pgdir → UInt32 → Except Fault (Mem × Pgdir)
  | 0, _, _, _ => .error .hang
  | k + 1, m, d, a =>
    if a < oldsz then
      match walkpgdir m d a false with
      | none => deallocLoop l oldsz k m d (UInt32.ofNat ((PDX a + 1) * 4194304) - 4096 + 4096)
      | some (m, d) =>
        if (d.pte (page a)).p then
          if (d.pte (page a)).frame = 0 then .error .kfree
          else do
            let m ← kfree l m (d.pte (page a)).frame
            deallocLoop l oldsz k m (d.set (page a) Pte.zero) (a + 4096)
        else deallocLoop l oldsz k m d (a + 4096)
    else .ok (m, d)

def deallocuvm (l : Layout) (m : Mem) (d : Pgdir) (oldsz newsz : UInt32) :
    Except Fault (UInt32 × Mem × Pgdir) :=
  if newsz ≥ oldsz then .ok (oldsz, m, d)
  else do
    let (m, d) ← deallocLoop l oldsz (oldsz.toNat / PGSIZE + 2) m d (pgroundup newsz)
    return (newsz, m, d)

def allocLoop (l : Layout) (oldsz newsz : UInt32) :
    Nat → Mem → Pgdir → UInt32 → Except Fault (UInt32 × Mem × Pgdir)
  | 0, _, _, _ => .error .hang
  | k + 1, m, d, a =>
    if a < newsz then
      match kalloc m with
      | none => do
        let (_, m, d) ← deallocuvm l m d newsz oldsz
        return (0, m, d)
      | some (f, m) => do
        let (ok, m, d) ← mappages (m.memset f 0) d a 4096 f true true
        if ok then allocLoop l oldsz newsz k m d (a + 4096)
        else
          let (_, m, d) ← deallocuvm l m d newsz oldsz
          let m ← kfree l m f
          return (0, m, d)
    else .ok (newsz, m, d)

@[irreducible] def allocuvm (l : Layout) (m : Mem) (d : Pgdir) (oldsz newsz : UInt32) :
    Except Fault (UInt32 × Mem × Pgdir) :=
  if newsz.toNat ≥ KERNBASE then .ok (0, m, d)
  else if newsz < oldsz then .ok (oldsz, m, d)
  else allocLoop l oldsz newsz (newsz.toNat / PGSIZE + 2) m d (pgroundup oldsz)

/-- The loop of `freevm` over the directory, from entry `i` on. -/
def freeTables (l : Layout) (d : Pgdir) : Nat → Mem → Nat → Except Fault Mem
  | 0, m, _ => .ok m
  | k + 1, m, i =>
    match d.tab i with
    | none => freeTables l d k m (i + 1)
    | some f => do
      let m ← kfree l m f
      freeTables l d k m (i + 1)

def freevm (l : Layout) (m : Mem) (d : Pgdir) : Except Fault Mem := do
  let (_, m, d) ← deallocuvm l m d (UInt32.ofNat KERNBASE) 0
  let m ← freeTables l d NPDENTRIES m 0
  kfree l m d.frame

structure Kmap where
  virt : Nat
  physStart : Nat
  physEnd : Nat
  w : Bool

/-- `kmap`. The end of the device space, `0`, is the top of the 32-bit address space. -/
def kmap (l : Layout) : List Kmap :=
  [⟨KERNBASE, 0, EXTMEM, true⟩,
   ⟨KERNLINK, KERNLINK - KERNBASE, l.data - KERNBASE, false⟩,
   ⟨l.data, l.data - KERNBASE, PHYSTOP, true⟩,
   ⟨DEVSPACE, DEVSPACE, 0, true⟩]

def kmapLoop (l : Layout) : List Kmap → Mem → Pgdir → Except Fault (Option Pgdir × Mem)
  | [], m, d => .ok (some d, m)
  | k :: ks, m, d => do
    let (ok, m, d) ← mappages m d (UInt32.ofNat k.virt)
      (UInt32.ofNat k.physEnd - UInt32.ofNat k.physStart) (k.physStart / PGSIZE) k.w false
    if ok then kmapLoop l ks m d
    else
      let m ← freevm l m d
      return (none, m)

def setupkvm (l : Layout) (m : Mem) : Except Fault (Option Pgdir × Mem) :=
  match kalloc m with
  | none => .ok (none, m)
  | some (f, m) =>
    if KERNBASE + PHYSTOP > DEVSPACE then .error .physTop
    else kmapLoop l (kmap l) (m.memset f 0) (Pgdir.empty f)

/-- `inituvm`; it uses what `kalloc` returns without a test. -/
def inituvm (m : Mem) (d : Pgdir) (init : List UInt8) : Except Fault (Mem × Pgdir) :=
  if init.length ≥ PGSIZE then .error .inituvm
  else
    match kalloc m with
    | none => .error .nullMem
    | some (f, m) => do
      let (_, m, d) ← mappages (m.memset f 0) d 0 4096 f true true
      return (m.memmove f 0 init.length fun k => init.getD k 0, d)

def clearpteu (d : Pgdir) (m : Mem) (uva : UInt32) : Except Fault Pgdir :=
  match walkpgdir m d uva false with
  | none => .error .clearpteu
  | some (_, d) => .ok (d.set (page uva) { d.pte (page uva) with u := false })

def copyLoop (l : Layout) (pgdir : Pgdir) (sz : UInt32) :
    Nat → Mem → Pgdir → UInt32 → Except Fault (Option Pgdir × Mem)
  | 0, _, _, _ => .error .hang
  | k + 1, m, d, i =>
    if i < sz then
      match walkpgdir m pgdir i false with
      | none => .error .copyPte
      | some (m, _) =>
        let e := pgdir.pte (page i)
        if e.p then
          match kalloc m with
          | none => do
            let m ← freevm l m d
            return (none, m)
          | some (f, m) => do
            let (ok, m, d) ← mappages (m.memmove f 0 PGSIZE (m.ram e.frame)) d i 4096 f e.w e.u
            if ok then copyLoop l pgdir sz k m d (i + 4096)
            else
              let m ← kfree l m f
              let m ← freevm l m d
              return (none, m)
        else .error .copyPage
    else .ok (some d, m)

def copyuvm (l : Layout) (m : Mem) (pgdir : Pgdir) (sz : UInt32) :
    Except Fault (Option Pgdir × Mem) := do
  let (d, m) ← setupkvm l m
  match d with
  | none => return (none, m)
  | some d => copyLoop l pgdir sz (sz.toNat / PGSIZE + 2) m d 0

end Xv6.Vm
