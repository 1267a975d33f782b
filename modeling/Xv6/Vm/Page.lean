import Xv6.Lib.Bytes
import Xv6.Lib.Ends

/-!
# Xv6.Vm.Page

Physical memory in pages: `memlayout.h`, the address arithmetic of `mmu.h`, and `kalloc.c`.

A physical page is named by its page number; `P2V` and `V2P` do not change which page is meant.
`Mem.ram f` are the bytes of page `f` and `Mem.free` is `kmem.freelist`. The links of that list are
kept beside the pages, not in the first word of each: a page on the list is given away before
anything reads it.

A virtual address is a `UInt32`. `addr v` is the first address of virtual page `v`, and the lemmas
about it turn the arithmetic of the loops over pages into arithmetic on page numbers.
-/

namespace Xv6.Vm

variable {m : Mem} {f v : Nat} {sz : UInt32}

abbrev PGSIZE : Nat := 4096
abbrev NPDENTRIES : Nat := 1024
abbrev NPTENTRIES : Nat := 1024
abbrev EXTMEM : Nat := 0x100000
abbrev PHYSTOP : Nat := 0xE000000
abbrev DEVSPACE : Nat := 0xFE000000
abbrev KERNBASE : Nat := 0x80000000
abbrev KERNLINK : Nat := KERNBASE + EXTMEM

/-- The number of pages below `KERNBASE`. -/
abbrev UPAGES : Nat := KERNBASE / PGSIZE

def page (a : UInt32) : Nat := a.toNat / PGSIZE

def PDX (va : UInt32) : Nat := va.toNat / 4194304

def pgroundup (sz : UInt32) : UInt32 := (sz + 4095) / 4096 * 4096

def pgrounddown (a : UInt32) : UInt32 := a / 4096 * 4096

/-- The first address of a page. -/
def addr (v : Nat) : UInt32 := UInt32.ofNat (PGSIZE * v)

theorem toNat_lt (a : UInt32) : a.toNat < 4294967296 := a.toNat_lt

theorem toNat_addr (h : v < 1048576) : (addr v).toNat = 4096 * v := by
  rw [addr, UInt32.toNat_ofNat', Nat.mod_eq_of_lt (by simp only [PGSIZE]; omega)]

theorem page_addr (h : v < 1048576) : page (addr v) = v := by
  rw [page, toNat_addr h]
  exact Nat.mul_div_cancel_left v (by decide)

theorem page_lt (a : UInt32) : page a < 1048576 := by
  have := toNat_lt a
  simp only [page, PGSIZE]
  omega

theorem PDX_eq (a : UInt32) : PDX a = page a / 1024 := by
  simp only [PDX, page, PGSIZE]
  omega

theorem addr_succ (v : Nat) : addr v + 4096 = addr (v + 1) := by
  rw [addr, addr, Nat.mul_add, UInt32.ofNat_add]
  rfl

theorem addr_lt (h : v < 1048576) (x : UInt32) : addr v < x ↔ 4096 * v < x.toNat := by
  rw [UInt32.lt_iff_toNat_lt, toNat_addr h]

theorem addr_inj {w : Nat} (hv : v < 1048576) (hw : w < 1048576) : addr v = addr w ↔ v = w := by
  rw [← UInt32.toNat_inj, toNat_addr hv, toNat_addr hw]
  omega

theorem pgrounddown_eq (a : UInt32) : pgrounddown a = addr (page a) := by
  have hlt := toNat_lt a
  have hpage := page_lt a
  rw [← UInt32.toNat_inj, toNat_addr hpage, pgrounddown, UInt32.toNat_mul, UInt32.toNat_div]
  simp only [page, PGSIZE, UInt32.reduceToNat]
  omega

/-- The number of pages below `PGROUNDUP(sz)`. -/
def npages (sz : UInt32) : Nat := (sz.toNat + 4095) / 4096

theorem lt_npages : v < npages sz ↔ 4096 * v < sz.toNat := by
  simp only [npages]
  omega

theorem div_lt_npages {a : Nat} (h : a < sz.toNat) : a / PGSIZE < npages sz := by
  rw [lt_npages]
  simp only [PGSIZE]
  omega

theorem npages_addr (h : v < 1048576) : npages (addr v) = v := by
  rw [npages, toNat_addr h]
  omega

theorem npages_le (h : sz.toNat ≤ KERNBASE) : npages sz ≤ UPAGES := by
  simp only [KERNBASE] at h
  simp only [npages, UPAGES, KERNBASE, PGSIZE]
  omega

theorem pgroundup_eq (h : sz.toNat ≤ KERNBASE) : pgroundup sz = addr (npages sz) := by
  have hle := npages_le h
  simp only [KERNBASE, UPAGES, PGSIZE] at h hle
  rw [← UInt32.toNat_inj, toNat_addr (by omega), pgroundup, UInt32.toNat_mul, UInt32.toNat_div,
    UInt32.toNat_add]
  simp only [UInt32.reduceToNat, npages]
  omega

/-- The addresses `kernel.ld` provides: `data`, on a page boundary behind the kernel's text, and
`end`. -/
structure Layout where
  data : Nat
  fin : Nat
  data_aligned : data % PGSIZE = 0
  link_lt_data : KERNLINK < data
  data_le_fin : data ≤ fin
  fin_lt : fin < KERNBASE + PHYSTOP

namespace Layout

/-- The physical pages `kfree` takes: at or above `end`, below `PHYSTOP`. -/
def Managed (l : Layout) (f : Nat) : Prop :=
  l.fin ≤ KERNBASE + PGSIZE * f ∧ PGSIZE * f < PHYSTOP

instance (l : Layout) (f : Nat) : Decidable (l.Managed f) := inferInstanceAs (Decidable (_ ∧ _))

theorem Managed.pos {l : Layout} (h : l.Managed f) : 0 < f := by
  have h1 := l.link_lt_data
  have h2 := l.data_le_fin
  have h3 := h.1
  simp only [KERNLINK, KERNBASE, EXTMEM, PGSIZE] at h1 h3
  omega

end Layout

/-- A kernel of 32 pages. -/
def smallKernel : Layout where
  data := 0x80108000
  fin := 0x80120000
  data_aligned := rfl
  link_lt_data := by decide
  data_le_fin := by decide
  fin_lt := by decide

/-- Where the kernel stops: its panics, and the null pointers it can follow. -/
inductive Fault
  | kfree
  | remap
  | physTop
  | noPgdir
  | inituvm
  | loadAlign
  | loadExist
  | clearpteu
  | copyPte
  | copyPage
  | nullPte
  | nullMem
  | hang
deriving DecidableEq, Repr

structure Mem where
  ram : Nat → Bytes.Store
  free : List Nat

namespace Mem

def memset (m : Mem) (f : Nat) (c : UInt8) : Mem :=
  { m with ram := Function.update m.ram f fun _ => c }

/-- `memmove` of `n` bytes into page `f` at `off`. -/
def memmove (m : Mem) (f off n : Nat) (src : Nat → UInt8) : Mem :=
  { m with ram := Function.update m.ram f (Bytes.patch (m.ram f) off n src) }

@[simp] theorem memset_free (m : Mem) (f : Nat) (c : UInt8) : (m.memset f c).free = m.free := rfl

@[simp] theorem memmove_free (m : Mem) (f off n : Nat) (src : Nat → UInt8) :
    (m.memmove f off n src).free = m.free := rfl

theorem memset_ram_same (m : Mem) (f : Nat) (c : UInt8) : (m.memset f c).ram f = fun _ => c := by
  simp [memset]

theorem memset_ram_other (m : Mem) {g : Nat} (c : UInt8) (h : g ≠ f) :
    (m.memset f c).ram g = m.ram g := by
  simp [memset, h]

theorem memmove_ram_same (m : Mem) (f off n : Nat) (src : Nat → UInt8) :
    (m.memmove f off n src).ram f = Bytes.patch (m.ram f) off n src := by
  simp [memmove]

theorem memmove_ram_other (m : Mem) {g : Nat} (off n : Nat) (src : Nat → UInt8) (h : g ≠ f) :
    (m.memmove f off n src).ram g = m.ram g := by
  simp [memmove, h]

end Mem

def kalloc (m : Mem) : Option (Nat × Mem) :=
  match m.free with
  | [] => none
  | f :: fs => some (f, { m with free := fs })

def kfree (l : Layout) (m : Mem) (f : Nat) : Except Fault Mem :=
  if l.Managed f then .ok { m.memset f 1 with free := f :: m.free } else .error .kfree

theorem kalloc_some {m' : Mem} (h : kalloc m = some (f, m')) :
    m.free = f :: m'.free ∧ m'.ram = m.ram := by
  unfold kalloc at h
  split at h
  · simp at h
  case _ f' fs heq =>
    simp only [Option.some.injEq, Prod.mk.injEq] at h
    obtain ⟨rfl, rfl⟩ := h
    exact ⟨heq, rfl⟩

theorem kalloc_none (h : kalloc m = none) : m.free = [] := by
  unfold kalloc at h
  split at h
  · assumption
  · simp at h

theorem kfree_ok {l : Layout} (h : l.Managed f) :
    kfree l m f = .ok { m.memset f 1 with free := f :: m.free } := if_pos h

end Xv6.Vm
