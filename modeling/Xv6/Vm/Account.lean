import Xv6.Vm.Table
import Xv6.Lib.Tally

/-!
# Xv6.Vm.Account

Every physical page accounted for: what the functions of `Xv6.Vm.Table` do to the pages.

`Pgdir.owned` are the physical pages of an address space, counted with multiplicity: the directory,
its page tables and the pages its entries below `KERNBASE` map. `Account T R m d` says that the free
list, the address space and the pages `R` of everybody else add up to `T`. No function here changes
`T`: a page that leaves the list comes into the directory and one that leaves the directory comes
back. When `T` has no duplicates (`Pool`) this is what keeps the pages of an address space apart,
so that `kfree` gets pages it takes and a page written for one purpose is in no other use.
-/

namespace Xv6.Vm

open Function Multiset

namespace Pte

/-- The physical page a present entry maps. -/
def held (e : Pte) : Option Nat := if e.p then some e.frame else none

@[simp] theorem held_zero : zero.held = none := rfl

@[simp] theorem held_make (f : Nat) (w u : Bool) : (make f w u).held = some f := rfl

theorem held_some {e : Pte} (h : e.p = true) : e.held = some e.frame := by simp [held, h]

end Pte

namespace Pgdir

def tables (d : Pgdir) : Multiset Nat := tallyTo NPDENTRIES d.tab

def pages (d : Pgdir) : Multiset Nat := tallyTo UPAGES fun v => (d.pte v).held

def owned (d : Pgdir) : Multiset Nat := d.frame ::ₘ (d.tables + d.pages)

/-- An entry that is not present is zero, and so is one whose table is not there. -/
structure Wf (d : Pgdir) : Prop where
  absent : ∀ v, d.tab (v / NPTENTRIES) = none → d.pte v = Pte.zero
  clear : ∀ v, (d.pte v).p = false → d.pte v = Pte.zero

variable {d : Pgdir} {v i f : Nat} {e : Pte}

@[simp] theorem set_tab : (d.set v e).tab = d.tab := rfl

@[simp] theorem set_frame : (d.set v e).frame = d.frame := rfl

theorem set_pte_same : (d.set v e).pte v = e := update_self ..

theorem set_pte_other {w : Nat} (h : w ≠ v) : (d.set v e).pte w = d.pte w :=
  update_of_ne h ..

theorem set_held : (fun w => ((d.set v e).pte w).held) =
    update (fun w => (d.pte w).held) v e.held := by
  funext w
  by_cases h : w = v
  · subst h
    rw [set_pte_same, update_self]
  · rw [set_pte_other h, update_of_ne h]

theorem owned_set_store (hv : v < UPAGES) (h : (d.pte v).held = none) (he : e.held = some f) :
    (d.set v e).owned = f ::ₘ d.owned := by
  have hpages : (d.set v e).pages = f ::ₘ d.pages := by
    rw [pages, set_held, he, tallyTo_store hv h, pages]
  simp only [owned, hpages, tables, set_tab, set_frame, add_cons, cons_swap f]

theorem owned_set_clear (hv : v < UPAGES) (h : (d.pte v).held = some f) :
    d.owned = f ::ₘ (d.set v Pte.zero).owned := by
  have hpages : d.pages = f ::ₘ (d.set v Pte.zero).pages := by
    rw [pages, tallyTo_clear hv h, pages, set_held, Pte.held_zero]
  simp only [owned, hpages, tables, set_tab, set_frame, add_cons, cons_swap f]

theorem owned_congr {d' : Pgdir} (hf : d'.frame = d.frame) (ht : d'.tab = d.tab)
    (hp : ∀ w, w < UPAGES → (d'.pte w).held = (d.pte w).held) : d'.owned = d.owned := by
  rw [owned, owned, hf, tables, tables, ht, pages, pages, tallyTo_congr hp]

theorem owned_set_kernel (hv : UPAGES ≤ v) : (d.set v e).owned = d.owned :=
  owned_congr rfl rfl fun w hw => by rw [set_pte_other (by omega)]

theorem mem_owned : f ∈ d.owned ↔ f = d.frame ∨ f ∈ d.tables ∨ f ∈ d.pages := by
  rw [owned, mem_cons, mem_add]

theorem mem_owned_page (hv : v < UPAGES) (h : (d.pte v).p = true) : (d.pte v).frame ∈ d.owned :=
  mem_owned.mpr (.inr (.inr (mem_tallyTo.mpr ⟨v, hv, Pte.held_some h⟩)))

theorem Wf.set_present (h : d.Wf) (ht : d.tab (v / NPTENTRIES) ≠ none) (he : e.p = true) :
    (d.set v e).Wf where
  absent x hx := by
    have hne : x ≠ v := by
      rintro rfl
      exact ht hx
    rw [set_pte_other hne]
    exact h.absent x hx
  clear x hx := by
    by_cases hne : x = v
    · subst hne
      rw [set_pte_same, he] at hx
      exact absurd hx (by simp)
    · rw [set_pte_other hne] at hx ⊢
      exact h.clear x hx

theorem Wf.tab_present (h : d.Wf) (hp : (d.pte v).p = true) : d.tab (v / NPTENTRIES) ≠ none := by
  intro hnone
  rw [h.absent v hnone] at hp
  simp [Pte.zero] at hp

theorem Wf.set_zero (h : d.Wf) : (d.set v Pte.zero).Wf where
  absent x hx := by
    by_cases hne : x = v
    · subst hne
      exact set_pte_same
    · rw [set_pte_other hne]
      exact h.absent x hx
  clear x hx := by
    by_cases hne : x = v
    · subst hne
      exact set_pte_same
    · rw [set_pte_other hne] at hx ⊢
      exact h.clear x hx

theorem wf_empty (f : Nat) : (empty f).Wf where
  absent _ _ := rfl
  clear _ _ := rfl

theorem owned_empty (f : Nat) : (empty f).owned = {f} := by
  have ht : (empty f).tables = 0 := tallyTo_none _
  have hp : (empty f).pages = 0 := tallyTo_none _
  rw [owned, ht, hp]
  rfl

theorem addTable_pte (h : d.Wf) (hi : d.tab i = none) : (d.addTable i f).pte = d.pte := by
  funext v
  simp only [addTable]
  split
  · next hv => rw [h.absent v (hv ▸ hi)]
  · rfl

theorem owned_addTable (h : d.Wf) (hlt : i < NPDENTRIES) (hi : d.tab i = none) :
    (d.addTable i f).owned = f ::ₘ d.owned := by
  have ht : (d.addTable i f).tables = f ::ₘ d.tables := tallyTo_store hlt hi f
  have hp : (d.addTable i f).pages = d.pages := by rw [pages, addTable_pte h hi, pages]
  rw [owned, ht, hp, owned, cons_add, cons_swap]
  rfl

theorem Wf.addTable (h : d.Wf) (hi : d.tab i = none) : (d.addTable i f).Wf where
  absent v hv := by
    rw [addTable_pte h hi]
    apply h.absent
    by_cases hvi : v / NPTENTRIES = i
    · rw [hvi, hi]
    · simpa [Pgdir.addTable, hvi] using hv
  clear v hv := by
    rw [addTable_pte h hi] at hv ⊢
    exact h.clear v hv

end Pgdir

/-- The pages to be accounted for: each once, and each one that `kfree` takes. -/
structure Pool (l : Layout) (T : Multiset Nat) : Prop where
  nodup : T.Nodup
  managed : ∀ f ∈ T, l.Managed f

/-- The free list, the address space `d` and the pages `R` of others make up `T`. -/
structure Account (T R : Multiset Nat) (m : Mem) (d : Pgdir) : Prop where
  wf : d.Wf
  total : ↑m.free + d.owned + R = T

variable {l : Layout} {T R : Multiset Nat} {m m' : Mem} {d d' : Pgdir}

namespace Account

theorem mem_of_owned (h : Account T R m d) {f : Nat} (hf : f ∈ d.owned) : f ∈ T := by
  rw [← h.total]
  exact mem_add.mpr (.inl (mem_add.mpr (.inr hf)))

theorem managed_page (h : Account T R m d) (hpool : Pool l T) {v : Nat} (hv : v < UPAGES)
    (hp : (d.pte v).p = true) : l.Managed (d.pte v).frame :=
  hpool.managed _ (h.mem_of_owned (Pgdir.mem_owned_page hv hp))

theorem nodup (h : Account T R m d) (hpool : Pool l T) :
    (↑m.free + d.owned + R : Multiset Nat).Nodup := h.total ▸ hpool.nodup

theorem not_free (h : Account T R m d) (hpool : Pool l T) {f : Nat} (hf : f ∈ d.owned) :
    f ∉ m.free := by
  intro hfree
  have hnd := (nodup_add.mp (h.nodup hpool)).1
  exact disjoint_left.mp (nodup_add.mp hnd).2.2 hfree hf

theorem not_free_other (h : Account T R m d) (hpool : Pool l T) {f : Nat} (hf : f ∈ R) :
    f ∉ m.free := by
  intro hfree
  exact disjoint_left.mp (nodup_add.mp (h.nodup hpool)).2.2
    (mem_add.mpr (.inl hfree)) hf

theorem owned_nodup (h : Account T R m d) (hpool : Pool l T) : d.owned.Nodup :=
  (nodup_add.mp (nodup_add.mp (h.nodup hpool)).1).2.1

theorem page_inj (h : Account T R m d) (hpool : Pool l T) {v w : Nat} (hv : v < UPAGES)
    (hw : w < UPAGES) (hpv : (d.pte v).p = true) (hpw : (d.pte w).p = true)
    (heq : (d.pte v).frame = (d.pte w).frame) : v = w := by
  have hnd := (nodup_cons.mp (h.owned_nodup hpool)).2
  refine tallyTo_inj (nodup_add.mp hnd).2.1 hv hw (Pte.held_some hpv) ?_
  rw [Pte.held_some hpw, heq]

end Account

/-- What a directory has become when tables were added to it from the free list. -/
structure Walked (m : Mem) (d : Pgdir) (m' : Mem) (d' : Pgdir) : Prop where
  pte : d'.pte = d.pte
  frame : d'.frame = d.frame
  wf : d'.Wf
  account : (↑m'.free + d'.owned : Multiset Nat) = ↑m.free + d.owned
  free : m'.free ⊆ m.free
  ram : ∀ f, f ∉ m.free → m'.ram f = m.ram f

theorem walkpgdir_false (m : Mem) (d : Pgdir) (va : UInt32) :
    walkpgdir m d va false = if d.tab (PDX va) = none then none else some (m, d) := by
  unfold walkpgdir
  split <;> simp_all

theorem PDX_lt (va : UInt32) : PDX va < NPDENTRIES := by
  have := toNat_lt va
  simp only [PDX, NPDENTRIES]
  omega

theorem walkpgdir_walked {va : UInt32} (hwf : d.Wf) (h : walkpgdir m d va true = some (m', d')) :
    Walked m d m' d' ∧ d'.tab (PDX va) ≠ none ∧ ∀ i, i ≠ PDX va → d'.tab i = d.tab i := by
  unfold walkpgdir at h
  split at h
  case _ f hf =>
    simp only [Option.some.injEq, Prod.mk.injEq] at h
    obtain ⟨rfl, rfl⟩ := h
    exact ⟨⟨rfl, rfl, hwf, rfl, fun _ => id, fun _ _ => rfl⟩, by simp [hf], fun _ _ => rfl⟩
  case _ hnone =>
    rw [if_pos rfl] at h
    split at h
    · simp at h
    case _ f m1 hk =>
      simp only [Option.some.injEq, Prod.mk.injEq] at h
      obtain ⟨rfl, rfl⟩ := h
      obtain ⟨hfree, hram⟩ := kalloc_some hk
      refine ⟨⟨Pgdir.addTable_pte hwf hnone, rfl, hwf.addTable hnone, ?_, ?_, ?_⟩, ?_, ?_⟩
      · rw [Pgdir.owned_addTable hwf (PDX_lt va) hnone, hfree, Mem.memset_free,
          add_cons, ← cons_coe, cons_add]
      · rw [Mem.memset_free, hfree]
        exact List.subset_cons_self ..
      · intro g hg
        rw [hfree] at hg
        rw [Mem.memset_ram_other _ _ (List.ne_of_not_mem_cons hg), hram]
      · simp [Pgdir.addTable]
      · intro i hi
        simp [Pgdir.addTable, hi]

theorem Walked.account' (h : Walked m d m' d') (ha : Account T R m d) : Account T R m' d' :=
  ⟨h.wf, by rw [h.account, ha.total]⟩

theorem mappages_page (m : Mem) (d : Pgdir) {v : Nat} (hv : v < 1048576) (pf : Nat) (w u : Bool) :
    mappages m d (addr v) 4096 pf w u = mapLoop (addr v) w u 1 m d (addr v) pf := by
  have hdown : pgrounddown (addr v) = addr v := by rw [pgrounddown_eq, page_addr hv]
  have hlast : pgrounddown (addr v + 4096 - 1) = addr v := by
    have hle : (addr v + 4096 - 1).toNat = 4096 * v + 4095 := by
      rw [UInt32.toNat_sub, UInt32.toNat_add, toNat_addr hv]
      simp only [UInt32.reduceToNat]
      omega
    have hdiv : (4096 * v + 4095) / PGSIZE = v := by
      simp only [PGSIZE]
      omega
    rw [pgrounddown_eq, page, hle, hdiv]
  simp only [mappages, hdown, hlast, UInt32.sub_self]
  rfl

theorem mapLoop_none {v : Nat} {last : UInt32} {w u : Bool} {k pf : Nat}
    (h : walkpgdir m d (addr v) true = none) :
    mapLoop last w u (k + 1) m d (addr v) pf = .ok (false, m, d) := by
  simp only [mapLoop, h]

theorem mapLoop_some {v n : Nat} {w u : Bool} {pf : Nat} (hv : v + n < 1048576)
    (h : walkpgdir m d (addr v) true = some (m', d')) (hp : (d'.pte v).p = false) :
    mapLoop (addr (v + n)) w u (n + 1) m d (addr v) pf =
      if n = 0 then .ok (true, m', d'.set v (Pte.make pf w u))
      else mapLoop (addr (v + n)) w u n m' (d'.set v (Pte.make pf w u)) (addr (v + 1))
        ((pf + 1) % 1048576) := by
  have hlast : addr v = addr (v + n) ↔ n = 0 := by
    rw [addr_inj (by omega) hv]
    omega
  simp only [mapLoop, h, page_addr (show v < 1048576 by omega), hp, addr_succ, hlast,
    Bool.false_eq_true, if_false]

theorem mappages_page_ends {v pf : Nat} {w u : Bool} (hwf : d.Wf) (hv : v < 1048576)
    (hp : (d.pte v).p = false) : Ends (mappages m d (addr v) 4096 pf w u) (fun _ => False) fun r =>
      (r = (false, m, d) ∧ walkpgdir m d (addr v) true = none) ∨
      ∃ d1, Walked m d r.2.1 d1 ∧ d1.tab (v / NPTENTRIES) ≠ none ∧
        (∀ i, i ≠ v / NPTENTRIES → d1.tab i = d.tab i) ∧
        r = (true, r.2.1, d1.set v (Pte.make pf w u)) := by
  rw [mappages_page m d hv]
  have hpdx : PDX (addr v) = v / NPTENTRIES := by rw [PDX_eq, page_addr hv]
  cases hw : walkpgdir m d (addr v) true with
  | none => rw [mapLoop_none hw]; exact .inl ⟨rfl, rfl⟩
  | some r =>
    obtain ⟨m1, d1⟩ := r
    obtain ⟨hwalk, htab, hother⟩ := walkpgdir_walked hwf hw
    rw [hpdx] at htab hother
    have hfree : (d1.pte v).p = false := by rw [hwalk.pte]; exact hp
    have hstep : mapLoop (addr v) w u 1 m d (addr v) pf =
        .ok (true, m1, d1.set v (Pte.make pf w u)) := mapLoop_some (n := 0) hv hw hfree
    rw [hstep]
    exact .inr ⟨d1, hwalk, htab, hother, rfl⟩

end Xv6.Vm
