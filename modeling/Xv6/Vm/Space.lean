import Xv6.Vm.Account

/-!
# Xv6.Vm.Space

What `deallocuvm`, `freevm`, `setupkvm`, `allocuvm` and `copyuvm` do to an address space.

Each of them is followed along its loop with `Account`, so none of them loses a page or takes one
twice, whatever the free list holds when it starts. That is also why the panics in them are out of
reach: `kfree` gets pages of the pool, and `mappages` is only asked for pages that are not mapped.
-/

namespace Xv6.Vm

open List Multiset

variable {l : Layout} {T R : Multiset Nat} {m m' : Mem} {d d' : Pgdir}

variable {n v : Nat} {d1 : Pgdir}

/-- The pages `v` up to `n` have been unmapped and are on the free list. -/
structure Freed (v n : Nat) (m : Mem) (d : Pgdir) (m' : Mem) (d' : Pgdir) : Prop where
  frame : d'.frame = d.frame
  tab : d'.tab = d.tab
  pte : ∀ w, d'.pte w = if v ≤ w ∧ w < n then Pte.zero else d.pte w
  free : m.free ⊆ m'.free
  origin : ∀ f ∈ m'.free, f ∈ m.free ∨ ∃ w, v ≤ w ∧ w < n ∧ (d.pte w).held = some f
  ram : ∀ f, f ∉ m'.free → m'.ram f = m.ram f

theorem Freed.refl (hz : ∀ w, v ≤ w → w < n → d.pte w = Pte.zero) : Freed v n m d m d where
  frame := rfl
  tab := rfl
  pte w := by
    split
    · next h => exact hz w h.1 h.2
    · rfl
  free _ := id
  origin _ := .inl
  ram _ _ := rfl

theorem Freed.skip {v' : Nat} (h : Freed v' n m d m' d') (hle : v ≤ v')
    (hz : ∀ w, v ≤ w → w < v' → d.pte w = Pte.zero) : Freed v n m d m' d' where
  frame := h.frame
  tab := h.tab
  pte w := by
    rw [h.pte w]
    by_cases hw : v' ≤ w
    · simp [hw, hle.trans hw]
    · by_cases hvw : v ≤ w
      · simp [hw, hz w hvw (by omega)]
      · simp [hw, hvw]
  free := h.free
  origin f hf := (h.origin f hf).imp_right fun ⟨w, h1, h2⟩ => ⟨w, by omega, h2⟩
  ram := h.ram

theorem Freed.step {f : Nat} (hv : v < n) (hf : (d.pte v).held = some f)
    (h : Freed (v + 1) n { m.memset f 1 with free := f :: m.free } (d.set v Pte.zero) m' d') :
    Freed v n m d m' d' where
  frame := h.frame
  tab := h.tab
  pte w := by
    rw [h.pte w]
    by_cases hw : w = v
    · subst hw
      simp [hv, Pgdir.set_pte_same]
    · rw [Pgdir.set_pte_other hw]
      have hiff : v + 1 ≤ w ∧ w < n ↔ v ≤ w ∧ w < n := by omega
      simp only [hiff]
  free _ hg := h.free (List.mem_cons_of_mem _ hg)
  origin g hg := by
    rcases h.origin g hg with hmem | ⟨w, h1, h2, hw⟩
    · rcases List.mem_cons.mp hmem with rfl | hmem
      · exact .inr ⟨v, le_rfl, hv, hf⟩
      · exact .inl hmem
    · rw [Pgdir.set_pte_other (by omega)] at hw
      exact .inr ⟨w, by omega, h2, hw⟩
  ram g hg := by
    have hne : g ≠ f := by
      rintro rfl
      exact hg (h.free mem_cons_self)
    rw [h.ram g hg]
    exact Mem.memset_ram_other _ _ hne

theorem skip_addr (hv : v < UPAGES) :
    UInt32.ofNat ((PDX (addr v) + 1) * 4194304) - 4096 + 4096 = addr ((v / 1024 + 1) * 1024) := by
  simp only [UPAGES, KERNBASE, PGSIZE] at hv
  rw [UInt32.sub_add_cancel, PDX_eq, page_addr (by omega), addr]
  congr 1
  simp only [PGSIZE]
  omega

theorem deallocLoop_freed (hpool : Pool l T) {oldsz : UInt32} (hold : oldsz.toNat ≤ KERNBASE) :
    ∀ (k : Nat) (m : Mem) (d : Pgdir) (v : Nat), v ≤ UPAGES → 0 < k →
      oldsz.toNat / 4096 + 2 ≤ k + v → Account T R m d →
      Ends (deallocLoop l oldsz k m d (addr v)) (fun _ => False) fun r =>
        Account T R r.1 r.2 ∧ Freed v (npages oldsz) m d r.1 r.2 := by
  intro k
  induction k with
  | zero => intro m d v _ hk; omega
  | succ k ih =>
    intro m d v hv _ hk hacc
    simp only [KERNBASE] at hold
    simp only [UPAGES, KERNBASE, PGSIZE] at hv
    have hlt : addr v < oldsz ↔ v < npages oldsz := by
      rw [addr_lt (by omega), lt_npages]
    have hpdx : PDX (addr v) = v / NPTENTRIES := by rw [PDX_eq, page_addr (by omega)]
    rw [deallocLoop]
    simp only [hlt]
    by_cases hin : v < npages oldsz
    · have hin' := lt_npages.mp hin
      have hvu : v < UPAGES := by
        simp only [UPAGES, KERNBASE, PGSIZE]
        omega
      rw [if_pos hin, walkpgdir_false]
      by_cases htab : d.tab (PDX (addr v)) = none
      · rw [if_pos htab]
        simp only [skip_addr hvu]
        refine (ih m d _ (by simp only [UPAGES, KERNBASE, PGSIZE]; omega) (by omega) (by omega)
          hacc).imp fun r hr => ⟨hr.1, hr.2.skip (by omega) fun w h1 h2 => ?_⟩
        refine hacc.wf.absent w ?_
        rw [← htab, hpdx]
        congr 1
        simp only [NPTENTRIES]
        omega
      · rw [if_neg htab]
        simp only [page_addr (show v < 1048576 by omega), addr_succ]
        by_cases hp : (d.pte v).p = true
        · have hman := hacc.managed_page hpool hvu hp
          have hpos := hman.pos
          rw [if_pos hp, if_neg (by omega), kfree_ok hman, ok_bind]
          refine (ih _ _ (v + 1) (by simp only [UPAGES, KERNBASE, PGSIZE]; omega) (by omega)
            (by omega) ⟨hacc.wf.set_zero, ?_⟩).imp fun r hr =>
              ⟨hr.1, hr.2.step hin (Pte.held_some hp)⟩
          have htotal := hacc.total
          rw [Pgdir.owned_set_clear hvu (Pte.held_some hp), add_cons] at htotal
          rw [← htotal]
          simp only [← cons_coe, cons_add]
        · have hp' : (d.pte v).p = false := by simpa using hp
          rw [if_neg hp]
          refine (ih m d (v + 1) (by simp only [UPAGES, KERNBASE, PGSIZE]; omega) (by omega)
            (by omega) hacc).imp fun r hr => ⟨hr.1, hr.2.skip (by omega) fun w h1 h2 => ?_⟩
          obtain rfl : w = v := by omega
          exact hacc.wf.clear w hp'
    · rw [if_neg hin]
      exact ⟨hacc, Freed.refl fun w h1 h2 => by omega⟩

theorem deallocuvm_freed (hpool : Pool l T) {oldsz newsz : UInt32}
    (hold : oldsz.toNat ≤ KERNBASE) (hacc : Account T R m d) :
    Ends (deallocuvm l m d oldsz newsz) (fun _ => False) fun r =>
      Account T R r.2.1 r.2.2 ∧ Freed (npages newsz) (npages oldsz) m d r.2.1 r.2.2 ∧
        r.1 = if newsz ≥ oldsz then oldsz else newsz := by
  unfold deallocuvm
  by_cases hge : newsz ≥ oldsz
  · rw [if_pos hge]
    refine ⟨hacc, Freed.refl fun w h1 h2 => ?_, (if_pos hge).symm⟩
    have := UInt32.le_iff_toNat_le.mp hge
    simp only [npages] at h1 h2
    omega
  · rw [if_neg hge]
    have hlt : newsz.toNat < oldsz.toNat := by
      simpa [UInt32.le_iff_toNat_le] using hge
    have hnew : newsz.toNat ≤ KERNBASE := by omega
    rw [pgroundup_eq hnew]
    refine (deallocLoop_freed hpool hold _ m d (npages newsz) (npages_le hnew) (Nat.succ_pos _)
      (by simp only [PGSIZE]; omega) hacc).bind fun r hr => ?_
    exact ⟨hr.1, hr.2, (if_neg hge).symm⟩

/-- The tables `freevm` has not come to yet. -/
def restTables (d : Pgdir) (i : Nat) : Nat → Option Nat := fun j => if j < i then none else d.tab j

theorem restTables_succ (d : Pgdir) (i : Nat) :
    restTables d (i + 1) = Function.update (restTables d i) i none := by
  funext j
  by_cases hj : j = i
  · subst hj
    simp [restTables]
  · rw [Function.update_of_ne hj]
    have hiff : j < i + 1 ↔ j < i := by omega
    simp only [restTables, hiff]

theorem freeTables_ends (hpool : Pool l T) (d : Pgdir) :
    ∀ (k : Nat) (m : Mem) (i : Nat), i + k = NPDENTRIES →
      ↑m.free + tallyTo NPDENTRIES (restTables d i) + R = T →
      Ends (freeTables l d k m i) (fun _ => False) fun m' =>
        ↑m'.free + R = T ∧ m.free ⊆ m'.free ∧ ∀ f, f ∉ m'.free → m'.ram f = m.ram f := by
  intro k
  induction k with
  | zero =>
    intro m i hi htot
    refine ⟨?_, fun _ => id, fun _ _ => rfl⟩
    have hnone : tallyTo NPDENTRIES (restTables d i) = 0 := by
      rw [← tallyTo_none NPDENTRIES]
      exact tallyTo_congr fun j hj => if_pos (by omega)
    rwa [hnone, add_zero] at htot
  | succ k ih =>
    intro m i hi htot
    have hself : restTables d i i = d.tab i := if_neg (by omega)
    rw [freeTables]
    cases htab : d.tab i with
    | none =>
      refine ih m (i + 1) (by omega) ?_
      rwa [restTables_succ, ← htab, ← hself, Function.update_eq_self]
    | some f =>
      have hclear := tallyTo_clear (show i < NPDENTRIES by omega) (hself.trans htab)
      rw [hclear, add_cons, cons_add] at htot
      have hman : l.Managed f := hpool.managed f (htot ▸ mem_cons_self ..)
      simp only [kfree_ok hman, ok_bind]
      refine (ih _ (i + 1) (by omega) ?_).imp fun m' hm' => ⟨hm'.1, ?_, fun g hg => ?_⟩
      · rw [restTables_succ, ← htot]
        simp only [← cons_coe, cons_add]
      · exact fun g hg => hm'.2.1 (List.mem_cons_of_mem _ hg)
      · have hne : g ≠ f := by
          rintro rfl
          exact hg (hm'.2.1 mem_cons_self)
        rw [hm'.2.2 g hg]
        exact Mem.memset_ram_other _ _ hne

theorem freevm_ends (hpool : Pool l T) (hacc : Account T R m d) :
    Ends (freevm l m d) (fun _ => False) fun m' =>
      ↑m'.free + R = T ∧ ∀ f, f ∉ m'.free → m'.ram f = m.ram f := by
  have hkern : (UInt32.ofNat KERNBASE).toNat ≤ KERNBASE := by decide
  unfold freevm
  refine (deallocuvm_freed hpool hkern hacc).bind fun r hr => ?_
  obtain ⟨_, m1, d1⟩ := r
  obtain ⟨hacc1, hfreed, -⟩ := hr
  have hpages : d1.pages = 0 := by
    rw [Pgdir.pages, ← tallyTo_none UPAGES]
    refine tallyTo_congr fun w hw => ?_
    have hin : npages 0 ≤ w ∧ w < npages (UInt32.ofNat KERNBASE) := ⟨Nat.zero_le w, hw⟩
    rw [hfreed.pte w, if_pos hin, Pte.held_zero]
  have htotal : ↑m1.free + tallyTo NPDENTRIES (restTables d1 0) + (d1.frame ::ₘ R) = T := by
    have hrest : restTables d1 0 = d1.tab := funext fun j => if_neg (Nat.not_lt_zero j)
    have htot := hacc1.total
    simp only [Pgdir.owned, hpages, add_zero, add_cons, cons_add] at htot ⊢
    rw [hrest]
    exact htot
  refine (freeTables_ends hpool d1 _ m1 0 rfl htotal).bind fun m2 hm2 => ?_
  obtain ⟨htot2, hsub, hram⟩ := hm2
  have hman : l.Managed d1.frame :=
    hpool.managed _ (htot2 ▸ mem_add.mpr (.inr (mem_cons_self ..)))
  rw [kfree_ok hman]
  refine ⟨?_, fun f hf => ?_⟩
  · rw [← htot2, ← cons_coe, cons_add, add_cons]
  · have hne := ne_of_not_mem_cons hf
    have hf2 := not_mem_of_not_mem_cons hf
    have h2 : (m2.memset d1.frame 1).ram f = m2.ram f := Mem.memset_ram_other _ _ hne
    exact h2.trans ((hram f hf2).trans (hfreed.ram f fun h => hf2 (hsub h)))

/-- Beside the pages of others there are some for a directory with all its tables and for `n` pages
of the user. -/
def Ample (T R : Multiset Nat) (n : Nat) : Prop := NPDENTRIES + 1 + n + R.card ≤ T.card

theorem Ample.mono {k : Nat} (h : Ample T R n) (hk : k ≤ n) : Ample T R k := by
  unfold Ample at h ⊢
  omega

theorem Ample.take {f k : Nat} (h : Ample T R n) (hk : k < n) : Ample T (f ::ₘ R) k := by
  unfold Ample at h ⊢
  rw [card_cons]
  omega

theorem Account.card (h : Account T R m d) :
    m.free.length + (d.tables.card + d.pages.card + 1) + R.card = T.card := by
  rw [← h.total]
  simp only [Pgdir.owned, card_add, card_cons, coe_card]

theorem Account.kalloc_ne (h : Account T R m d) (ha : Ample T R n) (hn : d.pages.card < n) :
    kalloc m ≠ none := by
  intro hk
  have hcard := h.card
  have htab : d.tables.card ≤ NPDENTRIES := card_tallyTo_le _ _
  rw [kalloc_none hk, length_nil] at hcard
  unfold Ample at ha
  omega

theorem Account.walkpgdir_ne {va : UInt32} (h : Account T R m d) (ha : Ample T R n)
    (hn : d.pages.card ≤ n) : walkpgdir m d va true ≠ none := by
  unfold walkpgdir
  split
  · simp
  case _ hnone =>
    have hlt : d.tables.card < NPDENTRIES := card_tallyTo_lt (PDX_lt va) hnone 0
    have hcard := h.card
    unfold Ample at ha
    cases hk : kalloc m with
    | none =>
      rw [kalloc_none hk, length_nil] at hcard
      omega
    | some r => simp

/-- There are at most as many pages as there are entries below the first of the zeros. -/
theorem Pgdir.card_pages_le (h : ∀ w, n ≤ w → w < UPAGES → d.pte w = Pte.zero)
    (hn : n ≤ UPAGES) : d.pages.card ≤ n := by
  have hshort : tallyTo UPAGES (fun w => (d.pte w).held) = tallyTo n fun w => (d.pte w).held :=
    tallyTo_short hn fun w h1 h2 => by rw [h w h1 h2, Pte.held_zero]
  rw [pages, hshort]
  exact card_tallyTo_le _ _

/-- The kernel's pages `v` to `v + n` have been mapped, or some of them before memory ran out. -/
structure Mapped (v n : Nat) (m : Mem) (d : Pgdir) (m' : Mem) (d' : Pgdir) : Prop where
  frame : d'.frame = d.frame
  pte : ∀ w, w < v ∨ v + n < w → d'.pte w = d.pte w
  user : ∀ w, (d'.pte w).u = true → (d.pte w).u = true
  tab : ∀ i, i < v / 1024 ∨ (v + n) / 1024 < i → d'.tab i = d.tab i
  free : m'.free ⊆ m.free
  ram : ∀ f, f ∉ m.free → m'.ram f = m.ram f

theorem Mapped.refl (v n : Nat) : Mapped v n m d m d :=
  ⟨rfl, fun _ _ => rfl, fun _ => id, fun _ _ => rfl, fun _ => id, fun _ _ => rfl⟩

theorem Mapped.one {pf : Nat} {w : Bool} (h : Walked m d m' d1)
    (htab : ∀ i, i ≠ v / NPTENTRIES → d1.tab i = d.tab i) :
    Mapped v n m d m' (d1.set v (Pte.make pf w false)) where
  frame := h.frame
  pte x hx := by rw [Pgdir.set_pte_other (by omega), h.pte]
  user x hx := by
    by_cases hxv : x = v
    · subst hxv
      rw [Pgdir.set_pte_same] at hx
      simp [Pte.make] at hx
    · rwa [Pgdir.set_pte_other hxv, h.pte] at hx
  tab i hi := htab i (by simp only [NPTENTRIES]; omega)
  free := h.free
  ram := h.ram

theorem Mapped.trans {m1 : Mem} (h1 : Mapped v (n + 1) m d m1 d1)
    (h2 : Mapped (v + 1) n m1 d1 m' d') : Mapped v (n + 1) m d m' d' where
  frame := h2.frame.trans h1.frame
  pte w hw := (h2.pte w (by omega)).trans (h1.pte w hw)
  user w hw := h1.user w (h2.user w hw)
  tab i hi := (h2.tab i (by omega)).trans (h1.tab i hi)
  free _ hf := h1.free (h2.free hf)
  ram f hf := (h2.ram f fun h => hf (h1.free h)).trans (h1.ram f hf)

theorem Mapped.pages (h : Mapped v n m d m' d') (hv : UPAGES ≤ v) : d'.pages = d.pages :=
  tallyTo_congr fun w hw => by rw [h.pte w (by omega)]

theorem kernel_page {pf : Nat} {w : Bool} (hv : UPAGES ≤ v) (hlt : v < 1048576)
    (hacc : Account T R m d) (hw : walkpgdir m d (addr v) true = some (m', d1)) :
    d1.pte = d.pte ∧ Account T R m' (d1.set v (Pte.make pf w false)) ∧
      Mapped v n m d m' (d1.set v (Pte.make pf w false)) := by
  obtain ⟨hwalk, htab, hother⟩ := walkpgdir_walked hacc.wf hw
  have hpdx : PDX (addr v) = v / NPTENTRIES := by rw [PDX_eq, page_addr hlt]
  rw [hpdx] at htab hother
  refine ⟨hwalk.pte, ⟨hwalk.wf.set_present htab rfl, ?_⟩, .one hwalk hother⟩
  rw [Pgdir.owned_set_kernel hv, hwalk.account, hacc.total]

theorem mapLoop_kernel (wr : Bool) :
    ∀ (n : Nat) (m : Mem) (d : Pgdir) (v pf : Nat), UPAGES ≤ v → v + n < 1048576 →
      (∀ w, v ≤ w → w ≤ v + n → (d.pte w).p = false) → Account T R m d →
      Ends (mapLoop (addr (v + n)) wr false (n + 1) m d (addr v) pf) (fun _ => False) fun r =>
        Account T R r.2.1 r.2.2 ∧ Mapped v n m d r.2.1 r.2.2 ∧
          (Ample T R d.pages.card → r.1 = true) := by
  intro n
  induction n with
  | zero =>
    intro m d v pf hv hlt hp hacc
    cases hw : walkpgdir m d (addr v) true with
    | none =>
      rw [mapLoop_none hw]
      exact ⟨hacc, .refl v 0, fun ha => absurd hw (hacc.walkpgdir_ne ha le_rfl)⟩
    | some r =>
      obtain ⟨m1, d1⟩ := r
      obtain ⟨hpte, hacc1, hmap⟩ := kernel_page hv hlt hacc hw
      rw [mapLoop_some hlt hw (by rw [hpte]; exact hp v le_rfl le_rfl), if_pos rfl]
      exact ⟨hacc1, hmap, fun _ => rfl⟩
  | succ n ih =>
    intro m d v pf hv hlt hp hacc
    cases hw : walkpgdir m d (addr v) true with
    | none =>
      rw [mapLoop_none hw]
      exact ⟨hacc, .refl v (n + 1), fun ha => absurd hw (hacc.walkpgdir_ne ha le_rfl)⟩
    | some r =>
      obtain ⟨m1, d1⟩ := r
      obtain ⟨hpte, hacc1, hmap⟩ := kernel_page (n := n + 1) hv (by omega) hacc hw
      rw [mapLoop_some hlt hw (by rw [hpte]; exact hp v le_rfl (by omega)),
        if_neg (Nat.succ_ne_zero n), show v + (n + 1) = v + 1 + n by omega]
      refine (ih m1 _ (v + 1) ((pf + 1) % 1048576) (by omega) (by omega)
        (fun x h1 h2 => ?_) hacc1).imp fun r hr =>
          ⟨hr.1, hmap.trans hr.2.1, fun h => hr.2.2 (hmap.pages hv ▸ h)⟩
      rw [Pgdir.set_pte_other (by omega), hpte]
      exact hp x (by omega) (by omega)

theorem mappages_range (m : Mem) (d : Pgdir) (h : v + n < 1048576) (pf : Nat) (w u : Bool) :
    mappages m d (addr v) (UInt32.ofNat (4096 * (n + 1))) pf w u =
      mapLoop (addr (v + n)) w u (n + 1) m d (addr v) pf := by
  have hdown : pgrounddown (addr v) = addr v := by rw [pgrounddown_eq, page_addr (by omega)]
  have hlast : pgrounddown (addr v + UInt32.ofNat (4096 * (n + 1)) - 1) = addr (v + n) := by
    have hle : (addr v + UInt32.ofNat (4096 * (n + 1)) - 1).toNat = 4096 * (v + n) + 4095 := by
      rw [UInt32.toNat_sub, UInt32.toNat_add, toNat_addr (by omega), UInt32.toNat_ofNat']
      simp only [UInt32.reduceToNat]
      omega
    have hdiv : (4096 * (v + n) + 4095) / PGSIZE = v + n := by
      simp only [PGSIZE]
      omega
    rw [pgrounddown_eq, page, hle, hdiv]
  have hturns : (addr (v + n) - addr v).toNat / PGSIZE + 1 = n + 1 := by
    rw [UInt32.toNat_sub, toNat_addr h, toNat_addr (by omega)]
    simp only [PGSIZE]
    omega
  simp only [mappages, hdown, hlast, hturns]

/-- A directory with the kernel's pages below `lo` in it: none of them for the user, and tables
only where the kernel's regions are. -/
structure KernelOnly (lo : Nat) (d : Pgdir) : Prop where
  user : ∀ w, w < UPAGES → d.pte w = Pte.zero
  noU : ∀ w, (d.pte w).u = false
  above : ∀ w, lo ≤ w → (d.pte w).p = false
  hole : ∀ i, i < 512 ∨ 568 ≤ i ∧ i < 1016 → d.tab i = none

theorem KernelOnly.mapped {lo : Nat} (h : KernelOnly lo d) (hmap : Mapped v n m d m' d')
    (hv : UPAGES ≤ v) (hlo : lo ≤ v)
    (hreg : (v + n) / 1024 < 568 ∨ 1016 ≤ v / 1024) : KernelOnly (v + n + 1) d' where
  user w hw := (hmap.pte w (by omega)).trans (h.user w hw)
  noU w := by
    cases hu : (d'.pte w).u with
    | false => rfl
    | true =>
      have := hmap.user w hu
      rw [h.noU w] at this
      exact this.symm
  above w hw := by
    rw [hmap.pte w (by omega)]
    exact h.above w (by omega)
  hole i hi := by
    simp only [UPAGES, KERNBASE, PGSIZE] at hv
    rw [hmap.tab i (by omega)]
    exact h.hole i hi

/-- The regions of `kmap` lie above each other, in whole pages, and off the hole between physical
memory and the devices. -/
def Regions : Nat → List Kmap → Prop
  | _, [] => True
  | lo, k :: ks => ∃ v n, lo ≤ v ∧ UPAGES ≤ v ∧ v + n < 1048576 ∧
      ((v + n) / 1024 < 568 ∨ 1016 ≤ v / 1024) ∧ UInt32.ofNat k.virt = addr v ∧
      UInt32.ofNat k.physEnd - UInt32.ofNat k.physStart = UInt32.ofNat (4096 * (n + 1)) ∧
      Regions (v + n + 1) ks

theorem regions_kmap (l : Layout) : Regions UPAGES (kmap l) := by
  have haligned := l.data_aligned
  have hlink := l.link_lt_data
  have hfin := l.data_le_fin
  have hphys := l.fin_lt
  simp only [PGSIZE, KERNLINK, KERNBASE, EXTMEM, PHYSTOP] at haligned hlink hfin hphys
  obtain ⟨v, hv⟩ : ∃ v, l.data = 4096 * v := ⟨l.data / 4096, by omega⟩
  simp only [kmap, Regions, hv]
  refine ⟨524288, 255, by decide, by decide, by decide, by decide, by decide, by decide, ?_⟩
  refine ⟨524544, v - 524545, by omega, by decide, by omega, by omega, by decide, ?_, ?_⟩
  · have hsize : 4096 * v - KERNBASE - (KERNLINK - KERNBASE) = 4096 * (v - 524545 + 1) := by
      simp only [KERNLINK, KERNBASE, EXTMEM]
      omega
    rw [← UInt32.ofNat_sub (by simp only [KERNLINK, KERNBASE, EXTMEM]; omega), hsize]
  refine ⟨v, 581632 - v - 1, by omega, by simp only [UPAGES, KERNBASE, PGSIZE]; omega, by omega,
    by omega, rfl, ?_, ?_⟩
  · have hsize : PHYSTOP - (4096 * v - KERNBASE) = 4096 * (581632 - v - 1 + 1) := by
      simp only [PHYSTOP, KERNBASE]
      omega
    rw [← UInt32.ofNat_sub (by simp only [PHYSTOP, KERNBASE]; omega), hsize]
  exact ⟨1040384, 8191, by omega, by decide, by decide, by decide, by decide, by decide, trivial⟩

theorem not_free_rest (hpool : Pool l T) (h : ↑m.free + R = T) {f : Nat} (hf : f ∈ R) :
    f ∉ m.free := by
  intro hfree
  have hnd : (↑m.free + R : Multiset Nat).Nodup := h ▸ hpool.nodup
  exact Multiset.disjoint_left.mp (nodup_add.mp hnd).2.2 hfree hf

/-- What `setupkvm` and `copyuvm` leave: a new address space with `Q`, or all its pages free again;
the pages of others hold what they held. -/
def NewSpace (T R : Multiset Nat) (m : Mem) (Q : Mem → Pgdir → Prop) (r : Option Pgdir × Mem) :
    Prop :=
  (∀ f ∈ R, r.2.ram f = m.ram f) ∧
    r.1.elim (↑r.2.free + R = T) fun d => Account T R r.2 d ∧ Q r.2 d

theorem freevm_newSpace (hpool : Pool l T) (hacc : Account T R m d) {m0 : Mem}
    (hram : ∀ f ∈ R, m.ram f = m0.ram f) (Q : Mem → Pgdir → Prop) :
    Ends (freevm l m d >>= fun m => pure (none, m)) (fun _ => False) (NewSpace T R m0 Q) := by
  refine (freevm_ends hpool hacc).bind fun m' hm' => ⟨fun f hf => ?_, hm'.1⟩
  exact (hm'.2 f (not_free_rest hpool hm'.1 hf)).trans (hram f hf)

theorem kmapLoop_newSpace (hpool : Pool l T) {m0 : Mem} :
    ∀ (ks : List Kmap) (lo : Nat) (m : Mem) (d : Pgdir), Regions lo ks → KernelOnly lo d →
      Account T R m d → (∀ f ∈ R, m.ram f = m0.ram f) →
      Ends (kmapLoop l ks m d) (fun _ => False) fun r =>
        NewSpace T R m0 (fun _ d' => ∃ lo', KernelOnly lo' d') r ∧
          (Ample T R d.pages.card → r.1 ≠ none) := by
  intro ks
  induction ks with
  | nil => exact fun lo m d _ hk hacc hram => ⟨⟨hram, hacc, lo, hk⟩, fun _ => nofun⟩
  | cons k ks ih =>
    intro lo m d hreg hk hacc hram
    obtain ⟨v, n, hlo, hv, hlt, hoff, hvirt, hsize, hrest⟩ := hreg
    rw [kmapLoop, hvirt, hsize, mappages_range m d hlt]
    refine (mapLoop_kernel k.w n m d v _ hv hlt (fun w hw _ => hk.above w (by omega)) hacc).bind
      fun r hr => ?_
    obtain ⟨ok, m1, d1⟩ := r
    obtain ⟨hacc1, hmap, hample⟩ := hr
    have hram1 : ∀ f ∈ R, m1.ram f = m0.ram f := fun f hf =>
      (hmap.ram f (hacc.not_free_other hpool hf)).trans (hram f hf)
    cases ok with
    | true =>
      refine (ih _ m1 d1 hrest (hk.mapped hmap hv hlo hoff) hacc1 hram1).imp fun r hr => ?_
      exact ⟨hr.1, fun h => hr.2 (hmap.pages hv ▸ h)⟩
    | false =>
      have hout := freevm_newSpace hpool hacc1 hram1 fun _ d' => ∃ lo', KernelOnly lo' d'
      exact hout.imp fun r hr => ⟨hr, fun h => absurd (hample h) Bool.false_ne_true⟩

theorem kernelOnly_empty (f : Nat) : KernelOnly UPAGES (Pgdir.empty f) where
  user _ _ := rfl
  noU _ := rfl
  above _ _ := rfl
  hole _ _ := rfl

theorem setupkvm_newSpace (hpool : Pool l T) (htot : ↑m.free + R = T) :
    Ends (setupkvm l m) (fun _ => False) fun r =>
      NewSpace T R m (fun _ d => ∃ lo, KernelOnly lo d) r ∧
        (Ample T R 0 → r.1 ≠ none) := by
  unfold setupkvm
  cases hk : kalloc m with
  | none =>
    refine ⟨⟨fun _ _ => rfl, htot⟩, fun h => ?_⟩
    unfold Ample at h
    rw [← htot, kalloc_none hk, card_add, coe_card, length_nil] at h
    omega
  | some r =>
    obtain ⟨f, m1⟩ := r
    obtain ⟨hfree, hram⟩ := kalloc_some hk
    have hacc : Account T R (m1.memset f 0) (Pgdir.empty f) := by
      refine ⟨Pgdir.wf_empty f, ?_⟩
      rw [Pgdir.owned_empty, Mem.memset_free, ← htot, hfree, ← cons_coe,
        add_comm (m1.free : Multiset Nat), singleton_add]
    have hothers : ∀ g ∈ R, (m1.memset f 0).ram g = m.ram g := by
      intro g hg
      have hne : g ≠ f := by
        rintro rfl
        exact not_free_rest hpool htot hg (hfree ▸ mem_cons_self)
      rw [Mem.memset_ram_other _ _ hne, hram]
    have hphys : ¬ KERNBASE + PHYSTOP > DEVSPACE := by decide
    simp only [if_neg hphys]
    refine (kmapLoop_newSpace hpool (kmap l) UPAGES _ _ (regions_kmap l) (kernelOnly_empty f) hacc
      hothers).imp fun r hr => ⟨hr.1, fun h => hr.2 ?_⟩
    have hzero : (Pgdir.empty f).pages = 0 := tallyTo_none _
    rwa [hzero]

theorem range_pool {a n : Nat} (ha : 288 ≤ a) (hn : a + n ≤ 57344) :
    Pool smallKernel ↑(List.range' a n) where
  nodup := coe_nodup.mpr nodup_range'
  managed f hf := by
    rw [mem_coe, mem_range'_1] at hf
    simp only [Layout.Managed, smallKernel, KERNBASE, PGSIZE, PHYSTOP]
    omega

end Xv6.Vm
