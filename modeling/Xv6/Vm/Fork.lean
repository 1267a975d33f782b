import Xv6.Vm.Grow

/-!
# Xv6.Vm.Fork

`copyuvm`, the address space of a child.

The child's directory is built beside the parent's, so the parent's pages are among the pages of
others all along: `Account` keeps the two apart. `Copies` is where the loop stands, `Copies.step`
one page more. Wherever `kalloc` fails, in the loop, in `mappages` or in `setupkvm`, everything that
was taken goes back (`copyuvm_newSpace`).
-/

namespace Xv6.Vm

open Multiset

variable {l : Layout} {T R : Multiset Nat} {m m' m0 : Mem} {d d' d0 : Pgdir}

/-- The pages below `v` have been copied, with their flags; the child has no other page below
`KERNBASE`, and none for the user above. -/
structure Copies (m0 : Mem) (d0 : Pgdir) (v : Nat) (m : Mem) (d : Pgdir) : Prop where
  done : ∀ w, w < v → ∃ f, d.pte w = Pte.make f (d0.pte w).w (d0.pte w).u ∧
    ∀ k, k < PGSIZE → m.ram f k = m0.ram (d0.pte w).frame k
  rest : ∀ w, v ≤ w → w < UPAGES → d.pte w = Pte.zero
  kernel : ∀ w, UPAGES ≤ w → (d.pte w).u = false

theorem KernelOnly.copies {lo : Nat} (h : KernelOnly lo d) (m0 : Mem) (d0 : Pgdir) (m : Mem) :
    Copies m0 d0 0 m d :=
  ⟨fun _ hw => absurd hw (Nat.not_lt_zero _), fun w _ hw => h.user w hw, fun w _ => h.noU w⟩

theorem Account.takeCopy {f : Nat} (hacc : Account T R m d) (hk : kalloc m = some (f, m'))
    (src : Nat → UInt8) : Account T (f ::ₘ R) (m'.memmove f 0 PGSIZE src) d :=
  ⟨hacc.wf, (hacc.take hk 0).total⟩

theorem ram_takeCopy {f g : Nat} (hk : kalloc m = some (f, m')) (src : Nat → UInt8)
    (hg : g ∉ m.free) : (m'.memmove f 0 PGSIZE src).ram g = m.ram g := by
  obtain ⟨hfree, hram⟩ := kalloc_some hk
  have hne : g ≠ f := fun e => hg (e ▸ hfree ▸ List.mem_cons_self)
  rw [Mem.memmove_ram_other _ _ _ _ hne, hram]

theorem Copies.step (hpool : Pool l T) {v f : Nat} {m1 m2 : Mem} {d1 : Pgdir}
    (h : Copies m0 d0 v m d) (hacc : Account T R m d) (hv : v < UPAGES)
    (hothers : ∀ g ∈ R, m.ram g = m0.ram g) (hparent : (d0.pte v).frame ∈ R)
    (hk : kalloc m = some (f, m1))
    (hwalk : Walked (m1.memmove f 0 PGSIZE (m1.ram (d0.pte v).frame)) d m2 d1)
    (htab : d1.tab (v / NPTENTRIES) ≠ none) :
    Account T R m2 (d1.set v (Pte.make f (d0.pte v).w (d0.pte v).u)) ∧
      (∀ g ∈ R, m2.ram g = m0.ram g) ∧
      Copies m0 d0 (v + 1) m2 (d1.set v (Pte.make f (d0.pte v).w (d0.pte v).u)) := by
  obtain ⟨hfree, hram⟩ := kalloc_some hk
  have hacc1 := hacc.takeCopy hk (m1.ram (d0.pte v).frame)
  have hf : f ∉ m1.free := hacc1.not_free_other hpool (mem_cons_self ..)
  have hsub : m1.free ⊆ m.free := hfree ▸ List.subset_cons_self ..
  have hkeep : ∀ g, g ∉ m.free → m2.ram g = m.ram g := fun g hg =>
    (hwalk.ram g fun hin => hg (hsub hin)).trans (ram_takeCopy hk _ hg)
  refine ⟨⟨hwalk.wf.set_present htab rfl, ?_⟩, fun g hg => ?_, fun w hw => ?_, fun w h1 h2 => ?_,
    fun w hw => ?_⟩
  · have hheld : (d1.pte v).held = none := by
      rw [hwalk.pte, h.rest v le_rfl hv, Pte.held_zero]
    have htotal := (hwalk.account' hacc1).total
    rw [Pgdir.owned_set_store hv hheld (Pte.held_make ..), ← htotal]
    simp only [add_cons, cons_add]
  · rw [hkeep g (hacc.not_free_other hpool hg), hothers g hg]
  · by_cases hwv : w = v
    · subst hwv
      refine ⟨f, Pgdir.set_pte_same, fun k hk => ?_⟩
      rw [hwalk.ram f hf, Mem.memmove_ram_same, Bytes.patch_in (Nat.zero_le k) (by omega), hram,
        Nat.sub_zero, hothers _ hparent]
    · obtain ⟨g, hpte, hbytes⟩ := h.done w (by omega)
      have hgp : (d.pte w).p = true := by rw [hpte]; rfl
      have hown := Pgdir.mem_owned_page (show w < UPAGES by omega) hgp
      rw [hpte] at hown
      refine ⟨g, ?_, fun k hk => ?_⟩
      · rw [Pgdir.set_pte_other hwv, hwalk.pte, hpte]
      · rw [hkeep g (hacc.not_free hpool hown), hbytes k hk]
  · rw [Pgdir.set_pte_other (by omega), hwalk.pte]
    exact h.rest w (by omega) h2
  · rw [Pgdir.set_pte_other (by omega), hwalk.pte]
    exact h.kernel w hw

/-- The parent has no page somewhere below its size. -/
def Gap (d : Pgdir) (sz : UInt32) : Prop := ∃ w, w < npages sz ∧ (d.pte w).p = false

theorem not_gap {sz : UInt32} (hmaps : ∀ w, w < npages sz → (d.pte w).p = true) : ¬ Gap d sz := by
  rintro ⟨w, hw, hp⟩
  rw [hmaps w hw] at hp
  exact Bool.noConfusion hp

theorem copyLoop_newSpace (hpool : Pool l T) {sz : UInt32} (hsz : sz.toNat ≤ KERNBASE) (hwf : d0.Wf)
    (hparent : ∀ w, w < npages sz → (d0.pte w).p = true → (d0.pte w).frame ∈ R) :
    ∀ (k : Nat) (m : Mem) (d : Pgdir) (v : Nat), 0 < k → sz.toNat / 4096 + 2 ≤ k + v →
      v ≤ npages sz → Account T R m d → (∀ g ∈ R, m.ram g = m0.ram g) → Copies m0 d0 v m d →
      Ends (copyLoop l d0 sz k m d (addr v)) (fun e => (e = .copyPte ∨ e = .copyPage) ∧ Gap d0 sz)
        fun r => NewSpace T R m0 (Copies m0 d0 (npages sz)) r ∧
          (Ample T R (npages sz) → r.1 ≠ none) := by
  have hle := npages_le hsz
  intro k
  induction k with
  | zero => intro m d v hk; omega
  | succ k ih =>
    intro m d v _ hk hv hacc hothers hcopies
    have hv20 : v < 1048576 := by simp only [UPAGES, KERNBASE, PGSIZE] at hle; omega
    have hlt : addr v < sz ↔ v < npages sz := by rw [addr_lt hv20, lt_npages]
    rw [copyLoop]
    simp only [hlt]
    by_cases hin : v < npages sz
    swap
    · obtain rfl : v = npages sz := by omega
      rw [if_neg hin]
      exact ⟨⟨hothers, hacc, hcopies⟩, fun _ => nofun⟩
    have hin' := lt_npages.mp hin
    have hpdx : PDX (addr v) = v / NPTENTRIES := by rw [PDX_eq, page_addr hv20]
    rw [if_pos hin, walkpgdir_false, hpdx]
    by_cases htab0 : d0.tab (v / NPTENTRIES) = none
    · rw [if_pos htab0]
      refine ⟨.inl rfl, v, hin, ?_⟩
      rw [hwf.absent v htab0]
      rfl
    rw [if_neg htab0]
    simp only [page_addr hv20]
    by_cases hp : (d0.pte v).p = true
    swap
    · rw [if_neg hp]
      exact ⟨.inr rfl, v, hin, Bool.eq_false_iff.mpr hp⟩
    have hcard : d.pages.card ≤ v := Pgdir.card_pages_le hcopies.rest (by omega)
    rw [if_pos hp]
    cases hkal : kalloc m with
    | none =>
      exact (freevm_newSpace hpool hacc hothers _).mono (fun _ => False.elim) fun r hr =>
        ⟨hr, fun ha => absurd hkal (hacc.kalloc_ne ha (by omega))⟩
    | some r =>
      obtain ⟨f, m1⟩ := r
      have hfresh : (d.pte v).p = false := by
        rw [hcopies.rest v le_rfl (by omega)]
        rfl
      refine ((mappages_page_ends hacc.wf hv20 hfresh).mono (fun _ => False.elim) fun _ =>
        id).bind fun r hr => ?_
      rcases hr with ⟨rfl, hnone⟩ | ⟨d1, hwalk, htab, -, hr⟩
      · -- no page for a table: the copy and the child go back
        have hacc1 := hacc.takeCopy hkal (m1.ram (d0.pte v).frame)
        have hmem : f ∈ T := by
          rw [← hacc1.total]
          exact mem_add.mpr (.inr (mem_cons_self ..))
        simp only [Bool.false_eq_true, if_false, kfree_ok (hpool.managed f hmem), ok_bind]
        refine (freevm_newSpace hpool hacc1.giveBack (fun g hg => ?_) _).mono (fun _ => False.elim)
          fun r hr => ⟨hr, fun ha => absurd hnone (hacc1.walkpgdir_ne (ha.take hin) hcard)⟩
        have hgm := hacc.not_free_other hpool hg
        have hne : g ≠ f := fun e => hgm (e ▸ (kalloc_some hkal).1 ▸ List.mem_cons_self)
        exact (Mem.memset_ram_other _ _ hne).trans ((ram_takeCopy hkal _ hgm).trans (hothers g hg))
      · rw [hr]
        obtain ⟨hacc2, hothers2, hcopies2⟩ := hcopies.step hpool hacc (by omega) hothers
          (hparent v hin hp) hkal hwalk htab
        simp only [addr_succ, if_true]
        exact ih _ _ (v + 1) (by omega) (by omega) (by omega) hacc2 hothers2 hcopies2

theorem copyuvm_newSpace (hpool : Pool l T) {sz : UInt32} (hsz : sz.toNat ≤ KERNBASE) (hwf : d0.Wf)
    (hparent : ∀ w, w < npages sz → (d0.pte w).p = true → (d0.pte w).frame ∈ R)
    (htot : ↑m.free + R = T) :
    Ends (copyuvm l m d0 sz) (fun e => (e = .copyPte ∨ e = .copyPage) ∧ Gap d0 sz) fun r =>
      NewSpace T R m (Copies m d0 (npages sz)) r ∧ (Ample T R (npages sz) → r.1 ≠ none) := by
  unfold copyuvm
  refine ((setupkvm_newSpace hpool htot).mono (fun _ => False.elim) fun _ => id).bind fun r hr => ?_
  obtain ⟨dir, m1⟩ := r
  obtain ⟨⟨hothers, hspace⟩, hsome⟩ := hr
  cases dir with
  | none => exact ⟨⟨hothers, hspace⟩, fun ha => hsome (ha.mono (Nat.zero_le _))⟩
  | some d =>
    obtain ⟨hacc, lo, hkernel⟩ := hspace
    have h0 : (0 : UInt32) = addr 0 := rfl
    simp only [h0]
    exact copyLoop_newSpace hpool hsz hwf hparent _ m1 d 0 (Nat.succ_pos _)
      (by simp only [PGSIZE]; omega) (Nat.zero_le _) hacc hothers (hkernel.copies m d0 m1)

/-- The child has what the parent has below `PGROUNDUP(sz)`: each byte and the flags of each page,
on pages of its own, and nothing for the user beyond. -/
structure ChildOf (m : Mem) (d : Pgdir) (sz : UInt32) (m' : Mem) (c : Pgdir) : Prop where
  bytes : ∀ a, a < PGSIZE * npages sz → load m' c a = load m d a
  flags : ∀ v, v < npages sz → (c.pte v).p = (d.pte v).p ∧ (c.pte v).w = (d.pte v).w ∧
    (c.pte v).u = (d.pte v).u
  disjoint : Disjoint c.owned d.owned
  above : ∀ v, npages sz ≤ v → (c.pte v).u = false ∧ (v < UPAGES → (c.pte v).p = false)

theorem Copies.childOf {sz : UInt32} (hpool : Pool l T) (h : Copies m d (npages sz) m' d')
    (hacc : Account T (d.owned + R) m' d')
    (hmaps : ∀ w, w < npages sz → (d.pte w).p = true) : ChildOf m d sz m' d' where
  bytes a ha := by
    have hpage : a / PGSIZE < npages sz := Nat.div_lt_of_lt_mul ha
    obtain ⟨f, hpte, hbytes⟩ := h.done _ hpage
    rw [load, hpte]
    exact hbytes _ (Nat.mod_lt a (by decide))
  flags v hv := by
    obtain ⟨f, hpte, -⟩ := h.done v hv
    rw [hpte, hmaps v hv]
    exact ⟨rfl, rfl, rfl⟩
  disjoint := by
    have hnd := hacc.nodup hpool
    rw [← add_assoc] at hnd
    have h1 := (nodup_add.mp hnd).1
    rw [add_assoc] at h1
    exact (nodup_add.mp (nodup_add.mp h1).2.1).2.2
  above v hv := by
    by_cases hu : v < UPAGES
    · rw [h.rest v hv hu]
      exact ⟨rfl, fun _ => rfl⟩
    · exact ⟨h.kernel v (by omega), fun hc => absurd hc hu⟩

theorem copyuvm_apart (hpool : Pool l T) (hacc : Account T R m d) {sz : UInt32}
    (hsz : sz.toNat ≤ KERNBASE) : Ends (copyuvm l m d sz) (fun _ => Gap d sz) fun r =>
      NewSpace T (d.owned + R) m (Copies m d (npages sz)) r ∧
        (Ample T (d.owned + R) (npages sz) → r.1 ≠ none) := by
  have hle := npages_le hsz
  have htot : ↑m.free + (d.owned + R) = T := by
    rw [← add_assoc]
    exact hacc.total
  refine (copyuvm_newSpace hpool hsz hacc.wf (fun w hw hp => ?_) htot).mono (fun _ he => he.2)
    fun _ => id
  exact mem_add.mpr (.inl (Pgdir.mem_owned_page (by omega) hp))

theorem copyuvm_some (hpool : Pool l T) (hacc : Account T R m d) {sz : UInt32}
    (hsz : sz.toNat ≤ KERNBASE) (ha : Ample T (d.owned + R) (npages sz)) {r : Option Pgdir}
    (hrun : copyuvm l m d sz = .ok (r, m')) : r ≠ none :=
  ((copyuvm_apart hpool hacc hsz).of_ok hrun).2 ha

/-- `copyuvm` gives the child a faithful copy, or gives back every page it took, and leaves the
pages of the parent and of everybody else as they were. -/
theorem copyuvm_faithful (hpool : Pool l T) (hacc : Account T R m d) {sz : UInt32}
    (hsz : sz.toNat < KERNBASE) (hmaps : ∀ v, v < npages sz → (d.pte v).p = true) :
    ∃ r m', copyuvm l m d sz = .ok (r, m') ∧ (∀ f ∈ d.owned + R, m'.ram f = m.ram f) ∧
      ((∃ c, r = some c ∧ ChildOf m d sz m' c) ∨
        (r = none ∧ (↑m'.free : Multiset Nat) = ↑m.free)) := by
  obtain ⟨⟨r, m'⟩, hrun, ⟨hothers, hspace⟩, -⟩ :=
    ((copyuvm_apart hpool hacc hsz.le).mono (fun _ => not_gap hmaps) fun _ => id).total
  refine ⟨r, m', hrun, hothers, ?_⟩
  cases r with
  | none =>
    refine .inr ⟨rfl, ?_⟩
    have hsame : (↑m'.free + (d.owned + R) : Multiset Nat) = ↑m.free + (d.owned + R) := by
      rw [← add_assoc (m.free : Multiset Nat), hacc.total]
      exact hspace
    exact add_right_cancel hsame
  | some c => exact .inl ⟨c, rfl, hspace.2.childOf hpool hspace.1 hmaps⟩

/-- With memory left the child is there, and has the byte of the parent's page. -/
theorem copyuvm_faithful_page : ∃ c m',
    copyuvm smallKernel plenty onePage.pgdir onePage.sz = .ok (some c, m') ∧
      ChildOf plenty onePage.pgdir onePage.sz m' c ∧ load m' c 7 = 7 ∧
      (∀ f ∈ onePage.pgdir.owned + 0, m'.ram f = plenty.ram f) := by
  have hacc := onePage_account plenty
  have horderly := onePage_orderly plenty_pool
  have hle := npages_le horderly.lt.le
  have hmaps : ∀ v, v < npages onePage.sz → (onePage.pgdir.pte v).p = true := fun v hv =>
    (horderly.maps v (by omega)).mpr hv
  obtain ⟨r, m', hrun, hothers, hcases⟩ := copyuvm_faithful plenty_pool hacc horderly.lt hmaps
  rcases hcases with ⟨c, rfl, hchild⟩ | ⟨rfl, -⟩
  · exact ⟨c, m', hrun, hchild, (hchild.bytes 7 (by decide)).trans (by decide), hothers⟩
  · refine absurd rfl (copyuvm_some plenty_pool hacc horderly.lt.le ?_ hrun)
    rw [Ample, plenty_card, onePage_owned]
    decide

end Xv6.Vm
