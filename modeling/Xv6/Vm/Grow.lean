import Xv6.Vm.Space

/-!
# Xv6.Vm.Grow

`allocuvm` and `growproc`: a process grows or shrinks.

`allocuvm` maps zeroed pages one at a time and goes back with `deallocuvm` when memory runs out.
`Grown v v'` is where it stands: the pages from `v` to `v'` are new, zero and from the free list,
and nothing else has changed. Going back leaves `Grown v v`, so the caller sees the address space it
had. `growproc` tells failure by the size `0`; that is also the size `deallocuvm` returns for
`n = -sz`, and a larger negative `n` wraps the size around (`growproc_exact`).
-/

namespace Xv6.Vm

open List Multiset

variable {l : Layout} {T R : Multiset Nat} {m m' m0 : Mem} {d d' d0 : Pgdir}

/-- The pages `v` to `v'` of `d0` have been mapped to zeroed pages from the free list of `m0`. -/
structure Grown (v v' : Nat) (m0 : Mem) (d0 : Pgdir) (m : Mem) (d : Pgdir) : Prop where
  frame : d.frame = d0.frame
  old : ∀ w, w < v ∨ v' ≤ w → d.pte w = d0.pte w
  new : ∀ w, v ≤ w → w < v' → ∃ f ∈ m0.free, d.pte w = Pte.make f true true ∧ m.ram f = fun _ => 0
  free : m.free ⊆ m0.free
  ram : ∀ f, f ∉ m0.free → m.ram f = m0.ram f

theorem Grown.refl (v : Nat) (m : Mem) (d : Pgdir) : Grown v v m d m d :=
  ⟨rfl, fun _ _ => rfl, fun _ h1 h2 => absurd h2 (by omega), fun _ => id, fun _ _ => rfl⟩

theorem Account.take {f : Nat} (hacc : Account T R m d) (hk : kalloc m = some (f, m'))
    (c : UInt8) : Account T (f ::ₘ R) (m'.memset f c) d := by
  refine ⟨hacc.wf, ?_⟩
  rw [← hacc.total, (kalloc_some hk).1, Mem.memset_free, ← cons_coe, add_cons, cons_add, cons_add]

theorem Grown.step (hpool : Pool l T) {v v' f : Nat} {m1 m2 : Mem} {d1 : Pgdir}
    (h : Grown v v' m0 d0 m d) (hacc : Account T R m d) (hv : v ≤ v') (hv' : v' < UPAGES)
    (hp : (d.pte v').p = false) (hk : kalloc m = some (f, m1))
    (hwalk : Walked (m1.memset f 0) d m2 d1) (htab : d1.tab (v' / NPTENTRIES) ≠ none) :
    Account T R m2 (d1.set v' (Pte.make f true true)) ∧
      Grown v (v' + 1) m0 d0 m2 (d1.set v' (Pte.make f true true)) := by
  obtain ⟨hfree, hram⟩ := kalloc_some hk
  have hacc1 := hacc.take hk 0
  have hf : f ∉ m1.free := hacc1.not_free_other hpool (mem_cons_self ..)
  have hf0 : f ∈ m0.free := h.free (hfree ▸ mem_cons_self)
  have hsub : m1.free ⊆ m.free := hfree ▸ subset_cons_self ..
  refine ⟨⟨hwalk.wf.set_present htab rfl, ?_⟩, ?_⟩
  · have hheld : (d1.pte v').held = none := by rw [hwalk.pte, Pte.held, hp]; rfl
    have htotal := (hwalk.account' hacc1).total
    rw [Pgdir.owned_set_store hv' hheld (Pte.held_make ..), ← htotal]
    simp only [add_cons, cons_add]
  · refine ⟨hwalk.frame.trans h.frame, fun w hw => ?_, fun w h1 h2 => ?_, fun g hg => ?_,
      fun g hg => ?_⟩
    · rw [Pgdir.set_pte_other (by omega), hwalk.pte]
      exact h.old w (by omega)
    · by_cases hw : w = v'
      · subst hw
        refine ⟨f, hf0, Pgdir.set_pte_same, ?_⟩
        rw [hwalk.ram f hf, Mem.memset_ram_same]
      · obtain ⟨g, hg0, hpte, hzero⟩ := h.new w h1 (by omega)
        have hgp : (d.pte w).p = true := by rw [hpte]; rfl
        have hown : g ∈ d.owned := by
          have := Pgdir.mem_owned_page (show w < UPAGES by omega) hgp
          rwa [hpte] at this
        have hgm := hacc.not_free hpool hown
        have hne : g ≠ f := fun e => hgm (e ▸ hfree ▸ mem_cons_self)
        refine ⟨g, hg0, ?_, ?_⟩
        · rw [Pgdir.set_pte_other hw, hwalk.pte, hpte]
        · rw [hwalk.ram g fun hin => hgm (hsub hin), Mem.memset_ram_other _ _ hne, hram, hzero]
    · exact h.free (hsub (hwalk.free hg))
    · have hne : g ≠ f := fun e => hg (e ▸ hf0)
      rw [hwalk.ram g fun hin => hg (h.free (hsub hin)), Mem.memset_ram_other _ _ hne, hram]
      exact h.ram g hg

theorem Grown.undo {v v' n : Nat} (h : Grown v v' m0 d0 m d) (hf : Freed v n m d m' d')
    (hn : v' ≤ n) (hu : n ≤ UPAGES) (hz : ∀ w, v ≤ w → w < UPAGES → d0.pte w = Pte.zero) :
      Grown v v m0 d0 m' d' := by
  have horigin : ∀ f ∈ m'.free, f ∈ m0.free := by
    intro f hin
    rcases hf.origin f hin with hin | ⟨w, h1, h2, hw⟩
    · exact h.free hin
    · by_cases hw' : w < v'
      · obtain ⟨g, hg, hpte, -⟩ := h.new w h1 hw'
        rw [hpte, Pte.held_make, Option.some.injEq] at hw
        exact hw ▸ hg
      · rw [h.old w (by omega), hz w h1 (by omega)] at hw
        exact absurd hw (by simp)
  refine ⟨hf.frame.trans h.frame, fun w _ => ?_, fun w h1 h2 => absurd h2 (by omega), horigin,
    fun f hin => ?_⟩
  · rw [hf.pte w]
    split
    · next hw => rw [hz w hw.1 (by omega)]
    · next hw => exact h.old w (by omega)
  · rw [hf.ram f fun hfree => hin (horigin f hfree)]
    exact h.ram f hin

theorem Grown.taken (hpool : Pool l T) {v v' f : Nat} {m1 : Mem} (h : Grown v v' m0 d0 m d)
    (hacc : Account T R m d) (hv' : v' ≤ UPAGES) (hk : kalloc m = some (f, m1)) (c : UInt8) :
    Grown v v' m0 d0 (m1.memset f c) d where
  frame := h.frame
  old := h.old
  new w h1 h2 := by
    obtain ⟨hfree, hram⟩ := kalloc_some hk
    obtain ⟨g, hg, hpte, hzero⟩ := h.new w h1 h2
    have hgp : (d.pte w).p = true := by rw [hpte]; rfl
    have hown := Pgdir.mem_owned_page (show w < UPAGES by omega) hgp
    rw [hpte] at hown
    have hne : g ≠ f := fun e => hacc.not_free hpool hown (e ▸ hfree ▸ mem_cons_self)
    exact ⟨g, hg, hpte, by rw [Mem.memset_ram_other _ _ hne, hram, hzero]⟩
  free g hg := h.free ((kalloc_some hk).1 ▸ List.mem_cons_of_mem f hg)
  ram g hg := by
    obtain ⟨hfree, hram⟩ := kalloc_some hk
    have hne : g ≠ f := fun e => hg (h.free (e ▸ hfree ▸ mem_cons_self))
    rw [Mem.memset_ram_other _ _ hne, hram]
    exact h.ram g hg

theorem Grown.giveBack {v f : Nat} (h : Grown v v m0 d0 m d) (hf : f ∈ m0.free) :
    Grown v v m0 d0 { m.memset f 1 with free := f :: m.free } d where
  frame := h.frame
  old := h.old
  new w h1 h2 := absurd h2 (by omega)
  free g hg := by
    rcases List.mem_cons.mp hg with rfl | hg
    · exact hf
    · exact h.free hg
  ram g hg := by
    have hne : g ≠ f := fun e => hg (e ▸ hf)
    exact (Mem.memset_ram_other m _ hne).trans (h.ram g hg)

theorem Account.giveBack {f : Nat} (hacc : Account T (f ::ₘ R) m d) :
    Account T R { m.memset f 1 with free := f :: m.free } d := by
  refine ⟨hacc.wf, ?_⟩
  rw [← hacc.total, ← cons_coe, add_cons, cons_add, cons_add]

theorem allocLoop_grown (hpool : Pool l T) {oldsz newsz : UInt32} (hnew : newsz.toNat < KERNBASE)
    (hz : ∀ w, npages oldsz ≤ w → w < UPAGES → d0.pte w = Pte.zero) :
    ∀ (k : Nat) (m : Mem) (d : Pgdir) (v : Nat), 0 < k → newsz.toNat / 4096 + 2 ≤ k + v →
      npages oldsz ≤ v → v ≤ UPAGES → (v < npages newsz ∨ v = npages newsz) → Account T R m d →
      Grown (npages oldsz) v m0 d0 m d →
      Ends (allocLoop l oldsz newsz k m d (addr v)) (fun _ => False) fun r =>
        Account T R r.2.1 r.2.2 ∧
          ((r.1 = newsz ∧ Grown (npages oldsz) (npages newsz) m0 d0 r.2.1 r.2.2) ∨
            (r.1 = 0 ∧ Grown (npages oldsz) (npages oldsz) m0 d0 r.2.1 r.2.2 ∧
              ¬ Ample T R (npages newsz))) := by
  have hnewle := npages_le hnew.le
  intro k
  induction k with
  | zero => intro m d v hk; omega
  | succ k ih =>
    intro m d v _ hk hv0 hvu hvn hacc hgrown
    have hlt : addr v < newsz ↔ v < npages newsz := by
      rw [addr_lt (by simp only [UPAGES, KERNBASE, PGSIZE] at hvu; omega), lt_npages]
    rw [allocLoop]
    simp only [hlt]
    by_cases hin : v < npages newsz
    · have hin' := lt_npages.mp hin
      have hp : (d.pte v).p = false := by
        rw [hgrown.old v (by omega), hz v hv0 (by omega)]
        rfl
      have hcard : d.pages.card ≤ v := Pgdir.card_pages_le (fun w h1 h2 => by
        rw [hgrown.old w (.inr h1), hz w (by omega) h2]) hvu
      rw [if_pos hin]
      cases hkal : kalloc m with
      | none =>
        refine (deallocuvm_freed hpool hnew.le hacc).bind fun r hr => ?_
        exact ⟨hr.1, .inr ⟨rfl, hgrown.undo hr.2.1 hin.le hnewle hz, fun ha =>
          hacc.kalloc_ne ha (by omega) hkal⟩⟩
      | some r =>
        obtain ⟨f, m1⟩ := r
        have hacc1 := hacc.take hkal 0
        refine (mappages_page_ends hacc.wf
          (by simp only [UPAGES, KERNBASE, PGSIZE] at hnewle; omega) hp).bind fun r hr => ?_
        rcases hr with ⟨rfl, hnone⟩ | ⟨d1, hwalk, htab, -, hr⟩
        · have hf0 : f ∈ m0.free := hgrown.free ((kalloc_some hkal).1 ▸ mem_cons_self)
          have hgrown1 := hgrown.taken hpool hacc hvu hkal 0
          refine (deallocuvm_freed hpool hnew.le hacc1).bind fun r hr => ?_
          obtain ⟨_, m2, d2⟩ := r
          have hman : l.Managed f := hpool.managed f <| by
            rw [← hr.1.total]
            exact mem_add.mpr (.inr (mem_cons_self ..))
          simp only [kfree_ok hman, ok_bind]
          exact ⟨hr.1.giveBack,
            .inr ⟨rfl, (hgrown1.undo hr.2.1 hin.le hnewle hz).giveBack hf0, fun ha =>
              hacc1.walkpgdir_ne (ha.take hin) hcard hnone⟩⟩
        · rw [hr]
          obtain ⟨hacc2, hgrown2⟩ := hgrown.step hpool hacc hv0 (by omega) hp hkal hwalk htab
          simp only [addr_succ, if_true]
          exact ih _ _ (v + 1) (by omega) (by omega) (by omega) (by omega) (by omega) hacc2 hgrown2
    · rw [if_neg hin]
      obtain rfl : v = npages newsz := by omega
      exact ⟨hacc, .inl ⟨rfl, hgrown⟩⟩

theorem allocuvm_grown (hpool : Pool l T) {oldsz newsz : UInt32} (hold : oldsz.toNat ≤ KERNBASE)
    (hz : ∀ w, npages oldsz ≤ w → w < UPAGES → d.pte w = Pte.zero) (hacc : Account T R m d) :
    Ends (allocuvm l m d oldsz newsz) (fun _ => False) fun r => Account T R r.2.1 r.2.2 ∧
        ((r.1 = 0 ∧ Grown (npages oldsz) (npages oldsz) m d r.2.1 r.2.2 ∧
            (newsz.toNat < KERNBASE → ¬ Ample T R (npages newsz))) ∨
          (newsz < oldsz ∧ r = (oldsz, m, d)) ∨
          (newsz.toNat < KERNBASE ∧ oldsz ≤ newsz ∧ r.1 = newsz ∧
            Grown (npages oldsz) (npages newsz) m d r.2.1 r.2.2)) := by
  unfold allocuvm
  by_cases hbig : newsz.toNat ≥ KERNBASE
  · rw [if_pos hbig]
    exact ⟨hacc, .inl ⟨rfl, .refl .., fun hlt => absurd hlt (by omega)⟩⟩
  · have hnew : newsz.toNat < KERNBASE := by omega
    rw [if_neg hbig]
    by_cases hlt : newsz < oldsz
    · rw [if_pos hlt]
      exact ⟨hacc, .inr (.inl ⟨hlt, rfl⟩)⟩
    · rw [if_neg hlt, pgroundup_eq hold]
      have hle : oldsz ≤ newsz := UInt32.not_lt.mp hlt
      have hle' := UInt32.le_iff_toNat_le.mp hle
      have hpages : npages oldsz ≤ npages newsz := Nat.div_le_div_right (by omega)
      refine (allocLoop_grown hpool hnew hz _ m d _ (Nat.succ_pos _)
        (by simp only [PGSIZE]; omega) le_rfl (npages_le hold) (by omega) hacc (.refl ..)).imp ?_
      rintro r ⟨hacc', ⟨hr, hg⟩ | ⟨hr, hg, hno⟩⟩
      · exact ⟨hacc', .inr (.inr ⟨hnew, hle, hr, hg⟩)⟩
      · exact ⟨hacc', .inl ⟨hr, hg, fun _ => hno⟩⟩

structure Proc where
  sz : UInt32
  pgdir : Pgdir

/-- `growproc`; `n` is an `int`, and the sum is one of `uint`s. -/
def growproc (l : Layout) (m : Mem) (p : Proc) (n : Int) : Except Fault (Int × Mem × Proc) :=
  if n > 0 then do
    let (sz, m, d) ← allocuvm l m p.pgdir p.sz (p.sz + UInt32.ofInt n)
    if sz = 0 then return (-1, m, { p with pgdir := d })
    else return (0, m, ⟨sz, d⟩)
  else if n < 0 then do
    let (sz, m, d) ← deallocuvm l m p.pgdir p.sz (p.sz + UInt32.ofInt n)
    if sz = 0 then return (-1, m, { p with pgdir := d })
    else return (0, m, ⟨sz, d⟩)
  else return (0, m, p)

/-- The pages of the user part that are mapped are those below `PGROUNDUP(sz)`. -/
def Proc.MapsSize (p : Proc) : Prop :=
  ∀ w, w < UPAGES → ((p.pgdir.pte w).p = true ↔ w < npages p.sz)

/-- A process of a kernel in order: its size is below `KERNBASE`, its pages are those of its size,
and no physical page has two uses. -/
structure Proc.Orderly (l : Layout) (m : Mem) (p : Proc) : Prop where
  pos : 0 < p.sz.toNat
  lt : p.sz.toNat < KERNBASE
  maps : p.MapsSize
  pages : ∃ T R, Pool l T ∧ Account T R m p.pgdir

/-- The byte at a user address. -/
def load (m : Mem) (d : Pgdir) (a : Nat) : UInt8 := m.ram (d.pte (a / PGSIZE)).frame (a % PGSIZE)

/-- `sbrk` did what it was asked: the size is `n` larger, the pages are those of the new size, what
is below both sizes has not changed, and a new page is zero. -/
structure Resized (m : Mem) (p : Proc) (n : Int) (m' : Mem) (p' : Proc) : Prop where
  sz : (p'.sz.toNat : Int) = p.sz.toNat + n
  maps : p'.MapsSize
  kept : ∀ a, a < p.sz.toNat → a < p'.sz.toNat → load m' p'.pgdir a = load m p.pgdir a
  zeroed : ∀ w, w < UPAGES → (p.pgdir.pte w).p = false → (p'.pgdir.pte w).p = true →
    m'.ram (p'.pgdir.pte w).frame = fun _ => 0

/-- `sbrk` did nothing: the same size, the same pages with the same contents. -/
structure Untouched (m : Mem) (p : Proc) (m' : Mem) (p' : Proc) : Prop where
  sz : p'.sz = p.sz
  pte : ∀ w, w < UPAGES → p'.pgdir.pte w = p.pgdir.pte w
  ram : ∀ w, w < UPAGES → (p.pgdir.pte w).p = true →
    m'.ram (p.pgdir.pte w).frame = m.ram (p.pgdir.pte w).frame

/-- `growproc` succeeds and has resized the process, or fails and has not touched it. -/
def GrowExact (l : Layout) (m : Mem) (p : Proc) (n : Int) : Prop :=
  Ends (growproc l m p n) (fun _ => False) fun r =>
    (r.1 = 0 ∧ Resized m p n r.2.1 r.2.2) ∨ (r.1 = -1 ∧ Untouched m p r.2.1 r.2.2)

variable {p : Proc} {n : Int}

namespace Proc

theorem MapsSize.zero_above (h : p.MapsSize) (hwf : p.pgdir.Wf) (w : Nat) (h1 : npages p.sz ≤ w)
    (h2 : w < UPAGES) : p.pgdir.pte w = Pte.zero := by
  apply hwf.clear
  by_contra hp
  have := (h w h2).mp (by simpa using hp)
  omega

end Proc

theorem toNat_add_ofInt (a : UInt32) (n : Int) :
    ((a + UInt32.ofInt n).toNat : Int) = (a.toNat + n) % 4294967296 := by
  rw [UInt32.toNat_add, UInt32.ofInt, UInt32.toNat_ofNat']
  omega

theorem add_ofInt_ne_zero (a : UInt32) (h0 : 0 < a.toNat + n) (h1 : a.toNat + n < 4294967296) :
    a + UInt32.ofInt n ≠ 0 := by
  intro hzero
  have hnat := toNat_add_ofInt a n
  rw [hzero, UInt32.toNat_zero] at hnat
  omega

theorem Freed.load_eq {v k a : Nat} (h : Freed v k m d m' d') (hpool : Pool l T)
    (hacc : Account T R m' d') (hp : (d.pte (a / PGSIZE)).p = true) (hk : a / PGSIZE < UPAGES)
    (ha : a / PGSIZE < v) : load m' d' a = load m d a := by
  have hpte : d'.pte (a / PGSIZE) = d.pte (a / PGSIZE) := by
    rw [h.pte, if_neg (by omega)]
  unfold load
  rw [hpte, h.ram _ ?_]
  have := hacc.not_free hpool (Pgdir.mem_owned_page hk (hpte ▸ hp))
  rwa [hpte] at this

section Grow

variable (h : p.Orderly l m)

include h

theorem Proc.Orderly.byte {a : Nat} (ha : a < p.sz.toNat) :
    a / PGSIZE < UPAGES ∧ (p.pgdir.pte (a / PGSIZE)).p = true := by
  have hu := (div_lt_npages ha).trans_le (npages_le h.lt.le)
  exact ⟨hu, (h.maps _ hu).mpr (div_lt_npages ha)⟩

theorem growproc_zero : GrowExact l m p 0 := by
  refine .inl ⟨rfl, (add_zero _).symm, h.maps, fun _ _ _ => rfl, fun w _ hp hp' => ?_⟩
  rw [show (p.pgdir.pte w).p = false from hp] at hp'
  exact absurd hp' Bool.false_ne_true

theorem growproc_pos (hn : 0 < n) (hn' : n < 2147483648) : GrowExact l m p n := by
  obtain ⟨T, R, hpool, hacc⟩ := h.pages
  have hlt := h.lt
  have hnew := toNat_add_ofInt p.sz n
  simp only [KERNBASE] at hlt
  unfold GrowExact growproc
  rw [if_pos hn]
  refine (allocuvm_grown hpool h.lt.le (h.maps.zero_above hacc.wf) hacc).bind fun r hr => ?_
  obtain ⟨sz, m1, d1⟩ := r
  obtain ⟨hacc1, ⟨hr, hg, -⟩ | ⟨hr, -⟩ | ⟨hb, -, hr, hg⟩⟩ := hr
  · obtain rfl : sz = 0 := hr
    refine .inr ⟨rfl, rfl, fun w hw => hg.old w (by omega), fun w hw hp => ?_⟩
    exact hg.ram _ (hacc.not_free hpool (Pgdir.mem_owned_page hw hp))
  · have := UInt32.lt_iff_toNat_lt.mp hr
    omega
  · obtain rfl : sz = p.sz + UInt32.ofInt n := hr
    have hne : p.sz + UInt32.ofInt n ≠ 0 := add_ofInt_ne_zero p.sz (by omega) (by omega)
    simp only [if_neg hne]
    have hold : ∀ w, w < npages p.sz → d1.pte w = p.pgdir.pte w := fun w hw => hg.old w (.inl hw)
    have hnewp : ∀ w, npages p.sz ≤ w → w < npages (p.sz + UInt32.ofInt n) →
        (d1.pte w).p = true ∧ m1.ram (d1.pte w).frame = fun _ => 0 := by
      intro w h1 h2
      obtain ⟨f, -, hpte, hzero⟩ := hg.new w h1 h2
      rw [hpte]
      exact ⟨rfl, hzero⟩
    refine .inl ⟨rfl, by simp only; omega, fun w hw => ?_, fun a ha _ => ?_, fun w hw hp hp' => ?_⟩
    · simp only
      by_cases h1 : w < npages p.sz
      · rw [hold w h1, h.maps w hw]
        simp only [npages] at h1 ⊢
        omega
      · by_cases h2 : w < npages (p.sz + UInt32.ofInt n)
        · simp only [(hnewp w (by omega) h2).1, h2]
        · rw [hg.old w (.inr (by omega)), h.maps w hw]
          omega
    · obtain ⟨hu, hp⟩ := h.byte ha
      have hfree := hacc.not_free hpool (Pgdir.mem_owned_page hu hp)
      simp only [load]
      rw [hold _ (div_lt_npages ha), hg.ram _ hfree]
    · have h1 : npages p.sz ≤ w := by
        by_contra hc
        rw [(h.maps w hw).mpr (by omega)] at hp
        exact absurd hp (by simp)
      have h2 : w < npages (p.sz + UInt32.ofInt n) := by
        by_contra hc
        have heq := hg.old w (.inr (by omega))
        simp only at hp'
        rw [heq, hp] at hp'
        exact absurd hp' (by simp)
      exact (hnewp w h1 h2).2

theorem growproc_neg (hn : n < 0) (hn' : -(p.sz.toNat : Int) < n) : GrowExact l m p n := by
  obtain ⟨T, R, hpool, hacc⟩ := h.pages
  have hlt := h.lt
  have hnew := toNat_add_ofInt p.sz n
  simp only [KERNBASE] at hlt
  unfold GrowExact growproc
  rw [if_neg (by omega), if_pos hn]
  refine (deallocuvm_freed hpool h.lt.le hacc).bind fun r hr => ?_
  obtain ⟨sz, m1, d1⟩ := r
  obtain ⟨hacc1, hf, hr⟩ := hr
  have hsmall : ¬ p.sz + UInt32.ofInt n ≥ p.sz := by
    intro hge
    have := UInt32.le_iff_toNat_le.mp hge
    omega
  rw [if_neg hsmall] at hr
  obtain rfl : sz = p.sz + UInt32.ofInt n := hr
  have hne : p.sz + UInt32.ofInt n ≠ 0 := add_ofInt_ne_zero p.sz (by omega) (by omega)
  simp only [if_neg hne]
  have hpte : ∀ w, d1.pte w = if npages (p.sz + UInt32.ofInt n) ≤ w ∧ w < npages p.sz then Pte.zero
      else p.pgdir.pte w := hf.pte
  have hpages : npages (p.sz + UInt32.ofInt n) ≤ npages p.sz := Nat.div_le_div_right (by omega)
  refine .inl ⟨rfl, by simp only; omega, fun w hw => ?_, fun a ha ha' => ?_, fun w hw hp hp' => ?_⟩
  · simp only [hpte w]
    split
    · next hgone => simp [Pte.zero, hgone.1]
    · rw [h.maps w hw]
      omega
  · obtain ⟨hu, hp⟩ := h.byte ha
    exact hf.load_eq hpool hacc1 hp hu (div_lt_npages ha')
  · simp only [hpte w] at hp'
    split at hp'
    · simp [Pte.zero] at hp'
    · rw [hp] at hp'
      exact absurd hp' (by simp)

theorem growproc_all (hn : n = -(p.sz.toNat : Int)) : ¬ GrowExact l m p n := by
  obtain ⟨T, R, hpool, hacc⟩ := h.pages
  have hpos := h.pos
  have hnew := toNat_add_ofInt p.sz n
  have hzero : p.sz + UInt32.ofInt n = 0 := by
    rw [← UInt32.toNat_inj, UInt32.toNat_zero]
    omega
  have hu : 0 < UPAGES := by decide
  have hin : 0 < npages p.sz := lt_npages.mpr (by omega)
  intro hexact
  have hends : Ends (growproc l m p n) (fun _ => False) fun r =>
      r.1 = -1 ∧ r.2.2.pgdir.pte 0 = Pte.zero := by
    unfold growproc
    rw [if_neg (by omega), if_pos (by omega), hzero]
    refine (deallocuvm_freed hpool h.lt.le hacc).bind fun r hr => ?_
    obtain ⟨sz, m1, d1⟩ := r
    obtain ⟨-, hf, hr⟩ := hr
    have hsmall : ¬ (0 : UInt32) ≥ p.sz := by
      intro hge
      have := UInt32.le_iff_toNat_le.mp hge
      rw [UInt32.toNat_zero] at this
      omega
    rw [if_neg hsmall] at hr
    obtain rfl : sz = 0 := hr
    refine ⟨rfl, ?_⟩
    have hpte := hf.pte 0
    rw [if_pos ⟨Nat.le_refl 0, hin⟩] at hpte
    exact hpte
  obtain ⟨r, -, ⟨hminus, hgone⟩, hr⟩ := (hends.and hexact).mono (fun _ h => h.1)
    (fun _ => id) |>.total
  rcases hr with ⟨h0, -⟩ | ⟨-, hsame⟩
  · omega
  · have hp := (h.maps 0 hu).mpr hin
    rw [← hsame.pte 0 hu, hgone] at hp
    exact absurd hp (by simp [Pte.zero])

theorem growproc_wrap (hn : n < -(p.sz.toNat : Int)) (hn' : -2147483648 ≤ n) :
    ¬ GrowExact l m p n := by
  have hlt := h.lt
  have hpos := h.pos
  simp only [KERNBASE] at hlt
  have hnew := toNat_add_ofInt p.sz n
  have hge : p.sz + UInt32.ofInt n ≥ p.sz := by
    rw [ge_iff_le, UInt32.le_iff_toNat_le]
    omega
  have hne : p.sz ≠ 0 := by
    intro h0
    rw [h0, UInt32.toNat_zero] at hpos
    omega
  have hres : growproc l m p n = .ok (0, m, p) := by
    unfold growproc deallocuvm
    rw [if_neg (by omega), if_pos (by omega), if_pos hge, ok_bind]
    simp only [if_neg hne]
    rfl
  intro hexact
  unfold GrowExact at hexact
  rw [hres] at hexact
  rcases hexact with ⟨-, hsz⟩ | ⟨h0, -⟩
  · have := hsz.sz
    simp only at this
    omega
  · simp at h0

end Grow

/-- `growproc` is exact for those `n` that leave a positive size, and for no others. -/
theorem growproc_exact (h : p.Orderly l m) (hlo : -2147483648 ≤ n) (hhi : n < 2147483648) :
    GrowExact l m p n ↔ -(p.sz.toNat : Int) < n := by
  have hpos := h.pos
  constructor
  · intro hexact
    by_contra hn
    rcases (show n < -(p.sz.toNat : Int) ∨ n = -(p.sz.toNat : Int) by omega) with hlt | heq
    · exact growproc_wrap h hlt hlo hexact
    · exact growproc_all h heq hexact
  · intro hn
    rcases lt_trichotomy n 0 with hneg | rfl | hgt
    · exact growproc_neg h hneg hn
    · exact growproc_zero h
    · exact growproc_pos h hgt hhi

/-! A process with one page, as `userinit` makes it, on a machine with two pages left. -/

def onePage : Proc :=
  ⟨4096, ((Pgdir.empty 1024).addTable 0 1025).set 0 (Pte.make 1026 true true)⟩

def twoLeft : Mem := ⟨fun _ _ => 0, [1027, 1028]⟩

theorem onePage_owned : onePage.pgdir.owned = {1026, 1025, 1024} := by
  rw [onePage, Pgdir.owned_set_store (by decide) rfl (Pte.held_make ..),
    Pgdir.owned_addTable (Pgdir.wf_empty 1024) (by decide) rfl, Pgdir.owned_empty]
  rfl

theorem onePage_account (m : Mem) : Account (↑m.free + {1026, 1025, 1024}) 0 m onePage.pgdir := by
  have hwf := (Pgdir.wf_empty 1024).addTable (i := 0) (f := 1025) rfl
  exact ⟨hwf.set_present (by simp [Pgdir.addTable]) rfl, by rw [onePage_owned, add_zero]⟩

theorem onePage_orderly (hpool : Pool smallKernel (↑m.free + {1026, 1025, 1024})) :
    onePage.Orderly smallKernel m := by
  refine ⟨by decide, by decide, fun w _ => ?_, _, 0, hpool, onePage_account m⟩
  by_cases hw : w = 0
  · subst hw
    decide
  · have hpte : onePage.pgdir.pte w = Pte.zero := by
      rw [onePage, Pgdir.set_pte_other hw, Pgdir.addTable_pte (Pgdir.wf_empty 1024) rfl]
      rfl
    have hn : npages onePage.sz = 1 := by decide
    rw [hpte, hn]
    simp only [Pte.zero]
    constructor
    · intro h0
      exact absurd h0 (by simp)
    · omega

theorem twoLeft_orderly : onePage.Orderly smallKernel twoLeft :=
  onePage_orderly ⟨by decide, by decide⟩

theorem growproc_exact_page : onePage.Orderly smallKernel twoLeft ∧
    (GrowExact smallKernel twoLeft onePage 4096 ↔ -(onePage.sz.toNat : Int) < 4096) :=
  ⟨twoLeft_orderly, growproc_exact twoLeft_orderly (by decide) (by decide)⟩

theorem sbrk_all_unmaps : onePage.Orderly smallKernel twoLeft ∧
    ¬ GrowExact smallKernel twoLeft onePage (-4096) :=
  ⟨twoLeft_orderly, growproc_all twoLeft_orderly (by decide)⟩

/-! The same process where memory does not run out, with something in its page. -/

def plenty : Mem := ⟨fun f k => if f = 1026 then .ofNat k else 0, List.range' 1027 2000⟩

theorem plenty_free : (↑plenty.free + {1026, 1025, 1024} : Multiset Nat) = ↑(range' 1024 2003) := by
  have hlist : range' 1024 2003 = [1024, 1025, 1026] ++ range' 1027 2000 := rfl
  have hpages : ({1026, 1025, 1024} : Multiset Nat) = ↑[1024, 1025, 1026] := by decide
  rw [hlist, ← coe_add, add_comm, hpages]
  rfl

theorem plenty_pool : Pool smallKernel (↑plenty.free + {1026, 1025, 1024}) :=
  plenty_free ▸ range_pool (by decide) (by decide)

theorem plenty_card : (↑plenty.free + {1026, 1025, 1024} : Multiset Nat).card = 2003 := by
  rw [plenty_free, coe_card, length_range']

end Xv6.Vm
