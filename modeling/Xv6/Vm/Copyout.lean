import Xv6.Vm.Space

/-!
# Xv6.Vm.Copyout

`uva2ka` and `copyout`: the kernel writes to a user address of a page directory.

`uva2ka` follows the pointer `walkpgdir` returns without a test, and that pointer is null where the
directory has no table. So `copyout` is right where every page it comes to has a table, up to the
first page that is not the user's (`copyout_exact`), and follows a null pointer otherwise. The hole
of the kernel's own map between physical memory and the devices is one such place.
-/

namespace Xv6.Vm

open List

variable {l : Layout} {buf : List UInt8} {m : Mem} {k : Nat}

/-- `uva2ka`; `none` is the null pointer it returns. -/
def uva2ka (m : Mem) (d : Pgdir) (uva : UInt32) : Except Fault (Option Nat) :=
  match walkpgdir m d uva false with
  | none => .error .nullPte
  | some _ =>
    if (d.pte (page uva)).p = false then .ok none
    else if (d.pte (page uva)).u = false then .ok none
    else .ok (some (d.pte (page uva)).frame)

/-- The loop of `copyout`, with the translation `ka` of a user address. -/
def copyoutLoop (ka : UInt32 → Except Fault (Option Nat)) :
    Nat → Mem → UInt32 → List UInt8 → Except Fault (Bool × Mem)
  | 0, _, _, _ => .error .hang
  | k + 1, m, va, buf =>
    if buf.length > 0 then do
      let va0 := pgrounddown va
      let pa0 ← ka va0
      match pa0 with
      | none => return (false, m)
      | some f =>
        let n := min (PGSIZE - (va - va0).toNat) buf.length
        copyoutLoop ka k (m.memmove f (va - va0).toNat n fun i => buf.getD i 0) (va0 + 4096)
          (buf.drop n)
    else return (true, m)

/-- `copyout(pgdir, va, p, len)`, where `buf` are the `len` bytes at `p`. -/
def copyout (m : Mem) (d : Pgdir) (va : UInt32) (buf : List UInt8) : Except Fault (Bool × Mem) :=
  copyoutLoop (uva2ka m d) (buf.length / PGSIZE + 3) m va buf

/-- `copyout` as it would be if `uva2ka` returned `0` for a null entry. -/
def copyoutTested (m : Mem) (d : Pgdir) (va : UInt32) (buf : List UInt8) :
    Except Fault (Bool × Mem) :=
  copyoutLoop (fun uva => if d.tab (PDX uva) = none then .ok none else uva2ka m d uva)
    (buf.length / PGSIZE + 3) m va buf

/-- A page of the user: present and open to the user. -/
def UserPage (d : Pgdir) (v : Nat) : Prop :=
  d.tab (v / NPTENTRIES) ≠ none ∧ (d.pte v).p = true ∧ (d.pte v).u = true

/-- The address of byte `k` of a range that starts at `va`. -/
def shift (va : UInt32) (k : Nat) : UInt32 := va + UInt32.ofNat k

/-- The physical page and the offset in it of a user address. -/
def place (d : Pgdir) (va : UInt32) : Nat × Nat := ((d.pte (page va)).frame, va.toNat % PGSIZE)

/-- Every page of the range is the user's. -/
def UserRange (d : Pgdir) (va : UInt32) (len : Nat) : Prop :=
  ∀ k, k < len → UserPage d (page (shift va k))

/-- `copyout` comes to an end, writes only to pages of the user, and returns `0` just when the whole
range is the user's; then the bytes of the range are those of the buffer and no other byte has
changed. -/
def CopyExact (m : Mem) (d : Pgdir) (va : UInt32) (buf : List UInt8) : Prop :=
  Ends (copyout m d va buf) (fun _ => False) fun r =>
    (∀ f, r.2.ram f ≠ m.ram f → ∃ v, UserPage d v ∧ (d.pte v).frame = f) ∧
      (r.1 = true ↔ UserRange d va buf.length) ∧
      (r.1 = true → (∀ k (h : k < buf.length),
          r.2.ram (place d (shift va k)).1 (place d (shift va k)).2 = buf[k]) ∧
        ∀ f o, (∀ k, k < buf.length → place d (shift va k) ≠ (f, o)) → r.2.ram f o = m.ram f o)

/-- There is a table for every page of the range, up to the first page that is not the user's. -/
def Tabled (d : Pgdir) (va : UInt32) (len : Nat) : Prop :=
  ∀ k, k < len → UserRange d va k → d.tab (PDX (shift va k)) ≠ none

variable {d : Pgdir} {va : UInt32}

theorem toNat_shift (va : UInt32) (k : Nat) : (shift va k).toNat = (va.toNat + k) % 4294967296 := by
  rw [shift, UInt32.toNat_add, UInt32.toNat_ofNat']
  omega

theorem shift_zero (va : UInt32) : shift va 0 = va := UInt32.add_zero va

theorem sub_pgrounddown (va : UInt32) : (va - pgrounddown va).toNat = va.toNat % 4096 := by
  have hlt := toNat_lt va
  rw [UInt32.toNat_sub, pgrounddown_eq, toNat_addr (page_lt va)]
  simp only [page, PGSIZE]
  omega

theorem shift_first (va : UInt32) (h : va.toNat % 4096 + k < 4096) :
    page (shift va k) = page va ∧ (shift va k).toNat % 4096 = va.toNat % 4096 + k := by
  have hlt := toNat_lt va
  simp only [page, PGSIZE, toNat_shift]
  omega

theorem shift_rest {n : Nat} (h : va.toNat % 4096 + n = 4096) :
    shift va (n + k) = shift (pgrounddown va + 4096) k := by
  have hlt := toNat_lt va
  rw [← UInt32.toNat_inj, toNat_shift, toNat_shift, UInt32.toNat_add, pgrounddown_eq,
    toNat_addr (page_lt va)]
  simp only [page, PGSIZE, UInt32.reduceToNat]
  omega

theorem shift_inj {j : Nat} (hj : j < 4294967296) (hk : k < 4294967296)
    (h : shift va j = shift va k) : j = k := by
  have hlt := toNat_lt va
  rw [← UInt32.toNat_inj, toNat_shift, toNat_shift] at h
  omega

/-- No physical page is open to the user under two addresses. -/
def Distinct (d : Pgdir) : Prop :=
  ∀ v w, UserPage d v → UserPage d w → (d.pte v).frame = (d.pte w).frame → v = w

theorem place_inj (hd : Distinct d) {a b : UInt32} (ha : UserPage d (page a))
    (hb : UserPage d (page b)) (h : place d a = place d b) : a = b := by
  obtain ⟨hf, ho⟩ := Prod.mk.inj h
  have hpage := hd _ _ ha hb hf
  rw [← UInt32.toNat_inj]
  simp only [page, PGSIZE] at hpage ho
  omega

theorem uva2ka_eq (m : Mem) (d : Pgdir) (va : UInt32) : uva2ka m d (pgrounddown va) =
      if d.tab (page va / NPTENTRIES) = none then .error .nullPte
      else if (d.pte (page va)).p = true ∧ (d.pte (page va)).u = true then
        .ok (some (d.pte (page va)).frame)
      else .ok none := by
  have hpage : page (addr (page va)) = page va := page_addr (page_lt va)
  unfold uva2ka
  rw [pgrounddown_eq, walkpgdir_false, PDX_eq, hpage]
  by_cases htab : d.tab (page va / NPTENTRIES) = none
  · rw [if_pos htab, if_pos htab]
  · rw [if_neg htab, if_neg htab]
    cases hp : (d.pte (page va)).p <;> cases hu : (d.pte (page va)).u <;> simp

/-- What a run of the loop has done to memory. -/
structure Copied (d : Pgdir) (va : UInt32) (buf : List UInt8) (m : Mem) (r : Bool × Mem) :
    Prop where
  free : r.2.free = m.free
  iff : r.1 = true ↔ UserRange d va buf.length
  wrote : ∀ f o, r.2.ram f o ≠ m.ram f o →
    ∃ k, k < buf.length ∧ UserPage d (page (shift va k)) ∧ place d (shift va k) = (f, o)
  bytes : r.1 = true → ∀ k (h : k < buf.length),
    r.2.ram (place d (shift va k)).1 (place d (shift va k)).2 = buf[k]

theorem Copied.done (m : Mem) : Copied d va [] m (true, m) where
  free := rfl
  iff := ⟨fun _ k hk => absurd hk (Nat.not_lt_zero k), fun _ => rfl⟩
  wrote _ _ h := absurd rfl h
  bytes _ k hk := absurd hk (Nat.not_lt_zero k)

theorem Tabled.stop {len : Nat} (htab : d.tab (page va / NPTENTRIES) ≠ none)
    (hu : ¬ UserPage d (page va)) : Tabled d va len := by
  intro k _ hk
  cases k with
  | zero => rwa [shift_zero, PDX_eq]
  | succ k => exact absurd (shift_zero va ▸ hk 0 (Nat.succ_pos k)) hu

theorem Copied.stop (m : Mem) (hbuf : 0 < buf.length)
    (hu : ¬ UserPage d (page va)) : Copied d va buf m (false, m) where
  free := rfl
  iff := ⟨nofun, fun h => absurd (shift_zero va ▸ h 0 hbuf) hu⟩
  wrote _ _ h := absurd rfl h
  bytes := nofun

section Turn

variable {n len : Nat} (hn : n ≤ len) (hfirst : va.toNat % 4096 + n ≤ 4096)
  (hrest : n = len ∨ va.toNat % 4096 + n = 4096)

include hn hfirst hrest

theorem shift_cases (hk : k < len) : (k < n ∧ page (shift va k) = page va) ∨
      ∃ j, j < len - n ∧ k = n + j ∧ shift va k = shift (pgrounddown va + 4096) j := by
  by_cases hkn : k < n
  · exact .inl ⟨hkn, (shift_first va (by omega)).1⟩
  · exact .inr ⟨k - n, by omega, by omega, by
      rw [← shift_rest (n := n) (by omega)]
      congr 1
      omega⟩

theorem userRange_split (hu : UserPage d (page va)) :
    UserRange d va len ↔ UserRange d (pgrounddown va + 4096) (len - n) := by
  constructor
  · intro h j hj
    rw [← shift_rest (n := n) (by omega)]
    exact h (n + j) (by omega)
  · intro h k hk
    rcases shift_cases hn hfirst hrest hk with ⟨-, hpage⟩ | ⟨j, hj, -, hs⟩
    · rwa [hpage]
    · rw [hs]
      exact h j hj

theorem tabled_split (hu : UserPage d (page va)) :
    Tabled d va len ↔ Tabled d (pgrounddown va + 4096) (len - n) := by
  constructor
  · intro h j hj hj'
    rw [← shift_rest (n := n) (by omega)]
    refine h (n + j) (by omega) ((userRange_split (Nat.le_add_right n j) hfirst (by omega) hu).mpr
      ?_)
    rwa [Nat.add_sub_cancel_left]
  · intro h k hk hk'
    rcases shift_cases hn hfirst hrest hk with ⟨-, hpage⟩ | ⟨j, hj, rfl, hs⟩
    · rw [PDX_eq, hpage]
      exact hu.1
    · rw [hs]
      refine h j hj ?_
      have := (userRange_split (Nat.le_add_right n j) hfirst (by omega) hu).mp hk'
      rwa [Nat.add_sub_cancel_left] at this

end Turn

theorem Copied.step {n : Nat} {r : Bool × Mem} (hd : Distinct d)
    (hlen : buf.length < 4294967296) (hu : UserPage d (page va)) (hn : n ≤ buf.length)
    (hfirst : va.toNat % 4096 + n ≤ 4096) (hrest : n = buf.length ∨ va.toNat % 4096 + n = 4096)
    (h : Copied d (pgrounddown va + 4096) (buf.drop n)
      (m.memmove (d.pte (page va)).frame (va.toNat % 4096) n fun i => buf.getD i 0) r) :
    Copied d va buf m r where
  free := by rw [h.free, Mem.memmove_free]
  iff := by
    rw [userRange_split hn hfirst hrest hu, ← length_drop]
    exact h.iff
  wrote f o hne := by
    by_cases hrun : r.2.ram f o = (m.memmove (d.pte (page va)).frame (va.toNat % 4096) n
        fun i => buf.getD i 0).ram f o
    · rw [hrun] at hne
      by_cases hf : f = (d.pte (page va)).frame
      · subst hf
        rw [Mem.memmove_ram_same] at hne
        have hin : va.toNat % 4096 ≤ o ∧ o < va.toNat % 4096 + n := by
          by_contra hout
          exact hne (Bytes.patch_out (by omega))
        obtain ⟨hp, ho⟩ := shift_first va (k := o - va.toNat % 4096) (by omega)
        refine ⟨o - va.toNat % 4096, by omega, by rwa [hp], ?_⟩
        rw [place, hp, ho]
        congr 1
        omega
      · rw [Mem.memmove_ram_other _ _ _ _ hf] at hne
        exact absurd rfl hne
    · obtain ⟨j, hj, huj, hplace⟩ := h.wrote f o hrun
      rw [length_drop] at hj
      rw [← shift_rest (n := n) (by omega)] at huj hplace
      exact ⟨n + j, by omega, huj, hplace⟩
  bytes hok k hk := by
    have hrange := (userRange_split hn hfirst hrest hu).mpr (length_drop ▸ h.iff.mp hok)
    rcases shift_cases hn hfirst hrest hk with ⟨hkn, hpage⟩ | ⟨j, hj, rfl, hs⟩
    · -- A byte of the first page: the rest of the run does not come back to it.
      obtain ⟨-, ho⟩ := shift_first va (k := k) (by omega)
      have hkeep : r.2.ram (place d (shift va k)).1 (place d (shift va k)).2 =
          (m.memmove (d.pte (page va)).frame (va.toNat % 4096) n fun i => buf.getD i 0).ram
            (place d (shift va k)).1 (place d (shift va k)).2 := by
        by_contra hne
        obtain ⟨j, hj, huj, hplace⟩ := h.wrote _ _ hne
        rw [length_drop] at hj
        rw [← shift_rest (n := n) (by omega)] at huj hplace
        have := shift_inj (by omega) (by omega) (place_inj hd huj (hrange k hk) hplace)
        omega
      rw [hkeep, place, hpage, Mem.memmove_ram_same]
      simp only [PGSIZE, ho]
      rw [Bytes.patch_in (by omega) (by omega), Nat.add_sub_cancel_left]
      simp [hk]
    · have hb := h.bytes hok j (by rw [length_drop]; omega)
      rw [hs, hb, getElem_drop]

theorem copyoutLoop_copied (hd : Distinct d) {ka : UInt32 → Except Fault (Option Nat)}
    {x : Except Fault (Option Nat)} (hx : x = .ok none ∨ x = .error .nullPte)
    (hka : ∀ va, ka (pgrounddown va) = if d.tab (page va / NPTENTRIES) = none then x
      else if (d.pte (page va)).p = true ∧ (d.pte (page va)).u = true then
        .ok (some (d.pte (page va)).frame)
      else .ok none) :
    ∀ (K : Nat) (m : Mem) (va : UInt32) (buf : List UInt8), buf.length < 4294967296 →
      (va.toNat % 4096 + buf.length + 4095) / 4096 + 1 ≤ K →
      Ends (copyoutLoop ka K m va buf) (fun _ => x = .error .nullPte ∧ ¬ Tabled d va buf.length)
        fun r => Copied d va buf m r ∧ (x = .error .nullPte → Tabled d va buf.length) := by
  intro K
  induction K with
  | zero => intro m va buf _ hK; omega
  | succ K ih =>
    intro m va buf hlen hK
    rw [copyoutLoop]
    by_cases hbuf : buf.length > 0
    · rw [if_pos hbuf]
      simp only [hka, sub_pgrounddown]
      by_cases htab : d.tab (page va / NPTENTRIES) = none
      · rw [if_pos htab]
        rcases hx with rfl | rfl
        · exact ⟨Copied.stop m hbuf fun h => h.1 htab, nofun⟩
        · refine ⟨rfl, fun h => h 0 hbuf (fun k hk => absurd hk (Nat.not_lt_zero k)) ?_⟩
          rw [shift_zero, PDX_eq]
          exact htab
      · rw [if_neg htab]
        by_cases hu : (d.pte (page va)).p = true ∧ (d.pte (page va)).u = true
        · rw [if_pos hu, ok_bind]
          have huser : UserPage d (page va) := ⟨htab, hu⟩
          have hoff : va.toNat % 4096 < 4096 := Nat.mod_lt _ (by decide)
          have hnext : (pgrounddown va + 4096).toNat % 4096 = 0 := by
            rw [UInt32.toNat_add, pgrounddown_eq, toNat_addr (page_lt va)]
            simp only [UInt32.reduceToNat]
            omega
          simp only [PGSIZE]
          obtain ⟨n, hn⟩ : ∃ n, n = min (4096 - va.toNat % 4096) buf.length := ⟨_, rfl⟩
          rw [← hn, tabled_split (n := n) (by omega) (by omega) (by omega) huser, ← length_drop]
          refine (ih _ _ (buf.drop n) (by rw [length_drop]; omega) ?_).imp fun r hr =>
            ⟨Copied.step hd hlen huser (by omega) (by omega) (by omega) hr.1, hr.2⟩
          rw [hnext, length_drop]
          omega
        · rw [if_neg hu, ok_bind]
          have hno : ¬ UserPage d (page va) := fun h => hu h.2
          exact ⟨Copied.stop m hbuf hno, fun _ => .stop htab hno⟩
    · rw [if_neg hbuf]
      obtain rfl : buf = [] := eq_nil_of_length_eq_zero (by omega)
      exact ⟨Copied.done m, fun _ k hk => absurd hk (Nat.not_lt_zero k)⟩

theorem copyout_copied (hd : Distinct d) (m : Mem) (va : UInt32) (hlen : buf.length < 4294967296) :
    Ends (copyout m d va buf) (fun _ => ¬ Tabled d va buf.length) fun r =>
      Copied d va buf m r ∧ Tabled d va buf.length :=
  (copyoutLoop_copied hd (.inr rfl) (uva2ka_eq m d) _ m va buf hlen
    (by simp only [PGSIZE]; omega)).mono (fun _ h => h.2) fun _ h => ⟨h.1, h.2 rfl⟩

theorem copyoutTested_copied (hd : Distinct d) (m : Mem) (va : UInt32)
    (hlen : buf.length < 4294967296) :
    Ends (copyoutTested m d va buf) (fun _ => False) (Copied d va buf m) := by
  refine (copyoutLoop_copied hd (.inl rfl) (fun va => ?_) _ m va buf hlen
    (by simp only [PGSIZE]; omega)).mono (fun _ h => nomatch h.1) fun _ h => h.1
  have hpdx : PDX (pgrounddown va) = page va / NPTENTRIES := by
    rw [pgrounddown_eq, PDX_eq, page_addr (page_lt va)]
  rw [uva2ka_eq, hpdx]
  by_cases htab : d.tab (page va / NPTENTRIES) = none
  · rw [if_pos htab, if_pos htab]
  · rw [if_neg htab, if_neg htab, if_neg htab]

/-- A directory built by `setupkvm` with user mappings added: above `KERNBASE` it is as `setupkvm`
left it, and no physical page is mapped twice below. -/
structure KernelBuilt (l : Layout) (d : Pgdir) : Prop where
  kernel : ∃ (m m' : Mem) (k : Pgdir), Pool l ↑m.free ∧ setupkvm l m = .ok (some k, m') ∧
    (∀ v, UPAGES ≤ v → d.pte v = k.pte v) ∧ ∀ i, UPAGES / NPTENTRIES ≤ i → d.tab i = k.tab i
  once : ∀ v w, v < UPAGES → w < UPAGES → (d.pte v).p = true → (d.pte w).p = true →
    (d.pte v).frame = (d.pte w).frame → v = w

theorem setupkvm_kernelOnly {m' : Mem} {k : Pgdir} (hpool : Pool l ↑m.free)
    (h : setupkvm l m = .ok (some k, m')) : ∃ lo, KernelOnly lo k :=
  ((setupkvm_newSpace hpool (add_zero _)).of_ok h).1.2.2

theorem KernelBuilt.lt (h : KernelBuilt l d) {v : Nat} (hv : UserPage d v) : v < UPAGES := by
  obtain ⟨m, m', k, hpool, hset, hpte, -⟩ := h.kernel
  obtain ⟨lo, hk⟩ := setupkvm_kernelOnly hpool hset
  by_contra hge
  have hu := hv.2.2
  rw [hpte v (by omega), hk.noU v] at hu
  exact absurd hu Bool.false_ne_true

theorem KernelBuilt.distinct (h : KernelBuilt l d) : Distinct d :=
  fun v w hv hw => h.once v w (h.lt hv) (h.lt hw) hv.2.1 hw.2.1

/-- `copyout` is exact where it finds a table for each page it comes to, and only there. -/
theorem copyout_exact {l : Layout} (h : KernelBuilt l d) (m : Mem) (va : UInt32)
    {buf : List UInt8} (hlen : buf.length < 4294967296) :
    CopyExact m d va buf ↔ Tabled d va buf.length := by
  have hrun := copyout_copied h.distinct m va hlen
  constructor
  · intro hexact
    obtain ⟨r, hr, -⟩ := hexact.total
    exact (hrun.of_ok hr).2
  · intro htab
    refine hrun.mono (fun _ hno => hno htab) ?_
    rintro r ⟨hr, -⟩
    refine ⟨fun f hf => ?_, hr.iff, fun hok => ?_⟩
    · obtain ⟨o, ho⟩ := Function.ne_iff.mp hf
      obtain ⟨k, -, hu, hplace⟩ := hr.wrote f o ho
      exact ⟨_, hu, congrArg Prod.fst hplace⟩
    · refine ⟨hr.bytes hok, fun f o hout => ?_⟩
      by_contra hne
      obtain ⟨k, hk, -, hplace⟩ := hr.wrote f o hne
      exact hout k hk hplace

theorem setupkvm_some (hpool : Pool l ↑m.free)
    (hroom : NPDENTRIES < m.free.length) : ∃ d m', setupkvm l m = .ok (some d, m') ∧
      KernelBuilt l d ∧ ∃ lo, KernelOnly lo d := by
  obtain ⟨⟨r, m'⟩, hr, -, hsome⟩ := (setupkvm_newSpace hpool (add_zero _)).total
  have hample : Ample ↑m.free 0 0 := by simpa [Ample] using hroom
  cases r with
  | none => exact absurd rfl (hsome hample)
  | some d =>
    obtain ⟨lo, hk⟩ := setupkvm_kernelOnly hpool hr
    refine ⟨d, m', hr, ⟨⟨m, m', d, hpool, hr, fun _ _ => rfl, fun _ _ => rfl⟩, ?_⟩, lo, hk⟩
    intro v w hv _ hp
    rw [hk.user v hv] at hp
    exact absurd hp (by simp [Pte.zero])

/-! A machine with enough memory for every table of a directory. -/

def ampleMem : Mem := ⟨fun _ _ => 0, range' 1024 1025⟩

theorem ampleMem_pool : Pool smallKernel ↑ampleMem.free := range_pool (by decide) (by decide)

theorem ampleMem_length : NPDENTRIES < ampleMem.free.length := by
  rw [ampleMem, length_range']
  decide

/-- The first page is the user's. -/
def withPage (d : Pgdir) : Pgdir := (d.addTable 0 500).set 0 (Pte.make 501 true true)

theorem withPage_pte {v : Nat} (hv : v ≠ 0) : (withPage d).pte v =
    if v / NPTENTRIES = 0 then Pte.zero else d.pte v := Function.update_of_ne hv ..

theorem KernelBuilt.withPage (h : KernelBuilt l d) (hd : ∀ v < UPAGES, d.pte v = Pte.zero) :
    KernelBuilt l (withPage d) := by
  have huser : ∀ v < UPAGES, ((Vm.withPage d).pte v).p = true → v = 0 := fun v hv hp => by
    by_contra h0
    rw [withPage_pte h0, hd v hv, ite_self] at hp
    cases hp
  obtain ⟨m, m', k, hpool, hrun, hpte, htab⟩ := h.kernel
  refine ⟨⟨m, m', k, hpool, hrun, fun v hv => ?_, fun i hi => ?_⟩, fun v w hv hw hpv hpw _ => ?_⟩
  · have hge : 524288 ≤ v := hv
    rw [withPage_pte (by omega), if_neg (by simp only [NPTENTRIES]; omega), hpte v hv]
  · have hge : 512 ≤ i := hi
    exact (Function.update_of_ne (by omega) ..).trans (htab i hi)
  · rw [huser v hv hpv, huser w hw hpw]

/-- Three bytes go to the first page. -/
theorem copyout_exact_page : ∃ d m, KernelBuilt smallKernel d ∧ Tabled d 8 3 ∧ UserRange d 8 3 ∧
    CopyExact m d 8 [104, 105, 0] := by
  obtain ⟨d, m', -, hbuilt, lo, hk⟩ := setupkvm_some ampleMem_pool ampleMem_length
  have hpage := hbuilt.withPage hk.user
  have hzero : ∀ k < 3, page (shift 8 k) = 0 ∧ PDX (shift 8 k) = 0 := by decide
  have htabled : Tabled (withPage d) 8 3 := fun k hk _ => by
    rw [(hzero k hk).2]
    exact Option.some_ne_none 500
  refine ⟨withPage d, m', hpage, htabled, fun k hk => ?_, ?_⟩
  · rw [(hzero k hk).1]
    exact ⟨Option.some_ne_none 500, rfl, rfl⟩
  · exact (copyout_exact hpage m' 8 (by decide)).mpr htabled

/-- An address between physical memory and the devices has no table. -/
theorem copyout_hole : ∃ d m', setupkvm smallKernel ampleMem = .ok (some d, m') ∧
    KernelBuilt smallKernel d ∧ ¬ CopyExact m' d 0xFD000000 [104, 105, 0] := by
  obtain ⟨d, m', hr, hbuilt, lo, hk⟩ := setupkvm_some ampleMem_pool ampleMem_length
  refine ⟨d, m', hr, hbuilt, fun hexact => ?_⟩
  obtain ⟨r, hrun, -⟩ := hexact.total
  have htabled := ((copyout_copied hbuilt.distinct m' 0xFD000000 (by decide)).of_ok hrun).2
  refine htabled 0 (by decide) (fun k hk => absurd hk (Nat.not_lt_zero k)) ?_
  exact hk.hole _ (by decide)

end Xv6.Vm
