import Xv6.Vm.Grow

/-!
# Xv6.Vm.Load

`loaduvm`: bytes of a file into the pages of an address space.

A regular file is the list of its bytes. `readi` is what the function of that name in `fs.c`
delivers of such a file, as `Xv6.Fs.Content` proves of the code. `Loaded` says which user addresses
hold bytes of the file after a run of the loop; the rest of the address space holds what it held.
-/

namespace Xv6.Vm

/-- `readi` of a regular file with the bytes `c`; `none` is `-1`. -/
def readi (c : List UInt8) (off n : UInt32) : Option (List UInt8) :=
  if off.toNat > c.length ∨ off + n < off then none else some ((c.drop off.toNat).take n.toNat)

def loadLoop (c : List UInt8) (d : Pgdir) (addr offset sz : UInt32) :
    Nat → Mem → UInt32 → Except Fault (Bool × Mem)
  | 0, _, _ => .error .hang
  | k + 1, m, i =>
    if i < sz then
      match walkpgdir m d (addr + i) false with
      | none => .error .loadExist
      | some _ =>
        let n := if sz - i < 4096 then sz - i else 4096
        match readi c (offset + i) n with
        | none => .ok (false, m)
        | some b =>
          let m := m.memmove (d.pte (page (addr + i))).frame 0 b.length fun k => b.getD k 0
          if b.length = n.toNat then loadLoop c d addr offset sz k m (i + 4096) else .ok (false, m)
    else .ok (true, m)

def loaduvm (m : Mem) (d : Pgdir) (addr : UInt32) (c : List UInt8) (offset sz : UInt32) :
    Except Fault (Bool × Mem) :=
  if addr % 4096 ≠ 0 then .error .loadAlign
  else loadLoop c d addr offset sz (sz.toNat / PGSIZE + 2) m 0

theorem readi_full {c b : List UInt8} {off n : UInt32} (h : readi c off n = some b)
    (hlen : b.length = n.toNat) : off.toNat + n.toNat ≤ c.length ∧
      ∀ k, k < n.toNat → b.getD k 0 = c.getD (off.toNat + k) 0 := by
  unfold readi at h
  split at h
  · simp at h
  · next hin =>
    rw [not_or] at hin
    simp only [Option.some.injEq] at h
    subst h
    rw [List.length_take, List.length_drop] at hlen
    refine ⟨by omega, fun k hk => ?_⟩
    simp only [List.getD_eq_getElem?_getD, List.getElem?_take, hk, if_true, List.getElem?_drop]

theorem readi_some {c : List UInt8} {off n : UInt32} (h : off.toNat + n.toNat ≤ c.length)
    (hc : c.length < 4294967296) : ∃ b, readi c off n = some b ∧ b.length = n.toNat := by
  have hin : ¬ (off.toNat > c.length ∨ off + n < off) := by
    rw [UInt32.lt_iff_toNat_lt, UInt32.toNat_add]
    omega
  refine ⟨(c.drop off.toNat).take n.toNat, if_neg hin, ?_⟩
  rw [List.length_take, List.length_drop]
  omega

variable {T R : Multiset Nat} {l : Layout} {c : List UInt8} {d : Pgdir} {m m' m'' : Mem}

/-- A user address with a page behind it. -/
def Backed (d : Pgdir) (a : Nat) : Prop := a / PGSIZE < UPAGES ∧ (d.pte (a / PGSIZE)).p = true

/-- The addresses from `lo` to `hi` hold the bytes of `c` that address `A` would have at offset
`O`. -/
structure Loaded (d : Pgdir) (c : List UInt8) (A O lo hi : Nat) (m m' : Mem) : Prop where
  bytes : ∀ a, Backed d a → load m' d a =
    if lo ≤ a ∧ a < hi then c.getD (O + (a - A)) 0 else load m d a

/-- What `loaduvm` may write: the pages of the segment. -/
structure Within (d : Pgdir) (lo hi : Nat) (m m' : Mem) : Prop where
  free : m'.free = m.free
  ram : ∀ f, (∀ a, lo ≤ a → a < hi → (d.pte (a / PGSIZE)).frame ≠ f) → m'.ram f = m.ram f

theorem Within.refl (d : Pgdir) (lo hi : Nat) (m : Mem) : Within d lo hi m m :=
  ⟨rfl, fun _ _ => rfl⟩

theorem Within.trans {lo hi : Nat} (h1 : Within d lo hi m m') (h2 : Within d lo hi m' m'') :
    Within d lo hi m m'' :=
  ⟨h2.free.trans h1.free, fun f hf => (h2.ram f hf).trans (h1.ram f hf)⟩

theorem within_page {lo hi v n : Nat} {src : Nat → UInt8} (h1 : lo ≤ 4096 * v)
    (h2 : 4096 * v < hi) : Within d lo hi m (m.memmove (d.pte v).frame 0 n src) where
  free := Mem.memmove_free ..
  ram f hf := by
    refine Mem.memmove_ram_other _ _ _ _ fun e => hf (4096 * v) h1 h2 ?_
    rw [show 4096 * v / PGSIZE = v from Nat.mul_div_cancel_left v (by decide), e]

theorem loaded_page (hpool : Pool l T) (hacc : Account T R m d) {A O v n : Nat} {b : List UInt8}
    (hv : Backed d (4096 * v)) (hn : n ≤ 4096) (hA : A ≤ 4096 * v)
    (hb : ∀ k, k < n → b.getD k 0 = c.getD (O + (4096 * v - A) + k) 0) :
    Loaded d c A O (4096 * v) (4096 * v + n) m
      (m.memmove (d.pte v).frame 0 n fun k => b.getD k 0) where
  bytes a ha := by
    have hdiv : 4096 * v / PGSIZE = v := Nat.mul_div_cancel_left v (by decide)
    rw [Backed, hdiv] at hv
    unfold load
    by_cases hpage : a / PGSIZE = v
    · have hmod : a = 4096 * v + a % PGSIZE := by
        simp only [PGSIZE] at hpage ⊢
        omega
      rw [hpage, Mem.memmove_ram_same]
      by_cases hin : a % PGSIZE < n
      · rw [Bytes.patch_in (Nat.zero_le _) (by omega), Nat.sub_zero, hb _ hin, if_pos (by omega)]
        congr 1
        omega
      · rw [Bytes.patch_out (by omega), if_neg (by omega)]
    · have hne : (d.pte (a / PGSIZE)).frame ≠ (d.pte v).frame :=
        fun e => hpage (hacc.page_inj hpool ha.1 hv.1 ha.2 hv.2 e)
      rw [Mem.memmove_ram_other _ _ _ _ hne, if_neg]
      simp only [PGSIZE] at hpage
      omega

theorem Loaded.trans {A O lo mid lo' hi : Nat} (h1 : Loaded d c A O lo mid m m')
    (h2 : Loaded d c A O lo' hi m' m'') (hmid : mid = min lo' hi) (hle : lo ≤ lo') :
    Loaded d c A O lo hi m m'' where
  bytes a ha := by
    rw [h2.bytes a ha, h1.bytes a ha]
    by_cases hsnd : lo' ≤ a ∧ a < hi
    · rw [if_pos hsnd, if_pos ⟨by omega, hsnd.2⟩]
    · rw [if_neg hsnd]
      have hiff : lo ≤ a ∧ a < mid ↔ lo ≤ a ∧ a < hi := by omega
      simp only [hiff]

theorem Account.of_free (hacc : Account T R m d) (h : m'.free = m.free) : Account T R m' d :=
  ⟨hacc.wf, h ▸ hacc.total⟩

theorem loadLoop_loaded (hpool : Pool l T) {addr offset sz : UInt32}
    (haddr : addr.toNat % 4096 = 0) (hlt : addr.toNat + sz.toNat ≤ KERNBASE)
    (hc : c.length < 4294967296)
    (hmap : ∀ a, addr.toNat ≤ a → a < addr.toNat + sz.toNat → Backed d a) :
    ∀ (k : Nat) (m : Mem) (j : Nat), 0 < k → sz.toNat / 4096 + 2 ≤ k + j →
      4096 * j < sz.toNat + 4096 →
      (4096 * j < sz.toNat → offset.toNat + 4096 * j < 4294967296) → Account T R m d →
      Ends (loadLoop c d addr offset sz k m (UInt32.ofNat (4096 * j))) (fun _ => False) fun r =>
        Within d addr.toNat (addr.toNat + sz.toNat) m r.2 ∧
          (r.1 = true → Loaded d c addr.toNat offset.toNat (addr.toNat + 4096 * j)
            (addr.toNat + sz.toNat) m r.2) ∧
          (offset.toNat + sz.toNat ≤ c.length → r.1 = true) := by
  simp only [KERNBASE] at hlt
  intro k
  induction k with
  | zero => intro m j hk; omega
  | succ k ih =>
    intro m j _ hk hj hoff hacc
    have hi : (UInt32.ofNat (4096 * j)).toNat = 4096 * j := by
      rw [UInt32.toNat_ofNat', Nat.mod_eq_of_lt (by omega)]
    have hlt' : UInt32.ofNat (4096 * j) < sz ↔ 4096 * j < sz.toNat := by
      rw [UInt32.lt_iff_toNat_lt, hi]
    rw [loadLoop]
    simp only [hlt']
    by_cases hin : 4096 * j < sz.toNat
    · rw [if_pos hin]
      have ha : (addr + UInt32.ofNat (4096 * j)).toNat = addr.toNat + 4096 * j := by
        rw [UInt32.toNat_add, hi, Nat.mod_eq_of_lt (by omega)]
      obtain ⟨v, hv⟩ : ∃ v, addr.toNat + 4096 * j = 4096 * v :=
        ⟨addr.toNat / 4096 + j, by omega⟩
      have hpage : page (addr + UInt32.ofNat (4096 * j)) = v := by
        rw [page, ha, hv]
        exact Nat.mul_div_cancel_left v (by decide)
      have hback : Backed d (4096 * v) := hmap _ (by omega) (by omega)
      have hbackv := hback
      rw [Backed, show 4096 * v / PGSIZE = v from Nat.mul_div_cancel_left v (by decide)] at hbackv
      have htab : d.tab (PDX (addr + UInt32.ofNat (4096 * j))) ≠ none := by
        rw [PDX_eq, hpage]
        exact hacc.wf.tab_present hbackv.2
      obtain ⟨n, hn⟩ : ∃ n, n = (if sz - UInt32.ofNat (4096 * j) < 4096 then
        sz - UInt32.ofNat (4096 * j) else (4096 : UInt32)) := ⟨_, rfl⟩
      have hsub : (sz - UInt32.ofNat (4096 * j)).toNat = sz.toNat - 4096 * j := by
        rw [UInt32.toNat_sub_of_le _ _ (UInt32.le_iff_toNat_le.mpr (by omega)), hi]
      have hnn : n.toNat = min 4096 (sz.toNat - 4096 * j) := by
        rw [hn]
        split
        · next h =>
          rw [UInt32.lt_iff_toNat_lt, hsub] at h
          simp only [UInt32.reduceToNat] at h
          rw [hsub]
          omega
        · next h =>
          rw [UInt32.lt_iff_toNat_lt, hsub] at h
          simp only [UInt32.reduceToNat] at h ⊢
          omega
      rw [walkpgdir_false, if_neg htab]
      simp only [← hn, hpage]
      have hin1 : addr.toNat ≤ 4096 * v := by omega
      have hin2 : 4096 * v < addr.toNat + sz.toNat := by omega
      have hthere : offset.toNat + sz.toNat ≤ c.length →
          ∃ b, readi c (offset + UInt32.ofNat (4096 * j)) n = some b ∧ b.length = n.toNat :=
        fun hfile => readi_some (by rw [UInt32.toNat_add, hi]; omega) hc
      cases hread : readi c (offset + UInt32.ofNat (4096 * j)) n with
      | none =>
        refine ⟨.refl .., fun h => absurd h Bool.false_ne_true, fun hfile => ?_⟩
        obtain ⟨b, hb, -⟩ := hthere hfile
        cases hread.symm.trans hb
      | some b =>
        by_cases hfull : b.length = n.toNat
        · clear hthere
          simp only [if_pos hfull]
          obtain ⟨hbound, hbytes⟩ := readi_full hread hfull
          have ho : (offset + UInt32.ofNat (4096 * j)).toNat = offset.toNat + 4096 * j := by
            rw [UInt32.toNat_add, hi, Nat.mod_eq_of_lt (by omega)]
          rw [ho] at hbound hbytes
          have hone : Loaded d c addr.toNat offset.toNat (4096 * v) (4096 * v + n.toNat) m
              (m.memmove (d.pte v).frame 0 b.length fun k => b.getD k 0) := by
            rw [hfull]
            refine loaded_page hpool hacc hback (by omega) hin1 fun k hk => ?_
            rw [hbytes k hk]
            congr 1
            omega
          have hnext : UInt32.ofNat (4096 * j) + 4096 = UInt32.ofNat (4096 * (j + 1)) := by
            rw [Nat.mul_add, UInt32.ofNat_add]
            rfl
          rw [hnext]
          refine (ih _ (j + 1) (by omega) (by omega) (by omega) (by omega)
            (hacc.of_free (Mem.memmove_free ..))).imp fun r hr => ⟨?_, fun hok => ?_, hr.2.2⟩
          · exact (within_page hin1 hin2).trans hr.1
          · rw [hv]
            exact hone.trans (hr.2.1 hok) (by omega) (by omega)
        · simp only [if_neg hfull]
          refine ⟨within_page hin1 hin2, fun h => absurd h Bool.false_ne_true, fun hfile => ?_⟩
          obtain ⟨b', hb', hlen⟩ := hthere hfile
          cases hread.symm.trans hb'
          exact absurd hlen hfull
    · rw [if_neg hin]
      refine ⟨.refl .., fun _ => ⟨fun a _ => ?_⟩, fun _ => rfl⟩
      rw [if_neg (by omega)]

theorem loaduvm_loaded (hpool : Pool l T) (hacc : Account T R m d) {addr offset sz : UInt32}
    (haddr : addr.toNat % 4096 = 0) (hlt : addr.toNat + sz.toNat ≤ KERNBASE)
    (hc : c.length < 4294967296)
    (hmap : ∀ a, addr.toNat ≤ a → a < addr.toNat + sz.toNat → Backed d a) :
    Ends (loaduvm m d addr c offset sz) (fun _ => False) fun r =>
      Within d addr.toNat (addr.toNat + sz.toNat) m r.2 ∧
        (r.1 = true → Loaded d c addr.toNat offset.toNat addr.toNat (addr.toNat + sz.toNat) m r.2) ∧
        (offset.toNat + sz.toNat ≤ c.length → r.1 = true) := by
  have hrem : ¬ addr % 4096 ≠ 0 := by
    rw [not_not, ← UInt32.toNat_inj, UInt32.toNat_mod]
    exact haddr
  have hoff := toNat_lt offset
  rw [loaduvm, if_neg hrem]
  exact loadLoop_loaded hpool haddr hlt hc hmap _ m 0 (Nat.succ_pos _)
    (by simp only [PGSIZE]; omega) (by omega) (by omega) hacc

end Xv6.Vm
