import Xv6.Vm.Image
import Xv6.Vm.Copyout

/-!
# Xv6.Vm.Args

The user stack `exec` builds: the page below it that the user may not use, and in the stack page the
argument strings, the array of pointers to them, `argc` and the fake return address.

`copyout` goes upwards from where the stack pointer was taken down to. So a string that reaches
below the stack page runs into the page without `PTE_U` and fails (`Stacked.room`): nothing is
written below the stack page, and what is written later lies below what was written before.
`pushArgs_stacked` carries both through the loop, and `Laid.passed` reads off the stack what `main`
finds there (`Passed`).
-/

namespace Xv6.Vm

open Bytes List

variable {r : Bool × Mem} {buf : List UInt8} {a : Nat} {q : UInt32}

abbrev MAXARG : Nat := 32

/-- The loop over the argument strings, with `argc`, `sp` and the pointers so far; `none` is
`goto bad`. -/
def pushArgs (d : Pgdir) : List (List UInt8) → Nat → UInt32 → List UInt32 → Mem →
    Except Fault (Option (UInt32 × List UInt32) × Mem)
  | [], _, sp, us, m => .ok (some (sp, us), m)
  | s :: argv, argc, sp, us, m =>
    if argc ≥ MAXARG then .ok (none, m)
    else do
      let sp := (sp - UInt32.ofNat (s.length + 1)) / 4 * 4
      let (ok, m) ← copyoutTested m d sp (s ++ [0])
      if ok then pushArgs d argv (argc + 1) sp (us ++ [sp]) m else return (none, m)

def words (ws : List UInt32) : List UInt8 :=
  ws.flatMap fun w => (range 4).map (Bytes.byteOf w.toNat)

/-- `ustack`: the fake return address, `argc`, `argv` and the pointers with a null behind them. -/
def ustack (sp : UInt32) (us : List UInt32) : List UInt32 :=
  [0xffffffff, UInt32.ofNat us.length, sp - UInt32.ofNat ((us.length + 1) * 4)] ++ us ++ [0]

/-- The bytes at `a` are those of `buf`. -/
def Holds (m : Mem) (d : Pgdir) (a : Nat) (buf : List UInt8) : Prop :=
  ∀ k (h : k < buf.length), load m d (a + k) = buf[k]

/-- What a string takes on the stack, with its NUL and rounded up to words. -/
def padded (s : List UInt8) : Nat := (s.length + 4) / 4 * 4

/-- What `exec` needs on the stack: the strings, and the words of `ustack`. -/
def stackBytes (argv : List (List UInt8)) : Nat :=
  (argv.map padded).sum + 4 * (3 + argv.length + 1)

/-- Everything fits in the stack page. -/
def Fits (argv : List (List UInt8)) : Prop := stackBytes argv ≤ PGSIZE

instance (argv : List (List UInt8)) : Decidable (Fits argv) := inferInstanceAs (Decidable (_ ≤ _))

/-- The strings lie one below the other from `top` down to `low`, each with its NUL at its
pointer. -/
inductive Laid (m : Mem) (d : Pgdir) :
    UInt32 → List (List UInt8) → List UInt32 → UInt32 → Prop where
  | nil (top : UInt32) : Laid m d top [] [] top
  | cons {top p low : UInt32} {s : List UInt8} {argv : List (List UInt8)} {ps : List UInt32} :
    p.toNat + padded s = top.toNat → Holds m d p.toNat (s ++ [0]) → Laid m d p argv ps low →
      Laid m d top (s :: argv) (p :: ps) low

/-- The bytes from `start` on, `len` of them. -/
structure Area where
  start : Nat
  len : Nat

namespace Area

def Inside (a : Area) (lo hi : Nat) : Prop := lo ≤ a.start ∧ a.start + a.len ≤ hi

def Apart (a b : Area) : Prop := a.start + a.len ≤ b.start ∨ b.start + b.len ≤ a.start

end Area

def stringAreas (ptrs : List UInt32) (argv : List (List UInt8)) : List Area :=
  List.zipWith (fun p s => ⟨p.toNat, s.length + 1⟩) ptrs argv

/-- The NUL-terminated string at `a` is `s`. -/
def StringAt (m : Mem) (d : Pgdir) (a : Nat) (s : List UInt8) : Prop :=
  0 ∉ s ∧ Holds m d a (s ++ [0])

/-- What `main` finds at `esp` when the stack page is the one below `sz`: a return address that goes
nowhere, `argc`, and `av`, where the pointers to the strings are with a null pointer behind them. -/
structure Passed (argv : List (List UInt8)) (m : Mem) (d : Pgdir) (sz esp av : UInt32)
    (ptrs : List UInt32) : Prop where
  user : ∀ a, sz.toNat - PGSIZE ≤ a → a < sz.toNat → UserPage d (a / PGSIZE)
  returnAddr : rd32 (load m d) esp.toNat = 0xffffffff
  argc : (rd32 (load m d) (esp.toNat + 4)).toNat = argv.length
  array : rd32 (load m d) (esp.toNat + 8) = av
  pointers : ∀ i (h : i < ptrs.length), rd32 (load m d) (av.toNat + 4 * i) = ptrs[i]
  null : rd32 (load m d) (av.toNat + 4 * argv.length) = 0
  strings : List.Forall₂ (fun p s => StringAt m d p.toNat s) ptrs argv
  inside : ∀ a ∈ ⟨esp.toNat, 12⟩ :: ⟨av.toNat, 4 * (argv.length + 1)⟩ :: stringAreas ptrs argv,
    a.Inside (sz.toNat - PGSIZE) sz.toNat
  apart : (⟨esp.toNat, 12⟩ :: ⟨av.toNat, 4 * (argv.length + 1)⟩ ::
    stringAreas ptrs argv).Pairwise Area.Apart

variable {l : Layout} {T R : Multiset Nat} {m m' m0 : Mem} {d d' : Pgdir} {c : List UInt8}
  {phs : List Proghdr} {n : Nat}

/-- The image in the first `n` pages, a page the user may not use, and the stack page. -/
structure Stacked (T R : Multiset Nat) (m0 : Mem) (c : List UInt8) (phs : List Proghdr) (n : Nat)
    (m : Mem) (d : Pgdir) : Prop where
  account : Account T R m d
  others : ∀ f ∈ R, m.ram f = m0.ram f
  kernel : ∀ w, UPAGES ≤ w → (d.pte w).u = false
  lt : n + 2 < UPAGES
  maps : ∀ w, w < UPAGES → ((d.pte w).p = true ↔ w < n + 2)
  user : ∀ w, w < n + 2 → ((d.pte w).u = true ↔ w ≠ n)
  inside : ∀ a b, imageByte c phs a = some b → a / PGSIZE < n
  bytes : ∀ a, a / PGSIZE < n → load m d a = (imageByte c phs a).getD 0

namespace Stacked

theorem userPage (h : Stacked T R m0 c phs n m d) {w : Nat} (hw : UserPage d w) :
    w < n + 2 ∧ w ≠ n := by
  have hlt : w < UPAGES := by
    by_contra hge
    have hu := hw.2.2
    rw [h.kernel w (by omega)] at hu
    exact absurd hu Bool.false_ne_true
  have hn := (h.maps w hlt).mp hw.2.1
  exact ⟨hn, (h.user w hn).mp hw.2.2⟩

theorem distinct (hpool : Pool l T) (h : Stacked T R m0 c phs n m d) : Distinct d := by
  intro v w hv hw
  have hlt := h.lt
  have hv' := (h.userPage hv).1
  have hw' := (h.userPage hw).1
  exact h.account.page_inj hpool (by omega) (by omega) hv.2.1 hw.2.1

theorem room (h : Stacked T R m0 c phs n m d) {sp : UInt32} {len r : Nat}
    (hsp : 4096 * (n + 1) ≤ sp.toNat) (hsp' : sp.toNat ≤ 4096 * (n + 2)) (hlen : 0 < len)
    (hlen' : len ≤ KERNBASE) (hr : r < 4)
    (hq : (q.toNat : Int) = ((sp.toNat : Int) - len - r) % 4294967296)
    (hu : UserRange d q len) : 4096 * (n + 1) ≤ q.toNat ∧ q.toNat + len + r = sp.toNat := by
  have hn := h.lt
  simp only [UPAGES, KERNBASE, PGSIZE] at hn hlen'
  have h0 := h.userPage (hu 0 hlen)
  rw [shift_zero, page, PGSIZE] at h0
  by_cases hwrap : sp.toNat < len + r
  · -- Below address 0 the pointer has wrapped into the kernel's part.
    omega
  · by_cases hlow : q.toNat < 4096 * n
    · have hk := h.userPage (hu (4096 * n - q.toNat) (by omega))
      rw [page, toNat_shift, PGSIZE] at hk
      omega
    · omega

theorem user_top (h : Stacked T R m0 c phs n m d) (ha : a / PGSIZE = n + 1) :
    UserPage d (a / PGSIZE) := by
  have hlt := h.lt
  have hp := (h.maps (n + 1) (by omega)).mpr (by omega)
  rw [ha]
  exact ⟨h.account.wf.tab_present hp, hp, (h.user (n + 1) (by omega)).mpr (by omega)⟩

theorem userRange (h : Stacked T R m0 c phs n m d) {len : Nat} (hlo : 4096 * (n + 1) ≤ q.toNat)
    (hhi : q.toNat + len ≤ 4096 * (n + 2)) : UserRange d q len := by
  intro k hk
  have hlt := h.lt
  simp only [UPAGES, KERNBASE, PGSIZE] at hlt
  refine h.user_top ?_
  rw [toNat_shift]
  simp only [PGSIZE]
  omega

theorem copied_others (hpool : Pool l T) (h : Stacked T R m0 c phs n m d)
    (hr : Copied d q buf m r) (f : Nat) (hf : f ∈ R) : r.2.ram f = m0.ram f := by
  rw [← h.others f hf]
  funext o
  by_contra hne
  obtain ⟨k, -, hu, hplace⟩ := hr.wrote f o hne
  have hlt := h.lt
  have hown := Pgdir.mem_owned_page (show page (shift q k) < UPAGES by
    have := (h.userPage hu).1
    omega) hu.2.1
  rw [show (d.pte (page (shift q k))).frame = f from congrArg Prod.fst hplace] at hown
  exact Multiset.disjoint_left.mp (Multiset.nodup_add.mp (h.account.nodup hpool)).2.2
    (Multiset.mem_add.mpr (.inr hown)) hf

theorem copied (hpool : Pool l T) (h : Stacked T R m0 c phs n m d)
    (hr : Copied d q buf m r) (hlo : 4096 * (n + 1) ≤ q.toNat)
    (hhi : q.toNat + buf.length ≤ 4096 * (n + 2)) : Stacked T R m0 c phs n r.2 d := by
  have hlt := h.lt
  refine { h with
    account := h.account.of_free hr.free
    others := h.copied_others hpool hr
    bytes := fun a ha => ?_ }
  rw [← h.bytes a ha]
  by_contra hne
  obtain ⟨k, hk, hu, hplace⟩ := hr.wrote _ _ hne
  have hpage : page (shift q k) = n + 1 := by
    simp only [UPAGES, KERNBASE, PGSIZE] at hlt
    rw [page, toNat_shift]
    simp only [PGSIZE]
    omega
  have hp : (d.pte (a / PGSIZE)).p = true := (h.maps _ (by omega)).mpr (by omega)
  have heq := h.account.page_inj hpool (show page (shift q k) < UPAGES by omega)
    (show a / PGSIZE < UPAGES by omega) hu.2.1 hp (congrArg Prod.fst hplace)
  omega

end Stacked

theorem addr_add_two (v : Nat) : addr v + 8192 = addr (v + 2) := by
  rw [← addr_succ (v + 1), ← addr_succ v, UInt32.add_assoc]
  rfl

theorem Image.stacked (hpool : Pool l T) {sz : UInt32} (h : Image T R m0 c phs sz m d)
    (hlt : npages sz + 2 < UPAGES) (hacc : Account T R m' d')
    (hg : Grown (npages sz) (npages sz + 2) m d m' d') :
    Ends (clearpteu d' m' (addr (npages sz))) (fun _ => False) fun d2 =>
      Stacked T R m0 c phs (npages sz) m' d2 := by
  have hlt' := hlt
  simp only [UPAGES, KERNBASE, PGSIZE] at hlt'
  have hpage : page (addr (npages sz)) = npages sz := page_addr (by omega)
  obtain ⟨f, -, hpte, -⟩ := hg.new (npages sz) le_rfl (by omega)
  have hp : (d'.pte (npages sz)).p = true := by rw [hpte]; rfl
  have htab := hacc.wf.tab_present hp
  unfold clearpteu
  rw [walkpgdir_false, PDX_eq, hpage, if_neg htab]
  have hother : ∀ w, w ≠ npages sz → (d'.set (npages sz)
      { d'.pte (npages sz) with u := false }).pte w = d'.pte w := fun w hw => Pgdir.set_pte_other hw
  have hnew : ∀ w, npages sz ≤ w → w < npages sz + 2 →
      (d'.pte w).p = true ∧ (d'.pte w).u = true := by
    intro w h1 h2
    obtain ⟨g, -, hw, -⟩ := hg.new w h1 h2
    rw [hw]
    exact ⟨rfl, rfl⟩
  refine ⟨⟨hacc.wf.set_present htab hp, ?_⟩, fun f hf => ?_, fun w hw => ?_, hlt, fun w hw => ?_,
    fun w hw => ?_, fun a b hb => div_lt_npages (h.inside a b hb), fun a ha => ?_⟩
  · rw [← hacc.total]
    congr 2
    refine Pgdir.owned_congr rfl rfl fun w _ => ?_
    by_cases hw : w = npages sz
    · subst hw
      rw [Pgdir.set_pte_same]
      rfl
    · rw [hother w hw]
  · exact (hg.ram f (h.account.not_free_other hpool hf)).trans (h.others f hf)
  · rw [hother w (by omega), hg.old w (by omega)]
    exact h.kernel w hw
  · by_cases hwn : w = npages sz
    · subst hwn
      rw [Pgdir.set_pte_same]
      simp only [hp, true_iff]
      omega
    · rw [hother w hwn]
      by_cases h1 : w < npages sz
      · rw [hg.old w (.inl h1)]
        simp only [(h.user w h1).1, true_iff]
        omega
      · by_cases h2 : w < npages sz + 2
        · simp only [(hnew w (by omega) h2).1, h2]
        · rw [hg.old w (.inr (by omega)), h.above w (by omega) hw]
          simp [Pte.zero, h2]
  · by_cases hwn : w = npages sz
    · subst hwn
      rw [Pgdir.set_pte_same]
      simp
    · rw [hother w hwn]
      by_cases h1 : w < npages sz
      · rw [hg.old w (.inl h1)]
        simp only [(h.user w h1).2, hwn, ne_eq, not_false_iff]
      · simp only [(hnew w (by omega) hw).2, hwn, ne_eq, not_false_iff]
  · have hb := h.backed ha
    rw [← h.bytes a ha, load, load, hother _ (by omega), hg.old _ (.inl ha),
      hg.ram _ (h.account.not_free hpool (Pgdir.mem_owned_page hb.1 hb.2))]

theorem toNat_round (sp : UInt32) {len : Nat} (hlen : len < 4294967296) :
    ∃ r : Nat, r < 4 ∧ (((sp - UInt32.ofNat len) / 4 * 4).toNat : Int) =
      ((sp.toNat : Int) - len - r) % 4294967296 := by
  have hsp := toNat_lt sp
  refine ⟨(sp - UInt32.ofNat len).toNat % 4, by omega, ?_⟩
  rw [UInt32.toNat_mul, UInt32.toNat_div, UInt32.toNat_sub, UInt32.toNat_ofNat']
  simp only [UInt32.reduceToNat]
  omega

theorem toNat_push {sp : UInt32} {s : List UInt8} (h4 : 4 ∣ sp.toNat) (h : padded s ≤ sp.toNat) :
    ((sp - UInt32.ofNat (s.length + 1)) / 4 * 4).toNat + padded s = sp.toNat := by
  have hsp := toNat_lt sp
  rw [UInt32.toNat_mul, UInt32.toNat_div, UInt32.toNat_sub, UInt32.toNat_ofNat']
  simp only [UInt32.reduceToNat, padded] at h ⊢
  omega

theorem Holds.congr (h : Holds m d a buf)
    (hsame : ∀ x, a ≤ x → x < a + buf.length → load m' d x = load m d x) : Holds m' d a buf := by
  intro k hk
  rw [hsame (a + k) (by omega) (by omega)]
  exact h k hk

theorem Copied.holds (hr : Copied d q buf m (true, m'))
    (hq : q.toNat + buf.length ≤ 4294967296) : Holds m' d q.toNat buf := by
  intro k hk
  have hb := hr.bytes rfl k hk
  have hshift : (shift q k).toNat = q.toNat + k := by
    rw [toNat_shift]
    omega
  rwa [place, page, hshift] at hb

theorem Copied.load_other {v : Nat} (hr : Copied d q buf m r) (hlo : 4096 * v ≤ q.toNat)
    (hhi : q.toNat + buf.length ≤ 4096 * (v + 1)) (ha : a / PGSIZE = v)
    (hout : a < q.toNat ∨ q.toNat + buf.length ≤ a) : load r.2 d a = load m d a := by
  by_contra hne
  obtain ⟨k, hk, -, hplace⟩ := hr.wrote _ _ hne
  have hoff : (shift q k).toNat % PGSIZE = a % PGSIZE := congrArg Prod.snd hplace
  rw [toNat_shift] at hoff
  simp only [PGSIZE] at ha hoff
  omega

namespace Laid

variable {top low : UInt32} {argv : List (List UInt8)} {ps : List UInt32}

theorem length_eq (h : Laid m d top argv ps low) : ps.length = argv.length := by
  induction h with
  | nil => rfl
  | cons _ _ _ ih => rw [length_cons, length_cons, ih]

theorem low_add (h : Laid m d top argv ps low) : low.toNat + (argv.map padded).sum = top.toNat := by
  induction h with
  | nil => rfl
  | cons hp _ _ ih =>
    rw [map_cons, sum_cons]
    omega

theorem congr (h : Laid m d top argv ps low)
    (hsame : ∀ x, low.toNat ≤ x → x < top.toNat → load m' d x = load m d x) :
    Laid m' d top argv ps low := by
  induction h with
  | nil top => exact .nil top
  | @cons top p low s argv ps hp hs hrest ih =>
    have hle := hrest.low_add
    have hpad : s.length + 1 ≤ padded s := by
      simp only [padded]
      omega
    refine .cons hp (hs.congr fun x h1 h2 => hsame x (by omega) ?_)
      (ih fun x h1 h2 => hsame x h1 (by omega))
    rw [length_append, length_singleton] at h2
    omega

theorem strings (h : Laid m d top argv ps low) (hnul : ∀ s ∈ argv, 0 ∉ s) :
    List.Forall₂ (fun p s => StringAt m d p.toNat s) ps argv := by
  induction h with
  | nil => exact .nil
  | cons _ hs _ ih =>
    rw [forall_mem_cons] at hnul
    exact .cons ⟨hnul.1, hs⟩ (ih hnul.2)

theorem inside (h : Laid m d top argv ps low) :
    ∀ a ∈ stringAreas ps argv, a.Inside low.toNat top.toNat := by
  induction h with
  | nil => exact fun a ha => absurd ha not_mem_nil
  | @cons top p low s argv ps hp _ hrest ih =>
    have hle := hrest.low_add
    have hpad : s.length + 1 ≤ padded s := by
      simp only [padded]
      omega
    intro a ha
    rw [stringAreas, zipWith_cons_cons, mem_cons] at ha
    rcases ha with rfl | ha
    · exact ⟨by simp only; omega, by simp only; omega⟩
    · have hin := ih a ha
      exact ⟨hin.1, hin.2.trans (by omega)⟩

theorem apart (h : Laid m d top argv ps low) : (stringAreas ps argv).Pairwise Area.Apart := by
  induction h with
  | nil => exact .nil
  | cons _ _ hrest ih =>
    -- The strings that follow lie below the pointer of the first.
    rw [stringAreas, zipWith_cons_cons]
    exact pairwise_cons.mpr ⟨fun a ha => .inr (hrest.inside a ha).2, ih⟩

end Laid

theorem words_cons (w : UInt32) (ws : List UInt32) :
    words (w :: ws) = (range 4).map (byteOf w.toNat) ++ words ws := flatMap_cons

theorem getElem?_words : ∀ (ws : List UInt32) (i k : Nat), k < 4 →
    (words ws)[4 * i + k]? = ws[i]?.map fun w => byteOf w.toNat k := by
  intro ws
  induction ws with
  | nil => intro i k _; rfl
  | cons w ws ih =>
    intro i k hk
    have hlen : ((range 4).map (byteOf w.toNat)).length = 4 := by simp
    rw [words_cons]
    cases i with
    | zero =>
      rw [getElem?_append_left (by omega)]
      simp [hk]
    | succ i =>
      rw [getElem?_append_right (by omega), hlen, show 4 * (i + 1) + k - 4 = 4 * i + k by omega]
      exact ih i k hk

theorem Holds.word {ws : List UInt32} (h : Holds m d a (words ws)) {i : Nat} {w : UInt32}
    (hw : ws[i]? = some w) : rd32 (load m d) (a + 4 * i) = w := by
  refine rd32_of_bytes fun k hk => ?_
  have hget := getElem?_words ws i k hk
  rw [hw, Option.map_some] at hget
  obtain ⟨hlt, hval⟩ := List.getElem?_eq_some_iff.mp hget
  rw [Nat.add_assoc, h (4 * i + k) hlt, hval]

theorem Stacked.pushed (h : Stacked T R m0 c phs n m d) {sp : UInt32} {s : List UInt8}
    (hs : s.length < KERNBASE) (hlo : 4096 * (n + 1) ≤ sp.toNat)
    (hhi : sp.toNat ≤ 4096 * (n + 2)) (h4 : 4 ∣ sp.toNat)
    (hu : UserRange d ((sp - UInt32.ofNat (s.length + 1)) / 4 * 4) (s.length + 1)) :
    4096 * (n + 1) ≤ ((sp - UInt32.ofNat (s.length + 1)) / 4 * 4).toNat ∧
      ((sp - UInt32.ofNat (s.length + 1)) / 4 * 4).toNat + padded s = sp.toNat := by
  simp only [KERNBASE] at hs
  obtain ⟨e, he, hq⟩ := toNat_round sp (show s.length + 1 < 4294967296 by omega)
  have hroom := h.room hlo hhi (Nat.succ_pos s.length) (by simp only [KERNBASE]; omega) he hq hu
  have hmul : ((sp - UInt32.ofNat (s.length + 1)) / 4 * 4).toNat % 4 = 0 := by
    rw [UInt32.toNat_mul, UInt32.toNat_div]
    simp only [UInt32.reduceToNat]
    omega
  refine ⟨hroom.1, ?_⟩
  simp only [padded]
  omega

theorem pushArgs_stacked (hpool : Pool l T) :
    ∀ (argv : List (List UInt8)) (argc : Nat) (sp : UInt32) (us : List UInt32) (m : Mem),
      (∀ s ∈ argv, s.length < KERNBASE) → argc ≤ MAXARG →
      4096 * (n + 1) ≤ sp.toNat → sp.toNat ≤ 4096 * (n + 2) → 4 ∣ sp.toNat →
      Stacked T R m0 c phs n m d →
      Ends (pushArgs d argv argc sp us m) (fun _ => False) fun r =>
        Account T R r.2 d ∧ (∀ f ∈ R, r.2.ram f = m0.ram f) ∧
          (∀ x, r.1 = some x → Stacked T R m0 c phs n r.2 d ∧ argc + argv.length ≤ MAXARG ∧
            4096 * (n + 1) ≤ x.1.toNat ∧ (∃ ps, x.2 = us ++ ps ∧ Laid r.2 d sp argv ps x.1) ∧
            ∀ a, sp.toNat ≤ a → a < 4096 * (n + 2) → load r.2 d a = load m d a) ∧
          (argc + argv.length ≤ MAXARG → 4096 * (n + 1) + (argv.map padded).sum ≤ sp.toNat →
            r.1 ≠ none) := by
  intro argv
  induction argv with
  | nil =>
    intro argc sp us m _ hargc hlo _ _ h
    refine ⟨h.account, h.others, fun x hx => ?_, fun _ _ => nofun⟩
    obtain rfl : (sp, us) = x := Option.some.inj hx
    exact ⟨h, hargc, hlo, ⟨[], (append_nil us).symm, .nil sp⟩, fun _ _ _ => rfl⟩
  | cons s argv ih =>
    intro argc sp us m hargv hargc hlo hhi h4 h
    have hs := hargv s mem_cons_self
    have hs' := hs
    have hn := h.lt
    simp only [KERNBASE, UPAGES, PGSIZE] at hs' hn
    have hlen : (s ++ [0]).length = s.length + 1 := by simp
    rw [pushArgs]
    by_cases hmax : argc ≥ MAXARG
    · rw [if_pos hmax]
      refine ⟨h.account, h.others, nofun, fun hcount => absurd hmax ?_⟩
      rw [length_cons] at hcount
      omega
    · rw [if_neg hmax, map_cons, sum_cons, length_cons]
      generalize hq : (sp - UInt32.ofNat (s.length + 1)) / 4 * 4 = q
      refine (copyoutTested_copied (h.distinct hpool) m q (by omega)).bind fun r hr => ?_
      obtain ⟨ok, m1⟩ := r
      cases ok with
      | false =>
        refine ⟨h.account.of_free hr.free, h.copied_others hpool hr, nofun, fun _ hfit => ?_⟩
        have hsum := toNat_push (s := s) h4 (by omega)
        have hpad : s.length + 1 ≤ padded s := by
          simp only [padded]
          omega
        rw [hq] at hsum
        exact absurd (hr.iff.mpr (h.userRange (by omega) (by omega))) Bool.false_ne_true
      | true =>
        have hpush := h.pushed hs hlo hhi h4 (by rw [hq, ← hlen]; exact hr.iff.mp rfl)
        rw [hq] at hpush
        have hpad : s.length + 1 ≤ padded s ∧ 4 ∣ padded s := by
          simp only [padded]
          omega
        have hend : q.toNat + (s ++ [0]).length ≤ 4096 * (n + 2) := by omega
        refine (ih (argc + 1) q (us ++ [q]) m1 (fun t ht => hargv t (mem_cons_of_mem _ ht))
          (by omega) hpush.1 (by omega) (by omega) (h.copied hpool hr hpush.1 hend)).imp
          fun r hr' => ⟨hr'.1, hr'.2.1, fun x hx => ?_, fun h1 h2 =>
            hr'.2.2.2 (by omega) (by omega)⟩
        obtain ⟨hst, hcount, hlow, ⟨ps, hps, hlaid⟩, hkeep⟩ := hr'.2.2.1 x hx
        have hholds : Holds r.2 d q.toNat (s ++ [0]) :=
          (hr.holds (by omega)).congr fun a h1 h2 => hkeep a h1 (by omega)
        refine ⟨hst, by omega, hlow, ⟨q :: ps, ?_, .cons hpush.2 hholds hlaid⟩, fun a h1 h2 => ?_⟩
        · rw [hps, append_assoc, singleton_append]
        · rw [hkeep a (by omega) h2]
          exact hr.load_other hpush.1 hend
            (by simp only [PGSIZE]; omega) (.inr (by omega))

theorem length_words (ws : List UInt32) : (words ws).length = 4 * ws.length := by
  induction ws with
  | nil => rfl
  | cons w ws ih =>
    rw [words, flatMap_cons, length_append, ← words, ih]
    simp
    omega

theorem length_ustack (sp : UInt32) (us : List UInt32) :
    (words (ustack sp us)).length = (3 + us.length + 1) * 4 := by
  rw [length_words, ustack]
  simp
  omega
theorem Laid.passed {top low esp : UInt32} {argv : List (List UInt8)} {ps : List UInt32}
    (h : Laid m d top argv ps low) (hwords : Holds m d esp.toNat (words (ustack low ps)))
    (hesp : esp.toNat + (3 + ps.length + 1) * 4 = low.toNat)
      (hpage : top.toNat - PGSIZE ≤ esp.toNat)
    (huser : ∀ a, top.toNat - PGSIZE ≤ a → a < top.toNat → UserPage d (a / PGSIZE))
    (hnul : ∀ s ∈ argv, 0 ∉ s) (hargc : argv.length ≤ MAXARG) :
    Fits argv ∧ ∃ av ptrs, Passed argv m d top esp av ptrs := by
  have hlen := h.length_eq
  have hlow := h.low_add
  have hlt := toNat_lt low
  simp only [MAXARG] at hargc
  -- The array starts behind the three words.
  obtain ⟨av, hav⟩ : ∃ av, av = low - UInt32.ofNat ((ps.length + 1) * 4) := ⟨_, rfl⟩
  have havNat : av.toNat = esp.toNat + 12 := by
    rw [hav, UInt32.toNat_sub, UInt32.toNat_ofNat']
    omega
  have hlist : ustack low ps = 0xffffffff :: UInt32.ofNat ps.length :: av :: (ps ++ [0]) := by
    rw [ustack, hav]
    rfl
  rw [hlist] at hwords
  have harray : ∀ i w, (ps ++ [0])[i]? = some w → rd32 (load m d) (av.toNat + 4 * i) = w := by
    intro i w hw
    rw [havNat, show esp.toNat + 12 + 4 * i = esp.toNat + 4 * (i + 3) by omega]
    exact hwords.word hw
  refine ⟨?_, av, ps, huser, hwords.word (i := 0) rfl, ?_, hwords.word (i := 2) rfl,
    fun i hi => harray i ps[i] ?_, ?_, h.strings hnul, ?_, ?_⟩
  · simp only [Fits, stackBytes]
    omega
  · rw [hwords.word (i := 1) rfl, UInt32.toNat_ofNat']
    omega
  · rw [getElem?_append_left hi, getElem?_eq_getElem hi]
  · rw [← hlen]
    exact harray ps.length 0 (by simp)
  · rw [forall_mem_cons, forall_mem_cons]
    refine ⟨⟨hpage, ?_⟩, ⟨?_, ?_⟩, fun a ha => ⟨?_, (h.inside a ha).2⟩⟩
    · simp only
      omega
    · simp only
      omega
    · simp only
      omega
    · have := (h.inside a ha).1
      omega
  · rw [pairwise_cons, pairwise_cons, forall_mem_cons]
    refine ⟨⟨.inl ?_, fun a ha => .inl ?_⟩, fun a ha => .inl ?_, h.apart⟩
    · exact havNat.symm.le
    · have := (h.inside a ha).1
      simp only
      omega
    · have := (h.inside a ha).1
      simp only
      omega

namespace Stacked

theorem passed (h : Stacked T R m0 c phs n m d) {m1 : Mem} {low esp : UInt32}
    {argv : List (List UInt8)} {ps : List UInt32} (hlaid : Laid m d (addr (n + 2)) argv ps low)
    (hr : Copied d esp (words (ustack low ps)) m (true, m1)) (hlo : 4096 * (n + 1) ≤ esp.toNat)
    (hend : esp.toNat + (words (ustack low ps)).length = low.toNat)
    (hram : ∀ f ∈ d.owned, m'.ram f = m1.ram f) (hnul : ∀ s ∈ argv, 0 ∉ s)
    (hargc : argv.length ≤ MAXARG) :
    Fits argv ∧ ∃ av ptrs, Passed argv m' d (addr (n + 2)) esp av ptrs := by
  have hlt := h.lt
  have hlt' := hlt
  simp only [UPAGES, KERNBASE, PGSIZE] at hlt'
  have htop : (addr (n + 2)).toNat = 4096 * (n + 2) := toNat_addr (by omega)
  have hbelow := hlaid.low_add
  have hlow : low.toNat ≤ 4096 * (n + 2) := by omega
  have hpage : ∀ a, 4096 * (n + 1) ≤ a → a < 4096 * (n + 2) → a / PGSIZE = n + 1 := by
    intro a h1 h2
    simp only [PGSIZE]
    omega
  have hload : ∀ a, 4096 * (n + 1) ≤ a → a < 4096 * (n + 2) → load m' d a = load m1 d a := by
    intro a h1 h2
    have hp := (h.user_top (hpage a h1 h2)).2.1
    rw [load, hram _ (Pgdir.mem_owned_page (by rw [hpage a h1 h2]; omega) hp)]
    rfl
  have hwords : Holds m' d esp.toNat (words (ustack low ps)) :=
    (hr.holds (by omega)).congr fun a h1 h2 => hload a (by omega) (by omega)
  have hstrings : Laid m' d (addr (n + 2)) argv ps low := by
    refine hlaid.congr fun a h1 h2 => ?_
    rw [hload a (by omega) (by omega)]
    exact hr.load_other hlo (by omega) (hpage a (by omega) (by omega)) (.inr (by omega))
  rw [length_ustack] at hend
  refine hstrings.passed hwords hend ?_ (fun a h1 h2 => h.user_top ?_) hnul hargc
  · simp only [PGSIZE]
    omega
  · simp only [PGSIZE] at h1 ⊢
    omega

theorem copyWords (hpool : Pool l T) (h : Stacked T R m0 c phs n m d) {low : UInt32}
    {argv : List (List UInt8)} {ps : List UInt32} (hlaid : Laid m d (addr (n + 2)) argv ps low)
    (hlo : 4096 * (n + 1) ≤ low.toNat) (hargc : argv.length ≤ MAXARG) :
    Ends (copyoutTested m d (low - UInt32.ofNat ((3 + ps.length + 1) * 4)) (words (ustack low ps)))
      (fun _ => False) fun r => Account T R r.2 d ∧ (∀ f ∈ R, r.2.ram f = m0.ram f) ∧
        (r.1 = true → Stacked T R m0 c phs n r.2 d ∧
          ∀ m' : Mem, (∀ f ∈ d.owned, m'.ram f = r.2.ram f) → (∀ s ∈ argv, 0 ∉ s) →
            Fits argv ∧ ∃ av ptrs, Passed argv m' d (addr (n + 2))
              (low - UInt32.ofNat ((3 + ps.length + 1) * 4)) av ptrs) ∧
        (Fits argv → r.1 = true) := by
  have hn := h.lt
  have hlen := length_ustack low ps
  have hcount := hlaid.length_eq
  have hbelow := hlaid.low_add
  have hargc' := hargc
  simp only [UPAGES, KERNBASE, PGSIZE, MAXARG] at hn hargc'
  rw [toNat_addr (by omega)] at hbelow
  generalize hesp : low - UInt32.ofNat ((3 + ps.length + 1) * 4) = esp
  refine (copyoutTested_copied (h.distinct hpool) m esp (by omega)).imp fun r hr => ?_
  refine ⟨h.account.of_free hr.free, h.copied_others hpool hr, fun hok => ?_, fun hfits => ?_⟩
  swap
  · have hlow : esp.toNat + (words (ustack low ps)).length = low.toNat ∧
        4096 * (n + 1) ≤ esp.toNat := by
      simp only [Fits, stackBytes, PGSIZE] at hfits
      rw [← hesp, UInt32.toNat_sub, UInt32.toNat_ofNat', hlen]
      omega
    exact hr.iff.mpr (h.userRange hlow.2 (by omega))
  obtain ⟨ok, m1⟩ := r
  obtain rfl : ok = true := hok
  have hroom := h.room (r := 0) hlo (by omega) (show 0 < (words (ustack low ps)).length by omega)
    (by simp only [KERNBASE]; omega) (by decide)
    (by rw [← hesp, UInt32.toNat_sub, UInt32.toNat_ofNat', hlen]; omega) (hr.iff.mp rfl)
  exact ⟨h.copied hpool hr hroom.1 (by omega), fun m' hram hnul =>
    h.passed hlaid hr hroom.1 hroom.2 hram hnul hargc⟩

end Stacked

end Xv6.Vm
