import Xv6.Vm.Load

/-!
# Xv6.Vm.Image

The first half of `exec`: the segments of a program into a new address space.

Program headers are whatever the file holds. `imageByte` is what they ask for: at a user address,
the byte of the last segment that has one there. `Image` is the invariant of the loop over the
headers: the pages below the size reached so far are mapped and open to the user, they hold the
image of the headers seen so far and zero elsewhere, and nothing else is mapped. Each check in the
loop is what the next call needs to keep it: `allocuvm` is asked for the pages above the old size
only, and `loaduvm` finds every page of its segment.
-/

namespace Xv6.Vm

variable {a : Nat} {ph : Proghdr}

abbrev ELF_MAGIC : UInt32 := 0x464C457F
abbrev ELF_PROG_LOAD : UInt32 := 1

structure Elfhdr where
  magic : UInt32
  entry : UInt32
  phoff : UInt32
  phnum : UInt16
deriving DecidableEq

structure Proghdr where
  type : UInt32
  off : UInt32
  vaddr : UInt32
  filesz : UInt32
  memsz : UInt32
deriving DecidableEq

def Elfhdr.size : UInt32 := 52

def Elfhdr.parse (b : Nat → UInt8) : Elfhdr :=
  ⟨Bytes.rd32 b 0, Bytes.rd32 b 24, Bytes.rd32 b 28, Bytes.rd16 b 44⟩

def Proghdr.size : UInt32 := 32

def Proghdr.parse (b : Nat → UInt8) : Proghdr :=
  ⟨Bytes.rd32 b 0, Bytes.rd32 b 4, Bytes.rd32 b 8, Bytes.rd32 b 16, Bytes.rd32 b 20⟩

/-- What `exec` does with a header of a segment to be loaded; `none` is `goto bad`. -/
def loadSegment (l : Layout) (c : List UInt8) (ph : Proghdr) (m : Mem) (d : Pgdir) (sz : UInt32) :
    Except Fault (Option UInt32 × Mem × Pgdir) :=
  if ph.memsz < ph.filesz then .ok (none, m, d)
  else if ph.vaddr + ph.memsz < ph.vaddr then .ok (none, m, d)
  else do
    let (sz, m, d) ← allocuvm l m d sz (ph.vaddr + ph.memsz)
    if sz = 0 then return (none, m, d)
    else if ph.vaddr % 4096 ≠ 0 then return (none, m, d)
    else
      let (ok, m) ← loaduvm m d ph.vaddr c ph.off ph.filesz
      if ok then return (some sz, m, d) else return (none, m, d)

/-- The loop of `exec` over `k` program headers from offset `off` on. -/
def segments (l : Layout) (c : List UInt8) :
    Nat → UInt32 → Mem → Pgdir → UInt32 → Except Fault (Option UInt32 × Mem × Pgdir)
  | 0, _, m, d, sz => .ok (some sz, m, d)
  | k + 1, off, m, d, sz =>
    match readi c off Proghdr.size with
    | none => .ok (none, m, d)
    | some b =>
      if b.length ≠ Proghdr.size.toNat then .ok (none, m, d)
      else
        let ph := Proghdr.parse fun i => b.getD i 0
        if ph.type ≠ ELF_PROG_LOAD then segments l c k (off + Proghdr.size) m d sz
        else do
          let (r, m, d) ← loadSegment l c ph m d sz
          match r with
          | none => return (none, m, d)
          | some sz => segments l c k (off + Proghdr.size) m d sz

/-- The `k` program headers from offset `off` on. -/
def proghdrs (c : List UInt8) : Nat → UInt32 → List Proghdr
  | 0, _ => []
  | k + 1, off =>
    Proghdr.parse (fun i => c.getD (off.toNat + i) 0) :: proghdrs c k (off + Proghdr.size)

namespace Proghdr

/-- The segment has a byte of the file at address `a`. -/
def Covers (ph : Proghdr) (a : Nat) : Prop :=
  ph.type = ELF_PROG_LOAD ∧ ph.vaddr.toNat ≤ a ∧ a < ph.vaddr.toNat + ph.filesz.toNat

instance (ph : Proghdr) (a : Nat) : Decidable (ph.Covers a) :=
  inferInstanceAs (Decidable (_ ∧ _ ∧ _))

def byte (c : List UInt8) (ph : Proghdr) (a : Nat) : Option UInt8 :=
  if ph.Covers a then some (c.getD (ph.off.toNat + (a - ph.vaddr.toNat)) 0) else none

theorem parse_congr {b b' : Nat → UInt8} (h : ∀ i, i < 32 → b i = b' i) : parse b = parse b' := by
  have hrd : ∀ off, off + 4 ≤ 32 → Bytes.rd32 b off = Bytes.rd32 b' off := by
    intro off hoff
    unfold Bytes.rd32
    rw [Bytes.value_congr fun k hk => h (off + k) (by omega)]
  simp only [parse, hrd 0 (by decide), hrd 4 (by decide), hrd 8 (by decide), hrd 16 (by decide),
    hrd 20 (by decide)]

end Proghdr

/-- The byte of the image at address `a`: that of the last segment that covers it. -/
def imageByte (c : List UInt8) : List Proghdr → Nat → Option UInt8
  | [], _ => none
  | ph :: phs, a => (imageByte c phs a).or (ph.byte c a)

theorem imageByte_append (c : List UInt8) (phs qhs : List Proghdr) (a : Nat) :
    imageByte c (phs ++ qhs) a = (imageByte c qhs a).or (imageByte c phs a) := by
  induction phs with
  | nil => simp [imageByte]
  | cons ph phs ih => simp only [List.cons_append, imageByte, ih, Option.or_assoc]

theorem imageByte_single (c : List UInt8) (ph : Proghdr) (a : Nat) :
    imageByte c [ph] a = ph.byte c a := by simp [imageByte]

theorem imageByte_none {c : List UInt8} {phs : List Proghdr}
    (h : ∀ ph ∈ phs, ¬ ph.Covers a) : imageByte c phs a = none := by
  induction phs with
  | nil => rfl
  | cons ph phs ih =>
    rw [imageByte, ih fun q hq => h q (List.mem_cons_of_mem _ hq), Option.none_or, Proghdr.byte,
      if_neg (h ph List.mem_cons_self)]

theorem imageByte_last (c : List UInt8) (before : List Proghdr) {after : List Proghdr}
    (h : ph.Covers a) (hlast : ∀ q ∈ after, ¬ q.Covers a) : imageByte c (before ++ ph :: after) a =
      some (c.getD (ph.off.toNat + (a - ph.vaddr.toNat)) 0) := by
  rw [imageByte_append, imageByte, imageByte_none hlast, Option.none_or, Proghdr.byte, if_pos h,
    Option.some_or]

variable {l : Layout} {T R : Multiset Nat} {m m' m0 : Mem} {d d' : Pgdir} {c : List UInt8}
  {phs : List Proghdr} {sz : UInt32}

/-- The address space after the headers `phs`: size `sz`, their image in it. -/
structure Image (T R : Multiset Nat) (m0 : Mem) (c : List UInt8) (phs : List Proghdr) (sz : UInt32)
    (m : Mem) (d : Pgdir) : Prop where
  account : Account T R m d
  others : ∀ f ∈ R, m.ram f = m0.ram f
  kernel : ∀ w, UPAGES ≤ w → (d.pte w).u = false
  le : sz.toNat ≤ KERNBASE
  user : ∀ w, w < npages sz → (d.pte w).p = true ∧ (d.pte w).u = true
  above : ∀ w, npages sz ≤ w → w < UPAGES → d.pte w = Pte.zero
  inside : ∀ a b, imageByte c phs a = some b → a < sz.toNat
  bytes : ∀ a, a / PGSIZE < npages sz → load m d a = (imageByte c phs a).getD 0

namespace Image

theorem backed (h : Image T R m0 c phs sz m d) (ha : a / PGSIZE < npages sz) :
    Backed d a := ⟨by have := npages_le h.le; omega, (h.user _ ha).1⟩

theorem grow (hpool : Pool l T) (h : Image T R m0 c phs sz m d) {sz' : UInt32}
    (hlt : sz'.toNat < KERNBASE) (hle : sz ≤ sz') (hacc : Account T R m' d')
    (hg : Grown (npages sz) (npages sz') m d m' d') : Image T R m0 c phs sz' m' d' := by
  have hle' := UInt32.le_iff_toNat_le.mp hle
  have hpages : npages sz ≤ npages sz' := Nat.div_le_div_right (by omega)
  have hu := npages_le hlt.le
  refine ⟨hacc, fun f hf => ?_, fun w hw => ?_, hlt.le, fun w hw => ?_, fun w h1 h2 => ?_,
    fun a b hb => ?_, fun a ha => ?_⟩
  · exact (hg.ram f (h.account.not_free_other hpool hf)).trans (h.others f hf)
  · rw [hg.old w (by omega)]
    exact h.kernel w hw
  · by_cases hw' : w < npages sz
    · rw [hg.old w (.inl hw')]
      exact h.user w hw'
    · obtain ⟨f, -, hpte, -⟩ := hg.new w (by omega) hw
      rw [hpte]
      exact ⟨rfl, rfl⟩
  · rw [hg.old w (.inr h1)]
    exact h.above w (by omega) h2
  · have := h.inside a b hb
    omega
  · by_cases ha' : a / PGSIZE < npages sz
    · have hb := h.backed ha'
      rw [load, hg.old _ (.inl ha'),
        hg.ram _ (h.account.not_free hpool (Pgdir.mem_owned_page hb.1 hb.2))]
      exact h.bytes a ha'
    · obtain ⟨f, -, hpte, hzero⟩ := hg.new _ (by omega) ha
      have hnone : imageByte c phs a = none := by
        cases hb : imageByte c phs a with
        | none => rfl
        | some b => exact absurd (div_lt_npages (h.inside a b hb)) ha'
      rw [load, hpte, hnone]
      exact congrFun hzero _

theorem skip (h : Image T R m0 c phs sz m d) (hph : ph.type ≠ ELF_PROG_LOAD) :
    Image T R m0 c (phs ++ [ph]) sz m d := by
  have himage : ∀ a, imageByte c (phs ++ [ph]) a = imageByte c phs a := by
    intro a
    rw [imageByte_append, imageByte_none, Option.none_or]
    intro q hq hcov
    rw [List.mem_singleton.mp hq] at hcov
    exact hph hcov.1
  exact { h with
    inside := fun a b hb => h.inside a b (himage a ▸ hb)
    bytes := fun a ha => by rw [himage a]; exact h.bytes a ha }

theorem within_others (hpool : Pool l T) (h : Image T R m0 c phs sz m d) {lo hi : Nat}
    (hhi : hi ≤ sz.toNat) (hw : Within d lo hi m m') (f : Nat) (hf : f ∈ R) :
    m'.ram f = m0.ram f := by
  rw [hw.ram f fun a _ ha e => ?_]
  · exact h.others f hf
  · have hb := h.backed (div_lt_npages (show a < sz.toNat by omega))
    have hown : f ∈ d.owned := e ▸ Pgdir.mem_owned_page hb.1 hb.2
    have hnd := h.account.nodup hpool
    exact Multiset.disjoint_left.mp (Multiset.nodup_add.mp hnd).2.2
      (Multiset.mem_add.mpr (.inr hown)) hf

theorem loaded (hpool : Pool l T) (h : Image T R m0 c phs sz m d)
    (hph : ph.type = ELF_PROG_LOAD) (hin : ph.vaddr.toNat + ph.filesz.toNat ≤ sz.toNat)
    (hw : Within d ph.vaddr.toNat (ph.vaddr.toNat + ph.filesz.toNat) m m')
    (hload : Loaded d c ph.vaddr.toNat ph.off.toNat ph.vaddr.toNat
      (ph.vaddr.toNat + ph.filesz.toNat) m m') : Image T R m0 c (phs ++ [ph]) sz m' d := by
  refine { h with
    account := h.account.of_free hw.free
    others := h.within_others hpool hin hw
    inside := fun a b hb => ?_
    bytes := fun a ha => ?_ }
  · rw [imageByte_append, imageByte_single, Proghdr.byte] at hb
    split at hb
    · next hcov =>
      have := hcov.2.2
      omega
    · rw [Option.none_or] at hb
      exact h.inside a b hb
  · rw [hload.bytes a (h.backed ha), imageByte_append, imageByte_single, Proghdr.byte]
    have hiff : ph.Covers a ↔ ph.vaddr.toNat ≤ a ∧ a < ph.vaddr.toNat + ph.filesz.toNat := by
      simp only [Proghdr.Covers, hph, true_and]
    by_cases hcov : ph.Covers a
    · rw [if_pos (hiff.mp hcov), if_pos hcov, Option.some_or, Option.getD_some]
    · rw [if_neg (fun h => hcov (hiff.mpr h)), if_neg hcov, Option.none_or]
      exact h.bytes a ha

end Image

/-- A segment whose bytes are in the file, for pages below `top`. -/
structure Proghdr.Loadable (c : List UInt8) (top : Nat) (ph : Proghdr) : Prop where
  pos : 0 < ph.memsz.toNat
  mem : ph.filesz.toNat ≤ ph.memsz.toNat
  below : ph.vaddr.toNat + ph.memsz.toNat ≤ 4096 * top
  aligned : ph.vaddr % 4096 = 0
  file : ph.off.toNat + ph.filesz.toNat ≤ c.length

/-- The segments to be loaded can be, above a size that has been reached, and there is memory for
all pages below `top`. -/
structure Loads (T R : Multiset Nat) (c : List UInt8) (top : Nat) (sz : UInt32)
    (phs : List Proghdr) : Prop where
  lt : top < UPAGES
  ample : Ample T R top
  size : sz.toNat ≤ 4096 * top
  each : ∀ ph ∈ phs, ph.type = ELF_PROG_LOAD → ph.Loadable c top

/-- What `segments` leaves: pages in order, and the image of the headers if it did not give up,
which it does not if `P`. -/
def Attempt (T R : Multiset Nat) (m0 : Mem) (c : List UInt8) (phs : List Proghdr) (top : Nat)
    (P : Prop) (r : Option UInt32 × Mem × Pgdir) : Prop :=
  Account T R r.2.1 r.2.2 ∧ (∀ f ∈ R, r.2.1.ram f = m0.ram f) ∧
    (∀ sz, r.1 = some sz → Image T R m0 c phs sz r.2.1 r.2.2 ∧ (P → sz.toNat ≤ 4096 * top)) ∧
    (P → r.1 ≠ none)

variable {top : Nat}

theorem attempt_none {P : Prop} (h : Account T R m d) (hram : ∀ f ∈ R, m.ram f = m0.ram f)
    (hno : ¬ P) : Attempt T R m0 c phs top P (none, m, d) :=
  ⟨h, hram, fun _ hz => absurd hz.symm (Option.some_ne_none _), fun hP => absurd hP hno⟩

theorem Image.giveUp (h : Image T R m0 c phs sz m d) {qhs : List Proghdr} {P : Prop} (hno : ¬ P) :
    Attempt T R m0 c qhs top P (none, m, d) := attempt_none h.account h.others hno

theorem Attempt.imp {P Q : Prop} {r : Option UInt32 × Mem × Pgdir} (hQ : Q → P)
    (h : Attempt T R m0 c phs top P r) : Attempt T R m0 c phs top Q r :=
  ⟨h.1, h.2.1, fun sz hsz => ⟨(h.2.2.1 sz hsz).1, fun hq => (h.2.2.1 sz hsz).2 (hQ hq)⟩,
    fun hq => h.2.2.2 (hQ hq)⟩

namespace Loads

variable {qhs : List Proghdr} {sz' : UInt32}

theorem head (h : Loads T R c top sz (ph :: qhs)) : Loads T R c top sz [ph] :=
  { h with each := fun q hq => h.each q (List.mem_singleton.mp hq ▸ List.mem_cons_self) }

theorem tail (h : Loads T R c top sz (ph :: qhs)) : Loads T R c top sz qhs :=
  { h with each := fun q hq => h.each q (List.mem_cons_of_mem _ hq) }

theorem resize (h : Loads T R c top sz qhs) (hsz : sz'.toNat ≤ 4096 * top) :
    Loads T R c top sz' qhs := { h with size := hsz }

end Loads

theorem loadSegment_image (hpool : Pool l T) (hc : c.length < 4294967296)
    (h : Image T R m0 c phs sz m d) (hph : ph.type = ELF_PROG_LOAD) (top : Nat) :
    Ends (loadSegment l c ph m d sz) (fun _ => False)
      (Attempt T R m0 c (phs ++ [ph]) top (Loads T R c top sz [ph])) := by
  have hone : Loads T R c top sz [ph] → ph.Loadable c top ∧ top < 524288 := fun hl =>
    ⟨hl.each ph List.mem_cons_self hph, hl.lt⟩
  unfold loadSegment
  by_cases hmem : ph.memsz < ph.filesz
  · rw [if_pos hmem]
    refine h.giveUp fun hl => ?_
    have := (hone hl).1.mem
    rw [UInt32.lt_iff_toNat_lt] at hmem
    omega
  by_cases hwrap : ph.vaddr + ph.memsz < ph.vaddr
  · rw [if_neg hmem, if_pos hwrap]
    refine h.giveUp fun hl => ?_
    have := (hone hl).1.below
    have := (hone hl).2
    rw [UInt32.lt_iff_toNat_lt, UInt32.toNat_add] at hwrap
    omega
  rw [if_neg hmem, if_neg hwrap]
  have hend : (ph.vaddr + ph.memsz).toNat = ph.vaddr.toNat + ph.memsz.toNat := by
    have h1 := toNat_lt ph.vaddr
    have h2 := toNat_lt ph.memsz
    rw [UInt32.lt_iff_toNat_lt, UInt32.toNat_add] at hwrap
    rw [UInt32.toNat_add]
    omega
  have hmem' : ph.filesz.toNat ≤ ph.memsz.toNat := by
    rw [UInt32.lt_iff_toNat_lt] at hmem
    omega
  refine (allocuvm_grown hpool h.le h.above h.account).bind fun r hr => ?_
  obtain ⟨sz1, m1, d1⟩ := r
  -- Where `allocuvm` does not fail the image is as it was and reaches the end of the segment.
  have hcases : sz1 = 0 ∧ Attempt T R m0 c (phs ++ [ph]) top (Loads T R c top sz [ph])
        (none, m1, d1) ∨
      Image T R m0 c phs sz1 m1 d1 ∧ (ph.vaddr + ph.memsz).toNat ≤ sz1.toNat ∧
        (Loads T R c top sz [ph] → sz1.toNat ≤ 4096 * top) := by
    obtain ⟨hacc1, ⟨hz, hg, hno⟩ | ⟨hlt, hr⟩ | ⟨hlt, hle, hsz, hg⟩⟩ := hr
    · refine .inl ⟨hz, attempt_none hacc1 (fun f hf => ?_) fun hl => hno ?_ (hl.ample.mono ?_)⟩
      · exact (hg.ram f (h.account.not_free_other hpool hf)).trans (h.others f hf)
      · have := (hone hl).1.below
        have := (hone hl).2
        simp only [KERNBASE]
        omega
      · have := (hone hl).1.below
        simp only [npages]
        omega
    · obtain ⟨rfl, rfl, rfl⟩ : sz1 = sz ∧ m1 = m ∧ d1 = d := by simpa using hr
      exact .inr ⟨h, (UInt32.lt_iff_toNat_lt.mp hlt).le, Loads.size⟩
    · obtain rfl : sz1 = ph.vaddr + ph.memsz := hsz
      exact .inr ⟨h.grow hpool hlt hle hacc1 hg, le_rfl, fun hl => hend ▸ (hone hl).1.below⟩
  rcases hcases with ⟨rfl, hbad⟩ | ⟨himg, hle, htop⟩
  · exact hbad
  simp only
  by_cases hz : sz1 = 0
  · rw [if_pos hz]
    refine himg.giveUp fun hl => ?_
    have := (hone hl).1.pos
    rw [hz, UInt32.toNat_zero] at hle
    omega
  by_cases hal : ph.vaddr % 4096 ≠ 0
  · rw [if_neg hz, if_pos hal]
    exact himg.giveUp fun hl => hal (hone hl).1.aligned
  rw [if_neg hz, if_neg hal]
  have hal' : ph.vaddr.toNat % 4096 = 0 := by
    rw [not_not, ← UInt32.toNat_inj, UInt32.toNat_mod] at hal
    exact hal
  have hin : ph.vaddr.toNat + ph.filesz.toNat ≤ sz1.toNat := by omega
  have hmap : ∀ a, ph.vaddr.toNat ≤ a → a < ph.vaddr.toNat + ph.filesz.toNat → Backed d1 a :=
    fun a _ ha => himg.backed (div_lt_npages (by omega))
  refine (loaduvm_loaded hpool himg.account hal' (hin.trans himg.le) hc hmap).bind fun r hr => ?_
  obtain ⟨ok, m2⟩ := r
  obtain ⟨hw, hload, hfile⟩ := hr
  cases ok with
  | true =>
    have himg2 := himg.loaded hpool hph hin hw (hload rfl)
    refine ⟨himg2.account, himg2.others, fun sz' hsz => ?_, fun _ => Option.some_ne_none _⟩
    obtain rfl : sz1 = sz' := Option.some.inj hsz
    exact ⟨himg2, htop⟩
  | false =>
    have hram := himg.within_others hpool hin hw
    refine attempt_none (himg.account.of_free hw.free) hram fun hl => ?_
    exact absurd (hfile (hone hl).1.file) Bool.false_ne_true

theorem segments_image (hpool : Pool l T) (hc : c.length < 4294967296) (top : Nat) :
    ∀ (k : Nat) (off : UInt32) (phs : List Proghdr) (m : Mem) (d : Pgdir) (sz : UInt32),
      Image T R m0 c phs sz m d →
      Ends (segments l c k off m d sz) (fun _ => False)
        (Attempt T R m0 c (phs ++ proghdrs c k off) top
          (Loads T R c top sz (proghdrs c k off) ∧ off.toNat + 32 * k ≤ c.length)) := by
  intro k
  induction k with
  | zero =>
    intro off phs m d sz h
    refine ⟨h.account, h.others, fun sz' hsz => ?_, fun _ => Option.some_ne_none _⟩
    obtain rfl : sz = sz' := Option.some.inj hsz
    rw [proghdrs, List.append_nil]
    exact ⟨h, fun hl => hl.1.size⟩
  | succ k ih =>
    intro off phs m d sz h
    have hthere : off.toNat + 32 * (k + 1) ≤ c.length →
        ∃ b, readi c off Proghdr.size = some b ∧ b.length = Proghdr.size.toNat := fun hfile =>
      readi_some (by simp only [Proghdr.size, UInt32.reduceToNat]; omega) hc
    have hnext : off.toNat + 32 * (k + 1) ≤ c.length →
        (off + Proghdr.size).toNat + 32 * k ≤ c.length := fun hfile => by
      rw [UInt32.toNat_add]
      simp only [Proghdr.size, UInt32.reduceToNat]
      omega
    rw [segments]
    cases hread : readi c off Proghdr.size with
    | none =>
      refine h.giveUp fun hl => ?_
      obtain ⟨b, hb, -⟩ := hthere hl.2
      cases hread.symm.trans hb
    | some b =>
      by_cases hlen : b.length ≠ Proghdr.size.toNat
      · simp only [if_pos hlen]
        refine h.giveUp fun hl => ?_
        obtain ⟨b', hb', hlen'⟩ := hthere hl.2
        cases hread.symm.trans hb'
        exact hlen hlen'
      · simp only [if_neg hlen]
        have hph : Proghdr.parse (fun i => b.getD i 0) =
            Proghdr.parse fun i => c.getD (off.toNat + i) 0 :=
          Proghdr.parse_congr (readi_full hread (not_not.mp hlen)).2
        rw [hph, proghdrs, List.append_cons phs]
        generalize Proghdr.parse (fun i => c.getD (off.toNat + i) 0) = ph
        by_cases hload : ph.type ≠ ELF_PROG_LOAD
        · rw [if_pos hload]
          refine (ih _ _ m d sz (h.skip hload)).imp fun r => .imp fun hl => ?_
          exact ⟨hl.1.tail, hnext hl.2⟩
        · rw [if_neg hload]
          refine (loadSegment_image hpool hc h (not_not.mp hload) top).bind fun r hr => ?_
          obtain ⟨sz1, m1, d1⟩ := r
          obtain ⟨hacc, hothers, hsome, hno⟩ := hr
          cases sz1 with
          | none => exact attempt_none hacc hothers fun hl => hno hl.1.head rfl
          | some sz1 =>
            refine (ih _ _ m1 d1 sz1 (hsome sz1 rfl).1).imp fun r => .imp fun hl => ?_
            exact ⟨hl.1.tail.resize ((hsome sz1 rfl).2 hl.1.head), hnext hl.2⟩

end Xv6.Vm
