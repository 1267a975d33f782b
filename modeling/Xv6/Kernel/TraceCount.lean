import Xv6.Kernel.Trace

/-!
# Xv6.Kernel.TraceCount

What the tracer's counters count.

`calls` is the history: for each name, cut to `DIRSIZ` characters, and each number, the calls that
were made while `trace_state` was 1 since the last `trace_syscalls(0)`. `Table` says that the valid
entries are the first `n`, with different names, that their counters are the numbers of calls, and
that the rest of the table is clear, so that a name that is new finds a clear entry right behind
them. The counters are words of 32 bits; the numbers of calls are not.
-/

namespace Xv6.Kernel

open Bytes List Finset

/-- What `namecmp` looks at. -/
abbrev Key : Type := List UInt8

def key (name : Nat → UInt8) : Key := strkey name DIRSIZ 0

theorem namecmp_eq_zero {s t : Nat → UInt8} : namecmp s t = 0 ↔ key s = key t :=
  strncmp_eq_zero_iff s t DIRSIZ 0

structure Tracer where
  st : TraceSt
  calls : Key → UInt32 → Nat

namespace Tracer

/-- The calls since the last `trace_syscalls(0)`, after one more. -/
def note (t : Tracer) (name : Name) (num : UInt32) (arg : Int) : Key → UInt32 → Nat :=
  if num = SYS_trace_syscalls ∧ wrap arg = 0 then fun _ _ => 0
  else if t.st.state = 1 then fun k j =>
    if k = key name.chars ∧ j = num then t.calls k j + 1 else t.calls k j
  else t.calls

def Boot (L : Layout) (t : Tracer) : Prop := t.st.Boot L ∧ ∀ k j, t.calls k j = 0

/-- Calls with the numbers 1 to 26 by processes whose names are in `K`. -/
inductive Step (L : Layout) (K : Finset Key) : Tracer → TraceEvent → Tracer → Prop where
  | call {t : Tracer} {name : Name} {num : UInt32} {arg : Int} :
      key name.chars ∈ K → 1 ≤ num.toNat → num.toNat ≤ 26 →
      Step L K t (.call name num arg) ⟨t.st.syscall L name num arg, t.note name num arg⟩
  | other {t : Tracer} {m : Store}
      (h : ∀ p, L.tracer ≤ p → p < L.tracer + 21600 → m p = t.st.mem p) :
      Step L K t (.other m) ⟨{ t.st with mem := m }, t.calls⟩

end Tracer

namespace Layout

/-- `tracer[i].syscalls[num]`, as the word it is. -/
def counter (L : Layout) (m : Store) (i : Fin 100) (num : UInt32) : UInt32 :=
  rd32 m (L.counterAt i num)

def entryKey (L : Layout) (m : Store) (i : Fin 100) : Key := key (L.entryName m i)

end Layout

/-- The table `m` has `n` entries, which hold the counts `calls`. -/
structure Table (L : Layout) (K : Finset Key) (calls : Key → UInt32 → Nat) (m : Store) (n : Nat) :
    Prop where
  valid : ∀ i, L.valid m i = 1 ↔ i.val < n
  inj : ∀ i j : Fin 100, i.val < n → j.val < n → L.entryKey m i = L.entryKey m j → i = j
  known : ∀ i : Fin 100, i.val < n → L.entryKey m i ∈ K
  count : ∀ i : Fin 100, i.val < n → ∀ num : UInt32, num.toNat < 27 →
    L.counter m i num = UInt32.ofNat (calls (L.entryKey m i) num)
  clear : ∀ i : Fin 100, n ≤ i.val → ∀ num : UInt32, num.toNat < 27 → L.counter m i num = 0
  made : ∀ k num, calls k num ≠ 0 → ∃ i : Fin 100, i.val < n ∧ L.entryKey m i = k

section Entries

variable {L : Layout} {K : Finset Key} {calls : Key → UInt32 → Nat} {m m' : Store} {n : Nat}
  {name : Name} {num : UInt32} {i : Fin 100}

theorem strkey_congr {p q : Nat → UInt8} (len : Nat) :
    ∀ k, (∀ j, k ≤ j → j < k + len → p j = q j) → strkey p len k = strkey q len k := by
  induction len with
  | zero => intro k _; rfl
  | succ len ih =>
    intro k h
    rw [strkey, strkey, h k (Nat.le_refl k) (by omega),
      ih (k + 1) fun j h1 h2 => h j (by omega) (by omega)]

theorem entryKey_congr (h : ∀ j, j < 14 → m' (L.nameAt i + j) = m (L.nameAt i + j)) :
    L.entryKey m' i = L.entryKey m i := by
  refine strkey_congr DIRSIZ 0 fun j _ hj => h j ?_
  simpa using hj

theorem counter_congr (hnum : num.toNat < 27)
    (h : ∀ k, k < 4 → m' (L.tracer + 216 * i + 104 + 4 * num.toNat + k) =
      m (L.tracer + 216 * i + 104 + 4 * num.toNat + k)) : L.counter m' i num =
        L.counter m i num := by
  unfold Layout.counter rd32
  rw [Layout.counterAt_eq hnum, value_congr h]

theorem addLoop_skip {l l' : List (Fin 100)}
    (h : ∀ i ∈ l, L.valid m i = 1 ∧ namecmp (L.entryName m i) name.chars ≠ 0) :
    L.addLoop name num (l ++ l') m = L.addLoop name num l' m := by
  induction l with
  | nil => rfl
  | cons i l ih =>
    obtain ⟨hv, hn⟩ := h i List.mem_cons_self
    rw [cons_append, Layout.addLoop, if_pos hv, if_neg hn]
    exact ih fun j hj => h j (List.mem_cons_of_mem i hj)

theorem finRange_split (i : Fin 100) : ∃ l l', List.finRange 100 = l ++ i :: l' ∧
    ∀ j ∈ l, j.val < i.val := by
  refine ⟨(List.finRange 100).take i, (List.finRange 100).drop (i + 1), ?_, fun j hj => ?_⟩
  · have hlt : i.val < (List.finRange 100).length := by simp
    have hget : (List.finRange 100)[i.val] = i := by simp
    conv_lhs => rw [← take_append_drop i.val (List.finRange 100), drop_eq_getElem_cons hlt, hget]
  · obtain ⟨k, hk, rfl⟩ := mem_iff_getElem.mp hj
    rw [length_take] at hk
    simp only [getElem_take, getElem_finRange, Fin.val_cast]
    omega

theorem Table.addLoop (h : Table L K calls m n) (num : UInt32) (hK : K.card ≤ 100)
    (hname : key name.chars ∈ K) : ∃ i m1, L.addLoop name num (List.finRange 100) m =
        (some i, L.count i num (wr32 m1 (L.validAt i) 1)) ∧
      (m1 = m ∧ i.val < n ∧ L.entryKey m i = key name.chars ∨
        m1 = L.writeToTrace i name m ∧ i.val = n ∧
          ∀ j : Fin 100, j.val < n → L.entryKey m j ≠ key name.chars) := by
  by_cases hex : ∃ i : Fin 100, i.val < n ∧ L.entryKey m i = key name.chars
  · obtain ⟨i, hi, hk⟩ := hex
    obtain ⟨l, l', hsplit, hl⟩ := finRange_split i
    refine ⟨i, m, ?_, .inl ⟨rfl, hi, hk⟩⟩
    rw [hsplit, addLoop_skip, Layout.addLoop, if_pos ((h.valid i).mpr hi),
      if_pos (namecmp_eq_zero.mpr hk)]
    intro j hj
    have hjn : j.val < n := Nat.lt_trans (hl j hj) hi
    refine ⟨(h.valid j).mpr hjn, fun hz => ?_⟩
    obtain rfl := h.inj j i hjn hi ((namecmp_eq_zero.mp hz).trans hk.symm)
    exact Nat.lt_irrefl _ (hl j hj)
  · have hno : ∀ j : Fin 100, j.val < n → L.entryKey m j ≠ key name.chars := fun j hj hk =>
      hex ⟨j, hj, hk⟩
    -- the names in the table are different names of `K`, without this one
    have hlt : n < 100 := by
      by_contra hge
      have hinj : Function.Injective (L.entryKey m) := fun i j =>
        h.inj i j (by omega) (by omega)
      have hsub : Finset.univ.image (L.entryKey m) ⊆ K.erase (key name.chars) := by
        intro k hk
        obtain ⟨j, -, rfl⟩ := mem_image.mp hk
        exact mem_erase.mpr ⟨hno j (by omega), h.known j (by omega)⟩
      have hcard := card_le_card hsub
      rw [card_image_of_injective _ hinj, card_univ, Fintype.card_fin,
        card_erase_of_mem hname] at hcard
      omega
    obtain ⟨l, l', hsplit, hl⟩ := finRange_split ⟨n, hlt⟩
    refine ⟨⟨n, hlt⟩, _, ?_, .inr ⟨rfl, rfl, hno⟩⟩
    have hfree : ¬ L.valid m ⟨n, hlt⟩ = 1 := fun hv => Nat.lt_irrefl n ((h.valid _).mp hv)
    rw [hsplit, addLoop_skip, Layout.addLoop, if_neg hfree]
    intro j hj
    have hjn : j.val < n := hl j hj
    exact ⟨(h.valid j).mpr hjn, fun hz => hno j hjn (namecmp_eq_zero.mp hz)⟩

namespace Layout.Traced

variable (h : L.Traced m name num i m')
include h

theorem key_self : L.entryKey m' i = key name.chars := namecmp_eq_zero.mp h.entry

theorem key_other {j : Fin 100} (hj : j ≠ i) : L.entryKey m' j = L.entryKey m j := by
  have hne : j.val ≠ i.val := fun heq => hj (Fin.ext heq)
  have hidx := h.index
  have hc := Layout.counterAt_eq (L := L) (i := i) hidx
  refine entryKey_congr fun k hk => h.frame _ ?_ ?_ ?_
  · simp only [Layout.nameAt]
    omega
  · simp only [Layout.nameAt, Layout.validAt]
    omega
  · rw [hc]
    simp only [Layout.nameAt]
    omega

theorem counter_self : L.counter m' i num = L.counter m i num + 1 := h.counter

theorem counter_other {j : Fin 100} {num' : UInt32} (hnum : num'.toNat < 27)
    (hj : j ≠ i ∨ num' ≠ num) : L.counter m' j num' = L.counter m j num' := by
  have hidx := h.index
  have hc := Layout.counterAt_eq (L := L) (i := i) hidx
  have hne : j.val ≠ i.val ∨ num'.toNat ≠ num.toNat :=
    hj.imp (fun hne heq => hne (Fin.ext heq)) fun hne heq => hne (UInt32.toNat_inj.mp heq)
  refine counter_congr hnum fun k hk => h.frame _ ?_ ?_ ?_
  · simp only [Layout.nameAt]
    omega
  · simp only [Layout.validAt]
    omega
  · rw [hc]
    omega

end Layout.Traced

theorem Table.counter_before (h : Table L K calls m n)
    (hi : i.val < n ∧ L.entryKey m i = key name.chars ∨
      i.val = n ∧ ∀ j : Fin 100, j.val < n → L.entryKey m j ≠ key name.chars)
    {x : UInt32} (hx : x.toNat < 27) :
    L.counter m i x = UInt32.ofNat (calls (key name.chars) x) := by
  rcases hi with ⟨hlt, hk⟩ | ⟨heq, hno⟩
  · rw [← hk]
    exact h.count i hlt x hx
  · have hzero : calls (key name.chars) x = 0 := by
      by_contra hne
      obtain ⟨a, ha, hk⟩ := h.made _ _ hne
      exact hno a ha hk
    rw [h.clear i (by omega) x hx, hzero]
    rfl

theorem Table.traced (h : Table L K calls m n) (hn : n ≤ 100) (hname : key name.chars ∈ K)
    (htr : L.Traced m name num i m') (hi : i.val < n ∧ L.entryKey m i = key name.chars ∨
      i.val = n ∧ ∀ j : Fin 100, j.val < n → L.entryKey m j ≠ key name.chars) :
    ∃ n' ≤ 100, Table L K (fun k j => if k = key name.chars ∧ j = num then calls k j + 1
      else calls k j) m' n' := by
  have hself := htr.key_self
  have hother : ∀ j, j ≠ i → L.entryKey m' j = L.entryKey m j := fun j => htr.key_other
  have hilt := i.isLt
  -- the entries after the call are those before it and `i`
  obtain ⟨n', hn', hmem, hnew⟩ : ∃ n' ≤ 100, (∀ j : Fin 100, j.val < n' ↔ j.val < n ∨ j = i) ∧
      ∀ j : Fin 100, j ≠ i → j.val < n → L.entryKey m j ≠ key name.chars := by
    rcases hi with ⟨hlt, hk⟩ | ⟨heq, hno⟩
    · refine ⟨n, hn, fun j => ?_, fun j hj hjn hk' => hj (h.inj j i hjn hlt (hk'.trans hk.symm))⟩
      exact ⟨.inl, fun hor => hor.elim id fun heq => heq ▸ hlt⟩
    · refine ⟨n + 1, by omega, fun j => ?_, fun j _ hjn => hno j hjn⟩
      rw [Fin.ext_iff]
      omega
  refine ⟨n', hn', ?_, ?_, ?_, ?_, ?_, ?_⟩
  · intro j
    rw [hmem]
    by_cases hj : j = i
    · subst hj
      exact iff_of_true htr.marked (.inr rfl)
    · rw [htr.others j hj, h.valid]
      simp [hj]
  · intro a b ha hb hab
    by_cases hai : a = i
    · by_cases hbi : b = i
      · rw [hai, hbi]
      · rw [hai, hself, hother b hbi] at hab
        exact absurd hab.symm (hnew b hbi (((hmem b).mp hb).resolve_right hbi))
    · by_cases hbi : b = i
      · rw [hbi, hself, hother a hai] at hab
        exact absurd hab (hnew a hai (((hmem a).mp ha).resolve_right hai))
      · rw [hother a hai, hother b hbi] at hab
        exact h.inj a b (((hmem a).mp ha).resolve_right hai)
          (((hmem b).mp hb).resolve_right hbi) hab
  · intro j hj
    by_cases hji : j = i
    · rw [hji, hself]
      exact hname
    · rw [hother j hji]
      exact h.known j (((hmem j).mp hj).resolve_right hji)
  · intro j hj num' hnum'
    by_cases hji : j = i
    · subst hji
      rw [hself]
      have hbefore := fun x (hx : UInt32.toNat x < 27) => h.counter_before hi hx
      by_cases hx : num' = num
      · subst hx
        rw [htr.counter_self, hbefore num' hnum', if_pos ⟨rfl, rfl⟩, UInt32.ofNat_add]
        rfl
      · rw [htr.counter_other hnum' (.inr hx), hbefore num' hnum', if_neg fun hc => hx hc.2]
    · have hjn := ((hmem j).mp hj).resolve_right hji
      rw [htr.counter_other hnum' (.inl hji), hother j hji, h.count j hjn num' hnum',
        if_neg fun hc => hnew j hji hjn hc.1]
  · intro j hj num' hnum'
    have hnot : ¬ (j.val < n ∨ j = i) := fun hor => Nat.not_lt.mpr hj ((hmem j).mpr hor)
    rw [htr.counter_other hnum' (.inl fun heq => hnot (.inr heq))]
    exact h.clear j (Nat.not_lt.mp fun hlt => hnot (.inl hlt)) num' hnum'
  · intro k num' hne
    by_cases hk : k = key name.chars
    · exact ⟨i, (hmem i).mpr (.inr rfl), hself.trans hk.symm⟩
    · rw [if_neg fun hc => hk hc.1] at hne
      obtain ⟨j, hj, hjk⟩ := h.made k num' hne
      have hji : j ≠ i ∨ j = i := (em (j = i)).symm
      rcases hji with hji | rfl
      · exact ⟨j, (hmem j).mpr (.inl hj), (hother j hji).trans hjk⟩
      · rcases hi with ⟨-, hk'⟩ | ⟨heq, -⟩
        · exact absurd (hjk.symm.trans hk') hk
        · exact absurd hj (by omega)

end Entries

section Reset

variable {L : Layout} {i a : Fin 100} {num : UInt32}

theorem counter_wr32 {m : Store} {p : Nat} {v : UInt32} (hnum : num.toNat < 27)
    (hp : p + 4 ≤ L.tracer + 216 * i + 104 + 4 * num.toNat ∨
      L.tracer + 216 * i + 104 + 4 * num.toNat + 4 ≤ p) :
    L.counter (wr32 m p v) i num = L.counter m i num := by
  refine counter_congr hnum fun k hk => ?_
  exact patch_out (by omega)

theorem counter_clear (hnum : num.toNat < 27) (l : List Nat) :
    ∀ m : Store, (∀ j ∈ l, j < 27) → (i = a ∧ num.toNat ∈ l) ∨ L.counter m i num = 0 →
      L.counter (l.foldl (fun m j => wr32 m (L.counterAt a (.ofNat j)) 0) m) i num = 0 := by
  induction l with
  | nil =>
    intro m _ h
    exact h.resolve_left fun hc => absurd hc.2 not_mem_nil
  | cons j l ih =>
    intro m hl h
    have hj : j < 27 := hl j List.mem_cons_self
    have hval : (UInt32.ofNat j).toNat = j := by
      rw [UInt32.toNat_ofNat']
      omega
    have hat : L.counterAt a (.ofNat j) = _ := Layout.counterAt_eq (by omega)
    rw [foldl_cons]
    refine ih _ (fun j' hj' => hl j' (List.mem_cons_of_mem j hj')) ?_
    by_cases hsame : i = a ∧ num.toNat = j
    · obtain ⟨rfl, hnj⟩ := hsame
      refine .inr ?_
      have heq : num = .ofNat j := UInt32.toNat_inj.mp (by omega)
      rw [heq]
      exact rd32_wr32_same m _ 0
    · have hcell : i.val ≠ a.val ∨ num.toNat ≠ j := by
        by_contra hno
        exact hsame ⟨Fin.ext (by omega), by omega⟩
      rw [counter_wr32 hnum (by rw [hat, hval]; omega)]
      refine h.imp_left fun hc => ⟨hc.1, (List.mem_cons.mp hc.2).resolve_left ?_⟩
      intro heq
      exact hsame ⟨hc.1, heq⟩

theorem counter_resetTrace (hnum : num.toNat < 27) (l : List (Fin 100)) :
    ∀ m : Store, i ∈ l ∨ L.counter m i num = 0 →
      L.counter (l.foldl (fun m i =>
        (List.range 27).foldl (fun m j => wr32 m (L.counterAt i (.ofNat j)) 0)
          (wr32 m (L.validAt i) 0)) m) i num = 0 := by
  induction l with
  | nil =>
    intro m h
    exact h.resolve_left not_mem_nil
  | cons a l ih =>
    intro m h
    rw [foldl_cons]
    refine ih _ ?_
    by_cases hia : i = a
    · refine .inr (counter_clear hnum _ _ (fun j hj => List.mem_range.mp hj) (.inl ⟨hia, ?_⟩))
      exact List.mem_range.mpr hnum
    · refine h.imp (fun hmem => (List.mem_cons.mp hmem).resolve_left hia) fun h0 => ?_
      refine counter_clear hnum _ _ (fun j hj => List.mem_range.mp hj) (.inr ?_)
      rw [counter_wr32 hnum (by rw [Layout.validAt]; omega), h0]

theorem table_reset (L : Layout) (K : Finset Key) (m : Store) :
    Table L K (fun _ _ => 0) (L.resetTrace m) 0 := by
  refine ⟨fun i => ?_, fun i j hi => absurd hi (Nat.not_lt_zero _), fun i hi =>
    absurd hi (Nat.not_lt_zero _), fun i hi => absurd hi (Nat.not_lt_zero _), ?_, ?_⟩
  · have hzero := valid_resetTrace (L := L) (i := i) (List.finRange 100) m
      (.inl (mem_finRange i))
    refine iff_of_false (fun h1 => ?_) (Nat.not_lt_zero _)
    rw [Layout.resetTrace, hzero] at h1
    exact absurd h1 (by decide)
  · intro i _ num hnum
    have hzero := counter_resetTrace (L := L) (i := i) hnum (List.finRange 100) m
      (.inl (mem_finRange i))
    rw [Layout.resetTrace, hzero]
  · intro k num hne
    exact absurd rfl hne

end Reset

namespace Tracer

variable {L : Layout} {K : Finset Key} {t t' : Tracer}

/-- The table of the tracer is in order. -/
def Counts (L : Layout) (K : Finset Key) (t : Tracer) : Prop :=
  ∃ n ≤ 100, Table L K t.calls t.st.mem n

theorem Counts.addSyscall (hK : K.card ≤ 100) (h : t.Counts L K) {name : Name} {num : UInt32}
    (hname : key name.chars ∈ K) (hnum : num.toNat < 27) (hon : t.st.state = 1) :
    ∃ n ≤ 100, Table L K
      (fun k j => if k = key name.chars ∧ j = num then t.calls k j + 1 else t.calls k j)
      (L.addSyscall t.st.state name num t.st.mem).2 n := by
  obtain ⟨n, hn, htab⟩ := h
  obtain ⟨i, m1, hrun, hwhere⟩ := htab.addLoop num hK hname
  rw [Layout.addSyscall, if_pos hon, hrun]
  rcases hwhere with ⟨rfl, hi, hk⟩ | ⟨rfl, hi, hno⟩
  · refine htab.traced hn hname ?_ (.inl ⟨hi, hk⟩)
    exact Layout.traced_count hnum (namecmp_eq_zero.mpr hk) (fun _ _ => rfl) fun _ => rfl
  · refine htab.traced hn hname ?_ (.inr ⟨hi, hno⟩)
    refine Layout.traced_count hnum Layout.namecmp_write ?_ fun _ => Layout.valid_write
    intro p hp
    have hshort := name.short
    exact patch_out (by omega)

theorem Counts.step (hK : K.card ≤ 100) {e : TraceEvent} (h : t.Counts L K)
    (hs : Step L K t e t') : t'.Counts L K := by
  cases hs with
  | @call name num arg hname hlo hhi =>
    unfold Counts TraceSt.syscall note
    by_cases hreset : num = SYS_trace_syscalls ∧ wrap arg = 0
    · have htab := table_reset L K (L.addSyscall t.st.state name num t.st.mem).2
      rw [if_pos hreset, if_pos hreset.1, if_pos hreset.2]
      generalize L.resetTrace (L.addSyscall t.st.state name num t.st.mem).2 = m at htab ⊢
      exact ⟨0, Nat.zero_le _, htab⟩
    · have hmem : ∀ m : Store, (if num = SYS_trace_syscalls then
          (⟨if wrap arg = 0 then L.resetTrace m else m, wrap arg⟩ : TraceSt)
          else { t.st with mem := m }).mem = m := by
        intro m
        by_cases htr : num = SYS_trace_syscalls
        · rw [if_pos htr, if_neg fun h0 => hreset ⟨htr, h0⟩]
        · rw [if_neg htr]
      rw [if_neg hreset]
      simp only [hmem]
      by_cases hon : t.st.state = 1
      · rw [if_pos hon]
        exact h.addSyscall hK hname (by omega) hon
      · rw [if_neg hon, Layout.addSyscall, if_neg hon]
        exact h
  | @other m hm =>
    obtain ⟨n, hn, htab⟩ := h
    -- nothing in the table changes
    have hvalid : ∀ i, L.valid m i = L.valid t.st.mem i := by
      intro i
      have hi := i.isLt
      unfold Layout.valid rd32
      rw [value_congr fun k hk => hm (L.validAt i + k) (by rw [Layout.validAt]; omega)
        (by rw [Layout.validAt]; omega)]
    have hkey : ∀ i, L.entryKey m i = L.entryKey t.st.mem i := by
      intro i
      have hi := i.isLt
      exact entryKey_congr fun j hj => hm _ (by rw [Layout.nameAt]; omega)
        (by rw [Layout.nameAt]; omega)
    have hcount : ∀ i, ∀ num : UInt32, num.toNat < 27 → L.counter m i num =
        L.counter t.st.mem i num := by
      intro i num hnum
      have hi := i.isLt
      exact counter_congr hnum fun k hk => hm _ (by omega) (by omega)
    refine ⟨n, hn, ?_, ?_, ?_, ?_, ?_, ?_⟩
    · intro i
      rw [hvalid]
      exact htab.valid i
    · intro i j hi hj hij
      rw [hkey, hkey] at hij
      exact htab.inj i j hi hj hij
    · intro i hi
      rw [hkey]
      exact htab.known i hi
    · intro i hi num hnum
      rw [hkey, hcount i num hnum]
      exact htab.count i hi num hnum
    · intro i hi num hnum
      rw [hcount i num hnum]
      exact htab.clear i hi num hnum
    · intro k num hne
      obtain ⟨i, hi, hk⟩ := htab.made k num hne
      exact ⟨i, hi, (hkey i).trans hk⟩

theorem reach_counts (hK : K.card ≤ 100) (h : Reach (Boot L) (Step L K) t) : t.Counts L K := by
  refine h.invariant (P := Counts L K) ?_ fun _ _ _ => Counts.step hK
  rintro t ⟨⟨-, m, hm⟩, hcalls⟩
  refine ⟨0, Nat.zero_le _, ?_⟩
  have hzero : t.calls = fun _ _ => 0 := by
    funext k j
    exact hcalls k j
  rw [hm, hzero]
  exact table_reset L K m

/-- After any calls by processes with at most 100 names: the valid entries are the first of the
table, no two have the same name, and the counter of a name and a number is the number of the calls,
as an `int`; a name without an entry has made none. -/
theorem trace_counts (L : Layout) {K : Finset Key} (hK : K.card ≤ 100)
    (h : Reach (Boot L) (Step L K) t) : ∃ n ≤ 100, (∀ i, L.valid t.st.mem i = 1 ↔ i.val < n) ∧
      (∀ i j : Fin 100, i.val < n → j.val < n →
        namecmp (L.entryName t.st.mem i) (L.entryName t.st.mem j) = 0 → i = j) ∧
      (∀ i : Fin 100, i.val < n → ∀ (name : Name) (num : UInt32), num.toNat ≤ 26 →
        namecmp (L.entryName t.st.mem i) name.chars = 0 →
        L.counter t.st.mem i num = UInt32.ofNat (t.calls (key name.chars) num)) ∧
      ∀ (name : Name) (num : UInt32),
        (∀ i : Fin 100, i.val < n → namecmp (L.entryName t.st.mem i) name.chars ≠ 0) →
        t.calls (key name.chars) num = 0 := by
  obtain ⟨n, hn, htab⟩ := reach_counts hK h
  refine ⟨n, hn, htab.valid, ?_, ?_, ?_⟩
  · intro i j hi hj hij
    exact htab.inj i j hi hj (namecmp_eq_zero.mp hij)
  · intro i hi name num hnum hname
    have hk : L.entryKey t.st.mem i = key name.chars := namecmp_eq_zero.mp hname
    rw [← hk]
    exact htab.count i hi num (by omega)
  · intro name num hno
    by_contra hne
    obtain ⟨i, hi, hk⟩ := htab.made _ _ hne
    exact hno i hi (namecmp_eq_zero.mpr hk)

/-- The shell is the only process. -/
def shellOnly : Finset Key := {key shellName.chars}

def bootTracer : Tracer := ⟨bootTrace, fun _ _ => 0⟩

theorem reach_getpid (n : Nat) :
    ∃ t, Reach (Boot lowLayout) (Step lowLayout shellOnly) t ∧ t.st.state = 1 ∧
      t.calls (key shellName.chars) 11 = n := by
  have hmem : key shellName.chars ∈ shellOnly := Finset.mem_singleton_self _
  induction n with
  | zero =>
    have h0 : Reach (Boot lowLayout) (Step lowLayout shellOnly) bootTracer :=
      .start ⟨bootTrace_boot, fun _ _ => rfl⟩
    refine ⟨_, h0.step (@Step.call _ _ _ shellName SYS_trace_syscalls 1 hmem (by decide)
      (by decide)), ?_, ?_⟩
    · rw [bootTracer, bootTrace, syscall_on]
    · rw [note, if_neg (by decide), if_neg (by decide)]
      rfl
  | succ n ih =>
    obtain ⟨t, ht, hon, hn⟩ := ih
    refine ⟨_, ht.step (@Step.call _ _ _ shellName 11 0 hmem (by decide) (by decide)), ?_, ?_⟩
    · simp only [TraceSt.syscall, if_neg (show ¬ (11 : UInt32) = SYS_trace_syscalls by decide)]
      exact hon
    · rw [note, if_neg (by decide), if_pos hon]
      simp only [and_self, if_true, hn]

theorem getpid_counter (n : Nat) (hpos : n ≠ 0) :
    ∃ t, Reach (Boot lowLayout) (Step lowLayout shellOnly) t ∧
      t.calls (key shellName.chars) 11 = n ∧ ∃ i, lowLayout.valid t.st.mem i = 1 ∧
      namecmp (lowLayout.entryName t.st.mem i) shellName.chars = 0 ∧
      lowLayout.counter t.st.mem i 11 = UInt32.ofNat n := by
  obtain ⟨t, ht, -, hn⟩ := reach_getpid n
  obtain ⟨k, -, htab⟩ := reach_counts (by decide) ht
  obtain ⟨i, hi, hk⟩ := htab.made (key shellName.chars) 11 (by rw [hn]; exact hpos)
  refine ⟨t, ht, hn, i, (htab.valid i).mpr hi, namecmp_eq_zero.mpr hk, ?_⟩
  rw [htab.count i hi 11 (by decide), hk, hn]

theorem trace_counts_getpid : ∃ (t : Tracer) (i : Fin 100), lowLayout.valid t.st.mem i = 1 ∧
      lowLayout.counter t.st.mem i 11 = UInt32.ofNat (t.calls (key shellName.chars) 11) ∧
      t.calls (key shellName.chars) 11 = 3 := by
  obtain ⟨t, ht, hn, i, hv, hk, -⟩ := getpid_counter 3 (by decide)
  obtain ⟨k, -, hvalid, -, hcount, -⟩ := trace_counts lowLayout (by decide) ht
  exact ⟨t, i, hv, hcount i ((hvalid i).mp hv) shellName 11 (by decide) hk, hn⟩

/-- After `2 ^ 31` calls the `int` is negative. -/
theorem counter_overflows : ∃ t, Reach (Boot lowLayout) (Step lowLayout shellOnly) t ∧ ∃ i,
      lowLayout.valid t.st.mem i = 1 ∧
      namecmp (lowLayout.entryName t.st.mem i) shellName.chars = 0 ∧
      int32 (lowLayout.counter t.st.mem i 11) ≠ t.calls (key shellName.chars) 11 := by
  obtain ⟨t, ht, hn, i, hv, hk, hc⟩ := getpid_counter (2 ^ 31) (by decide)
  refine ⟨t, ht, i, hv, hk, ?_⟩
  rw [hc, hn]
  decide

end Tracer

end Xv6.Kernel
