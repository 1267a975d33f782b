import Xv6.Console.Input

/-!
# Xv6.Console.Clipboard

What `Ctrl-C` and `Ctrl-X` put into the clipboard.

`copy_line` does not follow the ring: it reads the buffer from its start to the first NUL, and keeps
the bytes whose index is at least `input.w`. In the first lap that NUL stands where the line ends,
so the line is what is kept. Later the buffer is full of old lines, the line can begin at the front
of the buffer again, and `input.w` is larger than every index; what is kept then is not the line,
and where no byte has been erased the loop does not stop before the end of the buffer. `StopsAtEnd`
says when the copy is right.
-/

namespace Xv6.Console

open List Option

namespace Input

variable {s s' : Input} {xs ys : List UInt8}

/-- The line being edited: the bytes at the positions `w`, ..., `e - 1` of the ring. -/
def line (s : Input) : List UInt8 := (⟨s.buf, s.w, s.e⟩ : Fifo UInt8 INPUT_BUF).contents

/-- The clipboard up to its first NUL. -/
def clipped (s : Input) : Option (List UInt8) := cstring ((range INPUT_BUF).map s.clipboard)

/-- The loop of `copy_line` reads nothing behind the buffer. -/
def Stays (s : Input) : Prop := ∃ a, cstring s.bytes = some a ∧ a.length < INPUT_BUF

def FirstNul (s : Input) (z : Nat) : Prop := z < INPUT_BUF ∧ s.buf z = 0 ∧ ∀ i < z, s.buf i ≠ 0

instance (s : Input) (z : Nat) : Decidable (s.FirstNul z) := inferInstanceAs (Decidable (_ ∧ _))

/-- The first NUL of the buffer is where the line ends, and the line is not wrapped; or the line is
empty and no byte at or behind `w` comes before that NUL. -/
def StopsAtEnd (s : Input) : Prop :=
  ∃ z, s.FirstNul z ∧ (z = s.w.toNat + (s.e - s.w).toNat ∨ (s.e = s.w ∧ z ≤ s.w.toNat))

/-- The line is in the clipboard, and nothing else has changed. -/
def Captured (s s' : Input) : Prop :=
  s'.clipped = some s.line ∧ s' = { s with clipboard := s'.clipboard }

theorem Ring.edited (h : Ring s xs ys) :
    Fifo.Holds (⟨s.buf, s.w, s.e⟩ : Fifo UInt8 INPUT_BUF) ys := by
  have hle := h.length_le
  have he : s.e = s.r + UInt32.ofNat (xs ++ ys).length := h.holds.count
  refine ⟨(Nat.le_add_left _ _).trans hle, ?_, fun i x hx => ?_⟩
  · show s.e = s.w + UInt32.ofNat ys.length
    rw [he, h.commit, length_append, UInt32.ofNat_add, UInt32.add_assoc]
  · have hslot := h.holds.slots (xs.length + i) x (by
      rw [getElem?_append_right (Nat.le_add_right _ _), Nat.add_sub_cancel_left]
      exact hx)
    have hidx : (s.w.toNat + i) % INPUT_BUF = (s.r.toNat + (xs.length + i)) % INPUT_BUF := by
      rw [h.commit, UInt32.toNat_add, UInt32.toNat_ofNat']
      show ((s.r.toNat + xs.length % 2 ^ 32) % 2 ^ 32 + i) % 128 =
        (s.r.toNat + (xs.length + i)) % 128
      omega
    show s.buf ((s.w.toNat + i) % INPUT_BUF) = x
    rw [hidx]
    exact hslot

theorem Ring.line (h : Ring s xs ys) : s.line = ys := h.edited.contents_eq inputBuf_lt

theorem cstring_eq_some_iff {l a : List UInt8} :
    cstring l = some a ↔ (∃ rest, l = a ++ 0 :: rest) ∧ 0 ∉ a := by
  induction l generalizing a with
  | nil => simp [cstring]
  | cons c l ih =>
    rw [cstring]
    by_cases hc : c = 0
    · rw [if_pos hc, hc]
      constructor
      · intro h
        obtain rfl := Option.some.inj h
        exact ⟨⟨l, rfl⟩, not_mem_nil⟩
      · rintro ⟨⟨rest, hl⟩, h0⟩
        cases a with
        | nil => rfl
        | cons b a => exact absurd ((List.cons.inj hl).1 ▸ mem_cons_self) h0
    · rw [if_neg hc, map_eq_some_iff]
      constructor
      · rintro ⟨a', ha', rfl⟩
        obtain ⟨⟨rest, rfl⟩, h0⟩ := ih.mp ha'
        exact ⟨⟨rest, rfl⟩, fun h => (mem_cons.mp h).elim (fun h => hc h.symm) h0⟩
      · rintro ⟨⟨rest, hl⟩, h0⟩
        cases a with
        | nil => exact absurd (List.cons.inj hl).1 hc
        | cons b a =>
          obtain ⟨rfl, hrest⟩ := List.cons.inj hl
          exact ⟨a, ih.mpr ⟨⟨rest, hrest⟩, fun h => h0 (mem_cons_of_mem _ h)⟩, rfl⟩

theorem bytes_string_iff {a : List UInt8} : cstring s.bytes = some a ∧ a.length < INPUT_BUF ↔
      ∃ z, s.FirstNul z ∧ a = (range z).map s.buf := by
  have hfront : ∀ i < INPUT_BUF, s.bytes[i]? = some (s.buf i) := by
    intro i hi
    simp only [bytes, append_assoc]
    rw [getElem?_append_left (by simpa using hi)]
    simp [hi]
  constructor
  · rintro ⟨ha, hlen⟩
    obtain ⟨⟨rest, hrest⟩, h0⟩ := cstring_eq_some_iff.mp ha
    have hbyte : ∀ i (hi : i < a.length), s.buf i = a[i] := by
      intro i hi
      have := hfront i (by omega)
      rw [hrest, getElem?_append_left hi, getElem?_eq_getElem hi] at this
      exact (Option.some.inj this).symm
    refine ⟨a.length, ⟨hlen, ?_, fun i hi hz => ?_⟩, ?_⟩
    · have := hfront a.length hlen
      rw [hrest, getElem?_append_right le_rfl, Nat.sub_self] at this
      exact (Option.some.inj this).symm
    · rw [hbyte i hi] at hz
      exact h0 (hz ▸ getElem_mem hi)
    · refine ext_getElem (by simp) fun i hi _ => ?_
      rw [getElem_map, getElem_range, hbyte i hi]
  · rintro ⟨z, ⟨hz, hzero, hbefore⟩, rfl⟩
    refine ⟨cstring_eq_some_iff.mpr ⟨⟨s.bytes.drop (z + 1), ?_⟩, ?_⟩, by simpa using hz⟩
    · have hlen : z < s.bytes.length := (List.getElem?_eq_some_iff.mp (hfront z hz)).1
      have hget : s.bytes[z] = 0 := by
        have := hfront z hz
        rw [getElem?_eq_getElem hlen, hzero] at this
        exact Option.some.inj this
      rw [← hget, ← drop_eq_getElem_cons hlen]
      have htake : (range z).map s.buf = s.bytes.take z := by
        refine ext_getElem (by simp; omega) fun i hi _ => ?_
        have hi' : i < z := by simpa using hi
        have := hfront i (by omega)
        rw [getElem_map, getElem_range, getElem_take]
        rw [getElem?_eq_getElem (by omega)] at this
        exact (Option.some.inj this).symm
      rw [htake, take_append_drop]
    · intro h
      obtain ⟨i, hi, hiz⟩ := List.mem_map.mp h
      exact hbefore i (mem_range.mp hi) hiz

theorem stays_iff : s.Stays ↔ ∃ z, s.FirstNul z := by
  constructor
  · rintro ⟨a, ha⟩
    obtain ⟨z, hz, -⟩ := bytes_string_iff.mp ha
    exact ⟨z, hz⟩
  · rintro ⟨z, hz⟩
    exact ⟨_, bytes_string_iff.mpr ⟨z, hz, rfl⟩⟩

/-- What `copy_line` keeps. -/
def kept (s : Input) (z : Nat) : List UInt8 := ((range z).map s.buf).drop s.w.toNat

theorem clipped_of {clip : List UInt8} (hlen : clip.length < INPUT_BUF) (h0 : 0 ∉ clip)
    (hs : s.clipboard = fun i => clip.getD i 0) : s.clipped = some clip := by
  have hsplit : (range INPUT_BUF).map s.clipboard =
      clip ++ replicate (INPUT_BUF - clip.length) 0 := by
    refine ext_getElem (by simp; omega) fun i hi _ => ?_
    rw [getElem_map, getElem_range, hs]
    show clip.getD i 0 = _
    rw [getD_eq_getElem?_getD]
    by_cases hin : i < clip.length
    · rw [getElem_append_left hin, getElem?_eq_getElem hin]
      rfl
    · rw [getElem_append_right (by omega), getElem?_eq_none (by omega), getElem_replicate]
      rfl
  obtain ⟨k, hk⟩ : ∃ k, INPUT_BUF - clip.length = k + 1 :=
    ⟨INPUT_BUF - clip.length - 1, by omega⟩
  rw [hk, replicate_succ] at hsplit
  exact cstring_eq_some_iff.mpr ⟨⟨_, hsplit⟩, h0⟩

theorem copyLine_of_firstNul {z : Nat} (hz : s.FirstNul z) :
    ∃ s', s.copyLine = some s' ∧ s'.clipped = some (s.kept z) ∧
      s' = { s with clipboard := s'.clipboard } := by
  obtain ⟨hstring, -⟩ := bytes_string_iff.mpr ⟨z, hz, rfl⟩
  have hlen : (s.kept z).length < INPUT_BUF := by
    have := hz.1
    simp only [kept, length_drop, length_map, length_range]
    omega
  have h0 : 0 ∉ s.kept z := fun h =>
    (cstring_eq_some_iff.mp hstring).2 (mem_of_mem_drop h)
  refine ⟨{ s with clipboard := fun i => (s.kept z).getD i 0 }, ?_, clipped_of hlen h0 rfl, rfl⟩
  rw [copyLine, hstring]
  exact if_pos hlen.le

theorem Ring.kept_iff {z : Nat} (h : Ring s xs ys) (hz : s.FirstNul z) :
    s.kept z = ys ↔ z = s.w.toNat + (s.e - s.w).toNat ∨ (s.e = s.w ∧ z ≤ s.w.toNat) := by
  have hlen : (s.kept z).length = z - s.w.toNat := by
    simp only [kept, length_drop, length_map, length_range]
  rw [h.e_sub_w, h.e_eq_w]
  constructor
  · intro heq
    rw [heq] at hlen
    rcases Nat.eq_zero_or_pos ys.length with hnil | hpos
    · exact .inr ⟨length_eq_zero_iff.mp hnil, by omega⟩
    · exact .inl (by omega)
  · rintro (heq | ⟨rfl, hle⟩)
    · refine ext_getElem (by omega) fun k hk hk' => ?_
      have hslot : s.buf ((s.w.toNat + k) % INPUT_BUF) = ys[k] :=
        h.edited.slots k ys[k] (getElem?_eq_getElem hk')
      have hmod : (s.w.toNat + k) % INPUT_BUF = s.w.toNat + k := by
        have := hz.1
        exact Nat.mod_eq_of_lt (by omega)
      rw [hmod] at hslot
      simp only [kept, getElem_drop, getElem_map, getElem_range]
      exact hslot
    · exact eq_nil_of_length_eq_zero (by omega)

theorem consoleintr_copy (s : Input) : s.consoleintr (ctrl 'C') = s.copyLine := rfl

theorem consoleintr_paste (s : Input) : s.consoleintr (ctrl 'V') = s.pasteLine := rfl

theorem consoleintr_cut (s : Input) : s.consoleintr (ctrl 'X') = s.copyLine.map killLine := rfl

/-- `Ctrl-C` does what it is for. -/
def Copies (s : Input) : Prop := ∃ s', s.consoleintr (ctrl 'C') = some s' ∧ s.Captured s' ∧ s.Stays

/-- `Ctrl-X` does what it is for, and `Ctrl-V` brings the line back. -/
def Cuts (s : Input) : Prop :=
  ∃ s', s.consoleintr (ctrl 'X') = some s' ∧ s'.clipped = some s.line ∧ s.Stays ∧ s'.line = [] ∧
    ∃ s'', s'.consoleintr (ctrl 'V') = some s'' ∧ s''.line = s.line

theorem Ring.copies_iff (h : Ring s xs ys) : s.Copies ↔ s.StopsAtEnd := by
  constructor
  · rintro ⟨s', hs', ⟨hclip, -⟩, hstays⟩
    obtain ⟨z, hz⟩ := stays_iff.mp hstays
    obtain ⟨s1, hs1, hclip1, -⟩ := copyLine_of_firstNul hz
    rw [consoleintr_copy, hs1] at hs'
    obtain rfl := Option.some.inj hs'
    rw [hclip1, h.line] at hclip
    exact ⟨z, hz, (h.kept_iff hz).mp (Option.some.inj hclip)⟩
  · rintro ⟨z, hz, hend⟩
    obtain ⟨s', hs', hclip, hframe⟩ := copyLine_of_firstNul hz
    rw [(h.kept_iff hz).mpr hend, ← h.line] at hclip
    exact ⟨s', hs', ⟨hclip, hframe⟩, stays_iff.mpr ⟨z, hz⟩⟩

theorem Ring.cuts (h : Ring s xs ys) (hcopy : s.Copies) : s.Cuts ↔ NL ∉ s.line := by
  obtain ⟨s1, hs1, ⟨hclip, hframe⟩, hstays⟩ := hcopy
  rw [consoleintr_copy] at hs1
  have hring1 : Ring s1 xs ys := by
    rw [hframe]
    exact ⟨h.holds, h.commit⟩
  have hkill := hring1.killLine
  have hsame := (killLoop_r (s1.e - s1.w).toNat s1).2
  have hcut : s.consoleintr (ctrl 'X') = some s1.killLine := by
    rw [consoleintr_cut, hs1]
    rfl
  rw [h.line] at hclip ⊢
  have hclip' : s1.killLine.clipped = some ys := by
    rw [clipped, show s1.killLine.clipboard = s1.clipboard from hsame]
    exact hclip
  constructor
  · rintro ⟨s', hs', -, -, hempty, -⟩ hmem
    rw [hcut] at hs'
    obtain rfl := Option.some.inj hs'
    rw [hkill.line, rdropWhile_eq_nil_iff] at hempty
    simpa using hempty NL hmem
  · intro hnl
    have hall : ys.rdropWhile (· ≠ NL) = [] := by
      rw [rdropWhile_eq_nil_iff]
      intro y hy
      exact decide_eq_true fun heq => hnl (heq ▸ hy)
    rw [hall] at hkill
    have hroom := h.length_le
    have hpasted : Ring (ys.foldl Input.store s1.killLine) xs ([] ++ ys) :=
      hkill.foldl_store (by simpa using hroom)
    refine ⟨_, hcut, by rw [hclip', h.line], hstays, hkill.line,
      ys.foldl Input.store s1.killLine, ?_, ?_⟩
    · rw [consoleintr_paste, Input.pasteLine]
      rw [clipped] at hclip'
      rw [hclip']
      rfl
    · rw [hpasted.line, h.line]
      rfl

end Input

namespace Cons

variable {s s' : Cons}

/-- A step after which `r <= w <= e <= r + INPUT_BUF` holds. -/
def BoundStep (s : Cons) (e : Event) (s' : Cons) : Prop := s.Step e s' ∧ s'.input.Bounded

theorem foldl_store_e (clp : List UInt8) (i : Input) :
    (clp.foldl Input.store i).e = i.e + UInt32.ofNat clp.length := by
  induction clp generalizing i with
  | nil => simp
  | cons c clp ih =>
    rw [foldl_cons, ih, length_cons, Nat.add_comm, UInt32.ofNat_add, ← UInt32.add_assoc]
    rfl

theorem pastes_of_bounded {i i' : Input} {xs ys : List UInt8} (h : i.Ring xs ys)
    (hp : i.pasteLine = some i') (hb : i'.Bounded) : i.Pastes := by
  obtain ⟨clp, hclp, rfl⟩ := map_eq_some_iff.mp hp
  have hlen : clp.length ≤ INPUT_BUF := by
    obtain ⟨⟨rest, hrest⟩, -⟩ := Input.cstring_eq_some_iff.mp hclp
    have := congrArg List.length hrest
    simp only [length_map, length_range, length_append, length_cons] at this
    omega
  refine ⟨clp, hclp, ?_⟩
  have hle := h.length_le
  have hbound := UInt32.le_iff_toNat_le.mp hb.2
  have hsub : (clp.foldl Input.store i).e - (clp.foldl Input.store i).r =
      (i.e - i.r) + UInt32.ofNat clp.length := by
    rw [foldl_store_e, Input.foldl_store_r, UInt32.sub_eq_add_neg, UInt32.sub_eq_add_neg,
      UInt32.add_assoc, UInt32.add_assoc, UInt32.add_comm (UInt32.ofNat _)]
  rw [hsub, UInt32.toNat_add, h.sub_r, UInt32.toNat_ofNat'] at hbound
  have h128 : (UInt32.ofNat INPUT_BUF).toNat = INPUT_BUF := rfl
  have hsmall : INPUT_BUF = 128 := rfl
  rw [h.sub_r]
  omega

theorem BoundStep.ring {e : Event} {xs ys : List UInt8} (hs : BoundStep s e s')
    (h : s.input.Ring xs ys) : ∃ xs' ys', s'.input.Ring xs' ys' := by
  obtain ⟨hst, hb⟩ := hs
  have hfit : s.Fits e → ∃ xs' ys', s'.input.Ring xs' ys' := fun hf =>
    (FitStep.ring (s := s) ⟨hf, hst⟩ h).1
  cases e with
  | key c =>
    obtain ⟨i, hi, rfl⟩ := map_eq_some_iff.mp hst
    refine hfit ⟨?_, ?_, ?_⟩
    · rintro (rfl | rfl)
      · rw [Input.consoleintr_copy] at hi
        exact Option.isSome_of_eq_some hi
      · rw [Input.consoleintr_cut] at hi
        obtain ⟨i1, h1, -⟩ := map_eq_some_iff.mp hi
        exact Option.isSome_of_eq_some h1
    · rintro rfl
      exact pastes_of_bounded h hi hb
    · rintro rfl
      exact pastes_of_bounded h.killLine hi hb
  | call p n => exact hfit trivial
  | turn p => exact hfit trivial
  | killed p => exact hfit trivial

theorem bound_ring (h : Reach Init BoundStep s) : ∃ xs ys, s.input.Ring xs ys := by
  refine h.invariant (P := fun s => ∃ xs ys, s.input.Ring xs ys) ?_ ?_
  · intro s hi
    exact ⟨[], [], .nil hi.1 hi.2.1⟩
  · intro s e s' hr hs
    obtain ⟨xs, ys, hring⟩ := hr
    exact hs.ring hring

/-- In every history that keeps the counters in order, `Ctrl-C` and `Ctrl-X` capture the line, and
`Ctrl-V` restores what was cut, exactly if the first NUL of the buffer is where the line ends and
there is no newline in the line. -/
theorem capture_iff (h : Reach Init BoundStep s) :
    (s.input.Copies ∧ s.input.Cuts) ↔ (s.input.StopsAtEnd ∧ NL ∉ s.input.line) := by
  obtain ⟨xs, ys, hring⟩ := bound_ring h
  rw [← hring.copies_iff]
  exact and_congr_right fun hcopy => hring.cuts hcopy

/-- A step, if the counters are in order after it. -/
def boundNext (s : Cons) (e : Event) : Option Cons :=
  (s.step e).filter fun s' => s'.input.Bounded

theorem boundNext_reach {es : List Event} (h : es.foldlM boundNext boot = some s) :
    Reach Init BoundStep s := by
  refine (Reach.start boot_init).follow (f := boundNext) (Q := fun _ => True) ?_
    (fun _ _ => trivial) h
  intro s e s' _ hs
  obtain ⟨hstep, hb⟩ := filter_eq_some_iff.mp hs
  exact ⟨hstep, of_decide_eq_true hb⟩

/-- `abc` typed after boot. -/
theorem capture_iff_abc : ∃ s, Reach Init BoundStep s ∧ s.input.line = [97, 98, 99] ∧
    (s.input.Copies ∧ s.input.Cuts) ∧ s.input.StopsAtEnd ∧ NL ∉ s.input.line := by
  have hrun : ((([97, 98, 99].map Event.key).foldlM boundNext boot).any fun s =>
      s.input.line = [97, 98, 99] ∧ s.input.FirstNul 3 ∧
        3 = s.input.w.toNat + (s.input.e - s.input.w).toNat) = true := by
    decide +kernel
  obtain ⟨s, hs, h⟩ := (Option.any_eq_true _ _).mp hrun
  obtain ⟨hline, hnul, hend⟩ := of_decide_eq_true h
  have hstops : s.input.StopsAtEnd ∧ NL ∉ s.input.line :=
    ⟨⟨3, hnul, .inl hend⟩, hline ▸ by decide⟩
  exact ⟨s, boundNext_reach hs, hline, (capture_iff (boundNext_reach hs)).mpr hstops, hstops⟩

/-- A line of 63 characters, and the call that reads it. -/
def typed : List Event :=
  (replicate 63 97 ++ [NL]).map .key ++ .call 0 64 :: replicate 64 (.turn 0)

/-- Two such lines fill the buffer. Of a line `b` after them `Ctrl-C` copies a byte of `input.r`. -/
theorem copy_after_lap : ∃ s, Reach Init BoundStep s ∧ s.input.line = [98] ∧
    ∃ s', s.input.consoleintr (ctrl 'C') = some s' ∧ s'.clipped = some [128] := by
  have hrun : (((typed ++ typed ++ [Event.key 98]).foldlM boundNext boot).any fun s =>
      s.input.line = [98] ∧ ((s.input.consoleintr (ctrl 'C')).any fun s' =>
        s'.clipped = some [128]) = true) = true := by
    decide +kernel
  obtain ⟨s, hs, h⟩ := (Option.any_eq_true _ _).mp hrun
  obtain ⟨hline, hcopy⟩ := of_decide_eq_true h
  obtain ⟨s', hs', hclip⟩ := (Option.any_eq_true _ _).mp hcopy
  exact ⟨s, boundNext_reach hs, hline, s', hs', of_decide_eq_true hclip⟩

end Cons

end Xv6.Console
